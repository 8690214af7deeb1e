import Mathlib.Data.List.GetD
import DedOS.Lib.Memory

/-!
# Encoded data in memory

`BytesAt m a bytes` says that a list of bytes lies at an address. An encoding built by
concatenation is read back part by part: `bytesAt_append` splits it and `load_leBytes` reads
the number in a part.
-/

namespace DedOS.Lib

/-- The `n` low bytes of `v`, least significant first. -/
def leBytes : Nat → Nat → List UInt8
  | 0, _ => []
  | n + 1, v => UInt8.ofNat v :: leBytes n (v / 256)

@[simp] theorem length_leBytes (n v : Nat) : (leBytes n v).length = n := by
  induction n generalizing v with
  | zero => rfl
  | succ n ih => rw [leBytes, List.length_cons, ih]

theorem leBytes_zero (n : Nat) : leBytes n 0 = List.replicate n 0 := by
  induction n with
  | zero => rfl
  | succ n ih =>
    rw [leBytes, Nat.zero_div, ih]
    rfl

/-- The number with these bytes, the least significant one first. -/
def ofLeBytes : List UInt8 → Nat
  | [] => 0
  | c :: rest => c.toNat + 256 * ofLeBytes rest

theorem ofLeBytes_leBytes {n v : Nat} (fits : v < 256 ^ n) : ofLeBytes (leBytes n v) = v := by
  induction n generalizing v with
  | zero =>
    rw [Nat.pow_zero] at fits
    simp [leBytes, ofLeBytes]
    omega
  | succ n ih =>
    have high : v / 256 < 256 ^ n := by
      rw [Nat.pow_succ] at fits
      omega
    have byte : (UInt8.ofNat v).toNat = v % 256 := UInt8.toNat_ofNat'
    rw [leBytes, ofLeBytes, ih high, byte]
    omega

/-- The memory holds `bytes` from `a` on. -/
def BytesAt (m : Memory) : Nat → List UInt8 → Prop
  | _, [] => True
  | a, b :: bytes => m a = b ∧ BytesAt m (a + 1) bytes

variable {m : Memory} {a n v : Nat} {b : UInt8} {bytes more : List UInt8}

@[simp] theorem bytesAt_nil : BytesAt m a [] := trivial

theorem bytesAt_cons : BytesAt m a (b :: bytes) ↔ m a = b ∧ BytesAt m (a + 1) bytes := Iff.rfl

theorem bytesAt_append :
    BytesAt m a (bytes ++ more) ↔ BytesAt m a bytes ∧ BytesAt m (a + bytes.length) more := by
  induction bytes generalizing a with
  | nil => simp
  | cons b bytes ih =>
    rw [List.cons_append, bytesAt_cons, bytesAt_cons, ih, and_assoc, List.length_cons,
      Nat.add_assoc, Nat.add_comm 1]

/-- Bytes that are the same at another place. -/
theorem BytesAt.moved {m' : Memory} {a' : Nat} (here : BytesAt m a bytes)
    (same : ∀ i < bytes.length, m' (a' + i) = m (a + i)) : BytesAt m' a' bytes := by
  induction bytes generalizing a a' with
  | nil => trivial
  | cons b bytes ih =>
    refine ⟨(same 0 (Nat.succ_pos _)).trans here.1, ih here.2 fun i below => ?_⟩
    have later := same (i + 1) (Nat.succ_lt_succ below)
    rwa [← Nat.add_assoc, ← Nat.add_assoc, Nat.add_right_comm, Nat.add_right_comm a] at later

/-- Bytes in their places, one by one. -/
theorem bytesAt_of_getD (each : ∀ i < bytes.length, m (a + i) = bytes.getD i 0) :
    BytesAt m a bytes := by
  induction bytes generalizing a with
  | nil => trivial
  | cons b bytes ih =>
    refine ⟨each 0 (Nat.succ_pos _), ih fun i below => ?_⟩
    have later := each (i + 1) (Nat.succ_lt_succ below)
    rw [Nat.add_right_comm]
    simpa [Nat.add_assoc] using later

instance BytesAt.decidable : (a : Nat) → (bytes : List UInt8) → Decidable (BytesAt m a bytes)
  | _, [] => instDecidableTrue
  | a, _ :: bytes =>
    have := BytesAt.decidable (a + 1) bytes
    inferInstanceAs (Decidable (_ ∧ _))

/-- A number is read back from its bytes, cut to its size. -/
theorem load_leBytes_mod (here : BytesAt m a (leBytes n v)) : load n m a = v % 256 ^ n := by
  induction n generalizing a v with
  | zero => simp [load, Nat.mod_one]
  | succ n ih =>
    obtain ⟨low, high⟩ := bytesAt_cons.mp here
    have byte : (UInt8.ofNat v).toNat = v % 256 := UInt8.toNat_ofNat'
    rw [load, low, ih high, byte, Nat.pow_succ', Nat.mod_mul]

theorem load_leBytes (here : BytesAt m a (leBytes n v)) (fits : v < 256 ^ n) : load n m a = v := by
  rw [load_leBytes_mod here, Nat.mod_eq_of_lt fits]

/-! ### Stores in a row -/

/-- From `m` to `m'` exactly these bytes were written. -/
structure Written (m : Memory) (a : Nat) (bytes : List UInt8) (m' : Memory) : Prop where
  here : BytesAt m' a bytes
  outside : ∀ x, x < a ∨ a + bytes.length ≤ x → m' x = m x

theorem Written.nil : Written m a [] m := ⟨trivial, fun _ _ => rfl⟩

theorem bytesAt_store : BytesAt (store n m a v) a (leBytes n v) := by
  induction n generalizing a v with
  | zero => trivial
  | succ n ih =>
    refine ⟨by rw [store_succ, if_pos rfl], ?_⟩
    have rest : BytesAt (store n m (a + 1) (v / 256)) (a + 1) (leBytes n (v / 256)) := ih
    refine rest.moved fun i below => ?_
    have other : a + 1 + i ≠ a := by omega
    rw [store_succ, if_neg other]

/-- The next store goes behind what is there. -/
theorem Written.store {m' : Memory} {b : Nat} (before : Written m a bytes m')
    (place : b = a + bytes.length) :
    Written m a (bytes ++ leBytes n v) (Lib.store n m' b v) := by
  subst place
  refine ⟨bytesAt_append.mpr ⟨?_, bytesAt_store⟩, fun x out => ?_⟩
  · exact before.here.moved fun i below => store_outside (.inl (by omega))
  · rw [List.length_append, length_leBytes] at out
    rw [store_outside (by omega)]
    exact before.outside x (by omega)

/-- A store inside bytes that are there replaces some of them. -/
theorem BytesAt.set {b' : Nat} {before old after : List UInt8}
    (here : BytesAt m a (before ++ (old ++ after))) (place : b' = a + before.length) :
    BytesAt (Lib.store old.length m b' v) a (before ++ (leBytes old.length v ++ after)) := by
  subst place
  obtain ⟨low, rest⟩ := bytesAt_append.mp here
  obtain ⟨_, high⟩ := bytesAt_append.mp rest
  refine bytesAt_append.mpr ⟨?_, bytesAt_append.mpr ⟨bytesAt_store, ?_⟩⟩
  · exact low.moved fun i below => store_outside (.inl (by omega))
  · rw [length_leBytes]
    exact high.moved fun i below => store_outside (.inr (by omega))

end DedOS.Lib
