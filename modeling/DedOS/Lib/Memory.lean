import Mathlib.Algebra.Group.Nat.Defs

/-!
# Byte-addressed memory

`load n m a` reads `n` bytes little-endian, `store n m a v` writes the low `n` bytes of
`v`. Every frame argument goes through `store_outside` and `load_congr`: a store changes
the bytes of its own range, a load depends on those of its range.
-/

namespace DedOS.Lib

/-- A flat memory. -/
abbrev Memory := Nat → UInt8

/-- The value of the `n` bytes at `a`, least significant first. -/
def load : Nat → Memory → Nat → Nat
  | 0, _, _ => 0
  | n + 1, m, a => (m a).toNat + 256 * load n m (a + 1)

/-- Write `v` into the `n` bytes at `a`, least significant first. -/
def store : Nat → Memory → Nat → Nat → Memory
  | 0, m, _, _ => m
  | n + 1, m, a, v => fun x => if x = a then UInt8.ofNat v else store n m (a + 1) (v / 256) x

variable {m m' : Memory} {n k a b v x : Nat}

theorem store_succ : store (n + 1) m a v x =
    if x = a then UInt8.ofNat v else store n m (a + 1) (v / 256) x := rfl

/-- A store leaves the bytes outside its range alone. -/
theorem store_outside (out : x < a ∨ a + n ≤ x) : store n m a v x = m x := by
  induction n generalizing a v with
  | zero => rfl
  | succ n ih =>
    have differ : x ≠ a := by omega
    rw [store_succ, if_neg differ]
    apply ih
    omega

/-- A load depends on the bytes of its range only. -/
theorem load_congr (agree : ∀ x, a ≤ x → x < a + n → m' x = m x) : load n m' a = load n m a := by
  induction n generalizing a with
  | zero => rfl
  | succ n ih =>
    rw [load, load, agree a (Nat.le_refl a) (by omega)]
    congr 2
    apply ih
    intro x low high
    exact agree x (by omega) (by omega)

/-- Loads do not see stores to other ranges. -/
theorem load_store_disjoint (apart : a + n ≤ b ∨ b + k ≤ a) :
    load k (store n m a v) b = load k m b := by
  apply load_congr
  intro x low high
  apply store_outside
  omega

/-- The first byte decides whether a word is even. -/
theorem load_mod_two (n : Nat) (m : Memory) (a : Nat) : load (n + 1) m a % 2 = (m a).toNat % 2 := by
  rw [load]
  omega

theorem load_lt (n : Nat) (m : Memory) (a : Nat) : load n m a < 256 ^ n := by
  induction n generalizing a with
  | zero => simp [load]
  | succ n ih =>
    have byte : (m a).toNat < 256 := (m a).toNat_lt
    have rest := ih (a + 1)
    rw [load, Nat.pow_succ]
    omega

/-- What was stored is read back, cut to its size. -/
theorem load_store_mod (n : Nat) (m : Memory) (a v : Nat) :
    load n (store n m a v) a = v % 256 ^ n := by
  induction n generalizing a v with
  | zero => simp [load, Nat.mod_one]
  | succ n ih =>
    -- the first byte is read from the outermost store, the others from the inner ones
    have tail : load n (store (n + 1) m a v) (a + 1) = load n (store n m (a + 1) (v / 256)) (a + 1) := by
      apply load_congr
      intro x low _
      rw [store_succ, if_neg (by omega)]
    have byte : (UInt8.ofNat v).toNat = v % 256 := UInt8.toNat_ofNat'
    rw [load, tail, ih, store_succ, if_pos rfl, byte, Nat.pow_succ', Nat.mod_mul]

theorem load_store_same (fits : v < 256 ^ n) : load n (store n m a v) a = v := by
  rw [load_store_mod, Nat.mod_eq_of_lt fits]

/-- Storing back what a load has read changes nothing. -/
theorem store_load (n : Nat) (m : Memory) (a : Nat) : store n m a (load n m a) = m := by
  funext x
  induction n generalizing a with
  | zero => rfl
  | succ n ih =>
    have byte : (m a).toNat < 256 := (m a).toNat_lt
    have rest : load (n + 1) m a / 256 = load n m (a + 1) := by
      rw [load]
      omega
    rw [store_succ, rest, ih]
    split
    next here =>
      rw [here, load]
      apply UInt8.toNat_inj.mp
      rw [UInt8.toNat_ofNat', Nat.add_mul_mod_self_left]
      exact Nat.mod_eq_of_lt byte
    · rfl

-- Proofs go through the lemmas above: comparing two loads by evaluation is slow.
attribute [irreducible] load

end DedOS.Lib
