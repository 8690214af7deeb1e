import Mathlib.Data.Nat.Bitwise
import Mathlib.Logic.Function.Basic

/-!
# Packed bitmaps

One bit for each index, eight to a byte. `bitTest`, `bitSet` and `bitClear` fail when the
byte of an index is missing; inside the bitmap they look up and update the total function
`bits`. `countClear` counts the clear bits below a bound.
-/

namespace DedOS.Lib

/-- `1 << (i % 8)` -/
def bitMask (i : Nat) : UInt8 := 1 <<< UInt8.ofNat (i % 8)

def bitTest (b : List UInt8) (i : Nat) : Option Bool :=
  b[i / 8]?.map fun byte => decide (byte &&& bitMask i ≠ 0)

def bitSet (b : List UInt8) (i : Nat) : Option (List UInt8) :=
  b[i / 8]?.map fun byte => b.set (i / 8) (byte ||| bitMask i)

def bitClear (b : List UInt8) (i : Nat) : Option (List UInt8) :=
  b[i / 8]?.map fun byte => b.set (i / 8) (byte &&& ~~~bitMask i)

/-- The bits of a bitmap; those beyond its end count as set. -/
def bits (b : List UInt8) (i : Nat) : Bool :=
  decide (b[i / 8]?.getD 0xFF &&& bitMask i ≠ 0)

variable {b : List UInt8} {i j n : Nat}

/-! ### One byte -/

theorem bitMask_toNat (i : Nat) : (bitMask i).toNat = 2 ^ (i % 8) := by
  unfold bitMask
  have small : i % 8 < 8 := Nat.mod_lt _ (by decide)
  generalize i % 8 = k at small
  match k, small with
  | 0, _ | 1, _ | 2, _ | 3, _ | 4, _ | 5, _ | 6, _ | 7, _ => rfl

theorem and_bitMask (x : UInt8) (i : Nat) :
    decide (x &&& bitMask i ≠ 0) = x.toNat.testBit (i % 8) := by
  rw [Bool.eq_iff_iff, decide_eq_true_iff, ne_eq, ← UInt8.toNat_inj, UInt8.toNat_and,
    bitMask_toNat, Nat.and_two_pow]
  cases x.toNat.testBit (i % 8) <;> simp

theorem or_bitMask (x : UInt8) (i j : Nat) : decide ((x ||| bitMask i) &&& bitMask j ≠ 0) =
    (decide (i % 8 = j % 8) || decide (x &&& bitMask j ≠ 0)) := by
  rw [and_bitMask, and_bitMask, UInt8.toNat_or, Nat.testBit_or, bitMask_toNat,
    Nat.testBit_two_pow, Bool.or_comm]

theorem and_not_bitMask (x : UInt8) (i j : Nat) :
    decide ((x &&& ~~~bitMask i) &&& bitMask j ≠ 0) =
      (!decide (i % 8 = j % 8) && decide (x &&& bitMask j ≠ 0)) := by
  have small : i % 8 < 8 := Nat.mod_lt _ (by decide)
  have small' : j % 8 < 8 := Nat.mod_lt _ (by decide)
  -- the complement has every bit of a byte but the one of `i`
  have complement : (~~~bitMask i).toNat = 2 ^ 8 - (2 ^ (i % 8) + 1) := by
    rw [UInt8.toNat_not, bitMask_toNat]
    simp [UInt8.size]
  have others : (~~~bitMask i).toNat.testBit (j % 8) = !decide (i % 8 = j % 8) := by
    rw [complement, Nat.testBit_two_pow_sub_succ (Nat.pow_lt_pow_right (by decide) small),
      Nat.testBit_two_pow]
    simp [small']
  rw [and_bitMask, and_bitMask, UInt8.toNat_and, Nat.testBit_and, others, Bool.and_comm]

/-! ### The bitmap -/

theorem bitTest_eq (inside : i < 8 * b.length) : bitTest b i = some (bits b i) := by
  have byte : i / 8 < b.length := by omega
  simp [bitTest, bits, byte]

theorem bits_set {byte : UInt8} (j : Nat) (inside : i / 8 < b.length) :
    bits (b.set (i / 8) byte) j =
      if j / 8 = i / 8 then decide (byte &&& bitMask j ≠ 0) else bits b j := by
  unfold bits
  by_cases same : j / 8 = i / 8
  · simp [same, inside]
  · rw [if_neg same, List.getElem?_set_ne fun h => same h.symm]

theorem bits_getElem {byte : UInt8} (here : b[i / 8]? = some byte) (same : j / 8 = i / 8) :
    bits b j = decide (byte &&& bitMask j ≠ 0) := by
  rw [bits, same, here]
  rfl

/-- Setting a bit inside the bitmap succeeds and changes that bit only. -/
theorem bitSet_spec (inside : i < 8 * b.length) : ∃ b', bitSet b i = some b' ∧
    b'.length = b.length ∧ bits b' = Function.update (bits b) i true := by
  have byte : i / 8 < b.length := by omega
  have here : b[i / 8]? = some b[i / 8] := List.getElem?_eq_getElem byte
  refine ⟨b.set (i / 8) (b[i / 8] ||| bitMask i), ?_, by simp, ?_⟩
  · rw [bitSet, here]
    rfl
  · funext j
    rw [bits_set j byte, or_bitMask]
    by_cases same : j / 8 = i / 8
    · rw [if_pos same, ← bits_getElem here same]
      by_cases equal : j = i
      · simp [equal]
      · have differ : ¬ i % 8 = j % 8 := by omega
        simp [equal, differ]
    · have differ : j ≠ i := fun equal => same (by rw [equal])
      rw [if_neg same, Function.update_of_ne differ]

/-- Clearing a bit inside the bitmap succeeds and changes that bit only. -/
theorem bitClear_spec (inside : i < 8 * b.length) : ∃ b', bitClear b i = some b' ∧
    b'.length = b.length ∧ bits b' = Function.update (bits b) i false := by
  have byte : i / 8 < b.length := by omega
  have here : b[i / 8]? = some b[i / 8] := List.getElem?_eq_getElem byte
  refine ⟨b.set (i / 8) (b[i / 8] &&& ~~~bitMask i), ?_, by simp, ?_⟩
  · rw [bitClear, here]
    rfl
  · funext j
    rw [bits_set j byte, and_not_bitMask]
    by_cases same : j / 8 = i / 8
    · rw [if_pos same, ← bits_getElem here same]
      by_cases equal : j = i
      · simp [equal]
      · have differ : ¬ i % 8 = j % 8 := by omega
        simp [equal, differ]
    · have differ : j ≠ i := fun equal => same (by rw [equal])
      rw [if_neg same, Function.update_of_ne differ]

/-! ### Counting clear bits -/

/-- The indices below `n` at which `f` is false. -/
def countClear (f : Nat → Bool) (n : Nat) : Nat := (List.range n).countP fun i => !f i

theorem countClear_succ (f : Nat → Bool) (n : Nat) :
    countClear f (n + 1) = countClear f n + if f n then 0 else 1 := by
  unfold countClear
  rw [List.range_succ, List.countP_append]
  cases last : f n <;> simp [last]

theorem countClear_congr {f g : Nat → Bool} (agree : ∀ i < n, f i = g i) :
    countClear f n = countClear g n := by
  induction n with
  | zero => rfl
  | succ n ih =>
    rw [countClear_succ, countClear_succ, agree n (Nat.lt_succ_self n)]
    rw [ih fun i below => agree i (Nat.lt_succ_of_lt below)]

theorem countClear_le (f : Nat → Bool) (n : Nat) : countClear f n ≤ n := by
  have fewer : (List.range n).countP (fun i => !f i) ≤ (List.range n).length :=
    List.countP_le_length
  rwa [List.length_range] at fewer

/-- No bit is clear exactly when none is counted. -/
theorem countClear_eq_zero {f : Nat → Bool} : countClear f n = 0 ↔ ∀ i < n, f i = true := by
  simp [countClear, List.countP_eq_zero]

theorem countClear_update_of_le (f : Nat → Bool) {v : Bool} (beyond : n ≤ i) :
    countClear (Function.update f i v) n = countClear f n := by
  apply countClear_congr
  intro j below
  exact Function.update_of_ne (by omega) _ _

/-- Setting a clear bit lowers the count by one. -/
theorem countClear_set {f : Nat → Bool} (below : i < n) (clear : f i = false) :
    countClear (Function.update f i true) n + 1 = countClear f n := by
  induction n with
  | zero => omega
  | succ n ih =>
    rw [countClear_succ, countClear_succ]
    by_cases last : i = n
    · subst last
      simp [countClear_update_of_le, clear]
    · have before := ih (by omega)
      rw [Function.update_of_ne fun h => last h.symm]
      omega

/-- Clearing a set bit raises the count by one. -/
theorem countClear_clear {f : Nat → Bool} (below : i < n) (taken : f i = true) :
    countClear (Function.update f i false) n = countClear f n + 1 := by
  have back := countClear_set (f := Function.update f i false) below (by simp)
  rw [Function.update_idem, show Function.update f i true = f by rw [← taken, Function.update_eq_self]]
    at back
  exact back.symm

end DedOS.Lib
