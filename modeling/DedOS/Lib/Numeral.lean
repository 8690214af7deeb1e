import Mathlib.Data.Nat.Digits.Lemmas

/-!
# Numerals

The numeral of a number in a base, most significant digit first, over any characters. A
character for each digit value and a reading of characters as digit values make it a code:
`parse_numeral` reads back what was written.
-/

namespace DedOS.Lib

variable {α : Type*} {digit : Nat → α} {value : α → Option Nat} {b n m k : Nat}

/-- The numeral of `n`: its digits without leading zeroes, and a single zero for 0. -/
def numeral (digit : Nat → α) (b n : Nat) : List α :=
  if n = 0 then [digit 0] else ((Nat.digits b n).map digit).reverse

/-- Append a digit to the number read so far. -/
def readDigit (value : α → Option Nat) (b v : Nat) (c : α) : Option Nat := do
  let d ← value c
  if d < b then some (v * b + d) else none

/-- The number that a text of digits stands for. -/
def parseNumeral (value : α → Option Nat) (b : Nat) : List α → Option Nat
  | [] => none
  | text => text.foldlM (readDigit value b) 0

theorem numeral_zero : numeral digit b 0 = [digit 0] := rfl

theorem numeral_pos (positive : n ≠ 0) :
    numeral digit b n = ((Nat.digits b n).map digit).reverse := if_neg positive

theorem numeral_ne_nil (n : Nat) : numeral digit b n ≠ [] := by
  by_cases zero : n = 0
  · simp [numeral, zero]
  · simp [numeral_pos zero, Nat.digits_ne_nil_iff_ne_zero.mpr zero]

theorem readDigit_digit (reads : ∀ d < b, value (digit d) = some d) {d : Nat} (small : d < b)
    (v : Nat) : readDigit value b v (digit d) = some (v * b + d) := by
  simp [readDigit, reads d small, small]

/-- Digits are read back from the most significant one on. -/
theorem foldlM_digits (reads : ∀ d < b, value (digit d) = some d) {ds : List Nat}
    (small : ∀ d ∈ ds, d < b) :
    ((ds.map digit).reverse).foldlM (readDigit value b) 0 = some (Nat.ofDigits b ds) := by
  induction ds with
  | nil => rfl
  | cons d ds ih =>
    obtain ⟨first, rest⟩ := List.forall_mem_cons.mp small
    rw [List.map_cons, List.reverse_cons, List.foldlM_append, ih rest]
    simp [readDigit_digit reads first, Nat.ofDigits_cons, Nat.mul_comm, Nat.add_comm]

/-- A numeral is read back. -/
theorem parse_numeral (base : 1 < b) (reads : ∀ d < b, value (digit d) = some d) (n : Nat) :
    parseNumeral value b (numeral digit b n) = some n := by
  rw [parseNumeral.eq_2 _ _ _ (numeral_ne_nil n)]
  by_cases zero : n = 0
  · subst zero
    simp [numeral_zero, readDigit_digit reads (Nat.zero_lt_of_lt base)]
  · rw [numeral_pos zero, foldlM_digits reads fun d mem => Nat.digits_lt_base base mem,
      Nat.ofDigits_digits]

/-- Different numbers have different numerals. -/
theorem numeral_injective (base : 1 < b) (reads : ∀ d < b, value (digit d) = some d) :
    Function.Injective (numeral digit b) := by
  intro n m same
  have left := parse_numeral base reads n
  rw [same, parse_numeral base reads m] at left
  exact (Option.some.inj left).symm

/-- The number of digits is bounded by the size of the number. -/
theorem length_numeral_le_iff (base : 1 < b) (nonempty : 0 < k) :
    (numeral digit b n).length ≤ k ↔ n < b ^ k := by
  by_cases zero : n = 0
  · simp only [zero, numeral_zero, List.length_singleton]
    exact iff_of_true nonempty (Nat.pow_pos (Nat.zero_lt_of_lt base))
  · simpa [numeral_pos zero] using Nat.digits_length_le_iff base n

theorem length_numeral_le (base : 1 < b) (nonempty : 0 < k) (small : n < b ^ k) :
    (numeral digit b n).length ≤ k := (length_numeral_le_iff base nonempty).mpr small

/-- Only the numeral of 0 starts with a zero. -/
theorem numeral_head (base : 1 < b) (differ : ∀ d < b, digit d = digit 0 → d = 0)
    (leads : (numeral digit b n).head? = some (digit 0)) : numeral digit b n = [digit 0] := by
  by_cases zero : n = 0
  · rw [zero, numeral_zero]
  · have digits : Nat.digits b n ≠ [] := Nat.digits_ne_nil_iff_ne_zero.mpr zero
    have top := Nat.getLast_digit_ne_zero b zero
    have small := Nat.digits_lt_base base (List.getLast_mem digits)
    rw [numeral_pos zero, List.head?_reverse, List.getLast?_map,
      List.getLast?_eq_some_getLast digits, Option.map_some, Option.some.injEq] at leads
    exact absurd (differ _ small leads) top

/-! ### Groups of digits -/

/-- A numeral in terms of digit values, the 0 included. -/
theorem numeral_digits (digit : Nat → α) (base : 1 < b) (n : Nat) : ∃ ds, (∀ d ∈ ds, d < b) ∧
    numeral digit b n = (ds.map digit).reverse ∧ Nat.ofDigits b ds = n := by
  by_cases zero : n = 0
  · refine ⟨[0], ?_, ?_, ?_⟩
    · simpa using Nat.zero_lt_of_lt base
    · simp [zero, numeral_zero]
    · simp [zero]
  · exact ⟨Nat.digits b n, fun _ member => Nat.digits_lt_base base member, numeral_pos zero,
      Nat.ofDigits_digits b n⟩

/-- Behind a numeral, a second one that is filled up with zeroes is read as the next digits of
the first. -/
theorem parse_group (base : 1 < b) (reads : ∀ d < b, value (digit d) = some d) (zeroes : Nat) :
    parseNumeral value b (numeral digit b n ++
        (List.replicate zeroes (digit 0) ++ numeral digit b m)) =
      some (n * b ^ (zeroes + (numeral digit b m).length) + m) := by
  obtain ⟨ds, small, high, number⟩ := numeral_digits digit base n
  obtain ⟨es, small', low, number'⟩ := numeral_digits digit base m
  have text : numeral digit b n ++ (List.replicate zeroes (digit 0) ++ numeral digit b m) =
      ((es ++ (List.replicate zeroes 0 ++ ds)).map digit).reverse := by
    simp [high, low]
  have digits : ∀ d ∈ es ++ (List.replicate zeroes 0 ++ ds), d < b := by
    intro d member
    simp only [List.mem_append, List.mem_replicate] at member
    rcases member with first | ⟨_, rfl⟩ | last
    · exact small' d first
    · exact Nat.zero_lt_of_lt base
    · exact small d last
  have nonempty : numeral digit b n ++ (List.replicate zeroes (digit 0) ++ numeral digit b m) ≠ [] :=
    List.append_ne_nil_of_left_ne_nil (numeral_ne_nil n) _
  have length : (numeral digit b m).length = es.length := by simp [low]
  rw [parseNumeral.eq_2 _ _ _ nonempty, text, foldlM_digits reads digits, Nat.ofDigits_append,
    Nat.ofDigits_append, number, number', length, List.length_replicate]
  have high_zeroes : Nat.ofDigits b (List.replicate zeroes 0) = 0 := by simp
  rw [high_zeroes, Nat.pow_add]
  congr 1
  ring

end DedOS.Lib
