import Mathlib.Data.List.GetD
import Mathlib.Logic.Function.Basic

/-!
# Tables that fill up

A table of `n` slots with a counter takes items as long as there is room and drops the rest.
-/

namespace DedOS.Lib

variable {α : Type*} {n count : Nat} {slots : Fin n → α} {empty a : α} {items : List α}

/-- The table has taken the first `n` of the items offered to it, in their order. -/
structure Takes (slots : Fin n → α) (count : Nat) (empty : α) (items : List α) : Prop where
  count : count = min n items.length
  slots : ∀ i : Fin n, slots i = items.getD i empty

theorem Takes.nil (empty : α) : Takes (fun _ : Fin n => empty) 0 empty [] where
  count := by simp
  slots := by simp

/-- With room, the next item is taken. -/
theorem Takes.push (takes : Takes slots count empty items) (room : count < n) :
    Takes (Function.update slots ⟨count, room⟩ a) (count + 1) empty (items ++ [a]) := by
  have counted := takes.count
  have all : count = items.length := by omega
  constructor
  case count =>
    rw [List.length_append, List.length_singleton]
    omega
  case slots =>
    intro i
    by_cases here : i = ⟨count, room⟩
    · subst here
      simp [all]
    · have elsewhere : (i : Nat) ≠ items.length := by
        intro same
        exact here (Fin.ext (same.trans all.symm))
      rw [Function.update_of_ne here, takes.slots]
      simp only [List.getD_eq_getElem?_getD]
      cases Nat.lt_or_gt_of_ne elsewhere with
      | inl before => rw [List.getElem?_append_left before]
      | inr behind =>
        rw [List.getElem?_eq_none (Nat.le_of_lt behind), List.getElem?_eq_none]
        rw [List.length_append, List.length_singleton]
        omega

/-- Without room it is dropped. -/
theorem Takes.full (takes : Takes slots count empty items) (full : ¬ count < n) :
    Takes slots count empty (items ++ [a]) := by
  have counted := takes.count
  constructor
  case count =>
    rw [List.length_append, List.length_singleton]
    omega
  case slots =>
    intro i
    have inside : (i : Nat) < items.length := by
      have bound := i.isLt
      omega
    rw [takes.slots, List.getD_append _ _ _ _ inside]

end DedOS.Lib
