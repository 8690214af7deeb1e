import Mathlib.Data.List.Infix
import Mathlib.Logic.Function.Basic

/-!
# Ring buffers

A ring of `n` slots used by a producer and a consumer, each with a counter that wraps at
`n`. The history is unbounded: `items` is everything ever put in and the first `released` of
them have left. One slot stays unused, so equal counters mean an empty ring.
-/

namespace DedOS.Lib

variable {α : Type*} {n : Nat} {slots : Nat → α} {released : Nat} {items : List α} {a : α}

/-- Every item that has not left is in its slot. -/
def RingHolds (n : Nat) (slots : Nat → α) (released : Nat) (items : List α) : Prop :=
  ∀ i (bound : i < items.length), released ≤ i → slots (i % n) = items[i]

theorem RingHolds.empty : RingHolds n slots released [] := by
  intro i bound
  cases bound

/-- Positions less than one turn apart are in different slots. -/
theorem ring_slot_ne {i j : Nat} (before : i < j) (turn : j < i + n) : i % n ≠ j % n := by
  intro same
  have multiple : (j - i) % n = 0 := Nat.sub_mod_eq_zero_of_mod_eq same.symm
  rw [Nat.mod_eq_of_lt (by omega)] at multiple
  omega

/-- A new item goes to a slot that holds none of the others. -/
theorem RingHolds.push (holds : RingHolds n slots released items)
    (room : items.length < released + n) :
    RingHolds n (Function.update slots (items.length % n) a) released (items ++ [a]) := by
  intro i bound left
  by_cases last : i = items.length
  · subst last
    simp
  · have earlier : i < items.length := by
      rw [List.length_append, List.length_singleton] at bound
      omega
    have apart : i % n ≠ items.length % n := ring_slot_ne earlier (by omega)
    rw [Function.update_of_ne apart, holds i earlier left, List.getElem_append_left earlier]

theorem RingHolds.release (holds : RingHolds n slots released items) :
    RingHolds n slots (released + 1) items := by
  intro i bound left
  apply holds i bound
  omega

/-- The counters are equal exactly when the ring is empty. -/
theorem ring_empty_iff (order : released ≤ items.length) (room : items.length < released + n) :
    items.length % n = released % n ↔ items.length = released := by
  constructor
  · intro same
    by_contra differ
    exact ring_slot_ne (by omega) room same.symm
  · intro equal
    rw [equal]

/-- The producer's counter is one short of the consumer's exactly when `n - 1` items are in
the ring. -/
theorem ring_full_iff (order : released ≤ items.length) (room : items.length < released + n) :
    (items.length % n + 1) % n = released % n ↔ items.length + 1 = released + n := by
  rw [Nat.mod_add_mod]
  constructor
  · intro same
    by_contra differ
    exact ring_slot_ne (by omega) (by omega) same.symm
  · intro full
    rw [full, Nat.add_mod_right]

end DedOS.Lib
