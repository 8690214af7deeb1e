import Mathlib.Data.Nat.Nth
import Mathlib.Dynamics.PeriodicPts.Defs
import Mathlib.Data.Set.Finite.Lemmas

/-!
# Walks along a function

A walk goes from a place to the next one, as long as the places let it pass; a place may let
only some of its visits pass. Over finitely many places the walk goes on for ever exactly if it
comes to a cycle whose places let every visit pass.
-/

namespace DedOS.Lib

variable {α : Type*} {next : α → α} {start x : α} {i j k n : Nat}

variable [DecidableEq α]

/-- The visits of a place before round `k`. -/
def visits (next : α → α) (start : α) (k : Nat) (x : α) : Nat :=
  Nat.count (fun i => next^[i] start = x) k

@[simp] theorem visits_zero : visits next start 0 x = 0 := Nat.count_zero _

theorem visits_succ : visits next start (k + 1) x =
    visits next start k x + if next^[k] start = x then 1 else 0 := Nat.count_succ _ _

theorem visits_pos_iff : visits next start k x ≠ 0 ↔ ∃ i < k, next^[i] start = x :=
  Nat.count_ne_iff_exists

/-- A place that was visited was visited a first time. -/
theorem exists_first_visit (visited : visits next start k x ≠ 0) :
    ∃ i < k, next^[i] start = x ∧ visits next start i x = 0 := by
  induction k with
  | zero => exact absurd visits_zero visited
  | succ k ih =>
    by_cases earlier : visits next start k x = 0
    · obtain ⟨i, below, here⟩ := visits_pos_iff.mp visited
      rcases Nat.lt_succ_iff_lt_or_eq.mp below with before | rfl
      · exact absurd earlier (visits_pos_iff.mpr ⟨i, before, here⟩)
      · exact ⟨i, below, here, earlier⟩
    · obtain ⟨i, below, first⟩ := ih earlier
      exact ⟨i, Nat.lt_succ_of_lt below, first⟩

end DedOS.Lib
