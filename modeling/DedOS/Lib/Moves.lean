import Mathlib.Data.List.Pairwise
import Mathlib.Logic.Function.Basic

/-!
# Sequences of moves

A move copies the value at one address to another. A sequence of moves reads and writes the
same memory, so an early move can destroy what a later one is to read. It copies as if
through a temporary when no target is read or written again further down the sequence.
-/

namespace DedOS.Lib

variable {ι α κ : Type*} [DecidableEq ι]

/-- One move: the value at `source k` goes to `target k`. -/
def move (target source : κ → ι) (m : ι → α) (k : κ) : ι → α :=
  Function.update m (target k) (m (source k))

/-- The moves of a list, in its order. -/
def moves (target source : κ → ι) (m : ι → α) (ks : List κ) : ι → α :=
  ks.foldl (move target source) m

variable {target source : κ → ι} {m : ι → α} {k : κ} {ks : List κ} {x : ι}

@[simp] theorem moves_nil : moves target source m [] = m := rfl

@[simp] theorem moves_cons :
    moves target source m (k :: ks) = moves target source (move target source m k) ks := rfl

@[simp] theorem move_target : move target source m k (target k) = m (source k) := by
  simp [move]

theorem move_of_ne (differ : x ≠ target k) : move target source m k x = m x := by
  simp [move, differ]

/-- Only targets change. -/
theorem moves_of_ne (differ : ∀ k ∈ ks, x ≠ target k) : moves target source m ks x = m x := by
  induction ks generalizing m with
  | nil => rfl
  | cons k ks ih =>
    have other : ∀ k ∈ ks, x ≠ target k := by
      intro j mem
      exact differ j (List.mem_cons_of_mem k mem)
    rw [moves_cons, ih other, move_of_ne (differ k List.mem_cons_self)]

/-- As if through a temporary: every target ends with what its source held at the start. -/
theorem moves_target
    (ahead : ks.Pairwise fun j k => source k ≠ target j ∧ target k ≠ target j)
    (mem : k ∈ ks) : moves target source m ks (target k) = m (source k) := by
  induction ks generalizing m with
  | nil => cases mem
  | cons j ks ih =>
    obtain ⟨first, rest⟩ := List.pairwise_cons.mp ahead
    rw [moves_cons]
    cases List.mem_cons.mp mem with
    | inl here =>
      -- the value just written is not written again
      have kept : ∀ i ∈ ks, target j ≠ target i := by
        intro i later
        exact (first i later).2.symm
      rw [here, moves_of_ne kept, move_target]
    | inr later =>
      -- the source of a later move still holds what it held before this one
      rw [ih rest later, move_of_ne (first k later).1]

end DedOS.Lib
