import Mathlib.Data.List.Range
import DedOS.Lib.Memory
import DedOS.Lib.Moves
import DedOS.Mm.Pmm

/-!
# The memory functions the compiler calls

`memcpy` and `memmove` copy byte by byte. `memmove` chooses its direction from the order of
the two addresses; the loops are the same up to that order, so both are move sequences.
-/

namespace DedOS

open Lib

/-- The loop body `pdest[i] = psrc[i]` for the indices in `order`, one after the other. -/
def copyBytes (dest src : Nat) (m : Memory) (order : List Nat) : Memory :=
  moves (fun i => wrap64 (dest + i)) (fun i => wrap64 (src + i)) m order

def memcpy (dest src n : Nat) (m : Memory) : Nat × Memory :=
  (dest, copyBytes dest src m (List.range n))

def memmove (dest src n : Nat) (m : Memory) : Nat × Memory :=
  if src > dest then
    (dest, copyBytes dest src m (List.range n))
  else if src < dest then
    -- `i` counts down and the body uses `i - 1`
    (dest, copyBytes dest src m (List.range n).reverse)
  else (dest, m)

variable {dest src n : Nat} {m : Memory} {order : List Nat}

/-- What a copy through a temporary leaves: the bytes of `src` at `dest`, the rest as before. -/
structure Copied (dest src n : Nat) (before after : Memory) : Prop where
  moved : ∀ i < n, after (dest + i) = before (src + i)
  frame : ∀ x, x < dest ∨ dest + n ≤ x → after x = before x

/-- The loop copies as if through a temporary in any order that reads ahead of its writes. -/
theorem copyBytes_copied (destFits : dest + n ≤ 2 ^ 64) (srcFits : src + n ≤ 2 ^ 64)
    (indices : ∀ i, i ∈ order ↔ i < n)
    (ahead : order.Pairwise fun i j => src + j ≠ dest + i ∧ j ≠ i) :
    Copied dest src n m (copyBytes dest src m order) := by
  have target : ∀ i < n, wrap64 (dest + i) = dest + i := by
    intro i bound
    exact wrap64_of_lt (by omega)
  have source : ∀ i < n, wrap64 (src + i) = src + i := by
    intro i bound
    exact wrap64_of_lt (by omega)
  constructor
  case moved =>
    intro i bound
    have apart : order.Pairwise fun i j =>
        wrap64 (src + j) ≠ wrap64 (dest + i) ∧ wrap64 (dest + j) ≠ wrap64 (dest + i) := by
      apply List.Pairwise.imp_of_mem _ ahead
      intro i j memI memJ apart
      have boundI := (indices i).mp memI
      have boundJ := (indices j).mp memJ
      rw [target i boundI, target j boundJ, source j boundJ]
      omega
    have copied := moves_target (m := m) apart ((indices i).mpr bound)
    rwa [target i bound, source i bound] at copied
  case frame =>
    intro x out
    apply moves_of_ne
    intro i mem
    have bound := (indices i).mp mem
    rw [target i bound]
    omega

theorem mem_range_reverse (i : Nat) : i ∈ (List.range n).reverse ↔ i < n := by simp

/-- Upwards is right for a destination below its source. -/
theorem copyBytes_up (destFits : dest + n ≤ 2 ^ 64) (srcFits : src + n ≤ 2 ^ 64)
    (below : dest < src) : Copied dest src n m (copyBytes dest src m (List.range n)) := by
  apply copyBytes_copied destFits srcFits
  · intro i
    exact List.mem_range
  · apply List.Pairwise.imp _ List.pairwise_lt_range
    intro i j order
    omega

/-- Downwards is right for a destination above its source. -/
theorem copyBytes_down (destFits : dest + n ≤ 2 ^ 64) (srcFits : src + n ≤ 2 ^ 64)
    (above : src < dest) : Copied dest src n m (copyBytes dest src m (List.range n).reverse) := by
  apply copyBytes_copied destFits srcFits mem_range_reverse
  rw [List.pairwise_reverse]
  apply List.Pairwise.imp _ List.pairwise_lt_range
  intro i j order
  omega

/-- `memcpy` is right for ranges that do not overlap, which is what `restrict` promises. -/
theorem memcpy_copied (destFits : dest + n ≤ 2 ^ 64) (srcFits : src + n ≤ 2 ^ 64)
    (apart : dest + n ≤ src ∨ src + n ≤ dest) (m : Memory) :
    Copied dest src n m (memcpy dest src n m).2 := by
  apply copyBytes_copied destFits srcFits
  · intro i
    exact List.mem_range
  · apply List.Pairwise.imp_of_mem _ List.pairwise_lt_range
    intro i j memI memJ order
    rw [List.mem_range] at memI memJ
    omega

/-- `memmove` copies as if through a temporary, however the two ranges overlap. -/
theorem memmove_copied (destFits : dest + n ≤ 2 ^ 64) (srcFits : src + n ≤ 2 ^ 64) (m : Memory) :
    (memmove dest src n m).1 = dest ∧ Copied dest src n m (memmove dest src n m).2 := by
  unfold memmove
  split
  case isTrue above => exact ⟨rfl, copyBytes_up destFits srcFits above⟩
  case isFalse notAbove =>
    split
    case isTrue below => exact ⟨rfl, copyBytes_down destFits srcFits below⟩
    case isFalse notBelow =>
      -- equal addresses: nothing is written and nothing has to be
      have same : src = dest := by omega
      subst same
      simp [Copied.mk]

/-- Four bytes moved up by one, the ranges sharing three bytes. -/
theorem memmove_copied_overlap :
    (memmove 101 100 4 UInt8.ofNat).1 = 101 ∧
      Copied 101 100 4 UInt8.ofNat (memmove 101 100 4 UInt8.ofNat).2 :=
  memmove_copied (by decide) (by decide) UInt8.ofNat

end DedOS
