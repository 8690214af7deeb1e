import DedOS.Lib.Memory
import DedOS.Lib.TableTree
import DedOS.Mm.Frames
import Mathlib.Data.Nat.Bitwise

/-!
# The page tables of `vmm.c`

Four levels of 512 entries. Tables are reached through the direct map and live in the same
memory as everything else; new ones are frames of `pmm_alloc`. A pointer 0 is null, as in
the source. A state whose bitmap access would leave `bitmap_size` has no successor.
-/

namespace DedOS

open Lib

def vmmPresent : Nat := 1
def vmmWrite : Nat := 2
def vmmUser : Nat := 4

/-- `~0xFFFULL` -/
def frameMask : Nat := 0xFFFFFFFFFFFFF000

/-- `(virt >> shift) & 0x1FF` -/
def tableIdx (shift virt : Nat) : Fin 512 :=
  ⟨virt >>> shift &&& 0x1FF, Nat.lt_of_le_of_lt Nat.and_le_right (by decide)⟩

def pml4Idx : Nat → Fin 512 := tableIdx 39
def pdptIdx : Nat → Fin 512 := tableIdx 30
def pdIdx : Nat → Fin 512 := tableIdx 21
def ptIdx : Nat → Fin 512 := tableIdx 12

/-- Memory as the direct map shows it, and the allocator its tables come from. -/
structure Vm where
  mem : Memory
  pmm : Pmm

/-- The first `n` rounds of the loop `virt[i] = 0`. -/
def zeroTable (table : Nat) : Nat → Memory → Memory
  | 0, m => m
  | n + 1, m => store 8 (zeroTable table n m) (table + 8 * n) 0

namespace Vm

def hhdm (s : Vm) : Nat := s.pmm.hhdmOffset

/-- `table[index]` -/
def entry (s : Vm) (table : Nat) (index : Fin 512) : Nat := load 8 s.mem (table + 8 * index)

/-- `table[index] = value` -/
def setEntry (s : Vm) (table : Nat) (index : Fin 512) (value : Nat) : Vm :=
  { s with mem := store 8 s.mem (table + 8 * index) value }

/-- The loop that clears a new table. -/
def clearTable (s : Vm) (table : Nat) : Vm := { s with mem := zeroTable table 512 s.mem }

end Vm

def getOrCreate (s : Vm) (table : Nat) (index : Fin 512) (flags : Nat) : Option (Nat × Vm) :=
  if s.entry table index &&& vmmPresent ≠ 0 then
    some (physToVirt s.hhdm (s.entry table index &&& frameMask), s)
  else do
    let (phys, pmm) ← pmmAlloc s.pmm
    let s := { s with pmm := pmm }
    if phys = 0 then some (0, s)
    else
      let virt := physToVirt s.hhdm phys
      let s := s.clearTable virt
      some (virt, s.setEntry table index (phys ||| flags))

/-- `table_flags` in `vmm_map` -/
def tableFlags (flags : Nat) : Nat :=
  if flags &&& vmmUser ≠ 0 then vmmPresent ||| vmmWrite ||| vmmUser else vmmPresent ||| vmmWrite

def vmmMap (s : Vm) (pml4 virt phys flags : Nat) : Option Vm := do
  let (pdpt, s) ← getOrCreate s pml4 (pml4Idx virt) (tableFlags flags)
  if pdpt = 0 then return s
  let (pd, s) ← getOrCreate s pdpt (pdptIdx virt) (tableFlags flags)
  if pd = 0 then return s
  let (pt, s) ← getOrCreate s pd (pdIdx virt) (tableFlags flags)
  if pt = 0 then return s
  return s.setEntry pt (ptIdx virt) (phys ||| flags)

def vmmUnmap (s : Vm) (pml4 virt : Nat) : Vm :=
  if s.entry pml4 (pml4Idx virt) &&& vmmPresent = 0 then s
  else
    let pdpt := physToVirt s.hhdm (s.entry pml4 (pml4Idx virt) &&& frameMask)
    if s.entry pdpt (pdptIdx virt) &&& vmmPresent = 0 then s
    else
      let pd := physToVirt s.hhdm (s.entry pdpt (pdptIdx virt) &&& frameMask)
      if s.entry pd (pdIdx virt) &&& vmmPresent = 0 then s
      else
        let pt := physToVirt s.hhdm (s.entry pd (pdIdx virt) &&& frameMask)
        s.setEntry pt (ptIdx virt) 0

def vmmGetPhys (s : Vm) (pml4 virt : Nat) : Nat :=
  if s.entry pml4 (pml4Idx virt) &&& vmmPresent = 0 then 0
  else
    let pdpt := physToVirt s.hhdm (s.entry pml4 (pml4Idx virt) &&& frameMask)
    if s.entry pdpt (pdptIdx virt) &&& vmmPresent = 0 then 0
    else
      let pd := physToVirt s.hhdm (s.entry pdpt (pdptIdx virt) &&& frameMask)
      if s.entry pd (pdIdx virt) &&& vmmPresent = 0 then 0
      else
        let pt := physToVirt s.hhdm (s.entry pd (pdIdx virt) &&& frameMask)
        s.entry pt (ptIdx virt) &&& frameMask

/-! ### Entries -/

theorem tableIdx_val (shift virt : Nat) :
    (tableIdx shift virt : Nat) = virt / 2 ^ shift % 512 := by
  have field : (tableIdx shift virt : Nat) = virt >>> shift &&& (2 ^ 9 - 1) := rfl
  rw [field, Nat.and_two_pow_sub_one_eq_mod, Nat.shiftRight_eq_div_pow]

theorem and_frameMask {w : Nat} (word : w < 2 ^ 64) : w &&& frameMask = w / pageSize * pageSize := by
  have mask : frameMask = (2 ^ (64 - 12) - 1) <<< 12 := by decide
  rw [mask, and_mask word (by decide)]
  rfl

theorem and_present (w : Nat) : w &&& vmmPresent ≠ 0 ↔ w % 2 = 1 := by
  have low : w &&& vmmPresent = w % 2 := Nat.and_two_pow_sub_one_eq_mod w 1
  rw [low]
  omega

/-- A mask of one bit. -/
theorem and_two_pow_eq_zero (w k : Nat) : w &&& 2 ^ k = 0 ↔ w / 2 ^ k % 2 = 0 := by
  rw [Nat.and_two_pow, Nat.testBit_eq_decide_div_mod_eq]
  by_cases set : w / 2 ^ k % 2 = 1
  · rw [decide_eq_true set]
    simp [set]
  · rw [decide_eq_false set]
    simp
    omega

/-- A frame and the flags below it do not overlap. -/
theorem frame_or {f flags : Nat} (aligned : f % pageSize = 0) (small : flags < pageSize) :
    f ||| flags = f + flags := by
  have whole : f = 2 ^ 12 * (f / pageSize) := by
    dsimp only [pageSize] at *
    omega
  rw [whole]
  exact (Nat.two_pow_add_eq_or_of_lt small (f / pageSize)).symm

theorem tableFlags_cases (flags : Nat) : tableFlags flags = 3 ∨ tableFlags flags = 7 := by
  unfold tableFlags
  split
  · exact .inr rfl
  · exact .inl rfl

/-- The table an entry refers to. -/
def child (w : Nat) : Option Nat := if w &&& vmmPresent ≠ 0 then some (w &&& frameMask) else none

theorem child_eq_some {w t : Nat} (word : w < 2 ^ 64) :
    child w = some t ↔ w % 2 = 1 ∧ t = w / pageSize * pageSize := by
  unfold child
  rw [and_frameMask word]
  by_cases present : w &&& vmmPresent ≠ 0
  · rw [if_pos present]
    simp only [Option.some.injEq, (and_present w).mp present, true_and]
    exact eq_comm
  · rw [if_neg present]
    rw [and_present] at present
    simp [present]

end DedOS
