import DedOS.Mm.Pmm

/-!
# Runs of the frame allocator

`frames_safe`: through every run of `pmm_alloc` and `pmm_free` after `pmm_init` the frames
given out are distinct usable frames outside the bitmap, and the counter is exact. The
invariant says which pages are free: the usable ones that neither hold the bitmap nor are
given out.
-/

namespace DedOS

open Lib

/-- The allocator and the frames it has given out and not got back. -/
structure FrameState where
  pmm : Pmm
  outstanding : List Nat
  deriving DecidableEq

inductive FrameEvent where
  | alloc
  | free (ptr : Nat)
  deriving DecidableEq

namespace FrameState

/-- Only outstanding frames are freed. -/
def step (s : FrameState) : FrameEvent → Option FrameState
  | .alloc => (pmmAlloc s.pmm).map fun r =>
      { pmm := r.2, outstanding := if r.1 = 0 then s.outstanding else r.1 :: s.outstanding }
  | .free ptr =>
    if ptr ∈ s.outstanding then
      (pmmFree ptr s.pmm).map fun p => { pmm := p, outstanding := s.outstanding.erase ptr }
    else none

/-- `pmm_init` has run and found room for its bitmap. -/
def Started (memmap : List MemmapEntry) (hhdm : Nat) (s : FrameState) : Prop :=
  pmmInit memmap hhdm = some s.pmm ∧ s.pmm.bitmap ≠ 0 ∧ s.outstanding = []

structure Inv (memmap : List MemmapEntry) (s : FrameState) : Prop where
  wf : s.pmm.WF
  distinct : s.outstanding.Nodup
  page : ∀ ptr ∈ s.outstanding, ∃ j, ptr = j * pageSize ∧ UsablePage memmap j ∧ ¬ s.pmm.bitmapPage j
  free : ∀ j, s.pmm.taken j = false ↔
    UsablePage memmap j ∧ ¬ s.pmm.bitmapPage j ∧ j * pageSize ∉ s.outstanding
  counted : s.pmm.freePages + s.pmm.bitmapPages + s.outstanding.length = usablePages memmap
  inside : ∀ j, UsablePage memmap j → j < s.pmm.totalPages

variable {memmap : List MemmapEntry} {hhdm : Nat} {s s' : FrameState} {e : FrameEvent}
  {h : List (Entry FrameState FrameEvent)} {p p' : Pmm} {i j : Nat}

theorem page_inj (same : i * pageSize = j * pageSize) : i = j :=
  Nat.eq_of_mul_eq_mul_right (by decide) same

theorem Started.inv (limine : LimineMemmap memmap hhdm) (started : Started memmap hhdm s) :
    Inv memmap s := by
  obtain ⟨init, placed, none⟩ := started
  obtain ⟨p, init', _, _, ready⟩ := pmmInit_spec limine.apart limine.higherHalf.2
  obtain rfl := Option.some.inj (init.symm.trans init')
  have ready := ready placed
  refine ⟨ready.wf, by simp [none], by simp [none], fun j => ?_, ?_, ready.inside⟩
  · simp [ready.free, none]
  · simpa [none] using ready.counted

theorem bitmapPage_congr (same : Pmm.SameMap p p') : p'.bitmapPage j ↔ p.bitmapPage j := by
  rw [Pmm.bitmapPage, Pmm.bitmapPage, Pmm.bitmapBase, Pmm.bitmapBase, Pmm.bitmapPages,
    Pmm.bitmapPages, same.bitmap, same.hhdmOffset, same.bitmapSize]

theorem bitmapPages_congr (same : Pmm.SameMap p p') : p'.bitmapPages = p.bitmapPages := by
  rw [Pmm.bitmapPages, Pmm.bitmapPages, same.bitmapSize]

/-- Frame 0 is never free, so an allocated frame differs from the failure value. -/
theorem Inv.nonzero (inv : Inv memmap s) (limine : LimineMemmap memmap hhdm)
    (free : s.pmm.taken j = false) : j * pageSize ≠ 0 := by
  obtain ⟨⟨entry, member, usable, contains⟩, _⟩ := (inv.free j).mp free
  intro zero
  rw [zero] at contains
  exact limine.frame0 entry member usable contains

theorem Inv.alloc (inv : Inv memmap s) (free : s.pmm.taken j = false) (same : Pmm.SameMap s.pmm p')
    (after : p'.taken = Function.update s.pmm.taken j true)
    (count : p'.freePages + 1 = s.pmm.freePages) :
    Inv memmap ⟨p', j * pageSize :: s.outstanding⟩ := by
  obtain ⟨usable, outside, fresh⟩ := (inv.free j).mp free
  refine ⟨same.wf, List.nodup_cons.mpr ⟨fresh, inv.distinct⟩, ?_, fun i => ?_, ?_, ?_⟩
  · intro ptr member
    simp only [bitmapPage_congr same]
    rcases List.mem_cons.mp member with rfl | old
    · exact ⟨j, rfl, usable, outside⟩
    · exact inv.page ptr old
  · rw [after, bitmapPage_congr same]
    by_cases here : i = j
    · simp [here]
    · have differ : i * pageSize ≠ j * pageSize := fun equal => here (page_inj equal)
      rw [Function.update_of_ne here, inv.free i]
      simp [differ]
  · have total := inv.counted
    rw [bitmapPages_congr same]
    simp only [List.length_cons]
    omega
  · rw [same.totalPages]
    exact inv.inside

theorem Inv.release (inv : Inv memmap s) (member : j * pageSize ∈ s.outstanding)
    (same : Pmm.SameMap s.pmm p')
    (after : p'.taken = Function.update s.pmm.taken j false)
    (count : p'.freePages = s.pmm.freePages + 1) :
    Inv memmap ⟨p', s.outstanding.erase (j * pageSize)⟩ := by
  have mem := fun ptr => inv.distinct.mem_erase_iff (a := ptr) (b := j * pageSize)
  refine ⟨same.wf, inv.distinct.erase _, ?_, fun i => ?_, ?_, ?_⟩
  · intro ptr kept
    simp only [bitmapPage_congr same]
    exact inv.page ptr ((mem ptr).mp kept).2
  · rw [after, bitmapPage_congr same, mem]
    by_cases here : i = j
    · subst here
      obtain ⟨k, equal, usable, outside⟩ := inv.page _ member
      obtain rfl := page_inj equal
      simp [usable, outside]
    · have differ : i * pageSize ≠ j * pageSize := fun equal => here (page_inj equal)
      rw [Function.update_of_ne here, inv.free i]
      simp [differ]
  · have total := inv.counted
    have positive := List.length_pos_of_mem member
    have less := List.length_erase_of_mem member
    rw [bitmapPages_congr same]
    dsimp only
    omega
  · rw [same.totalPages]
    exact inv.inside

/-- An outstanding frame is a taken page of the map. -/
theorem Inv.held (inv : Inv memmap s) {ptr : Nat} (member : ptr ∈ s.outstanding) :
    ∃ j, ptr = j * pageSize ∧ j < s.pmm.totalPages ∧ s.pmm.taken j = true := by
  obtain ⟨j, rfl, usable, _⟩ := inv.page ptr member
  refine ⟨j, rfl, inv.inside j usable, ?_⟩
  by_contra free
  rw [Bool.not_eq_true, inv.free] at free
  exact free.2.2 member

theorem Inv.step (inv : Inv memmap s) (limine : LimineMemmap memmap hhdm)
    (taken : s.step e = some s') : Inv memmap s' := by
  cases e with
  | alloc =>
    rcases pmmAlloc_spec inv.wf with ⟨_, none⟩ | ⟨j, p', _, free, found, same, after, count⟩
    · simp only [FrameState.step, none, Option.map_some, if_true, Option.some.injEq] at taken
      subst taken
      exact inv
    · simp only [FrameState.step, found, Option.map_some, inv.nonzero limine free, if_false,
        Option.some.injEq] at taken
      subst taken
      exact inv.alloc free same after count
  | free ptr =>
    by_cases member : ptr ∈ s.outstanding
    · obtain ⟨j, rfl, below, held⟩ := inv.held member
      obtain ⟨p', freed, same, after, count⟩ := pmmFree_spec inv.wf below held
      simp only [FrameState.step, member, if_true, freed, Option.map_some,
        Option.some.injEq] at taken
      subst taken
      exact inv.release member same after count
    · simp [FrameState.step, member] at taken

theorem Run.inv (limine : LimineMemmap memmap hhdm)
    (run : Run FrameState.step (Started memmap hhdm) h s) : Inv memmap s :=
  run.invariant (fun _ started => started.inv limine) fun _ _ _ inv taken => inv.step limine taken

end FrameState

/-- What a run of `pmm_alloc` and `pmm_free` promises about the state it ends in. -/
structure FramesSafe (memmap : List MemmapEntry) (s : FrameState) : Prop where
  distinct : s.outstanding.Nodup
  usable : ∀ ptr ∈ s.outstanding, ptr % pageSize = 0 ∧ ∃ entry ∈ memmap, entry.usable ∧
    entry.base ≤ ptr ∧ ptr + pageSize ≤ entry.base + entry.length
  /-- no frame is one of the pages that hold the bitmap -/
  apart : ∀ ptr ∈ s.outstanding, ptr + pageSize ≤ s.pmm.bitmapBase * pageSize ∨
    (s.pmm.bitmapBase + s.pmm.bitmapPages) * pageSize ≤ ptr
  /-- the next call accesses the bitmap below `bitmap_size` only -/
  inBounds : (pmmAlloc s.pmm).isSome ∧ ∀ ptr ∈ s.outstanding, (pmmFree ptr s.pmm).isSome
  counted : s.pmm.freePages + s.pmm.bitmapPages + s.outstanding.length = usablePages memmap
  exhausted : ∀ ptr p, pmmAlloc s.pmm = some (ptr, p) → (ptr = 0 ↔ s.pmm.freePages = 0)

open FrameState in
theorem frames_safe {memmap : List MemmapEntry} {hhdm : Nat} {s : FrameState}
    {h : List (Entry FrameState FrameEvent)} (limine : LimineMemmap memmap hhdm)
    (run : Run step (Started memmap hhdm) h s) : FramesSafe memmap s := by
  have inv := Run.inv limine run
  refine ⟨inv.distinct, ?_, ?_, ⟨?_, ?_⟩, inv.counted, ?_⟩
  · intro ptr member
    obtain ⟨j, rfl, ⟨entry, known, usable, contains⟩, _⟩ := inv.page ptr member
    obtain ⟨base, length⟩ := limine.aligned entry known usable
    -- a page of a usable entry
    refine ⟨Nat.mul_mod_left j pageSize, entry, known, usable, contains.1, ?_⟩
    obtain ⟨_, high⟩ := contains
    dsimp only [pageSize] at *
    omega
  · intro ptr member
    obtain ⟨j, rfl, _, outside⟩ := inv.page ptr member
    -- and none of the bitmap
    unfold Pmm.bitmapPage at outside
    dsimp only [pageSize] at *
    omega
  · rcases pmmAlloc_spec inv.wf with ⟨_, none⟩ | ⟨j, p', _, _, found, _⟩
    · simp [none]
    · simp [found]
  · intro ptr member
    obtain ⟨j, rfl, below, held⟩ := inv.held member
    -- what is held can be given back
    obtain ⟨p', freed, _⟩ := pmmFree_spec inv.wf below held
    simp [freed]
  · -- page 0 is never free, so 0 means that there is none
    intro ptr p result
    rcases pmmAlloc_spec inv.wf with ⟨zero, none⟩ | ⟨j, p', _, free, found, _, _, count⟩
    · obtain ⟨rfl, _⟩ := Prod.mk.inj (Option.some.inj (none.symm.trans result))
      simp [zero]
    · obtain ⟨rfl, _⟩ := Prod.mk.inj (Option.some.inj (found.symm.trans result))
      have some := inv.nonzero limine free
      constructor
      · intro zero
        exact absurd zero some
      · intro zero
        omega

/-- Pages 1 to 3 and 8 to 9 are usable, with a reserved hole between. -/
def holedMemmap : List MemmapEntry :=
  [⟨0x1000, 0x3000, 0⟩, ⟨0x4000, 0x4000, 1⟩, ⟨0x8000, 0x2000, 0⟩]

theorem holedMemmap_limine : LimineMemmap holedMemmap 0xffff800000000000 where
  aligned := by decide
  disjoint := by
    simp [holedMemmap, MemmapEntry.contains, MemmapEntry.usable, limineMemmapUsable]
    omega
  below := by decide
  frame0 := by
    simp [holedMemmap, MemmapEntry.contains]
  higherHalf := by decide

/-- `pmm_init` on that map: the bitmap takes page 1. -/
def holedStart : FrameState :=
  { pmm := ⟨0xffff800000001000, [0xF3, 0xFC], 10, 4, 0xffff800000000000⟩, outstanding := [] }

theorem holedStart_started :
    FrameState.Started holedMemmap 0xffff800000000000 holedStart :=
  ⟨by decide +kernel, by decide, rfl⟩

/-- The lowest free page is given out first, and again after its release. -/
theorem frames_safe_holed : ∃ h s, Run FrameState.step
    (FrameState.Started holedMemmap 0xffff800000000000) h s ∧
    s.outstanding = [0x3000, 0x2000, 0x8000] ∧ FramesSafe holedMemmap s := by
  have run : ∃ h s, Run FrameState.step (FrameState.Started holedMemmap 0xffff800000000000) h s ∧
      decide (s.outstanding = [0x3000, 0x2000, 0x8000]) = true :=
    Run.exists_of_perform [.alloc, .alloc, .alloc, .free 0x2000, .free 0x3000, .alloc, .alloc]
      (fun r => r.2.outstanding = [0x3000, 0x2000, 0x8000]) holedStart_started (by decide +kernel)
  obtain ⟨h, s, run, ends⟩ := run
  exact ⟨h, s, run, by simpa using ends, frames_safe holedMemmap_limine run⟩

end DedOS
