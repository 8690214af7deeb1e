import DedOS.Mm.Pmm

/-!
# Frames

The allocator as its callers see it: `p.Free frame` says that the next calls of `pmm_alloc`
may return `frame`. Callers reach frames through the direct map at `hhdm_offset`, which
sends page-aligned frames to page-aligned addresses, one to one.
-/

namespace DedOS

open Lib

/-- `phys_to_virt` -/
def physToVirt (hhdm phys : Nat) : Nat := wrap64 (phys + hhdm)

/-- `virt_to_phys` -/
def virtToPhys (hhdm virt : Nat) : Nat := wrap64 (virt + (2 ^ 64 - wrap64 hhdm))

namespace Pmm

/-- `pmm_alloc` may give the frame out. -/
def Free (p : Pmm) (frame : Nat) : Prop :=
  ∃ page < p.totalPages, frame = page * pageSize ∧ p.taken page = false

/-- The allocator is consistent, and frame 0 is not mistaken for a free one. -/
structure Ready (p : Pmm) : Prop where
  wf : p.WF
  frame0 : ¬ p.Free 0

variable {p p' : Pmm} {frame page : Nat}

theorem free_page : p.Free (page * pageSize) ↔ page < p.totalPages ∧ p.taken page = false := by
  constructor
  · rintro ⟨page', below, same, free⟩
    have equal : page = page' := Nat.eq_of_mul_eq_mul_right (by decide) same
    exact equal ▸ ⟨below, free⟩
  · rintro ⟨below, free⟩
    exact ⟨page, below, rfl, free⟩

theorem Free.aligned (free : p.Free frame) : frame % pageSize = 0 := by
  obtain ⟨page, _, rfl, _⟩ := free
  exact Nat.mul_mod_left page pageSize

theorem Ready.lt (ready : p.Ready) (free : p.Free frame) : frame < 2 ^ 52 := by
  obtain ⟨page, below, rfl, _⟩ := free
  have bounded := ready.wf.bounded
  dsimp only [pageSize]
  omega

/-- What one successful `pmm_alloc` does. -/
structure Taken (p : Pmm) (frame : Nat) (p' : Pmm) : Prop where
  free : p.Free frame
  nonzero : frame ≠ 0
  same : SameMap p p'
  ready : p'.Ready
  others : ∀ f, p'.Free f ↔ p.Free f ∧ f ≠ frame
  count : p'.freePages + 1 = p.freePages

theorem Taken.hhdm (taken : Taken p frame p') : p'.hhdmOffset = p.hhdmOffset :=
  taken.same.hhdmOffset

/-- Setting the bit of a page makes its frame the only one less. -/
theorem free_of_taken {j : Nat} (same : SameMap p p')
    (after : p'.taken = Function.update p.taken j true) (f : Nat) :
    p'.Free f ↔ p.Free f ∧ f ≠ j * pageSize := by
  constructor
  · rintro ⟨i, inside, rfl, clear⟩
    rw [after] at clear
    have differ : i ≠ j := by
      rintro rfl
      simp at clear
    rw [Function.update_of_ne differ] at clear
    rw [same.totalPages] at inside
    refine ⟨free_page.mpr ⟨inside, clear⟩, ?_⟩
    intro equal
    exact differ (Nat.eq_of_mul_eq_mul_right (by decide) equal)
  · rintro ⟨⟨i, inside, rfl, clear⟩, other⟩
    have differ : i ≠ j := fun equal => other (by rw [equal])
    rw [free_page, same.totalPages, after, Function.update_of_ne differ]
    exact ⟨inside, clear⟩

/-- `pmm_alloc` fails exactly when no page is left, and otherwise takes one free frame. -/
theorem Ready.alloc (ready : p.Ready) : (p.freePages = 0 ∧ pmmAlloc p = some (0, p)) ∨
    ∃ frame p', pmmAlloc p = some (frame, p') ∧ Taken p frame p' := by
  rcases pmmAlloc_spec ready.wf with none | ⟨j, p', below, free, found, same, after, count⟩
  · exact .inl none
  · have here : p.Free (j * pageSize) := free_page.mpr ⟨below, free⟩
    have others := free_of_taken same after
    refine .inr ⟨j * pageSize, p', found, here, ?_, same, ⟨same.wf, ?_⟩, others, count⟩
    · intro zero
      exact ready.frame0 (zero ▸ here)
    · intro free0
      exact ready.frame0 ((others 0).mp free0).1

/-- What `pmm_free` does to a frame that is not free. -/
structure Given (p : Pmm) (frame : Nat) (p' : Pmm) : Prop where
  same : SameMap p p'
  ready : p'.Ready
  others : ∀ f, p'.Free f ↔ p.Free f ∨ f = frame
  count : p'.freePages = p.freePages + 1

/-- A page of the map that `pmm_alloc` would not give out. -/
def Held (p : Pmm) (frame : Nat) : Prop :=
  ∃ page < p.totalPages, frame = page * pageSize ∧ p.taken page = true

theorem Held.not_free (held : p.Held frame) : ¬ p.Free frame := by
  obtain ⟨page, _, rfl, set⟩ := held
  rw [free_page, set]
  simp

/-- A page of the map is free or held. -/
theorem Held.of_not_free (below : page < p.totalPages) (used : ¬ p.Free (page * pageSize)) :
    p.Held (page * pageSize) := by
  refine ⟨page, below, rfl, ?_⟩
  by_contra clear
  rw [Bool.not_eq_true] at clear
  exact used (free_page.mpr ⟨below, clear⟩)

/-- A held frame stays held as long as it is not freed. -/
theorem Held.mono (held : p.Held frame) (same : SameMap p p') (used : ¬ p'.Free frame) :
    p'.Held frame := by
  obtain ⟨page, below, rfl, _⟩ := held
  exact .of_not_free (by rwa [same.totalPages]) used

theorem Taken.held (taken : Taken p frame p') : p'.Held frame := by
  have used : ¬ p'.Free frame := fun free => ((taken.others frame).mp free).2 rfl
  obtain ⟨page, below, rfl, _⟩ := taken.free
  exact .of_not_free (by rwa [taken.same.totalPages]) used

theorem Ready.free (ready : p.Ready) (held : p.Held frame) (nonzero : frame ≠ 0) :
    ∃ p', pmmFree frame p = some p' ∧ Given p frame p' := by
  obtain ⟨j, below, rfl, set⟩ := held
  obtain ⟨p', freed, same, after, count⟩ := pmmFree_spec ready.wf below set
  have others : ∀ f, p'.Free f ↔ p.Free f ∨ f = j * pageSize := by
    intro f
    constructor
    · rintro ⟨i, inside, rfl, clear⟩
      by_cases here : i = j
      · exact .inr (by rw [here])
      · rw [after, Function.update_of_ne here] at clear
        rw [same.totalPages] at inside
        exact .inl (free_page.mpr ⟨inside, clear⟩)
    · rintro (⟨i, inside, rfl, clear⟩ | rfl)
      · have differ : i ≠ j := by
          rintro rfl
          rw [set] at clear
          cases clear
        rw [free_page, same.totalPages, after, Function.update_of_ne differ]
        exact ⟨inside, clear⟩
      · rw [free_page, same.totalPages, after]
        exact ⟨below, Function.update_self ..⟩
  refine ⟨p', freed, same, ⟨same.wf, ?_⟩, others, count⟩
  intro free0
  rcases (others 0).mp free0 with old | zero
  · exact ready.frame0 old
  · exact nonzero zero.symm

end Pmm

/-! ### The direct map -/

variable {hhdm f g a b : Nat}

/-- A frame number as a page-table entry can hold it. -/
def IsFrame (f : Nat) : Prop := f % pageSize = 0 ∧ f < 2 ^ 52

theorem Pmm.Ready.isFrame {p : Pmm} (ready : p.Ready) (free : p.Free f) : IsFrame f :=
  ⟨free.aligned, ready.lt free⟩

theorem physToVirt_lt : physToVirt hhdm f < 2 ^ 64 := wrap64_lt _

theorem physToVirt_aligned (hhdmAligned : hhdm % pageSize = 0) (frame : IsFrame f) :
    physToVirt hhdm f % pageSize = 0 := by
  obtain ⟨aligned, _⟩ := frame
  unfold physToVirt wrap64
  dsimp only [pageSize] at *
  omega

theorem physToVirt_inj (frame : IsFrame f) (frame' : IsFrame g)
    (same : physToVirt hhdm f = physToVirt hhdm g) : f = g := by
  have small := frame.2
  have small' := frame'.2
  unfold physToVirt wrap64 at same
  omega

/-- Distinct frames are mapped to disjoint pages. -/
theorem physToVirt_apart (hhdmAligned : hhdm % pageSize = 0) (frame : IsFrame f)
    (frame' : IsFrame g) (differ : f ≠ g) :
    physToVirt hhdm f + pageSize ≤ physToVirt hhdm g ∨
      physToVirt hhdm g + pageSize ≤ physToVirt hhdm f := by
  have first := physToVirt_aligned hhdmAligned frame
  have second := physToVirt_aligned hhdmAligned frame'
  have distinct : physToVirt hhdm f ≠ physToVirt hhdm g := fun same =>
    differ (physToVirt_inj frame frame' same)
  dsimp only [pageSize] at *
  omega

end DedOS
