import DedOS.Mm.Release

/-!
# When kmalloc returns null

With enough frames a request is served unless its size lies between 1001 and 1024, which no
cache takes and the page path does not see (`kmalloc_complete`). A null result leaves the
state alone for small sizes, and never for large ones (`kmalloc_atomic`).
-/

namespace DedOS

open Lib

/-- The frames that a request can need: those of its pages and tables, or a new slab. -/
def EnoughFor (s : Heap) (size : Nat) : Prop :=
  if size ≤ slab1024 then 1 ≤ s.vm.pmm.freePages else Enough s size

/-- The request ends in the rest of the heap's range. -/
def Window (s : Heap) (size : Nat) : Prop :=
  heapBase ≤ s.heapVaddr ∧ s.heapVaddr + (size + allocHeaderSize) ≤ 2 ^ 64

/-- Nothing has changed but that free frames have become tables. -/
structure Unchanged (s s' : Heap) : Prop where
  free : ∀ f, s'.vm.pmm.Free f ↔ s.vm.pmm.Free f ∧ ¬ s'.vm.IsTable s'.cr3 f
  translations : ∀ flags v, flags % 2 = 1 → Vm.canonical v →
    s'.vm.frameOf s'.cr3 flags v = s.vm.frameOf s.cr3 flags v
  caches : s'.caches = s.caches
  slabs : ∀ f, HasSlab s f → ∀ a, physToVirt s.vm.hhdm f ≤ a →
    a < physToVirt s.vm.hhdm f + pageSize → s'.vm.mem a = s.vm.mem a
  vaddr : s'.heapVaddr = s.heapVaddr

/-- When the request returns null, nothing has changed. -/
def Atomic (s : Heap) (size : Nat) : Prop := ∀ heap, kmalloc s size = some (0, heap) → Unchanged s heap

namespace HeapRun

variable {s : SlabState} {chains free : Nat → List Nat} {pages : Nat → Prop} {top size : Nat}
  {h : List (Entry SlabState HeapEvent)} {heap : Heap}

/-- The direct map shows no free frame at the null page. -/
theorem Inv.unserved (inv : Inv s chains free pages top) {vm : Vm}
    (unserved : Unserved s.heap.vm vm) : s.heap.vm.pmm.freePages = 0 ∧ vm = s.heap.vm := by
  rcases unserved with same | ⟨f, isFree, null⟩
  · exact same
  · exact absurd null (inv.arena.paging.free f isFree)

/-- Sizes that a cache takes are served as long as a frame is left. -/
theorem Inv.kmalloc_served (inv : Inv s chains free pages top)
    (created : ∀ c ∈ s.heap.caches, c.firstSlab ≠ 0) (pos : 1 ≤ size)
    (small : size + allocHeaderSize ≤ slab1024) (left : 1 ≤ s.heap.vm.pmm.freePages) :
    ∃ p heap, kmalloc s.heap size = some (p, heap) ∧ p ≠ 0 := by
  obtain ⟨p, vm, chains', free', done, heap', call, null⟩ :=
    kmalloc_created inv.slabs inv.sizes (Nat.ne_of_gt pos) small
  refine ⟨p, _, done, fun isNull => ?_⟩
  rcases null isNull with unserved | ⟨_, c, member, noSlab⟩
  · have none := (inv.unserved unserved).1
    omega
  · exact created c member noSlab

/-- In every run in which `kernel_heap_vaddr` has not wrapped, a request that the caches, the
frames and the heap's range allow is served if and only if its size is not between 1001 and
1024. -/
theorem kmalloc_complete (run : Run step Started h s) (fits : AllFit h)
    (created : ∀ c ∈ s.heap.caches, c.firstSlab ≠ 0) (pos : 1 ≤ size)
    (small : size + allocHeaderSize + 4095 < 2 ^ 64) (window : slab1024 < size → Window s.heap size)
    (enough : EnoughFor s.heap size) :
    (∃ p heap, kmalloc s.heap size = some (p, heap) ∧ p ≠ 0) ↔ ¬ (1000 < size ∧ size ≤ 1024) := by
  obtain ⟨chains, free, pages, top, inv⟩ := run_good run fits
  rw [EnoughFor] at enough
  constructor
  · rintro ⟨p, heap, done, some⟩ ⟨low, high⟩
    -- no cache takes the size with its header
    have gap : slab1024 < size + allocHeaderSize := by
      dsimp only [slab1024, allocHeaderSize]
      omega
    have null : kmalloc s.heap size = Option.some (0, s.heap) :=
      kmalloc_unserved inv.sizes (.inr ⟨gap, high⟩)
    have pointer : (0 : Nat) = p := congrArg Prod.fst (Option.some.inj (null.symm.trans done))
    exact some pointer.symm
  · intro served
    by_cases large : slab1024 < size
    · rw [if_neg (by omega)] at enough
      obtain ⟨inRange, ends⟩ := window large
      obtain ⟨fitsHere, _⟩ := inv.fits_of_room inRange ends
      obtain ⟨p, heap, done, some, _⟩ := inv.allMapped large fitsHere enough
      exact ⟨p, heap, done, some⟩
    · rw [if_pos (by omega)] at enough
      apply inv.kmalloc_served created pos _ enough
      dsimp only [slab1024, allocHeaderSize] at *
      omega

/-- 100 bytes and 2000 bytes on the small machine. -/
theorem kmalloc_complete_bareHeap : ∃ s, Started s ∧
    (∃ p heap, kmalloc s.heap 100 = some (p, heap) ∧ p ≠ 0) ∧
    ∃ p heap, kmalloc s.heap 2000 = some (p, heap) ∧ p ≠ 0 := by
  obtain ⟨s, started, _, frames, vaddr, created⟩ := started_bareHeap
  have noEvent : AllFit [] := fun x member => absurd member List.not_mem_nil
  have frame : 1 ≤ s.heap.vm.pmm.freePages := by omega
  have window : Window s.heap 2000 := by
    rw [Window, vaddr]
    decide
  refine ⟨s, started, ?_, ?_⟩
  · exact (kmalloc_complete (.start started) noEvent created (by decide) (by decide)
      (fun large => absurd large (by decide)) (show EnoughFor s.heap 100 from frame)).mpr (by decide)
  · exact (kmalloc_complete (.start started) noEvent created (by decide) (by decide)
      (fun _ => window) (enough_one (by decide) (by omega))).mpr (by decide)

/-- 1001 bytes are refused with eight free frames. -/
theorem kmalloc_incomplete : ∃ s, Started s ∧ (∀ c ∈ s.heap.caches, c.firstSlab ≠ 0) ∧
    EnoughFor s.heap 1001 ∧ Window s.heap 1001 ∧ kmalloc s.heap 1001 = some (0, s.heap) := by
  obtain ⟨s, started, _, frames, vaddr, created⟩ := started_bareHeap
  obtain ⟨chains, free, inv⟩ := started.inv
  have frame : 1 ≤ s.heap.vm.pmm.freePages := by omega
  refine ⟨s, started, created, frame, ?_, kmalloc_unserved inv.sizes (.inr (by decide))⟩
  rw [Window, vaddr]
  decide

/-! ### Null results -/

theorem Inv.unchanged (inv : Inv s chains free pages top) : Unchanged s.heap s.heap where
  free f := by
    constructor
    · intro isFree
      exact ⟨isFree, inv.arena.paging.free_not_table isFree⟩
    · exact And.left
  translations _ _ _ _ := rfl
  caches := rfl
  slabs _ _ _ _ _ := rfl
  vaddr := rfl

theorem Inv.atomic_small (inv : Inv s chains free pages top) (isSmall : size ≤ slab1024) :
    Atomic s.heap size := by
  intro heap null
  obtain ⟨p, vm, done, unserved, _⟩ := inv.kmalloc_small isSmall
  have both := Option.some.inj (done.symm.trans null)
  have isNull : p = 0 := congrArg Prod.fst both
  have same : vm = s.heap.vm := (unserved isNull).elim (fun none => (inv.unserved none).2) id
  have heaps : { s.heap with vm := vm } = heap := congrArg Prod.snd both
  rw [← heaps, same]
  exact inv.unchanged

/-- Where the frames run out `kernel_heap_vaddr` is not put back. -/
theorem Inv.not_atomic (inv : Inv s chains free pages top) (large : slab1024 < size)
    (small : size + allocHeaderSize + 4095 < 2 ^ 64) (few : TooFew s.heap size) :
    ¬ Atomic s.heap size := by
  intro atomic
  obtain ⟨vm, done⟩ := inv.tooFew large few
  have same := (atomic _ done).vaddr
  obtain ⟨covers, tight⟩ := pagesCount_bounds small
  have word := inv.vaddr
  dsimp only at same
  unfold wrap64 at same word
  dsimp only [allocHeaderSize, slab1024, pageSize] at *
  omega

/-- In every run in which `kernel_heap_vaddr` has not wrapped, a null result leaves the state
alone if and only if the request is small or there are frames for all its pages. -/
theorem kmalloc_atomic (run : Run step Started h s) (fits : AllFit h)
    (small : size + allocHeaderSize + 4095 < 2 ^ 64) :
    Atomic s.heap size ↔ size ≤ slab1024 ∨ ¬ TooFew s.heap size := by
  obtain ⟨chains, free, pages, top, inv⟩ := run_good run fits
  constructor
  · intro atomic
    by_contra neither
    obtain ⟨large, few⟩ := not_or.mp neither
    exact inv.not_atomic (by omega) small (not_not.mp few) atomic
  · intro holds
    by_cases isSmall : size ≤ slab1024
    · exact inv.atomic_small isSmall
    · intro heap null
      have enough := holds.resolve_left isSmall
      exact absurd rfl (inv.not_null (by omega) enough null).2

/-- 2000 bytes on the small machine. -/
theorem kmalloc_atomic_bareHeap : ∃ s, Started s ∧ Atomic s.heap 2000 := by
  obtain ⟨s, started, _, frames, vaddr, _⟩ := started_bareHeap
  refine ⟨s, started, ?_⟩
  apply (kmalloc_atomic (.start started) (fun x member => absurd member List.not_mem_nil)
    (by decide)).mpr
  right
  intro few
  have less := few.2
  have one : pagesCount 2000 = 1 := by decide
  rw [one, Nat.sub_self, Vm.needed_zero, Finset.card_empty, frames] at less
  omega

/-- Nine pages from eight frames. -/
theorem kmalloc_not_atomic : ∃ s, Started s ∧ ¬ Atomic s.heap 36840 := by
  obtain ⟨s, started, _, frames, vaddr, _⟩ := started_bareHeap
  obtain ⟨chains, free, inv⟩ := started.inv
  refine ⟨s, started, inv.not_atomic (by decide) (by decide) ?_⟩
  have nine : pagesCount 36840 = 9 := by decide
  rw [TooFew, nine, frames]
  omega

end HeapRun

end DedOS
