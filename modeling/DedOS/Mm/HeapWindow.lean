import DedOS.Mm.Release

/-!
# The address window of large blocks

`kernel_heap_vaddr` only advances. `placed_iff`: in a run without failed allocations all large
blocks lie in the window and apart from the live ones if and only if the sizes of all large
requests so far, freed blocks included, add up to no more than the window.
-/

namespace DedOS

open Lib

/-- The addresses from the first value of `kernel_heap_vaddr` to the end. -/
def heapWindow : Nat := 0x70000000

/-- The size of a block with its header in whole pages, over the integers. -/
def roundUp (size : Nat) : Nat := (size + allocHeaderSize + 4095) / pageSize * pageSize

namespace HeapRun

/-- What a request takes of the window. -/
def virtualSize : HeapEvent → Nat
  | .call (.kmalloc size) => if slab1024 < size then roundUp size else 0
  | _ => 0

/-- What the requests of a run take together. -/
def virtualTotal (h : List (Entry SlabState HeapEvent)) : Nat :=
  (h.map fun x => virtualSize x.event).sum

/-- A large block that is handed out lies in the window and apart from the live large blocks. -/
def Placed (x : Entry SlabState HeapEvent) : Prop :=
  ∀ size p heap, x.event = .call (.kmalloc size) → slab1024 < size →
    kmalloc x.pre.heap size = some (p, heap) →
    heapBase + allocHeaderSize ≤ p ∧ p + size ≤ 2 ^ 64 ∧
    ∀ b ∈ x.pre.blocks, slab1024 < b.size →
      p + size ≤ b.header ∨ b.ptr + b.size + allocHeaderSize ≤ p

/-- No large request fails. -/
def NoFailure (h : List (Entry SlabState HeapEvent)) : Prop :=
  ∀ x ∈ h, ∀ size heap, x.event = .call (.kmalloc size) → slab1024 < size →
    kmalloc x.pre.heap size ≠ some (0, heap)

/-- After requests of `t` bytes the large blocks lie below `kernel_heap_vaddr`. -/
structure Laid (s : SlabState) (t : Nat) : Prop where
  vaddr : s.heap.heapVaddr = wrap64 (heapBase + t)
  aligned : t % pageSize = 0
  block : ∀ b ∈ s.blocks, slab1024 < b.size →
    b.ptr = b.header + allocHeaderSize ∧ heapBase ≤ b.header ∧ b.ptr + b.size ≤ heapBase + t

variable {s s' : SlabState} {t size p ptr : Nat} {e : HeapEvent}
  {h : List (Entry SlabState HeapEvent)} {heap heap' : Heap}

/-- Other calls leave `kernel_heap_vaddr` alone and hand out no large block. -/
theorem step_other (taken : step s e = some s')
    (other : ∀ size, e = .call (.kmalloc size) → size ≤ slab1024) :
    s'.heap.heapVaddr = s.heap.heapVaddr ∧
      ∀ b ∈ s'.blocks, slab1024 < b.size → b ∈ s.blocks := by
  obtain ⟨vm, vaddr, heap, kept, blocks⟩ := step_changes taken
  constructor
  · rw [heap]
    apply kept
    rintro size large rfl
    have small := other size rfl
    omega
  · intro b member large
    rcases blocks b member with old | ⟨_, isCall, _⟩
    · exact old
    · have small := other b.size isCall
      omega

/-! ### Runs -/

theorem Started.laid (started : Started s) : Laid s 0 := by
  obtain ⟨before, boot, done, noBlock, _⟩ := started
  have vaddr : s.heap.heapVaddr = before.heapVaddr := by
    rw [heapInit, Option.bind_eq_bind, Option.bind_eq_some_iff] at done
    obtain ⟨_, _, done⟩ := done
    exact (congrArg Heap.heapVaddr (Option.some.inj done)).symm
  refine ⟨?_, rfl, ?_⟩
  · rw [vaddr, boot.vaddr]
    rfl
  · rw [noBlock]
    intro b member
    exact absurd member List.not_mem_nil

/-- A request that ends in the window begins at an address that has not wrapped. -/
theorem vaddr_window (ends : t + roundUp size ≤ heapWindow) : wrap64 (heapBase + t) = heapBase + t := by
  apply wrap64_of_lt
  unfold roundUp at ends
  dsimp only [allocHeaderSize, heapBase, heapWindow, pageSize] at *
  omega

/-- … and its page count does not overflow. -/
theorem count_window (ends : t + roundUp size ≤ heapWindow) :
    pagesCount size * pageSize = roundUp size := by
  have small : size + allocHeaderSize + 4095 < 2 ^ 64 := by
    unfold roundUp at ends
    dsimp only [allocHeaderSize, heapWindow, pageSize] at *
    omega
  have total : wrap64 (size + allocHeaderSize) = size + allocHeaderSize := wrap64_of_lt (by omega)
  rw [pagesCount, total, wrap64_of_lt small, roundUp]

/-- The block that begins at `kernel_heap_vaddr` is placed if and only if it ends in the window. -/
theorem Laid.request_placed (laid : Laid s t) (inWindow : t ≤ heapWindow) (large : slab1024 < size)
    (done : kmalloc s.heap size = some (p, heap))
    (first : p = wrap64 (heapBase + t) + allocHeaderSize) :
    Placed ⟨s, .call (.kmalloc size), s'⟩ ↔ t + roundUp size ≤ heapWindow := by
  have aligned := laid.aligned
  constructor
  · intro placed
    obtain ⟨low, high, _⟩ := placed size p heap rfl large done
    rw [first] at low high
    unfold wrap64 at low high
    unfold roundUp
    dsimp only [allocHeaderSize, heapBase, heapWindow, pageSize] at *
    omega
  · intro ends size' p' heap' same large' done'
    cases same
    have pointers : p = p' := congrArg Prod.fst (Option.some.inj (done.symm.trans done'))
    subst pointers
    rw [vaddr_window ends] at first
    refine ⟨by omega, ?_, ?_⟩
    · unfold roundUp at ends
      dsimp only [allocHeaderSize, heapBase, heapWindow, pageSize] at *
      omega
    · intro b member isLarge
      have old := (laid.block b member isLarge).2.2
      exact .inr (by omega)

/-- Behind a block that ends in the window the blocks are laid out as before. -/
theorem Laid.handOut {vm : Vm} (laid : Laid s t) (ends : t + roundUp size ≤ heapWindow)
    (first : p = wrap64 (heapBase + t) + allocHeaderSize) :
    Laid { s with
      heap := { s.heap with
        vm := vm
        heapVaddr := wrap64 (s.heap.heapVaddr + wrap64 (pagesCount size * pageSize)) }
      blocks := ⟨p, size⟩ :: s.blocks } (t + roundUp size) := by
  -- inside the window nothing wraps
  have inRange := vaddr_window ends
  have aligned := laid.aligned
  rw [inRange] at first
  refine ⟨?_, ?_, ?_⟩
  · dsimp only
    rw [count_window ends, laid.vaddr, inRange]
    unfold wrap64
    dsimp only [heapBase, heapWindow] at *
    omega
  · unfold roundUp
    dsimp only [pageSize] at *
    omega
  · intro b member isLarge
    rcases List.mem_cons.mp member with rfl | old
    · have header : (⟨p, size⟩ : Block).header = heapBase + t := by
        rw [Block.header, first, Nat.add_sub_cancel]
      rw [header]
      refine ⟨first, Nat.le_add_right _ _, ?_⟩
      dsimp only
      rw [first]
      unfold roundUp
      dsimp only [allocHeaderSize, pageSize] at *
      omega
    · obtain ⟨ptr, low, high⟩ := laid.block b old isLarge
      exact ⟨ptr, low, by omega⟩

/-- A large request seen from the window: it is placed if and only if it ends in the window. -/
theorem Laid.large (laid : Laid s t) (inWindow : t ≤ heapWindow) (large : slab1024 < size)
    (taken : step s (.call (.kmalloc size)) = some s')
    (success : ∀ heap, kmalloc s.heap size ≠ some (0, heap)) :
    (Placed ⟨s, .call (.kmalloc size), s'⟩ ↔ t + roundUp size ≤ heapWindow) ∧
      (t + roundUp size ≤ heapWindow → Laid s' (t + roundUp size)) := by
  rw [step] at taken
  split at taken
  · simp only [call, SlabState.call, Option.bind_eq_bind, Option.bind_eq_some_iff,
      Option.some.injEq] at taken
    obtain ⟨⟨p, heap⟩, done, after⟩ := taken
    dsimp only at after
    obtain ⟨vm, isHeap, null | pointer⟩ := kmalloc_large_changes large done
    · subst null
      exact absurd done (success heap)
    have some : p ≠ 0 := fun isNull => success heap (isNull ▸ done)
    rw [if_neg some] at after
    -- the block begins at `kernel_heap_vaddr`
    have first : p = wrap64 (heapBase + t) + allocHeaderSize := by
      have aligned := laid.aligned
      rw [pointer, laid.vaddr]
      unfold wrap64
      dsimp only [allocHeaderSize, heapBase, heapWindow, pageSize] at *
      omega
    refine ⟨laid.request_placed inWindow large done first, fun ends => ?_⟩
    rw [← after, isHeap]
    exact laid.handOut ends first
  · cases taken

/-- Every other call takes nothing of the window. -/
theorem Laid.other (laid : Laid s t) (taken : step s e = some s')
    (other : ∀ size, e = .call (.kmalloc size) → size ≤ slab1024) :
    virtualSize e = 0 ∧ Placed ⟨s, e, s'⟩ ∧ Laid s' t := by
  obtain ⟨vaddr, blocks⟩ := step_other taken other
  refine ⟨?_, ?_, vaddr.trans laid.vaddr, laid.aligned, ?_⟩
  · unfold virtualSize
    split
    · exact if_neg (Nat.not_lt.mpr (other _ rfl))
    · rfl
  · intro size p heap same large
    have small := other size same
    omega
  · intro b member isLarge
    exact laid.block b (blocks b member isLarge) isLarge

theorem virtualTotal_cons (x : Entry SlabState HeapEvent) :
    virtualTotal (x :: h) = virtualTotal h + virtualSize x.event := by
  rw [virtualTotal, List.map_cons, List.sum_cons, Nat.add_comm, virtualTotal]

theorem laid_of_run (run : Run step Started h s) (success : NoFailure h) :
    ((∀ x ∈ h, Placed x) ↔ virtualTotal h ≤ heapWindow) ∧
      (virtualTotal h ≤ heapWindow → Laid s (virtualTotal h)) := by
  induction run with
  | start started =>
    refine ⟨⟨fun _ => Nat.zero_le _, fun _ x member => absurd member List.not_mem_nil⟩, fun _ => ?_⟩
    exact started.laid
  | @step h s s' e before taken ih =>
    obtain ⟨placed, laid⟩ := ih fun x member => success x (List.mem_cons_of_mem _ member)
    rw [virtualTotal_cons, List.forall_mem_cons, placed]
    have earlier : virtualTotal h + virtualSize e ≤ heapWindow → virtualTotal h ≤ heapWindow :=
      fun ends => Nat.le_trans (Nat.le_add_right _ _) ends
    by_cases other : ∀ size, e = .call (.kmalloc size) → size ≤ slab1024
    · refine ⟨⟨fun both => ?_, fun ends => ?_⟩, fun ends => ?_⟩
      · obtain ⟨nothing, _⟩ := (laid both.2).other taken other
        exact nothing ▸ both.2
      · exact ⟨((laid (earlier ends)).other taken other).2.1, earlier ends⟩
      · obtain ⟨nothing, _, after⟩ := (laid (earlier ends)).other taken other
        exact nothing ▸ after
    · -- a large request
      obtain ⟨size, isLarge⟩ := not_forall.mp other
      obtain ⟨rfl, large⟩ := Classical.not_imp.mp isLarge
      rw [Nat.not_le] at large
      have size' : virtualSize (.call (.kmalloc size)) = roundUp size := if_pos large
      have now := fun heap => success _ List.mem_cons_self size heap rfl large
      rw [size'] at earlier ⊢
      refine ⟨⟨fun both => ?_, fun ends => ?_⟩, fun ends => ?_⟩
      · exact ((laid both.2).large both.2 large taken now).1.mp both.1
      · exact ⟨((laid (earlier ends)).large (earlier ends) large taken now).1.mpr ends, earlier ends⟩
      · exact ((laid (earlier ends)).large (earlier ends) large taken now).2 ends

/-- In every run in which no large request fails, all large blocks are placed in the window and
apart from each other if and only if the requests add up to no more than the window. -/
theorem placed_iff (run : Run step Started h s) (success : NoFailure h) :
    (∀ x ∈ h, Placed x) ↔ virtualTotal h ≤ heapWindow := (laid_of_run run success).1

/-- One block of 2000 bytes. -/
theorem placed_iff_one_block : ∃ h s, Run step Started h s ∧ h ≠ [] ∧ ∀ x ∈ h, Placed x := by
  obtain ⟨s, s', p, started, _, done, some, _, _, taken⟩ :=
    one_page (by decide : slab1024 < 2000) (by decide) (by decide)
  have success : NoFailure [⟨s, .call (.kmalloc 2000), s'⟩] := by
    intro x isEntry size heap' same large null
    obtain rfl := List.mem_singleton.mp isEntry
    cases same
    exact some (congrArg Prod.fst (Option.some.inj (done.symm.trans null)))
  refine ⟨_, _, .step (.start started) taken, List.cons_ne_nil _ _, ?_⟩
  apply (placed_iff (.step (.start started) taken) success).mpr
  have inWindow : 0 + virtualSize (.call (.kmalloc 2000)) ≤ heapWindow := by decide
  rwa [virtualTotal_cons]

/-- The block of `kmalloc(2^64 - 1)` does not end in the window. -/
theorem huge_block_not_placed : ∃ h s, Run step Started h s ∧ NoFailure h ∧ ¬ ∀ x ∈ h, Placed x := by
  obtain ⟨s, s', p, started, _, done, some, _, _, taken⟩ :=
    one_page (by decide : slab1024 < 2 ^ 64 - 1) (by decide) (by decide)
  have success : NoFailure [⟨s, .call (.kmalloc (2 ^ 64 - 1)), s'⟩] := by
    intro x isEntry size heap' same large null
    obtain rfl := List.mem_singleton.mp isEntry
    cases same
    exact some (congrArg Prod.fst (Option.some.inj (done.symm.trans null)))
  refine ⟨_, _, .step (.start started) taken, success, fun placed => ?_⟩
  have low := placed _ List.mem_cons_self _ p s'.heap rfl (by decide) done
  dsimp only [heapBase, allocHeaderSize] at low
  omega

end HeapRun

end DedOS
