import DedOS.Mm.HeapPages

/-!
# Runs over the whole heap

`run_good`: a run in which `kernel_heap_vaddr` does not wrap ends in a state with the
invariant, however many frames were left at each call.
-/

namespace DedOS

open Lib

namespace HeapRun

variable {s s' : SlabState} {chains free : Nat → List Nat} {pages : Nat → Prop} {top : Nat}
  {e : HeapEvent} {h : List (Entry SlabState HeapEvent)}

/-! ### What a call may change -/

theorem kmalloc_small_changes {size p : Nat} {heap heap' : Heap} (small : size ≤ slab1024)
    (done : kmalloc heap size = some (p, heap')) : ∃ vm, heap' = { heap with vm := vm } := by
  rw [kmalloc] at done
  split at done
  · exact ⟨heap.vm, (congrArg Prod.snd (Option.some.inj done)).symm⟩
  · rw [if_neg (by omega)] at done
    split at done
    · exact ⟨heap.vm, (congrArg Prod.snd (Option.some.inj done)).symm⟩
    · rw [kmallocSlab, Option.bind_eq_bind, Option.bind_eq_some_iff] at done
      obtain ⟨⟨header, vm⟩, _, done⟩ := done
      dsimp only at done
      split at done
      · exact ⟨_, (congrArg Prod.snd (Option.some.inj done)).symm⟩
      · exact ⟨_, (congrArg Prod.snd (Option.some.inj done)).symm⟩

/-- A large request moves `kernel_heap_vaddr`, and returns its old value plus the header, or
null. -/
theorem kmalloc_large_changes {size p : Nat} {heap heap' : Heap} (large : slab1024 < size)
    (done : kmalloc heap size = some (p, heap')) : ∃ vm, heap' = { heap with
        vm := vm
        heapVaddr := wrap64 (heap.heapVaddr + wrap64 (pagesCount size * pageSize)) } ∧
      (p = 0 ∨ p = wrap64 (heap.heapVaddr + allocHeaderSize)) := by
  rw [HeapRun.kmalloc_large large, kmallocPages, Option.bind_eq_bind, Option.bind_eq_some_iff] at done
  obtain ⟨⟨complete, vm⟩, _, done⟩ := done
  dsimp only at done
  cases complete with
  | false =>
    have both := Option.some.inj done
    exact ⟨vm, (congrArg Prod.snd both).symm, .inl (congrArg Prod.fst both).symm⟩
  | true =>
    simp only [if_true, Option.bind_eq_bind, Option.bind_eq_some_iff, Option.some.injEq] at done
    obtain ⟨_, _, _, _, vm, _, both⟩ := done
    exact ⟨vm, (congrArg Prod.snd both).symm, .inr (congrArg Prod.fst both).symm⟩

theorem kfree_changes {ptr : Nat} {heap heap' : Heap} (done : kfree heap ptr = some heap') :
    ∃ vm, heap' = { heap with vm := vm } := by
  rw [kfree] at done
  split at done
  · exact ⟨heap.vm, (Option.some.inj done).symm⟩
  · simp only [Option.bind_eq_bind, Option.bind_eq_some_iff] at done
    obtain ⟨magic, _, done⟩ := done
    split at done
    · simp only [kfreeSlab, Option.bind_eq_bind, Option.bind_eq_some_iff, Option.some.injEq] at done
      obtain ⟨_, _, _, _, vm, _, same⟩ := done
      exact ⟨vm, same.symm⟩
    · split at done
      · simp only [Option.bind_eq_some_iff, Option.some.injEq] at done
        obtain ⟨_, _, vm, _, same⟩ := done
        exact ⟨vm, same.symm⟩
      · exact ⟨heap.vm, (Option.some.inj done).symm⟩

/-- Only large requests move `kernel_heap_vaddr`, and a new block is what `kmalloc` returns. -/
theorem step_changes (taken : step s e = some s') : ∃ vm vaddr,
    s'.heap = { s.heap with vm := vm, heapVaddr := vaddr } ∧
    ((∀ size, slab1024 < size → e ≠ .call (.kmalloc size)) → vaddr = s.heap.heapVaddr) ∧
    ∀ b ∈ s'.blocks, b ∈ s.blocks ∨ ∃ heap, e = .call (.kmalloc b.size) ∧
      kmalloc s.heap b.size = some (b.ptr, heap) := by
  have old : ∀ b ∈ s.blocks, b ∈ s.blocks ∨ ∃ heap, e = .call (.kmalloc b.size) ∧
      kmalloc s.heap b.size = some (b.ptr, heap) := fun b member => .inl member
  rw [step] at taken
  split at taken
  · cases e with
    | call e =>
      cases e with
      | kmalloc size =>
        simp only [HeapRun.call, SlabState.call, Option.bind_eq_bind, Option.bind_eq_some_iff,
          Option.some.injEq] at taken
        obtain ⟨⟨p, heap⟩, done, rfl⟩ := taken
        -- a block is handed out unless the result is null
        have handed : ∀ b ∈ (if p = 0 then s.blocks else ⟨p, size⟩ :: s.blocks),
            b ∈ s.blocks ∨ ∃ heap, HeapEvent.call (.kmalloc size) = .call (.kmalloc b.size) ∧
              kmalloc s.heap b.size = some (b.ptr, heap) := by
          intro b member
          split at member
          · exact .inl member
          · rcases List.mem_cons.mp member with rfl | member
            · exact .inr ⟨heap, rfl, done⟩
            · exact .inl member
        by_cases small : size ≤ slab1024
        · obtain ⟨vm, isHeap⟩ := kmalloc_small_changes small done
          exact ⟨vm, _, isHeap, fun _ => rfl, handed⟩
        · obtain ⟨vm, isHeap, _⟩ := kmalloc_large_changes (by omega) done
          exact ⟨vm, _, isHeap, fun other => absurd rfl (other size (by omega)), handed⟩
      | kfree b =>
        simp only [HeapRun.call, SlabState.call, Option.bind_eq_bind, Option.bind_eq_some_iff,
          Option.some.injEq] at taken
        obtain ⟨heap, done, rfl⟩ := taken
        obtain ⟨vm, isHeap⟩ := kfree_changes done
        exact ⟨vm, _, isHeap, fun _ => rfl, fun b' member => old b' (List.mem_of_mem_erase member)⟩
      | write b offset value =>
        simp only [HeapRun.call, SlabState.call, Option.bind_eq_bind, Option.bind_eq_some_iff,
          Option.some.injEq] at taken
        obtain ⟨vm, _, rfl⟩ := taken
        exact ⟨vm, _, rfl, fun _ => rfl, old⟩
      | alloc =>
        simp only [HeapRun.call, SlabState.call, Option.bind_eq_bind, Option.bind_eq_some_iff,
          Option.some.injEq] at taken
        obtain ⟨_, _, rfl⟩ := taken
        exact ⟨_, _, rfl, fun _ => rfl, old⟩
      | free ptr =>
        simp only [HeapRun.call, SlabState.call, Option.bind_eq_bind, Option.bind_eq_some_iff,
          Option.some.injEq] at taken
        obtain ⟨_, _, rfl⟩ := taken
        exact ⟨_, _, rfl, fun _ => rfl, old⟩
      | poke address value =>
        obtain rfl := Option.some.inj taken
        exact ⟨_, _, rfl, fun _ => rfl, old⟩
    | map virt phys flags =>
      simp only [HeapRun.call, Option.bind_eq_bind, Option.bind_eq_some_iff, Option.some.injEq] at taken
      obtain ⟨vm, _, rfl⟩ := taken
      exact ⟨vm, _, rfl, fun _ => rfl, old⟩
    | unmap virt =>
      obtain rfl := Option.some.inj taken
      exact ⟨_, _, rfl, fun _ => rfl, old⟩
  · cases taken

/-! ### The invariant along a run -/

/-- The state after a call, with the slabs of the state before. -/
def Next (s s' : SlabState) (chains : Nat → List Nat) : Prop :=
  ∃ chains' free' pages' top', Inv s' chains' free' pages' top' ∧ Stays s.heap.created chains chains'

/-- A call on the heap itself. -/
theorem Inv.call {e : SlabEvent} (inv : Inv s chains free pages top)
    (allowed : Allowed s (.call e)) (fits : FitsEvent s (.call e)) (called : s.call e = some s') :
    Next s s' chains := by
  cases e with
  | kmalloc size =>
    by_cases small : size ≤ slab1024
    · -- the caches change, the pages do not
      obtain ⟨p, vm, done, _, chains', free', inv', stays⟩ := inv.kmalloc_small small
      simp only [SlabState.call, done, Option.bind_eq_bind, Option.bind_some] at called
      obtain rfl := Option.some.inj called
      exact ⟨_, _, _, _, inv', stays⟩
    · have fits : Fits s.heap size := fits.resolve_left small
      obtain ⟨complete, vm, new, frames, mapped, _, failed | fault | served⟩ :=
        inv.kmalloc_large (by omega) fits
      · -- no frame: null, and the pages mapped so far are lost
        obtain ⟨_, inv', done⟩ := failed
        simp only [SlabState.call, done, Option.bind_eq_bind, Option.bind_some, if_pos] at called
        obtain rfl := Option.some.inj called
        exact ⟨_, _, _, _, inv', .refl _ chains⟩
      · -- the header faults, which is no step
        obtain ⟨_, _, done⟩ := fault
        simp only [SlabState.call, done, Option.bind_eq_bind, Option.bind_none] at called
        cases called
      · obtain ⟨_, f, rest, _, _, _, inv', done⟩ := served
        have some : top + allocHeaderSize ≠ 0 := Nat.succ_ne_zero _
        simp only [SlabState.call, done, Option.bind_eq_bind, Option.bind_some, if_neg some] at called
        obtain rfl := Option.some.inj called
        exact ⟨_, _, _, _, inv', .refl _ chains⟩
  | kfree b =>
    have isBlock : b ∈ s.blocks := allowed
    by_cases small : b.size ≤ slab1024
    · obtain ⟨vm, done, free', inv'⟩ := inv.kfree_small isBlock small
      simp only [SlabState.call, done, Option.bind_eq_bind, Option.bind_some] at called
      obtain rfl := Option.some.inj called
      exact ⟨_, _, _, _, inv', .refl _ chains⟩
    · -- the pages are unmapped and their frames are free again
      obtain ⟨vm, done, _, inv'⟩ := inv.kfree_large (mem_largeBlocks.mpr ⟨isBlock, by omega⟩)
      simp only [SlabState.call, done, Option.bind_eq_bind, Option.bind_some] at called
      obtain rfl := Option.some.inj called
      exact ⟨_, _, _, _, inv', .refl _ chains⟩
  | write b offset value =>
    obtain ⟨isBlock, inside⟩ : b ∈ s.blocks ∧ offset < b.size := allowed
    by_cases small : b.size ≤ slab1024
    · obtain ⟨vm, done, inv'⟩ := inv.write_small isBlock small inside value
      simp only [SlabState.call, done, Option.bind_eq_bind, Option.bind_some] at called
      obtain rfl := Option.some.inj called
      exact ⟨_, _, _, _, inv', .refl _ chains⟩
    · -- a page without a table faults, which is no step
      simp only [SlabState.call, Option.bind_eq_bind, Option.bind_eq_some_iff,
        Option.some.injEq] at called
      obtain ⟨vm, done, rfl⟩ := called
      have room := fits.resolve_left small
      exact ⟨_, _, _, _, inv.write_large (mem_largeBlocks.mpr ⟨isBlock, by omega⟩) room done,
        .refl _ chains⟩
  | alloc =>
    obtain ⟨t, done, inv'⟩ := inv.alloc_frame
    obtain rfl := Option.some.inj (done.symm.trans called)
    exact ⟨_, _, _, _, inv', .refl _ chains⟩
  | free ptr =>
    have isHeld : ptr ∈ s.held := allowed
    obtain ⟨t, done, inv'⟩ := inv.free_frame isHeld
    obtain rfl := Option.some.inj (done.symm.trans called)
    exact ⟨_, _, _, _, inv', .refl _ chains⟩
  | poke address value =>
    obtain ⟨t, done, inv'⟩ := inv.poke allowed
    obtain rfl := Option.some.inj (done.symm.trans called)
    exact ⟨_, _, _, _, inv', .refl _ chains⟩

theorem Inv.step (inv : Inv s chains free pages top) (fits : FitsEvent s e)
    (taken : step s e = some s') : Next s s' chains := by
  unfold HeapRun.step at taken
  split at taken
  · next allowed =>
    cases e with
    | call e => exact inv.call allowed fits taken
    | map virt phys flags =>
      obtain ⟨t, done, inv'⟩ := inv.map allowed.1 allowed.2
      obtain rfl := Option.some.inj (done.symm.trans taken)
      exact ⟨_, _, _, _, inv', .refl _ chains⟩
    | unmap virt =>
      have below : Vm.pageOf virt < Vm.pageOf heapBase := allowed
      obtain ⟨t, done, inv'⟩ := inv.unmap below
      obtain rfl := Option.some.inj (done.symm.trans taken)
      exact ⟨_, _, _, _, inv', .refl _ chains⟩
  · cases taken

/-- Every large request of the run gets pages, without a wrap, and its holder keeps to them. -/
def AllFit (h : List (Entry SlabState HeapEvent)) : Prop := ∀ x ∈ h, FitsEvent x.pre x.event

theorem run_good (run : Run step Started h s) (fits : AllFit h) : Good s := by
  induction run with
  | start started =>
    obtain ⟨chains, free, inv⟩ := started.inv
    exact ⟨chains, free, _, _, inv⟩
  | step before taken ih =>
    obtain ⟨chains, free, pages, top, inv⟩ := ih fun x member =>
      fits x (List.mem_cons_of_mem _ member)
    obtain ⟨_, _, _, _, inv', _⟩ := inv.step (fits _ List.mem_cons_self) taken
    exact ⟨_, _, _, _, inv'⟩

/-! ### A machine with fourteen free frames -/

theorem booted_bareHeap : Booted bareHeap where
  paging := emptyPagemap_paging
  writable := by
    intro q t i _ _ present
    simp [bareHeap, emptyPagemap, Vm.slot, Vm.entry, load] at present
  high := by
    intro v low high direct
    have hhdm : emptyPagemap.hhdm = 0xffff800000000000 := rfl
    have below : virtToPhys emptyPagemap.hhdm v < 16 * pageSize := direct
    rw [hhdm] at below
    unfold virtToPhys wrap64 at below
    dsimp only [heapBase, pageSize] at *
    omega
  vaddr := rfl

/-- `heap_init` on it leaves eight frames. -/
theorem started_bareHeap : ∃ s, Started s ∧ s.blocks = [] ∧ s.heap.vm.pmm.freePages = 8 ∧
    s.heap.heapVaddr = heapBase ∧ (∀ c ∈ s.heap.caches, c.firstSlab ≠ 0) := by
  have evaluated : ((heapInit bareHeap).map fun heap => heap.vm.pmm.freePages == 8 &&
      heap.heapVaddr == heapBase && heap.caches.all (·.firstSlab ≠ 0)) = some true := by
    decide +kernel
  obtain ⟨heap, done, facts⟩ := Option.map_eq_some_iff.mp evaluated
  simp only [Bool.and_eq_true, beq_iff_eq, List.all_eq_true, decide_eq_true_eq] at facts
  exact ⟨⟨heap, [], []⟩, ⟨bareHeap, booted_bareHeap, done, rfl, rfl⟩, rfl, facts.1.1, facts.1.2,
    facts.2⟩

end HeapRun

end DedOS
