import DedOS.Mm.HeapInv

/-!
# Every call keeps the heap's invariant

One lemma for each call of `HeapRun.step`. A large `kmalloc` is three steps: the loop over the
pages, the stores of the header, and the block that is handed out; a large `kfree` gives back
what is behind the block's pages.
-/

namespace DedOS

open Lib

namespace HeapRun

variable {s s' : SlabState} {chains chains' free free' : Nat → List Nat} {pages : Nat → Prop}
  {top f size : Nat} {b : Block} {vm : Vm}

/-- The state is in order, with some chains of slabs and some pages. -/
def Good (s : SlabState) : Prop := ∃ chains free pages top, Inv s chains free pages top

/-! ### The start -/

theorem Started.inv (started : Started s) : ∃ chains free, Inv s chains free (fun _ => False) heapBase := by
  obtain ⟨before, boot, done, noBlock, alone⟩ := started
  have paging := boot.paging
  obtain ⟨sizes, only, ⟨vaddr, cr3⟩, chains, free, heap, slabs⟩ :=
    heapInit_created paging.ready paging.hhdm done
  have hhdm : s.heap.vm.hhdm = before.vm.hhdm := only.same.hhdmOffset
  -- `heap_init` writes only frames that it takes
  have effect : FrameEffect before.vm s.heap.vm fun _ => False := by
    refine ⟨only.same, fun f frame used _ a low high => only.bytes a fun g isFree => ?_⟩
    have differ : f ≠ g := by
      rintro rfl
      exact used isFree
    have apart := physToVirt_apart paging.hhdm frame (paging.ready.isFrame isFree) differ
    omega
  obtain ⟨paging', tables, slots, leaf⟩ := effect.tables paging only.ready (fun _ _ none => none)
    fun f isFree => ⟨paging.free_not_table (only.free f isFree), paging.free f (only.free f isFree)⟩
  refine ⟨chains, free, ?_, sizes, ⟨?_, ?_, ?_, fun _ none => none.elim, ?_, fun _ none => none.elim,
    fun _ _ none => none.elim, ?_, ?_⟩, by decide, ?_, fun _ none => none.elim, ?_, ?_⟩
  · rw [noBlock]
    exact heap
  · rw [cr3]
    exact paging'
  · rw [cr3]
    intro q t i short reached present
    rw [tables q (by omega)] at reached
    rw [slots q t i (by omega) reached] at present ⊢
    exact boot.writable q t i short reached present
  · intro v low high
    have same : s.heap.vm.directMapped v ↔ before.vm.directMapped v := by
      unfold Vm.directMapped
      rw [hhdm, only.same.totalPages]
    rw [same]
    exact boot.high v low high
  · -- the slabs are frames that were free, so they are no tables
    intro A isSlab
    obtain ⟨f, isFree, rfl⟩ := slabs A isSlab
    obtain ⟨_, g, frame, isHeld, same⟩ := heap.frame _ isSlab
    change physToVirt before.vm.hhdm f = physToVirt s.heap.vm.hhdm g at same
    rw [hhdm] at same
    obtain rfl := physToVirt_inj (paging.ready.isFrame isFree) frame same
    refine ⟨f, frame, isHeld, by rw [hhdm], ?_⟩
    rw [cr3]
    rintro ⟨q, short, reached⟩
    rw [tables q short] at reached
    exact paging.free_not_table isFree ⟨q, short, reached⟩
  · intro f member
    rw [alone] at member
    exact absurd member List.not_mem_nil
  · rw [alone]
    exact List.nodup_nil
  · rw [vaddr, boot.vaddr]
    rfl
  · intro b member
    rw [noBlock] at member
    exact absurd member List.not_mem_nil
  · rw [noBlock]
    exact List.Pairwise.nil

/-! ### Small blocks -/

/-- No cache serves the sizes between 1001 and 1024. -/
theorem kmalloc_unserved {s : Heap} (sizes : s.caches.map SlabCache.objSize = slabSizes)
    (none : size = 0 ∨ slab1024 < size + allocHeaderSize ∧ size ≤ slab1024) :
    kmalloc s size = some (0, s) := by
  rcases none with rfl | ⟨tooLarge, notLarge⟩
  · rw [kmalloc, if_pos rfl]
  · have nonzero : size ≠ 0 := by
      dsimp only [slab1024, allocHeaderSize] at *
      omega
    have total : wrap64 (size + allocHeaderSize) = size + allocHeaderSize := by
      apply wrap64_of_lt
      dsimp only [slab1024, allocHeaderSize] at *
      omega
    have noCache : (s.caches.find? fun cache => size + allocHeaderSize ≤ cache.objSize) = Option.none := by
      apply List.find?_eq_none.mpr
      intro c member
      have size' : c.objSize ∈ slabSizes := by
        rw [← sizes]
        exact List.mem_map_of_mem member
      have small : ∀ o ∈ slabSizes, o ≤ slab1024 := by decide
      have fits := small _ size'
      rw [decide_eq_true_eq]
      omega
    rw [kmalloc, if_neg nonzero, if_neg (by omega), total, noCache]

theorem Inv.kmalloc_small (inv : Inv s chains free pages top) (small : size ≤ slab1024) :
    ∃ p vm, kmalloc s.heap size = some (p, { s.heap with vm := vm }) ∧
      (p = 0 → Unserved s.heap.vm vm ∨ vm = s.heap.vm) ∧
      ∃ chains' free', Inv { s with
          heap := { s.heap with vm := vm }
          blocks := if p = 0 then s.blocks else ⟨p, size⟩ :: s.blocks } chains' free' pages top ∧
        Stays s.heap.created chains chains' := by
  by_cases served : size ≠ 0 ∧ size + allocHeaderSize ≤ slab1024
  · obtain ⟨p, vm, chains', free', done, heap, call, null⟩ :=
      kmalloc_created inv.slabs inv.sizes served.1 served.2
    refine ⟨p, vm, done, fun isNull => (null isNull).imp_right And.left, chains', free', ?_,
      call.stays⟩
    apply inv.slabCall _ call
    · split
      · rfl
      · rw [largeBlocks, List.filter_cons_of_neg (by simpa using small)]
        rfl
    · split
      next isNull =>
        rw [if_pos isNull] at heap
        exact heap
      next some =>
        rw [if_neg some] at heap
        rw [smallBlocks, List.filter_cons_of_pos (by simpa using small)]
        exact heap
  · refine ⟨0, s.heap.vm, ?_, fun _ => .inr rfl, chains, free, ?_, .refl _ chains⟩
    · apply kmalloc_unserved inv.sizes
      omega
    · rw [if_pos rfl]
      exact inv

theorem Inv.kfree_small (inv : Inv s chains free pages top) (isBlock : b ∈ s.blocks)
    (small : b.size ≤ slab1024) : ∃ vm, kfree s.heap b.ptr = some { s.heap with vm := vm } ∧
      ∃ free', Inv { s with heap := { s.heap with vm := vm }, blocks := s.blocks.erase b }
        chains free' pages top := by
  have member : b ∈ smallBlocks s.blocks := mem_smallBlocks.mpr ⟨isBlock, small⟩
  obtain ⟨vm, free', done, heap, call⟩ := DedOS.kfree_small inv.slabs member
  refine ⟨vm, ?_, free', ?_⟩
  · rw [kfree_created, done]
    rfl
  · apply inv.slabCall _ call
    · rw [largeBlocks, ← List.erase_filter, List.erase_of_not_mem]
      · rfl
      · intro isLarge
        have large := (mem_largeBlocks.mp isLarge).2
        omega
    · rw [smallBlocks, ← List.erase_filter]
      exact heap

theorem Inv.write_small {offset : Nat} (inv : Inv s chains free pages top) (isBlock : b ∈ s.blocks)
    (small : b.size ≤ slab1024) (inside : offset < b.size) (value : UInt8) :
    ∃ vm, s.heap.vm.write s.heap.cr3 1 (b.ptr + offset) value.toNat = some vm ∧
      Inv { s with heap := { s.heap with vm := vm } } chains free pages top := by
  have member : b ∈ smallBlocks s.blocks := mem_smallBlocks.mpr ⟨isBlock, small⟩
  obtain ⟨vm, done, heap, effect⟩ := DedOS.write_small inv.slabs member inside value
  have call : SlabCall s.heap.created chains chains [] vm :=
    ⟨effect, fun _ slab => .inl slab, fun b none => absurd none List.not_mem_nil, .refl _ chains⟩
  exact ⟨vm, done, inv.slabCall heap call rfl⟩

/-! ### Other users of frames -/

theorem Inv.alloc_frame (inv : Inv s chains free pages top) :
    ∃ s', s.call .alloc = some s' ∧ Inv s' chains free pages top := by
  have ready := inv.arena.paging.ready
  rcases ready.alloc with ⟨_, none⟩ | ⟨ptr, pmm, found, taken⟩
  · exact ⟨s, by simp [SlabState.call, none], inv⟩
  · refine ⟨{ s with heap := { s.heap with vm := { s.heap.vm with pmm := pmm } }
                     held := ptr :: s.held }, ?_, ?_⟩
    · simp only [SlabState.call, found, Option.bind_eq_bind, Option.bind_some, if_neg taken.nonzero]
    have effect : FrameEffect s.heap.vm { s.heap.vm with pmm := pmm } fun _ => False :=
      ⟨taken.same, fun _ _ _ _ _ _ _ => rfl⟩
    apply inv.dataCall (fun _ => False) effect taken.ready
    · exact fun _ none => none.elim
    · exact fun g isFree => .inl ((taken.others g).mp isFree).1
    · exact fun _ none => none.elim
    · intro g member
      rcases List.mem_cons.mp member with rfl | old
      · exact .inr ⟨taken.free, taken.nonzero, fun isFree => ((taken.others g).mp isFree).2 rfl⟩
      · exact .inl ⟨old, fun none => none⟩
    · refine List.nodup_cons.mpr ⟨fun member => ?_, inv.arena.distinct⟩
      exact (inv.arena.others ptr member).1.held.not_free taken.free
    · exact fun _ _ _ _ _ _ _ => rfl

theorem Inv.free_frame {ptr : Nat} (inv : Inv s chains free pages top) (member : ptr ∈ s.held) :
    ∃ s', s.call (.free ptr) = some s' ∧ Inv s' chains free pages top := by
  have data := (inv.arena.others ptr member).1
  obtain ⟨pmm, freed, given⟩ := inv.arena.paging.ready.free data.held data.nonzero
  refine ⟨{ s with heap := { s.heap with vm := { s.heap.vm with pmm := pmm } }
                   held := s.held.erase ptr }, ?_, ?_⟩
  · simp only [SlabState.call, freed, Option.bind_eq_bind, Option.bind_some]
  have effect : FrameEffect s.heap.vm { s.heap.vm with pmm := pmm } fun _ => False :=
    ⟨given.same, fun _ _ _ _ _ _ _ => rfl⟩
  apply inv.dataCall (· = ptr) effect given.ready
  · exact fun _ none => none.elim
  · exact fun g isFree => (given.others g).mp isFree
  · rintro g rfl
    exact member
  · intro g kept
    obtain ⟨differ, old⟩ := (inv.arena.distinct.mem_erase_iff).mp kept
    exact .inl ⟨old, differ⟩
  · exact inv.arena.distinct.erase ptr
  · exact fun _ _ _ _ _ _ _ => rfl

theorem Inv.poke {address : Nat} {value : UInt8} (inv : Inv s chains free pages top)
    (allowed : s.Allowed (.poke address value)) :
    ∃ s', s.call (.poke address value) = some s' ∧ Inv s' chains free pages top := by
  obtain ⟨f, member, low, high⟩ := allowed
  obtain ⟨data, away⟩ := inv.arena.others f member
  have hhdm := inv.arena.paging.hhdm
  have bytes : ∀ a, a < physToVirt s.heap.vm.hhdm f ∨ physToVirt s.heap.vm.hhdm f + pageSize ≤ a →
      Function.update s.heap.vm.mem address value a = s.heap.vm.mem a := by
    intro a outside
    apply Function.update_of_ne
    omega
  have effect := FrameEffect.of_store inv.arena.paging.ready hhdm data.frame bytes
  refine ⟨_, rfl, ?_⟩
  apply inv.dataCall (fun _ => False) effect inv.arena.paging.ready
  · rintro g rfl
    exact data
  · exact fun g isFree => .inl isFree
  · exact fun _ none => none.elim
  · exact fun g kept => .inl ⟨kept, fun none => none⟩
  · exact inv.arena.distinct
  · intro b isBlock g mapped a first last
    have first' := (inv.block b isBlock).first
    have owner := inv.arena.dataFrame first' mapped
    have differ : g ≠ f := by
      rintro rfl
      exact away b.header first' mapped
    apply effect.bytes g owner.frame owner.held.not_free differ a first
    dsimp only [pageSize]
    omega

end HeapRun

end DedOS
