import DedOS.Mm.SlabHeap

/-!
# Calls on the slab caches

Specifications of `kmalloc` and `kfree` for objects, of writes by the holders of blocks, and
of `heap_init`: each keeps the representation of `SlabHeap` and the bytes of the other
blocks, and touches nothing but pages of slabs and of frames that were free.
-/

namespace DedOS

open Lib

variable {s : Heap} {vm : Vm} {blocks : List Block} {chains free : Nat → List Nat}
  {A B a h x : Nat} {b : Block} {c : SlabCache}

/-! ### Places -/

namespace SlabHeap

/-- A block, header included, stays clear of every slot but its own. -/
theorem block_apart (heap : SlabHeap s blocks chains free) (isBlock : b ∈ blocks)
    (member : c ∈ s.caches) (slab : B ∈ chains c.objSize) (slot : x ∈ slots B c.objSize)
    (differ : x ≠ b.header) : b.ptr + b.size ≤ x ∨ x + c.objSize ≤ b.header := by
  obtain ⟨c', cached, slab', slot', fits⟩ := heap.owner isBlock
  have ptr := (heap.block b isBlock).1
  dsimp only [allocHeaderSize] at ptr fits
  by_cases same : b.header &&& frameMask = B
  · rw [same] at slab' slot'
    obtain rfl := heap.same_cache cached slab' member slab
    have apart := slot_apart slot slot' differ
    omega
  · have apart := page_apart (heap.aligned ⟨c', cached, slab'⟩) (heap.aligned ⟨c, member, slab⟩) same
    obtain ⟨first, last⟩ := slot_bounds slot
    obtain ⟨first', last'⟩ := slot_bounds slot'
    dsimp only [pageSize, slabHeaderSize] at *
    omega

/-- A block stays clear of the slab headers. -/
theorem block_apart_header (heap : SlabHeap s blocks chains free) (isBlock : b ∈ blocks)
    (slab : IsSlab s.caches chains B) :
    b.ptr + b.size ≤ B ∨ B + slabHeaderSize ≤ b.header := by
  obtain ⟨c, cached, slab', slot, fits⟩ := heap.owner isBlock
  have ptr := (heap.block b isBlock).1
  obtain ⟨first, last⟩ := slot_bounds slot
  have apart : b.header &&& frameMask = B ∨ _ := or_iff_not_imp_left.mpr
    (page_apart (heap.aligned ⟨c, cached, slab'⟩) (heap.aligned slab))
  dsimp only [pageSize, slabHeaderSize, allocHeaderSize] at *
  omega

/-- A live header is no free slot. -/
theorem header_not_free (heap : SlabHeap s blocks chains free) (isBlock : b ∈ blocks)
    (member : c ∈ s.caches) (slab : B ∈ chains c.objSize) (isFree : x ∈ free B) :
    x ≠ b.header := by
  rintro rfl
  have page := heap.page c member B slab
  have size := heap.sized c member
  have slot := page.mem_free isFree
  have mask := slot_mask (heap.aligned ⟨c, member, slab⟩) (heap.frame B ⟨c, member, slab⟩).lt
    (by omega) slot
  have isLive : b.header ∈ liveIn blocks B := by
    rw [liveIn, List.mem_filter]
    exact ⟨List.mem_map_of_mem isBlock, by simpa using mask⟩
  exact (List.nodup_append.mp (page.nodup (by omega))).2.2 _ isFree _ isLive rfl

end SlabHeap

/-! ### kmalloc -/

/-- What a call on the caches changes, up to the bytes of the `kept` blocks. -/
structure SlabCall (s : Heap) (chains chains' : Nat → List Nat) (kept : List Block) (vm : Vm) :
    Prop where
  effect : SlabEffect s.vm vm (IsSlab s.caches chains)
  slabs : ∀ A, IsSlab s.caches chains' A →
    IsSlab s.caches chains A ∨ ∃ f, s.vm.pmm.Free f ∧ A = physToVirt s.vm.hhdm f
  kept : KeepsBlocks kept s.vm.mem vm.mem
  stays : Stays s chains chains'

theorem liveIn_cons : liveIn (b :: blocks) A =
    if b.header &&& frameMask = A then b.header :: liveIn blocks A else liveIn blocks A := by
  rw [liveIn, List.map_cons, List.filter_cons]
  simp only [decide_eq_true_eq]
  rfl

/-- Memory after `kmalloc` has taken the head `object` of a slab's list. -/
def takeObject (m : Memory) (slab object size : Nat) : Memory :=
  store 8 (store 4 (store 8 m (slab + 8) (load 8 m object)) object magicSlab) (object + 16) size

/-- Taking the object `h` off the list of the slab `B` and writing its header. -/
theorem SlabHeap.take {size : Nat} {rest : List Nat} (heap : SlabHeap s blocks chains free)
    (member : c ∈ s.caches) (slab : B ∈ chains c.objSize) (objects : free B = h :: rest)
    (fits : size + allocHeaderSize ≤ c.objSize)
    (written : vm = { s.vm with mem := takeObject s.vm.mem B h size }) :
    SlabHeap { s with vm := vm } (⟨h + allocHeaderSize, size⟩ :: blocks) chains
      (Function.update free B rest) ∧ KeepsBlocks blocks s.vm.mem vm.mem ∧
      ∀ a, a < B ∨ B + pageSize ≤ a → vm.mem a = s.vm.mem a := by
  have isSlab : IsSlab s.caches chains B := ⟨c, member, slab⟩
  have page := heap.page c member B slab
  rw [objects] at page
  have sizes := heap.sized c member
  have slot := page.mem_free List.mem_cons_self
  obtain ⟨first, last⟩ := slot_bounds slot
  dsimp only [allocHeaderSize, slabHeaderSize, pageSize] at fits first last
  -- the bytes written: `free_list`, then `magic` and `size` of the header
  have bytes : ∀ a, (a < B + 8 ∨ B + 16 ≤ a) → (a < h ∨ h + 24 ≤ a) → vm.mem a = s.vm.mem a := by
    intro a offList offHeader
    rw [written]
    dsimp only [takeObject]
    rw [store_outside (by omega), store_outside (by omega), store_outside (by omega)]
  have mask : h &&& frameMask = B :=
    slot_mask (heap.aligned isSlab) (heap.frame B isSlab).lt (by omega) slot
  have header : (⟨h + allocHeaderSize, size⟩ : Block).header = h := by
    simp [Block.header]
  have outside : ∀ a, a < B ∨ B + pageSize ≤ a → vm.mem a = s.vm.mem a := by
    intro a away
    dsimp only [pageSize] at away
    exact bytes a (by omega) (by omega)
  refine ⟨?_, ?_, outside⟩
  · apply heap.update member slab (by rw [written]) outside
    · apply link_congr
      intro a low high
      exact bytes a (by omega) (by omega)
    · rw [liveIn_cons, header, if_pos mask]
      apply page.pop (by omega)
      · rw [← page.objSize]
        apply load_congr
        intro a low high
        exact bytes a (by omega) (by omega)
      · rw [written]
        dsimp only [takeObject]
        rw [load_store_disjoint (by omega), load_store_disjoint (by omega)]
        exact load_store_same (load_lt 8 _ _)
      · rw [written]
        dsimp only [takeObject]
        rw [load_store_disjoint (by omega)]
        exact load_store_same (by decide)
      · intro x other differ a low high
        have apart := slot_apart other slot differ
        obtain ⟨behind, _⟩ := slot_bounds other
        dsimp only [slabHeaderSize] at behind
        exact bytes a (by omega) (by omega)
    · intro B' differ
      rw [liveIn_cons, header, mask, if_neg fun same => differ same.symm]
    · intro b' isBlock
      rcases List.mem_cons.mp isBlock with rfl | old
      · right
        rw [header]
        exact ⟨rfl, mask, fits⟩
      · exact .inl old
  · intro b isBlock a low high
    have ptr := (heap.block b isBlock).1
    have notFree := heap.header_not_free isBlock member slab (x := h) (by
      rw [objects]
      exact List.mem_cons_self)
    have offHeader := heap.block_apart_header isBlock isSlab
    have offSlot := heap.block_apart isBlock member slab slot notFree
    dsimp only [allocHeaderSize, slabHeaderSize] at ptr offHeader
    exact bytes a (by omega) (by omega)

/-- `kmalloc` from a cache returns a new block, or null when its slabs are full and no frame
is left. -/
theorem kmallocSlab_spec {size : Nat} (heap : SlabHeap s blocks chains free)
    (member : c ∈ s.caches) (fits : size + allocHeaderSize ≤ c.objSize) :
    ∃ p vm chains' free', kmallocSlab s c size = some (p, { s with vm := vm }) ∧
      SlabHeap { s with vm := vm } (if p = 0 then blocks else ⟨p, size⟩ :: blocks) chains' free' ∧
      SlabCall s chains chains' blocks vm ∧ (p = 0 → Unserved s.vm vm) := by
  obtain ⟨after, nodes⟩ := heap.first_node member
  have enough : (c.firstSlab :: after).length ≤ s.vm.pmm.totalPages := by
    have all := heap.chain_length_le member
    rwa [nodes] at all
  obtain ⟨vm, chains', free', extended, ⟨none, unserved⟩ | ⟨B, h, rest, slab, objects, found⟩⟩ :=
    findObject_spec heap member nodes enough
  · -- neither a free object nor a new slab
    refine ⟨0, vm, chains', free', ?_, extended.heap, ⟨extended.effect, extended.slabs,
      extended.kept, extended.stays⟩, fun _ => unserved⟩
    rw [kmallocSlab, none]
    rfl
  · -- the object `h` at the head of the free list of `B`
    have page := extended.heap.page c member B slab
    have slot := page.mem_free (x := h) (by
      rw [objects]
      exact List.mem_cons_self)
    obtain ⟨first, last⟩ := slot_bounds slot
    have small := (extended.heap.frame B ⟨c, member, slab⟩).lt
    have aligned := extended.heap.aligned ⟨c, member, slab⟩
    dsimp only [slabHeaderSize, pageSize] at first last aligned
    have sizes := heap.sized c member
    have nonzero : h ≠ 0 := by omega
    have word : h + allocHeaderSize < 2 ^ 64 := by
      dsimp only [allocHeaderSize]
      omega
    have returned : h + allocHeaderSize ≠ 0 := by
      dsimp only [allocHeaderSize]
      omega
    obtain ⟨vm', written⟩ : ∃ vm', vm' = ({ vm with mem := takeObject vm.mem B h size } : Vm) := ⟨_, rfl⟩
    -- taking it writes the header of the block and the counter of the slab
    obtain ⟨taken, kept, outside⟩ := extended.heap.take member slab objects fits written
    refine ⟨h + allocHeaderSize, vm', chains', Function.update free' B rest, ?_, ?_,
      ⟨?_, extended.slabs, ?_, extended.stays⟩, fun null => absurd null returned⟩
    · rw [kmallocSlab, found, written]
      simp only [Option.bind_eq_bind, Option.bind_some, if_neg nonzero, wrap64_of_lt word]
      rfl
    · rw [if_neg returned]
      exact taken
    · have samePmm : vm'.pmm = vm.pmm := by rw [written]
      refine ⟨by rw [samePmm]; exact extended.effect.pmm, fun a away offFree => ?_⟩
      rw [← extended.effect.bytes a away offFree]
      apply outside
      -- the slab is an older one or the new one, in a frame that was free
      rcases extended.slabs B ⟨c, member, slab⟩ with old | ⟨f, isFree, rfl⟩
      · exact away B old
      · exact offFree f isFree
    · intro b isBlock a low high
      rw [← extended.kept b isBlock a low high]
      exact kept b isBlock a low high

/-- The heap with the caches that have got a slab. -/
def Heap.created (s : Heap) : Heap :=
  { s with caches := s.caches.filter fun cache => cache.firstSlab ≠ 0 }

/-- Every cache that is represented has a slab. -/
theorem SlabHeap.firstSlab_ne (heap : SlabHeap s blocks chains free) (member : c ∈ s.caches) :
    c.firstSlab ≠ 0 := by
  have chain := heap.chain c member
  cases nodes : chains c.objSize with
  | nil =>
    rw [nodes, chain_nil] at chain
    cases chain
  | cons A after =>
    rw [nodes, chain_cons] at chain
    rw [Option.some.inj chain.1]
    exact (heap.frame A ⟨c, member, by rw [nodes]; exact List.mem_cons_self⟩).nonnull

theorem SlabHeap.created_eq (heap : SlabHeap s blocks chains free) : s.created = s := by
  have all : s.caches.filter (fun cache => cache.firstSlab ≠ 0) = s.caches := by
    apply List.filter_eq_self.mpr
    intro c member
    simpa using heap.firstSlab_ne member
  rw [Heap.created, all]

/-- `kmalloc` from one cache does not look at the others. -/
theorem kmallocSlab_created (size : Nat) : kmallocSlab s c size =
    (kmallocSlab s.created c size).map fun r => (r.1, { s with vm := r.2.vm }) := by
  rw [kmallocSlab, kmallocSlab, Heap.created]
  dsimp only
  cases findObject c.objSize s.vm.pmm.totalPages c.firstSlab s.vm with
  | none => rfl
  | some found =>
    rw [Option.bind_eq_bind, Option.bind_some, Option.bind_some]
    split <;> rfl

/-- Every size up to 1000 finds a cache; it may be one without a slab. -/
theorem kmalloc_created {size : Nat} (heap : SlabHeap s.created blocks chains free)
    (sizes : s.caches.map SlabCache.objSize = slabSizes) (some : size ≠ 0)
    (fits : size + allocHeaderSize ≤ slab1024) :
    ∃ p vm chains' free', kmalloc s size = Option.some (p, { s with vm := vm }) ∧
      SlabHeap { s.created with vm := vm } (if p = 0 then blocks else ⟨p, size⟩ :: blocks) chains'
        free' ∧
      SlabCall s.created chains chains' blocks vm ∧
      (p = 0 → Unserved s.vm vm ∨ vm = s.vm ∧ ∃ c ∈ s.caches, c.firstSlab = 0) := by
  dsimp only [slab1024, allocHeaderSize] at fits
  have total : wrap64 (size + allocHeaderSize) = size + allocHeaderSize := by
    apply wrap64_of_lt
    dsimp only [allocHeaderSize]
    omega
  have notLarge : ¬ size > slab1024 := by
    dsimp only [slab1024]
    omega
  cases found : s.caches.find? fun cache => size + allocHeaderSize ≤ cache.objSize with
  | none =>
    -- the last cache is large enough
    have last : slab1024 ∈ s.caches.map SlabCache.objSize := by
      rw [sizes]
      decide
    obtain ⟨c, member, size1024⟩ := List.mem_map.mp last
    have tooSmall := List.find?_eq_none.mp found c member
    rw [size1024, decide_eq_true_eq] at tooSmall
    exact absurd fits tooSmall
  | some c =>
    have member := List.mem_of_find?_eq_some found
    have enough := List.find?_some found
    rw [decide_eq_true_eq] at enough
    have served : kmalloc s size = kmallocSlab s c size := by
      rw [kmalloc, if_neg some, if_neg notLarge, total, found]
    by_cases null : c.firstSlab = 0
    · refine ⟨0, s.vm, chains, free, ?_, heap, ⟨.refl _ _, fun _ slab => .inl slab,
        fun _ _ _ _ _ => rfl, .refl _ _⟩, fun _ => .inr ⟨rfl, c, member, null⟩⟩
      rw [served, kmallocSlab, null, findObject_null]
      rfl
    · have isCreated : c ∈ s.created.caches := List.mem_filter.mpr ⟨member, by simpa using null⟩
      obtain ⟨p, vm, chains', free', done, heap', call, unserved⟩ :=
        kmallocSlab_spec heap isCreated enough
      refine ⟨p, vm, chains', free', ?_, heap', call, fun isNull => .inl (unserved isNull)⟩
      rw [served, kmallocSlab_created, done]
      rfl

theorem kmalloc_small {size : Nat} (heap : SlabHeap s blocks chains free)
    (sizes : s.caches.map SlabCache.objSize = slabSizes) (some : size ≠ 0)
    (fits : size + allocHeaderSize ≤ slab1024) :
    ∃ p vm chains' free', kmalloc s size = Option.some (p, { s with vm := vm }) ∧
      SlabHeap { s with vm := vm } (if p = 0 then blocks else ⟨p, size⟩ :: blocks) chains' free' ∧
      SlabCall s chains chains' blocks vm := by
  have same := heap.created_eq
  obtain ⟨p, vm, chains', free', done, heap', call, _⟩ := kmalloc_created
    (same.symm ▸ heap) sizes some fits
  rw [same] at heap' call
  exact ⟨p, vm, chains', free', done, heap', call⟩

/-! ### kfree -/

/-- Slab pages are reached through the direct map. -/
theorem SlabFrame.direct {s : Vm} (frame : SlabFrame s A) (ready : s.pmm.Ready) (low : A ≤ a)
    (high : a < A + pageSize) : s.directMapped a := by
  obtain ⟨_, f, _, ⟨page, below, rfl, _⟩, rfl⟩ := frame
  have bounded := ready.wf.bounded
  unfold Vm.directMapped virtToPhys
  unfold physToVirt wrap64 at *
  dsimp only [pageSize] at *
  omega

theorem Vm.read_direct {s : Vm} {root n : Nat} (direct : s.directMapped a) :
    s.read root n a = some (load n s.mem a) := by
  rw [read, resolve, if_pos direct, Option.map_some]

theorem Vm.write_direct {s : Vm} {root n value : Nat} (direct : s.directMapped a) :
    s.write root n a value = some { s with mem := store n s.mem a value } := by
  rw [write, resolve, if_pos direct, Option.map_some]

/-- Memory after `kfree` has put the object back at the head of its slab's list. -/
def giveObject (m : Memory) (slab object : Nat) : Memory :=
  store 8 (store 8 m object (load 8 m (slab + 8))) (slab + 8) object

theorem liveIn_erase (isBlock : b ∈ blocks) : (liveIn blocks A).Perm
    (if b.header &&& frameMask = A then b.header :: liveIn (blocks.erase b) A
      else liveIn (blocks.erase b) A) := by
  rw [← liveIn_cons]
  exact ((List.perm_cons_erase isBlock).map Block.header).filter _

/-- No other block has the header of `b`. -/
theorem SlabHeap.header_erase {b' : Block} (heap : SlabHeap s blocks chains free)
    (isBlock : b ∈ blocks) (kept : b' ∈ blocks.erase b) : b.header ≠ b'.header := by
  obtain ⟨c, member, slab, _, _⟩ := heap.owner isBlock
  have sizes := heap.sized c member
  have page := (heap.page c member _ slab).perm (liveIn_erase isBlock)
  rw [if_pos rfl] at page
  -- the other blocks' headers in this slab are the ones after `b.header`
  intro same
  have isLive : b'.header ∈ liveIn (blocks.erase b) (b.header &&& frameMask) := by
    rw [liveIn, List.mem_filter]
    refine ⟨List.mem_map_of_mem kept, ?_⟩
    rw [← same, decide_eq_true_eq]
  have nodup := (List.nodup_append.mp (page.nodup (by omega))).2.1
  rw [← same] at isLive
  exact (List.nodup_cons.mp nodup).1 isLive

/-- Putting the header of `b` back on the list of its slab. -/
theorem SlabHeap.give (heap : SlabHeap s blocks chains free) (isBlock : b ∈ blocks)
    (written : vm = { s.vm with mem := giveObject s.vm.mem (b.header &&& frameMask) b.header }) :
    (∃ free', SlabHeap { s with vm := vm } (blocks.erase b) chains free') ∧
      SlabCall s chains chains (blocks.erase b) vm := by
  obtain ⟨c, member, slab, slot, fits⟩ := heap.owner isBlock
  obtain ⟨A, isA⟩ : ∃ A, A = b.header &&& frameMask := ⟨_, rfl⟩
  rw [← isA] at slab slot written
  have isSlab : IsSlab s.caches chains A := ⟨c, member, slab⟩
  have sizes := heap.sized c member
  have page : SlabPage s.vm.mem c.objSize A (free A) (b.header :: liveIn (blocks.erase b) A) := by
    apply (heap.page c member A slab).perm
    have split := liveIn_erase (A := A) isBlock
    rwa [if_pos isA.symm] at split
  obtain ⟨first, last⟩ := slot_bounds slot
  have word := (heap.frame A isSlab).lt
  have aligned := heap.aligned isSlab
  dsimp only [allocHeaderSize, slabHeaderSize, pageSize] at fits first last aligned
  -- the bytes written: the object's link and `free_list`
  have bytes : ∀ a, (a < A + 8 ∨ A + 16 ≤ a) → (a < b.header ∨ b.header + 8 ≤ a) →
      vm.mem a = s.vm.mem a := by
    intro a offList offHeader
    rw [written]
    dsimp only [giveObject]
    rw [store_outside (by omega), store_outside (by omega)]
  have outside : ∀ a, a < A ∨ A + pageSize ≤ a → vm.mem a = s.vm.mem a := by
    intro a away
    dsimp only [pageSize] at away
    exact bytes a (by omega) (by omega)
  refine ⟨⟨Function.update free A (b.header :: free A), ?_⟩, ⟨.inl (by rw [written]), ?_⟩,
    fun _ slab => .inl slab, ?_, .refl s chains⟩
  · apply heap.update member slab (by rw [written]) outside
    · apply link_congr
      intro a low high
      exact bytes a (by omega) (by omega)
    · apply page.push (by omega) (by omega)
      · rw [← page.objSize]
        apply load_congr
        intro a low high
        exact bytes a (by omega) (by omega)
      · rw [written]
        dsimp only [giveObject]
        exact load_store_same (by omega)
      · rw [written]
        dsimp only [giveObject]
        rw [load_store_disjoint (by omega)]
        exact load_store_same (load_lt 8 _ _)
      · intro x other differ a low high
        have apart := slot_apart other slot differ
        obtain ⟨behind, _⟩ := slot_bounds other
        dsimp only [slabHeaderSize] at behind
        exact bytes a (by omega) (by omega)
    · intro B differ
      have split := liveIn_erase (A := B) isBlock
      rwa [if_neg fun same => differ (same.symm.trans isA.symm)] at split
    · intro b' kept
      exact .inl (List.mem_of_mem_erase kept)
  · intro a away _
    exact outside a (away A isSlab)
  · intro b' kept a low high
    have isBlock' := List.mem_of_mem_erase kept
    have ptr := (heap.block b' isBlock').1
    have offHeader := heap.block_apart_header isBlock' isSlab
    have differ := heap.header_erase isBlock kept
    have offSlot := heap.block_apart isBlock' member slab slot differ
    dsimp only [allocHeaderSize, slabHeaderSize] at ptr offHeader
    exact bytes a (by omega) (by omega)

/-- `kfree` of a block finds its slab by the mask and returns the object to it. -/
theorem kfree_small (heap : SlabHeap s blocks chains free) (isBlock : b ∈ blocks) :
    ∃ vm free', kfree s b.ptr = some { s with vm := vm } ∧
      SlabHeap { s with vm := vm } (blocks.erase b) chains free' ∧
      SlabCall s chains chains (blocks.erase b) vm := by
  obtain ⟨c, member, slab, slot, fits⟩ := heap.owner isBlock
  obtain ⟨A, isA⟩ : ∃ A, A = b.header &&& frameMask := ⟨_, rfl⟩
  have ptr := (heap.block b isBlock).1
  obtain ⟨⟨free', given⟩, call⟩ := heap.give isBlock rfl
  rw [← isA] at slab slot given call
  have frame := heap.frame A ⟨c, member, slab⟩
  have aligned := heap.aligned ⟨c, member, slab⟩
  have word := frame.lt
  obtain ⟨first, last⟩ := slot_bounds slot
  have sizes := heap.sized c member
  have magic : load 4 s.vm.mem b.header = magicSlab := by
    apply (heap.page c member A slab).magic
    rw [liveIn, List.mem_filter]
    exact ⟨List.mem_map_of_mem isBlock, by simp [isA]⟩
  dsimp only [allocHeaderSize, slabHeaderSize, pageSize] at fits first last aligned ptr
  have nonnull : b.ptr ≠ 0 := by omega
  have header : wrap64 (b.ptr + (2 ^ 64 - allocHeaderSize)) = b.header := by
    unfold wrap64
    dsimp only [allocHeaderSize]
    omega
  -- the header and `free_list` lie in the slab's page
  have direct : ∀ x, A ≤ x → x < A + pageSize → s.vm.directMapped x :=
    fun x low high => frame.direct heap.ready low high
  have direct₁ : s.vm.directMapped b.header := by
    apply direct
    · omega
    · dsimp only [pageSize]
      omega
  have direct₂ : s.vm.directMapped (A + 8) := by
    apply direct
    · omega
    · dsimp only [pageSize]
      omega
  refine ⟨_, free', ?_, given, call⟩
  have still : ∀ m, Vm.directMapped { s.vm with mem := m } (A + 8) := fun _ => direct₂
  rw [kfree, if_neg nonnull]
  simp only [header, Vm.read_direct direct₁, Option.bind_eq_bind, Option.bind_some, magic,
    if_true, kfreeSlab, ← isA,
    Vm.read_direct direct₂, Vm.write_direct direct₁, Vm.write_direct (still _)]
  rfl

/-- `kfree` once it has the address of the header. -/
def kfreeHeader (s : Heap) (header : Nat) : Option Heap := do
  let magic ← s.vm.read s.cr3 4 header
  if magic = magicSlab then kfreeSlab s header
  else if magic = magicPage then do
    let pagesToFree ← s.vm.read s.cr3 8 (header + 8)
    let vm ← unmapPages (physToVirt s.vm.hhdm s.cr3) header 0 pagesToFree s.vm
    some { s with vm := vm }
  else some s

theorem kfree_eq {ptr : Nat} (some : ptr ≠ 0) :
    kfree s ptr = kfreeHeader s (wrap64 (ptr + (2 ^ 64 - allocHeaderSize))) := if_neg some

/-- `kfree` does not look at the caches. -/
theorem kfreeHeader_created (header : Nat) :
    kfreeHeader s header = (kfreeHeader s.created header).map fun r => { s with vm := r.vm } := by
  unfold kfreeHeader Heap.created
  dsimp only
  cases s.vm.read s.cr3 4 header with
  | none => rfl
  | some magic =>
    rw [Option.bind_eq_bind, Option.bind_some, Option.bind_some]
    split
    · rw [kfreeSlab, kfreeSlab]
      simp only [Option.bind_eq_bind, Option.map_bind, Function.comp_def, Option.map_some]
    · split
      · simp only [Option.bind_eq_bind, Option.map_bind, Function.comp_def, Option.map_some]
      · rfl

theorem kfree_created (ptr : Nat) :
    kfree s ptr = (kfree s.created ptr).map fun r => { s with vm := r.vm } := by
  by_cases null : ptr = 0
  · rw [kfree, kfree, if_pos null, if_pos null]
    rfl
  · rw [kfree_eq null, kfree_eq null, kfreeHeader_created]

/-- The holder of a block writes one of its bytes. -/
theorem write_small {offset : Nat} (heap : SlabHeap s blocks chains free) (isBlock : b ∈ blocks)
    (inside : offset < b.size) (value : UInt8) :
    ∃ vm, s.vm.write s.cr3 1 (b.ptr + offset) value.toNat = some vm ∧
      SlabHeap { s with vm := vm } blocks chains free ∧
      SlabEffect s.vm vm (IsSlab s.caches chains) := by
  obtain ⟨c, member, slab, slot, fits⟩ := heap.owner isBlock
  obtain ⟨A, isA⟩ : ∃ A, A = b.header &&& frameMask := ⟨_, rfl⟩
  rw [← isA] at slab slot
  have isSlab : IsSlab s.caches chains A := ⟨c, member, slab⟩
  have ptr := (heap.block b isBlock).1
  have page := heap.page c member A slab
  have sizes := heap.sized c member
  obtain ⟨first, last⟩ := slot_bounds slot
  dsimp only [allocHeaderSize, slabHeaderSize, pageSize] at fits first last ptr
  have direct : s.vm.directMapped (b.ptr + offset) := by
    apply (heap.frame A isSlab).direct heap.ready
    · omega
    · dsimp only [pageSize]
      omega
  obtain ⟨vm, written⟩ : ∃ vm, vm =
      ({ s.vm with mem := store 1 s.vm.mem (b.ptr + offset) value.toNat } : Vm) := ⟨_, rfl⟩
  have bytes : ∀ a, a ≠ b.ptr + offset → vm.mem a = s.vm.mem a := by
    intro a differ
    rw [written]
    apply store_outside
    omega
  have outside : ∀ a, a < A ∨ A + pageSize ≤ a → vm.mem a = s.vm.mem a := by
    intro a away
    dsimp only [pageSize] at away
    exact bytes a (by omega)
  refine ⟨vm, by rw [Vm.write_direct direct, written], ?_, .inl (by rw [written]), fun a away _ =>
    outside a (away A isSlab)⟩
  have same : Function.update free A (free A) = free := Function.update_eq_self A free
  rw [← same]
  -- the byte lies behind the header of a live slot
  have other : ∀ x ∈ slots A c.objSize, ∀ a, x ≤ a → a < x + 8 → vm.mem a = s.vm.mem a := by
    intro x slot' a low high
    apply bytes
    by_cases here : x = b.header
    · omega
    · have apart := slot_apart slot' slot here
      omega
  apply heap.update member slab (by rw [written]) outside
  · apply link_congr
    intro a low high
    exact bytes a (by omega)
  · apply page.congr
    · intro a low high
      exact bytes a (by omega)
    · intro x isFree a low high
      exact other x (page.mem_free isFree) a low high
    · intro x isLive a low high
      exact other x (page.mem_live isLive) a low (by omega)
  · intro B _
    exact List.Perm.refl _
  · intro b' isBlock'
    exact .inl isBlock'

/-! ### heap_init -/

/-- One more cache, with a first slab. -/
theorem SlabHeap.addCache {o f : Nat} (heap : SlabHeap s [] chains free)
    (size : 32 ≤ o ∧ o ≤ slab1024) (unused : o ∉ s.caches.map SlabCache.objSize)
    (new : NewSlab s.vm o f vm) (nonnull : physToVirt s.vm.hhdm f ≠ 0) :
    ∃ chains' free', SlabHeap
      { s with vm := vm, caches := s.caches ++ [⟨o, physToVirt s.vm.hhdm f⟩] } [] chains' free' ∧
      ∀ A, IsSlab (s.caches ++ [⟨o, physToVirt s.vm.hhdm f⟩]) chains' A →
        IsSlab s.caches chains A ∨ A = physToVirt s.vm.hhdm f := by
  obtain ⟨A, isA⟩ : ∃ A, A = physToVirt s.vm.hhdm f := ⟨_, rfl⟩
  have page := new.page
  have next := new.next
  have untouched := new.bytes
  rw [← isA] at page next untouched nonnull ⊢
  have alignedA : A % pageSize = 0 := by
    rw [isA]
    exact physToVirt_aligned heap.hhdm (heap.ready.isFrame new.taken.free)
  -- the new frame was free, so it holds none of the slabs
  have fresh : ∀ B, IsSlab s.caches chains B → B ≠ A := by
    intro B slab
    rw [isA]
    exact (heap.frame B slab).ne_free heap.ready new.taken.free
  have bytes : ∀ B, IsSlab s.caches chains B → ∀ a, B ≤ a → a < B + pageSize →
      (B = A → a < A + 16 ∨ A + 24 ≤ a) → vm.mem a = s.vm.mem a := by
    intro B slab a low high _
    have apart := page_apart (heap.aligned slab) alignedA (fresh B slab)
    apply untouched
    omega
  have held : ∀ g, s.vm.pmm.Held g → vm.pmm.Held g := fun g isHeld =>
    isHeld.mono new.taken.same fun free => isHeld.not_free ((new.taken.others g).mp free).1
  have frameA : SlabFrame vm A := ⟨nonnull, f, heap.ready.isFrame new.taken.free, new.taken.held,
    isA.trans (congrArg (physToVirt · f) new.taken.hhdm.symm)⟩
  have other : ∀ c ∈ s.caches, c.objSize ≠ o := by
    rintro c member rfl
    exact unused (List.mem_map_of_mem member)
  have old : ∀ c ∈ s.caches, Function.update chains o [A] c.objSize = chains c.objSize :=
    fun c member => Function.update_of_ne (other c member) _ _
  refine ⟨Function.update chains o [A], Function.update free A (slots A o), ?_, ?_⟩
  swap
  · rintro B ⟨c, member, slab⟩
    rcases List.mem_append.mp member with before | last
    · rw [old c before] at slab
      exact .inl ⟨c, before, slab⟩
    · rw [List.mem_singleton.mp last, Function.update_self] at slab
      exact .inr (List.mem_singleton.mp slab)
  constructor
  case ready => exact new.taken.ready
  case hhdm =>
    have same : vm.hhdm = s.vm.hhdm := new.taken.hhdm
    change vm.hhdm % pageSize = 0
    rw [same]
    exact heap.hhdm
  case distinct =>
    rw [List.map_append, List.nodup_append]
    refine ⟨heap.distinct, List.nodup_singleton _, ?_⟩
    rintro size' member size'' single rfl
    obtain rfl := List.mem_singleton.mp single
    exact unused member
  case sized =>
    intro c member
    rcases List.mem_append.mp member with before | last
    · exact heap.sized c before
    · rw [List.mem_singleton.mp last]
      exact size
  case chain =>
    intro c member
    rcases List.mem_append.mp member with before | last
    · rw [old c before]
      apply (heap.chain c before).congr
      intro B isNode
      exact SlabHeap.relinked_link bytes ⟨c, before, isNode⟩ (fresh B ⟨c, before, isNode⟩)
    · rw [List.mem_singleton.mp last, Function.update_self]
      -- the chain of the new cache is its first slab
      have ended : link vm.mem 16 A = none := by rw [link, next, toPtr_zero]
      exact chain_cons.mpr ⟨rfl, chain_nil.mpr ended⟩
  case frame =>
    rintro B ⟨c, member, slab⟩
    rcases List.mem_append.mp member with before | last
    · rw [old c before] at slab
      exact (heap.frame B ⟨c, before, slab⟩).mono new.taken.hhdm held
    · rw [List.mem_singleton.mp last, Function.update_self] at slab
      rw [List.mem_singleton.mp slab]
      exact frameA
  case page =>
    intro c member B slab
    rcases List.mem_append.mp member with before | last
    · rw [old c before] at slab
      rw [Function.update_of_ne (fresh B ⟨c, before, slab⟩)]
      exact heap.relinked_page bytes before slab
    · rw [List.mem_singleton.mp last] at slab ⊢
      rw [Function.update_self] at slab
      rw [List.mem_singleton.mp slab, Function.update_self]
      exact page
  case block =>
    intro b isBlock
    exact absurd isBlock List.not_mem_nil

/-- What `create_slab` and `heap_init` do outside frames that were free: nothing. -/
structure OnlyFree (s s' : Vm) : Prop where
  same : Pmm.SameMap s.pmm s'.pmm
  ready : s'.pmm.Ready
  free : ∀ f, s'.pmm.Free f → s.pmm.Free f
  bytes : ∀ a, (∀ f, s.pmm.Free f → a < physToVirt s.hhdm f ∨ physToVirt s.hhdm f + pageSize ≤ a) →
    s'.mem a = s.mem a

theorem OnlyFree.refl {s : Vm} (ready : s.pmm.Ready) : OnlyFree s s :=
  ⟨ready.wf.refl, ready, fun _ free => free, fun _ _ => rfl⟩

theorem OnlyFree.trans {s₁ s₂ s₃ : Vm} (first : OnlyFree s₁ s₂) (second : OnlyFree s₂ s₃) :
    OnlyFree s₁ s₃ where
  same := first.same.trans second.same
  ready := second.ready
  free f isFree := first.free f (second.free f isFree)
  bytes a outside := by
    have hhdm : s₂.hhdm = s₁.hhdm := first.same.hhdmOffset
    rw [second.bytes a, first.bytes a outside]
    intro f isFree
    rw [hhdm]
    exact outside f (first.free f isFree)

theorem NewSlab.onlyFree {s : Vm} {o f : Nat} (new : NewSlab s o f vm) : OnlyFree s vm where
  same := new.taken.same
  ready := new.taken.ready
  free g isFree := ((new.taken.others g).mp isFree).1
  bytes a outside := new.bytes a (outside f new.taken.free)

/-- A frame that the direct map shows at the null page is lost. -/
theorem SlabHeap.skipFrame {o f : Nat} (heap : SlabHeap s blocks chains free)
    (new : NewSlab s.vm o f vm) : SlabHeap { s with vm := vm } blocks chains free := by
  have held : ∀ g, s.vm.pmm.Held g → vm.pmm.Held g := fun g isHeld =>
    isHeld.mono new.taken.same fun free => isHeld.not_free ((new.taken.others g).mp free).1
  apply heap.of_pages vm new.taken.ready new.taken.hhdm
  · intro A slab
    exact (heap.frame A slab).mono new.taken.hhdm held
  · intro A slab a low high
    have differ := (heap.frame A slab).ne_free heap.ready new.taken.free
    have aligned := physToVirt_aligned heap.hhdm (heap.ready.isFrame new.taken.free)
    have apart := page_apart (heap.aligned slab) aligned differ
    apply new.bytes
    omega

/-- The caches that get a slab have it in order. -/
theorem createCaches_spec {sizes : List Nat} {caches : List SlabCache}
    (heap : SlabHeap s [] chains free) (sized : ∀ o ∈ sizes, 32 ≤ o ∧ o ≤ slab1024)
    (distinct : (s.caches.map SlabCache.objSize ++ sizes).Nodup)
    (done : createCaches sizes s.vm = some (caches, vm)) :
    caches.map SlabCache.objSize = sizes ∧ OnlyFree s.vm vm ∧ ∃ chains' free',
      SlabHeap { s with vm := vm
                        caches := s.caches ++ caches.filter fun cache => cache.firstSlab ≠ 0 }
        [] chains' free' ∧
      ∀ A, IsSlab (s.caches ++ caches.filter fun cache => cache.firstSlab ≠ 0) chains' A →
        IsSlab s.caches chains A ∨ ∃ f, s.vm.pmm.Free f ∧ A = physToVirt s.vm.hhdm f := by
  induction sizes generalizing s chains free caches with
  | nil =>
    obtain ⟨rfl, rfl⟩ := Prod.mk.inj (Option.some.inj done)
    refine ⟨rfl, .refl heap.ready, chains, free, ?_⟩
    rw [List.filter_nil, List.append_nil]
    exact ⟨heap, fun A slab => .inl slab⟩
  | cons o sizes ih =>
    have size := sized o List.mem_cons_self
    have fits : o ≤ pageSize - slabHeaderSize := Nat.le_trans size.2 (by decide)
    have sized' := fun o' member => sized o' (List.mem_cons_of_mem o member)
    have shorter : (s.caches.map SlabCache.objSize ++ sizes).Nodup :=
      distinct.sublist (List.Sublist.append_left (List.sublist_cons_self o sizes) _)
    rcases createSlab_spec heap.ready heap.hhdm (by omega) fits with
      ⟨_, failed⟩ | ⟨f, vm₁, made, new⟩
    · -- no frame is left: the cache stays without a slab
      rw [createCaches, failed] at done
      simp only [Option.bind_eq_bind, Option.bind_some, Option.bind_eq_some_iff, Prod.exists,
        Option.some.injEq, Prod.mk.injEq] at done
      obtain ⟨rest, vm₂, others, rfl, rfl⟩ := done
      obtain ⟨sizes', only, chains₂, free₂, heap₂, slabs⟩ := ih heap sized' shorter others
      refine ⟨by rw [List.map_cons, sizes'], only, chains₂, free₂, ?_⟩
      rw [List.filter_cons_of_neg (by simp)]
      exact ⟨heap₂, slabs⟩
    · rw [createCaches, made] at done
      simp only [Option.bind_eq_bind, Option.bind_some, Option.bind_eq_some_iff, Prod.exists,
        Option.some.injEq, Prod.mk.injEq] at done
      obtain ⟨rest, vm₂, others, rfl, rfl⟩ := done
      -- frames that are free after the first cache were free before it
      have earlier : ∀ A, (∃ g, vm₁.pmm.Free g ∧ A = physToVirt vm₁.hhdm g) →
          ∃ g, s.vm.pmm.Free g ∧ A = physToVirt s.vm.hhdm g := by
        rintro A ⟨g, isFree, rfl⟩
        have hhdm : vm₁.hhdm = s.vm.hhdm := new.taken.hhdm
        exact ⟨g, new.onlyFree.free g isFree, by rw [hhdm]⟩
      by_cases null : physToVirt s.vm.hhdm f = 0
      · obtain ⟨sizes', only, chains₂, free₂, heap₂, slabs⟩ :=
          ih (heap.skipFrame new) sized' shorter others
        refine ⟨by rw [List.map_cons, sizes'], new.onlyFree.trans only, chains₂, free₂, ?_⟩
        rw [List.filter_cons_of_neg (by simpa using null)]
        exact ⟨heap₂, fun A slab => (slabs A slab).imp_right (earlier A)⟩
      · have unused : o ∉ s.caches.map SlabCache.objSize := fun used =>
          (List.nodup_append.mp distinct).2.2 o used o List.mem_cons_self rfl
        obtain ⟨chains₁, free₁, heap₁, slabs₁⟩ := heap.addCache size unused new null
        obtain ⟨sizes', only, chains₂, free₂, heap₂, slabs₂⟩ := ih heap₁ sized' (by
          rw [List.map_append, List.append_assoc]
          exact distinct) others
        refine ⟨by rw [List.map_cons, sizes'], new.onlyFree.trans only, chains₂, free₂, ?_⟩
        rw [List.append_assoc] at heap₂ slabs₂
        rw [List.filter_cons_of_pos (by simpa using null)]
        refine ⟨heap₂, fun A slab => ?_⟩
        rcases slabs₂ A slab with middle | late
        · rcases slabs₁ A middle with old | rfl
          · exact .inl old
          · exact .inr ⟨f, new.taken.free, rfl⟩
        · exact .inr (earlier A late)

/-- `heap_init` sets up those of its caches for which it finds a frame. -/
theorem heapInit_created {s' : Heap} (ready : s.vm.pmm.Ready) (hhdm : s.vm.hhdm % pageSize = 0)
    (done : heapInit s = some s') :
    s'.caches.map SlabCache.objSize = slabSizes ∧ OnlyFree s.vm s'.vm ∧
      (s'.heapVaddr = s.heapVaddr ∧ s'.cr3 = s.cr3) ∧
      ∃ chains free, SlabHeap s'.created [] chains free ∧ ∀ A, IsSlab s'.created.caches chains A →
        ∃ f, s.vm.pmm.Free f ∧ A = physToVirt s.vm.hhdm f := by
  have empty : SlabHeap { s with caches := [] } [] (fun _ => []) (fun _ => []) := by
    constructor
    case ready => exact ready
    case hhdm => exact hhdm
    case distinct => exact List.nodup_nil
    case sized =>
      intro c member
      exact absurd member List.not_mem_nil
    case chain =>
      intro c member
      exact absurd member List.not_mem_nil
    case frame =>
      rintro A ⟨c, member, _⟩
      exact absurd member List.not_mem_nil
    case page =>
      intro c member
      exact absurd member List.not_mem_nil
    case block =>
      intro b isBlock
      exact absurd isBlock List.not_mem_nil
  simp only [heapInit, Option.bind_eq_bind, Option.bind_eq_some_iff, Prod.exists,
    Option.some.injEq] at done
  obtain ⟨caches, vm, all, rfl⟩ := done
  have distinct : (([] : List Nat) ++ slabSizes).Nodup := by decide
  obtain ⟨sizes, only, chains, free, heap, slabs⟩ :=
    createCaches_spec empty (by decide) distinct all
  refine ⟨sizes, only, ⟨rfl, rfl⟩, chains, free, heap, fun A slab => ?_⟩
  rcases slabs A slab with ⟨c, none, _⟩ | new
  · exact absurd none List.not_mem_nil
  · exact new

/-- After `heap_init` has created its six caches the slabs are in order, without any block. -/
theorem heapInit_spec {s' : Heap} (ready : s.vm.pmm.Ready) (hhdm : s.vm.hhdm % pageSize = 0)
    (done : heapInit s = some s') (created : ∀ c ∈ s'.caches, c.firstSlab ≠ 0) :
    s'.caches.map SlabCache.objSize = slabSizes ∧ ∃ chains free, SlabHeap s' [] chains free := by
  obtain ⟨sizes, _, _, chains, free, heap, _⟩ := heapInit_created ready hhdm done
  have all : s'.created = s' := by
    rw [Heap.created, List.filter_eq_self.mpr]
    intro c member
    simpa using created c member
  exact ⟨sizes, chains, free, all ▸ heap⟩

end DedOS
