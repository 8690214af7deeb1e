import DedOS.Mm.Slab
import Mathlib.Data.List.Perm.Subperm

/-!
# The slab caches

`SlabHeap s blocks chains free` says that memory represents six chains of slabs in which the
headers of the live `blocks` are the slots off the free lists. A call touches one slab
(`SlabHeap.update`), after `kmalloc` has perhaps appended a new one (`SlabHeap.append`).
-/

namespace DedOS

open Lib

/-- What `kmalloc` has returned. -/
structure Block where
  ptr : Nat
  size : Nat
  deriving DecidableEq

def Block.header (b : Block) : Nat := b.ptr - allocHeaderSize

/-- The headers of the blocks in the page at `A`. -/
def liveIn (blocks : List Block) (A : Nat) : List Nat :=
  (blocks.map Block.header).filter fun h => h &&& frameMask = A

/-- The page at `A` is a held frame, and not the null page. -/
structure SlabFrame (s : Vm) (A : Nat) : Prop where
  nonnull : A ≠ 0
  frame : ∃ f, IsFrame f ∧ s.pmm.Held f ∧ A = physToVirt s.hhdm f

/-- `A` is one of the slabs. -/
def IsSlab (caches : List SlabCache) (chains : Nat → List Nat) (A : Nat) : Prop :=
  ∃ c ∈ caches, A ∈ chains c.objSize

/-- `chains` lists the slabs of each object size, `free` the free objects of each slab. -/
structure SlabHeap (s : Heap) (blocks : List Block) (chains free : Nat → List Nat) : Prop where
  ready : s.vm.pmm.Ready
  hhdm : s.vm.hhdm % pageSize = 0
  distinct : (s.caches.map SlabCache.objSize).Nodup
  sized : ∀ c ∈ s.caches, 32 ≤ c.objSize ∧ c.objSize ≤ slab1024
  chain : ∀ c ∈ s.caches, Chain (link s.vm.mem 16) (some c.firstSlab) (chains c.objSize)
  frame : ∀ A, IsSlab s.caches chains A → SlabFrame s.vm A
  page : ∀ c ∈ s.caches, ∀ A ∈ chains c.objSize,
    SlabPage s.vm.mem c.objSize A (free A) (liveIn blocks A)
  block : ∀ b ∈ blocks, b.ptr = b.header + allocHeaderSize ∧ ∃ c ∈ s.caches,
    b.header &&& frameMask ∈ chains c.objSize ∧ b.size + allocHeaderSize ≤ c.objSize

variable {s : Heap} {vm : Vm} {blocks blocks' : List Block} {chains free : Nat → List Nat}
  {A B a h : Nat} {b : Block} {c c' : SlabCache} {free' : List Nat}

/-! ### Pages of slabs -/

theorem SlabFrame.aligned {s : Vm} (hhdm : s.hhdm % pageSize = 0) (slab : SlabFrame s A) :
    A % pageSize = 0 := by
  obtain ⟨_, f, frame, _, rfl⟩ := slab
  exact physToVirt_aligned hhdm frame

theorem SlabFrame.lt {s : Vm} (slab : SlabFrame s A) : A < 2 ^ 64 := by
  obtain ⟨_, f, _, _, rfl⟩ := slab
  exact physToVirt_lt

theorem page_apart (aligned : A % pageSize = 0) (aligned' : B % pageSize = 0) (differ : A ≠ B) :
    A + pageSize ≤ B ∨ B + pageSize ≤ A := by
  dsimp only [pageSize] at *
  omega

/-- A free frame is not a slab. -/
theorem SlabFrame.ne_free {s : Vm} (slab : SlabFrame s A) {f : Nat} (ready : s.pmm.Ready)
    (isFree : s.pmm.Free f) : A ≠ physToVirt s.hhdm f := by
  obtain ⟨_, g, frame, held, rfl⟩ := slab
  intro same
  obtain rfl := physToVirt_inj frame (ready.isFrame isFree) same
  exact held.not_free isFree

theorem SlabFrame.mono {s s' : Vm} (slab : SlabFrame s A) (hhdm : s'.hhdm = s.hhdm)
    (held : ∀ f, s.pmm.Held f → s'.pmm.Held f) : SlabFrame s' A := by
  obtain ⟨nonnull, f, frame, isHeld, rfl⟩ := slab
  exact ⟨nonnull, f, frame, held f isHeld, by rw [hhdm]⟩

namespace SlabHeap

/-- Caches differ in their object sizes. -/
theorem cache_eq (heap : SlabHeap s blocks chains free) (member : c ∈ s.caches)
    (member' : c' ∈ s.caches) (same : c.objSize = c'.objSize) : c = c' :=
  List.inj_on_of_nodup_map heap.distinct member member' same

theorem aligned (heap : SlabHeap s blocks chains free) (slab : IsSlab s.caches chains A) :
    A % pageSize = 0 := (heap.frame A slab).aligned heap.hhdm

/-- A slab belongs to one cache. -/
theorem same_cache (heap : SlabHeap s blocks chains free) (member : c ∈ s.caches)
    (slab : A ∈ chains c.objSize) (member' : c' ∈ s.caches) (slab' : A ∈ chains c'.objSize) :
    c = c' := by
  apply heap.cache_eq member member'
  rw [← (heap.page c member A slab).objSize, (heap.page c' member' A slab').objSize]

/-- The slab of a block, found by the mask. -/
theorem owner (heap : SlabHeap s blocks chains free) (member : b ∈ blocks) :
    ∃ c ∈ s.caches, b.header &&& frameMask ∈ chains c.objSize ∧
      b.header ∈ slots (b.header &&& frameMask) c.objSize ∧
      b.size + allocHeaderSize ≤ c.objSize := by
  obtain ⟨_, c, cached, slab, fits⟩ := heap.block b member
  refine ⟨c, cached, slab, ?_, fits⟩
  apply (heap.page c cached _ slab).mem_live
  rw [liveIn, List.mem_filter]
  exact ⟨List.mem_map_of_mem member, by simp⟩

/-! ### Changing one slab -/

/-- A call that works in the page of one slab. -/
theorem update (heap : SlabHeap s blocks chains free) (member : c ∈ s.caches)
    (slab : A ∈ chains c.objSize) (pmm : vm.pmm = s.vm.pmm)
    (outside : ∀ a, a < A ∨ A + pageSize ≤ a → vm.mem a = s.vm.mem a)
    (next : link vm.mem 16 A = link s.vm.mem 16 A)
    (page : SlabPage vm.mem c.objSize A free' (liveIn blocks' A))
    (others : ∀ B, B ≠ A → (liveIn blocks B).Perm (liveIn blocks' B))
    (block : ∀ b ∈ blocks', b ∈ blocks ∨ b.ptr = b.header + allocHeaderSize ∧
      b.header &&& frameMask = A ∧ b.size + allocHeaderSize ≤ c.objSize) :
    SlabHeap { s with vm := vm } blocks' chains (Function.update free A free') := by
  have hhdm : vm.hhdm = s.vm.hhdm := by rw [Vm.hhdm, pmm, Vm.hhdm]
  -- the pages of the other slabs are not touched
  have untouched : ∀ B, IsSlab s.caches chains B → B ≠ A → ∀ a, B ≤ a → a < B + pageSize →
      vm.mem a = s.vm.mem a := by
    intro B isSlab differ a low high
    apply outside
    have apart := page_apart (heap.aligned isSlab) (heap.aligned ⟨c, member, slab⟩) differ
    omega
  constructor
  case ready =>
    rw [pmm]
    exact heap.ready
  case hhdm =>
    rw [hhdm]
    exact heap.hhdm
  case distinct => exact heap.distinct
  case sized => exact heap.sized
  case chain =>
    intro c' member'
    apply (heap.chain c' member').congr
    intro B isNode
    by_cases same : B = A
    · rw [same, next]
    · apply link_congr
      intro a low high
      apply untouched B ⟨c', member', isNode⟩ same
      · omega
      · dsimp only [pageSize]
        omega
  case frame =>
    intro B isSlab
    exact (heap.frame B isSlab).mono hhdm fun f held => by rwa [pmm]
  case page =>
    intro c' member' B isNode
    by_cases same : B = A
    · subst same
      obtain rfl := heap.same_cache member slab member' isNode
      rw [Function.update_self]
      exact page
    · have pageB := heap.page c' member' B isNode
      have here := untouched B ⟨c', member', isNode⟩ same
      rw [Function.update_of_ne same]
      have sizeB := heap.sized c' member'
      apply SlabPage.perm _ (others B same)
      apply pageB.congr
      · intro a low high
        apply here a low
        dsimp only [pageSize]
        omega
      · intro x isFree a low high
        obtain ⟨first, last⟩ := slot_bounds (pageB.mem_free isFree)
        exact here a (by omega) (by omega)
      · intro x isLive a low high
        obtain ⟨first, last⟩ := slot_bounds (pageB.mem_live isLive)
        exact here a (by omega) (by omega)
  case block =>
    intro b isBlock
    rcases block b isBlock with old | ⟨ptr, mask, fits⟩
    · exact heap.block b old
    · exact ⟨ptr, c, member, by rwa [mask], fits⟩

/-- Whatever leaves the slab pages alone and does not free them keeps the representation. -/
theorem of_pages (heap : SlabHeap s blocks chains free) (vm : Vm) (ready : vm.pmm.Ready)
    (hhdm : vm.hhdm = s.vm.hhdm) (frames : ∀ A, IsSlab s.caches chains A → SlabFrame vm A)
    (bytes : ∀ A, IsSlab s.caches chains A → ∀ a, A ≤ a → a < A + pageSize →
      vm.mem a = s.vm.mem a) : SlabHeap { s with vm := vm } blocks chains free where
  ready := ready
  hhdm := by
    change vm.hhdm % pageSize = 0
    rw [hhdm]
    exact heap.hhdm
  distinct := heap.distinct
  sized := heap.sized
  chain c member := by
    apply (heap.chain c member).congr
    intro A slab
    -- the links of the chain are in the headers of its slabs
    apply link_congr
    intro a low high
    apply bytes A ⟨c, member, slab⟩ a (by omega)
    dsimp only [pageSize]
    omega
  frame := frames
  page c member A slab := by
    have page := heap.page c member A slab
    have size := heap.sized c member
    have here := bytes A ⟨c, member, slab⟩
    apply page.congr
    · intro a low high
      apply here a low
      dsimp only [pageSize]
      omega
    · intro x isFree a low high
      obtain ⟨first, last⟩ := slot_bounds (page.mem_free isFree)
      exact here a (by omega) (by omega)
    · intro x isLive a low high
      obtain ⟨first, last⟩ := slot_bounds (page.mem_live isLive)
      exact here a (by omega) (by omega)
  block := heap.block

/-! ### Appending a slab -/

section Relink

variable {L : Nat} {before : List Nat} (heap : SlabHeap s blocks chains free)
  (member : c ∈ s.caches) (split : chains c.objSize = before ++ [L]) (ready : vm.pmm.Ready)
  (hhdm : vm.hhdm = s.vm.hhdm) (held : ∀ f, s.vm.pmm.Held f → vm.pmm.Held f)
  (bytes : ∀ B, IsSlab s.caches chains B → ∀ a, B ≤ a → a < B + pageSize →
    (B = L → a < L + 16 ∨ L + 24 ≤ a) → vm.mem a = s.vm.mem a)

include heap bytes

/-- Only the last slab's `next_slab` may have changed. -/
theorem relinked_page (member' : c' ∈ s.caches) (slab : B ∈ chains c'.objSize) :
    SlabPage vm.mem c'.objSize B (free B) (liveIn blocks B) := by
  have pageB := heap.page c' member' B slab
  have here := bytes B ⟨c', member', slab⟩
  have sizeB := heap.sized c' member'
  apply pageB.congr
  · intro a low high
    apply here a low
    · dsimp only [pageSize]
      omega
    · rintro rfl
      omega
  · intro x isFree a low high
    obtain ⟨first, last⟩ := slot_bounds (pageB.mem_free isFree)
    dsimp only [slabHeaderSize] at first
    apply here a (by omega) (by omega)
    rintro rfl
    omega
  · intro x isLive a low high
    obtain ⟨first, last⟩ := slot_bounds (pageB.mem_live isLive)
    dsimp only [slabHeaderSize] at first
    apply here a (by omega) (by omega)
    rintro rfl
    omega

omit heap in
theorem relinked_link (slab : IsSlab s.caches chains B) (differ : B ≠ L) :
    link vm.mem 16 B = link s.vm.mem 16 B := by
  apply link_congr
  intro a low high
  apply bytes B slab a (by omega)
  · dsimp only [pageSize]
    omega
  · intro same
    exact absurd same differ

include split member

omit bytes in
/-- The last slab of a chain is in no other one. -/
theorem last_notMem (member' : c' ∈ s.caches) (differ : c' ≠ c) : L ∉ chains c'.objSize := by
  intro slab
  apply differ
  apply heap.same_cache member' slab member
  rw [split]
  exact List.mem_append_right before List.mem_cons_self

theorem relinked_chain (member' : c' ∈ s.caches) (differ : c' ≠ c) :
    Chain (link vm.mem 16) (some c'.firstSlab) (chains c'.objSize) := by
  apply (heap.chain c' member').congr
  intro B isNode
  apply relinked_link bytes ⟨c', member', isNode⟩
  rintro rfl
  exact heap.last_notMem member split member' differ isNode

/-- The chain of the cache up to its last slab. -/
theorem relinked_front :
    Seg (link vm.mem 16) (some c.firstSlab) before (some L) := by
  have whole := heap.chain c member
  have nodup := whole.nodup
  rw [split] at whole nodup
  obtain ⟨mid, front, last⟩ := chain_append.mp whole
  obtain ⟨rfl, _⟩ := chain_cons.mp last
  apply front.congr
  intro B isNode
  apply relinked_link bytes
  · exact ⟨c, member, by rw [split]; exact List.mem_append_left [L] isNode⟩
  · rintro rfl
    exact (List.nodup_append.mp nodup).2.2 B isNode B List.mem_cons_self rfl

variable (vm)

include ready hhdm held

/-- No slab was created. -/
theorem relink_none (ended : link vm.mem 16 L = none) :
    SlabHeap { s with vm := vm } blocks chains free where
  ready := ready
  hhdm := by rw [hhdm]; exact heap.hhdm
  distinct := heap.distinct
  sized := heap.sized
  chain c' member' := by
    by_cases same : c' = c
    · subst same
      rw [split]
      exact chain_append.mpr ⟨some L, heap.relinked_front member split bytes,
        chain_cons.mpr ⟨rfl, chain_nil.mpr ended⟩⟩
    · exact heap.relinked_chain member split bytes member' same
  frame B slab := (heap.frame B slab).mono hhdm held
  page c' member' B slab := heap.relinked_page bytes member' slab
  block := heap.block

/-- The new slab `A` was linked behind the last one. -/
theorem relink_some (linked : link vm.mem 16 L = some A) (ended : link vm.mem 16 A = none)
    (frame : SlabFrame vm A) (page : SlabPage vm.mem c.objSize A free' [])
    (new : ¬ IsSlab s.caches chains A) :
    SlabHeap { s with vm := vm } blocks
      (Function.update chains c.objSize (chains c.objSize ++ [A]))
      (Function.update free A free') := by
  -- membership in the longer chain
  have nodes : ∀ c' ∈ s.caches, ∀ B, B ∈ Function.update chains c.objSize
      (chains c.objSize ++ [A]) c'.objSize → B ∈ chains c'.objSize ∨ c' = c ∧ B = A := by
    intro c' member' B slab
    by_cases same : c' = c
    · subst same
      rw [Function.update_self] at slab
      rcases List.mem_append.mp slab with old | fresh
      · exact .inl old
      · exact .inr ⟨rfl, List.mem_singleton.mp fresh⟩
    · rw [Function.update_of_ne fun sizes => same (heap.cache_eq member' member sizes)] at slab
      exact .inl slab
  constructor
  case ready => exact ready
  case hhdm =>
    rw [hhdm]
    exact heap.hhdm
  case distinct => exact heap.distinct
  case sized => exact heap.sized
  case chain =>
    intro c' member'
    by_cases same : c' = c
    · subst same
      rw [Function.update_self, split, List.append_assoc]
      exact chain_append.mpr ⟨some L, heap.relinked_front member split bytes,
        chain_cons.mpr ⟨rfl, chain_cons.mpr ⟨linked, chain_nil.mpr ended⟩⟩⟩
    · rw [Function.update_of_ne fun sizes => same (heap.cache_eq member' member sizes)]
      exact heap.relinked_chain member split bytes member' same
  case frame =>
    rintro B ⟨c', member', slab⟩
    rcases nodes c' member' B slab with old | ⟨_, rfl⟩
    · exact (heap.frame B ⟨c', member', old⟩).mono hhdm held
    · exact frame
  case page =>
    intro c' member' B slab
    rcases nodes c' member' B slab with old | ⟨rfl, rfl⟩
    · have differ : B ≠ A := by
        rintro rfl
        exact new ⟨c', member', old⟩
      rw [Function.update_of_ne differ]
      exact heap.relinked_page bytes member' old
    · -- no block has its header in a page that was not a slab
      have none : liveIn blocks B = [] := by
        rw [liveIn, List.filter_eq_nil_iff]
        intro x isHeader
        obtain ⟨b, isBlock, rfl⟩ := List.mem_map.mp isHeader
        rw [decide_eq_true_eq]
        intro mask
        obtain ⟨_, c'', member'', slab'', _⟩ := heap.block b isBlock
        exact new ⟨c'', member'', mask ▸ slab''⟩
      rw [Function.update_self, none]
      exact page
  case block =>
    intro b isBlock
    obtain ⟨ptr, c', member', slab, fits⟩ := heap.block b isBlock
    refine ⟨ptr, c', member', ?_, fits⟩
    by_cases same : c' = c
    · subst same
      rw [Function.update_self]
      exact List.mem_append_left [A] slab
    · rwa [Function.update_of_ne fun sizes => same (heap.cache_eq member' member sizes)]

end Relink

/-- A block lies in the page of its slab, behind the slab header and its own. -/
theorem block_bounds (heap : SlabHeap s blocks chains free) (member : b ∈ blocks) :
    ∃ A, IsSlab s.caches chains A ∧ A + slabHeaderSize + allocHeaderSize ≤ b.ptr ∧
      b.ptr + b.size ≤ A + pageSize := by
  obtain ⟨c, cached, slab, slot, fits⟩ := heap.owner member
  obtain ⟨low, high⟩ := slot_bounds slot
  have ptr := (heap.block b member).1
  refine ⟨b.header &&& frameMask, ⟨c, cached, slab⟩, ?_, ?_⟩
  · omega
  · omega

end SlabHeap

/-! ### The search loop -/

/-- What the slab code may do to memory and allocator: at most one frame is taken, and only
the pages of slabs and of free frames are written. -/
structure SlabEffect (s s' : Vm) (slab : Nat → Prop) : Prop where
  pmm : s'.pmm = s.pmm ∨ ∃ f, s.pmm.Taken f s'.pmm
  bytes : ∀ a, (∀ A, slab A → a < A ∨ A + pageSize ≤ a) →
    (∀ f, s.pmm.Free f → a < physToVirt s.hhdm f ∨ physToVirt s.hhdm f + pageSize ≤ a) →
    s'.mem a = s.mem a

/-- The bytes that belong to the holders of the blocks. -/
def KeepsBlocks (blocks : List Block) (m m' : Memory) : Prop :=
  ∀ b ∈ blocks, ∀ a, b.ptr ≤ a → a < b.ptr + b.size → m' a = m a

/-- The slabs stay where they are. -/
def Stays (s : Heap) (chains chains' : Nat → List Nat) : Prop :=
  ∀ c ∈ s.caches, ∀ A ∈ chains c.objSize, A ∈ chains' c.objSize

/-- The heap with its chains extended as `kmalloc` needs it. -/
structure Extended (s : Heap) (blocks : List Block) (chains : Nat → List Nat) (vm : Vm)
    (chains' free' : Nat → List Nat) : Prop where
  heap : SlabHeap { s with vm := vm } blocks chains' free'
  effect : SlabEffect s.vm vm (IsSlab s.caches chains)
  slabs : ∀ A, IsSlab s.caches chains' A →
    IsSlab s.caches chains A ∨ ∃ f, s.vm.pmm.Free f ∧ A = physToVirt s.vm.hhdm f
  kept : KeepsBlocks blocks s.vm.mem vm.mem
  stays : Stays s chains chains'

theorem Stays.refl (s : Heap) (chains : Nat → List Nat) : Stays s chains chains :=
  fun _ _ _ slab => slab

theorem SlabEffect.refl (s : Vm) (slab : Nat → Prop) : SlabEffect s s slab :=
  ⟨.inl rfl, fun _ _ _ => rfl⟩

theorem Extended.refl (heap : SlabHeap s blocks chains free) :
    Extended s blocks chains s.vm chains free :=
  ⟨heap, .refl s.vm _, fun _ slab => .inl slab, fun _ _ _ _ _ => rfl, .refl s chains⟩

/-- No slab could be created: no frame is left, and then nothing changes; or the direct map
shows one at the null page. -/
def Unserved (s s' : Vm) : Prop :=
  s.pmm.freePages = 0 ∧ s' = s ∨ ∃ f, s.pmm.Free f ∧ physToVirt s.hhdm f = 0

section Grow

variable {L f : Nat} {before : List Nat} {m : Memory}

/-- The field `next_slab` of `L` and the page of `B` meet only if `B` is `L`. -/
theorem SlabHeap.next_field (heap : SlabHeap s blocks chains free) (slabL : IsSlab s.caches chains L)
    (slab : IsSlab s.caches chains B) (below : B ≤ a) (above : a < B + pageSize)
    (same : B = L → a < L + 16 ∨ L + 24 ≤ a) : a < L + 16 ∨ L + 16 + 8 ≤ a := by
  by_cases here : B = L
  · exact same here
  · have apart := page_apart (heap.aligned slab) (heap.aligned slabL) here
    dsimp only [pageSize] at *
    omega

/-- No block holds that field. -/
theorem SlabHeap.keepsBlocks (heap : SlabHeap s blocks chains free)
    (bytes : ∀ B, IsSlab s.caches chains B → ∀ a, B ≤ a → a < B + pageSize →
      (B = L → a < L + 16 ∨ L + 24 ≤ a) → m a = s.vm.mem a) : KeepsBlocks blocks s.vm.mem m := by
  intro b isBlock a below above
  obtain ⟨B, slab, first, last⟩ := heap.block_bounds isBlock
  dsimp only [pageSize, slabHeaderSize, allocHeaderSize] at first last
  apply bytes B slab a (by omega) (by dsimp only [pageSize]; omega)
  rintro rfl
  omega

/-- The end of a chain holds the 0 that a failing `create_slab` returns. -/
theorem SlabHeap.store_none (heap : SlabHeap s blocks chains free) (member : c ∈ s.caches)
    (split : chains c.objSize = before ++ [L]) : store 8 s.vm.mem (L + 16) 0 = s.vm.mem := by
  have whole := heap.chain c member
  rw [split] at whole
  obtain ⟨_, _, last⟩ := chain_append.mp whole
  have ended : load 8 s.vm.mem (L + 16) = 0 :=
    toPtr_eq_none.mp (chain_nil.mp (chain_cons.mp last).2)
  have back := store_load 8 s.vm.mem (L + 16)
  rwa [ended] at back

/-- A new slab in a frame, and the store to `next_slab` of the last one. -/
theorem NewSlab.effect {o : Nat} (new : NewSlab s.vm o f vm) (slabL : IsSlab s.caches chains L) :
    SlabEffect s.vm { vm with mem := store 8 vm.mem (L + 16) (physToVirt s.vm.hhdm f) }
      (IsSlab s.caches chains) := by
  refine ⟨.inr ⟨f, new.taken⟩, fun a away offFree => ?_⟩
  have offL := away L slabL
  dsimp only [pageSize] at offL
  rw [← new.bytes a (offFree f new.taken.free)]
  exact store_outside (by omega)

/-- The chains with the slab `A` at the end of one. -/
theorem appended_slabs (member : c ∈ s.caches)
    (slab : IsSlab s.caches (Function.update chains c.objSize (chains c.objSize ++ [A])) B) :
    IsSlab s.caches chains B ∨ B = A := by
  obtain ⟨c', member', slab⟩ := slab
  by_cases same : c'.objSize = c.objSize
  · rw [same, Function.update_self] at slab
    rcases List.mem_append.mp slab with old | last
    · exact .inl ⟨c, member, old⟩
    · exact .inr (List.mem_singleton.mp last)
  · rw [Function.update_of_ne same] at slab
    exact .inl ⟨c', member', slab⟩

theorem appended_stays :
    Stays s chains (Function.update chains c.objSize (chains c.objSize ++ [A])) := by
  intro c' _ B slab
  by_cases same : c'.objSize = c.objSize
  · rw [same] at slab ⊢
    rw [Function.update_self]
    exact List.mem_append_left _ slab
  · rwa [Function.update_of_ne same]

/-- The chain with a new slab, unless the direct map shows the frame at the null page. -/
theorem SlabHeap.grow_some (heap : SlabHeap s blocks chains free) (member : c ∈ s.caches)
    (split : chains c.objSize = before ++ [L]) (new : NewSlab s.vm c.objSize f vm)
    (isA : A = physToVirt s.vm.hhdm f) :
    ∃ chains' free', Extended s blocks chains { vm with mem := store 8 vm.mem (L + 16) A } chains' free' ∧
      (A = 0 ∨ A ∈ chains' c.objSize ∧ free' A = slots A c.objSize) := by
  have slabL : IsSlab s.caches chains L :=
    ⟨c, member, by rw [split]; exact List.mem_append_right before List.mem_cons_self⟩
  have wordA : A < 2 ^ 64 := by
    rw [isA]
    exact physToVirt_lt
  have alignedA : A % pageSize = 0 := by
    rw [isA]
    exact physToVirt_aligned heap.hhdm (heap.ready.isFrame new.taken.free)
  have page := new.page
  have next := new.next
  have untouched := new.bytes
  have effect := new.effect slabL
  rw [← isA] at page next untouched effect
  have fresh : ∀ B, IsSlab s.caches chains B → B ≠ A := by
    intro B slab
    rw [isA]
    exact (heap.frame B slab).ne_free heap.ready new.taken.free
  have apart := fun B slab => page_apart (heap.aligned slab) alignedA (fresh B slab)
  have held : ∀ g, s.vm.pmm.Held g → vm.pmm.Held g := fun g isHeld =>
    isHeld.mono new.taken.same fun free => isHeld.not_free ((new.taken.others g).mp free).1
  have bytes : ∀ B, IsSlab s.caches chains B → ∀ a, B ≤ a → a < B + pageSize →
      (B = L → a < L + 16 ∨ L + 24 ≤ a) → store 8 vm.mem (L + 16) A a = s.vm.mem a := by
    intro B slab a below above same
    have off := apart B slab
    rw [store_outside (heap.next_field slabL slab below above same)]
    apply untouched
    omega
  have kept := heap.keepsBlocks bytes
  have linked : link (store 8 vm.mem (L + 16) A) 16 L = toPtr A := by
    rw [link, load_store_same wordA]
  -- a frame that the direct map puts at address 0 ends the chain
  by_cases null : A = 0
  · refine ⟨chains, free, ⟨?_, effect, fun _ slab => .inl slab, kept, .refl s chains⟩, .inl null⟩
    apply heap.relink_none { vm with mem := store 8 vm.mem (L + 16) A } member split
      new.taken.ready new.taken.hhdm held bytes
    rw [linked, null, toPtr_zero]
  -- otherwise the frame is the new last slab
  have offNew := apart L slabL
  dsimp only [pageSize] at offNew
  refine ⟨Function.update chains c.objSize (chains c.objSize ++ [A]),
    Function.update free A (slots A c.objSize), ⟨?_, effect, ?_, kept, appended_stays⟩,
    .inr ⟨?_, ?_⟩⟩
  · apply heap.relink_some { vm with mem := store 8 vm.mem (L + 16) A } member split
      new.taken.ready new.taken.hhdm held bytes (linked.trans (toPtr_of_ne null))
    · rw [link, load_store_disjoint (by omega), next, toPtr_zero]
    · exact ⟨null, f, heap.ready.isFrame new.taken.free, new.taken.held,
        isA.trans (congrArg (physToVirt · f) new.taken.hhdm.symm)⟩
    · apply page.congr
      · intro a _ _
        exact store_outside (by omega)
      · intro x isFree a _ _
        obtain ⟨first, last⟩ := slot_bounds (page.mem_free isFree)
        dsimp only [pageSize, slabHeaderSize] at first last
        exact store_outside (by omega)
      · intro x member
        exact absurd member List.not_mem_nil
    · intro slab
      exact fresh A slab rfl
  · intro B slab
    rcases appended_slabs member slab with old | rfl
    · exact .inl old
    · exact .inr ⟨f, new.taken.free, isA⟩
  · rw [Function.update_self]
    exact List.mem_append_right _ List.mem_cons_self
  · rw [Function.update_self]

/-- The step from the last slab of a chain: `create_slab` and the store to `next_slab`. -/
theorem SlabHeap.grow (heap : SlabHeap s blocks chains free)
    (member : c ∈ s.caches) (split : chains c.objSize = before ++ [L]) :
    ∃ new vm chains' free', createSlab s.vm c.objSize = some (new, vm) ∧
      Extended s blocks chains { vm with mem := store 8 vm.mem (L + 16) new } chains' free' ∧
      (new = 0 ∧ Unserved s.vm { vm with mem := store 8 vm.mem (L + 16) new } ∨
        new ∈ chains' c.objSize ∧ free' new = slots new c.objSize) := by
  obtain ⟨low, high⟩ := heap.sized c member
  have fits : c.objSize ≤ pageSize - slabHeaderSize := by
    dsimp only [slab1024, pageSize, slabHeaderSize] at *
    omega
  rcases createSlab_spec heap.ready heap.hhdm (by omega) fits with
    ⟨empty, failed⟩ | ⟨f, vm, created, new⟩
  · have same := heap.store_none member split
    refine ⟨0, s.vm, chains, free, failed, ?_, .inl ⟨rfl, .inl ⟨empty, by rw [same]⟩⟩⟩
    rw [same]
    exact .refl heap
  · obtain ⟨A, isA⟩ : ∃ A, A = physToVirt s.vm.hhdm f := ⟨_, rfl⟩
    rw [← isA] at created
    obtain ⟨chains', free', extended, null | served⟩ := heap.grow_some member split new isA
    · -- the direct map shows the frame at the null page: it is lost
      exact ⟨A, vm, chains', free', created, extended,
        .inl ⟨null, .inr ⟨f, new.taken.free, isA.symm.trans null⟩⟩⟩
    · exact ⟨A, vm, chains', free', created, extended, .inr served⟩

end Grow

/-- The chain of a cache begins with its first slab. -/
theorem SlabHeap.first_node (heap : SlabHeap s blocks chains free) (member : c ∈ s.caches) :
    ∃ after, chains c.objSize = [] ++ c.firstSlab :: after := by
  have chain := heap.chain c member
  cases nodes : chains c.objSize with
  | nil =>
    rw [nodes, chain_nil] at chain
    cases chain
  | cons A after =>
    rw [nodes, chain_cons] at chain
    rw [Option.some.inj chain.1]
    exact ⟨after, rfl⟩

/-- A chain of slabs has no more nodes than there are pages. -/
theorem SlabHeap.chain_length_le (heap : SlabHeap s blocks chains free) (member : c ∈ s.caches) :
    (chains c.objSize).length ≤ s.vm.pmm.totalPages := by
  have subset : chains c.objSize ⊆ (List.range s.vm.pmm.totalPages).map fun page =>
      physToVirt s.vm.hhdm (page * pageSize) := by
    intro A slab
    obtain ⟨_, f, _, ⟨page, below, rfl, _⟩, rfl⟩ := heap.frame A ⟨c, member, slab⟩
    exact List.mem_map_of_mem (List.mem_range.mpr below)
  have fewer := (List.subperm_of_subset (heap.chain c member).nodup subset).length_le
  rwa [List.length_map, List.length_range] at fewer

/-- A slab with a free object serves it at once. -/
theorem findObject_head {fuel o : Nat} {rest : List Nat} {s : Vm} (nonnull : A ≠ 0)
    (list : Chain (link s.mem 0) (link s.mem 8 A) (h :: rest)) :
    findObject o fuel A s =
      some (h, { s with mem := store 8 s.mem (A + 8) (load 8 s.mem h) }) := by
  obtain ⟨head, nonzero⟩ := toPtr_eq_some.mp (chain_cons.mp list).1
  rw [← head] at nonzero
  rw [findObject.eq_def, if_neg nonnull, if_pos nonzero, head]

theorem findObject_null {fuel o : Nat} {s : Vm} : findObject o fuel 0 s = some (0, s) := by
  rw [findObject.eq_def, if_pos rfl]

/-- A full slab passes the search on. -/
theorem findObject_full {fuel o next : Nat} {s s' : Vm} (nonnull : A ≠ 0)
    (full : load 8 s.mem (A + 8) = 0) (onward : nextSlab s o A = some (next, s')) :
    findObject o (fuel + 1) A s = findObject o fuel next s' := by
  rw [findObject, if_neg nonnull, if_neg (fun some => some full), onward]
  rfl

/-- A slab of a chain serves an object, or the chain goes on behind it. -/
theorem SlabHeap.full_or_serves (heap : SlabHeap s blocks chains free) (member : c ∈ s.caches)
    {before after : List Nat} (split : chains c.objSize = before ++ A :: after) :
    (∃ h rest, free A = h :: rest ∧ ∀ fuel, findObject c.objSize fuel A s.vm =
      some (h, { s.vm with mem := store 8 s.vm.mem (A + 8) (load 8 s.vm.mem h) })) ∨
    load 8 s.vm.mem (A + 8) = 0 ∧ Chain (link s.vm.mem 16) (link s.vm.mem 16 A) after := by
  have slab : A ∈ chains c.objSize := by
    rw [split]
    exact List.mem_append_right before List.mem_cons_self
  have nonnull := (heap.frame A ⟨c, member, slab⟩).nonnull
  have list := (heap.page c member A slab).chain
  cases objects : free A with
  | cons h rest =>
    rw [objects] at list
    exact .inl ⟨h, rest, rfl, fun _ => findObject_head nonnull list⟩
  | nil =>
    rw [objects] at list
    have whole := heap.chain c member
    rw [split] at whole
    obtain ⟨mid, _, onward⟩ := chain_append.mp whole
    exact .inr ⟨toPtr_eq_none.mp (chain_nil.mp list), (chain_cons.mp onward).2⟩

/-- The loop serves the first free object from the slab `A` on, in the extended heap, or runs
into the end of a chain that could not be extended. -/
theorem findObject_spec (heap : SlabHeap s blocks chains free) (member : c ∈ s.caches)
    {A : Nat} {before after : List Nat} {fuel : Nat} (split : chains c.objSize = before ++ A :: after)
    (enough : (A :: after).length ≤ fuel) :
    ∃ vm chains' free', Extended s blocks chains vm chains' free' ∧
      (findObject c.objSize fuel A s.vm = some (0, vm) ∧ Unserved s.vm vm ∨
      ∃ B h rest, B ∈ chains' c.objSize ∧ free' B = h :: rest ∧
        findObject c.objSize fuel A s.vm =
          some (h, { vm with mem := store 8 vm.mem (B + 8) (load 8 vm.mem h) })) := by
  induction after generalizing A before fuel with
  | nil =>
    have slab : A ∈ chains c.objSize := by
      rw [split]
      exact List.mem_append_right before List.mem_cons_self
    rcases heap.full_or_serves member split with ⟨h, rest, objects, found⟩ | ⟨full, behind⟩
    · exact ⟨s.vm, chains, free, .refl heap, .inr ⟨A, h, rest, slab, objects, found fuel⟩⟩
    have nonnull := (heap.frame A ⟨c, member, slab⟩).nonnull
    have last : load 8 s.vm.mem (A + 16) = 0 := toPtr_eq_none.mp (chain_nil.mp behind)
    obtain ⟨fuel, rfl⟩ : ∃ n, fuel = n + 1 := Nat.exists_eq_add_one_of_ne_zero (by
      rw [List.length_singleton] at enough
      omega)
    obtain ⟨new, vm, chains', free', created, extended, result⟩ := heap.grow member split
    have word : new < 2 ^ 64 := by
      rcases result with ⟨rfl, _⟩ | ⟨appended, _⟩
      · decide
      · exact (extended.heap.frame new ⟨c, member, appended⟩).lt
    have onward : nextSlab s.vm c.objSize A =
        some (new, { vm with mem := store 8 vm.mem (A + 16) new }) := by
      have stored : load 8 (store 8 vm.mem (A + 16) new) (A + 16) = new := load_store_same word
      rw [nextSlab, if_pos last, created]
      simp only [Option.bind_eq_bind, Option.bind_some, stored]
    rw [findObject_full nonnull full onward]
    refine ⟨_, chains', free', extended, ?_⟩
    rcases result with ⟨rfl, unserved⟩ | ⟨appended, objects⟩
    · exact .inl ⟨findObject_null, unserved⟩
    · right
      -- the new slab comes with all its slots free
      have nonnull' := (extended.heap.frame new ⟨c, member, appended⟩).nonnull
      have page' := (extended.heap.page c member new appended).chain
      obtain ⟨h, rest, some⟩ := slots_ne_nil (A := new) (heap.sized c member)
      rw [objects, some] at page'
      exact ⟨new, h, rest, appended, objects.trans some, findObject_head nonnull' page'⟩
  | cons B after ih =>
    have slab : A ∈ chains c.objSize := by
      rw [split]
      exact List.mem_append_right before List.mem_cons_self
    rcases heap.full_or_serves member split with ⟨h, rest, objects, found⟩ | ⟨full, behind⟩
    · exact ⟨s.vm, chains, free, .refl heap, .inr ⟨A, h, rest, slab, objects, found fuel⟩⟩
    have nonnull := (heap.frame A ⟨c, member, slab⟩).nonnull
    obtain ⟨next, some⟩ := toPtr_eq_some.mp (chain_cons.mp behind).1
    obtain ⟨fuel, rfl⟩ : ∃ n, fuel = n + 1 := Nat.exists_eq_add_one_of_ne_zero (by
      rw [List.length_cons] at enough
      omega)
    have onward : nextSlab s.vm c.objSize A = Option.some (B, s.vm) := by
      rw [nextSlab, if_neg (by rw [next]; exact some), next]
    rw [findObject_full nonnull full onward]
    have split' : chains c.objSize = (before ++ [A]) ++ B :: after := by
      rw [split, List.append_assoc]
      rfl
    apply ih split'
    simp only [List.length_cons] at enough ⊢
    omega

end DedOS
