import DedOS.Mm.Arena
import DedOS.Mm.SlabRun

/-!
# The whole heap: slabs, page blocks and everybody else

Calls of `kmalloc` with any size and of `kfree` on any live block, interleaved with writes of
their holders, with other users of the frame allocator and with other calls of `vmm_map` and
`vmm_unmap` below the heap's range. `Inv` is kept by every call as long as large requests get
pages and `kernel_heap_vaddr` does not wrap (`Fits`): the calls on the slabs (`Inv.slabCall`)
and those that only write data (`Inv.dataCall`) are here.
-/

namespace DedOS

open Lib

inductive HeapEvent where
  | call (e : SlabEvent)
  /-- somebody maps a page below the heap's range -/
  | map (virt phys flags : Nat)
  /-- … or unmaps one -/
  | unmap (virt : Nat)
  deriving DecidableEq

/-- A large request for at least one page that moves `kernel_heap_vaddr` without a wrap. -/
def Fits (s : Heap) (size : Nat) : Prop :=
  0 < pagesCount size ∧ heapBase ≤ s.heapVaddr ∧
    s.heapVaddr + pagesCount size * pageSize ≤ 2 ^ 64

instance (s : Heap) (size : Nat) : Decidable (Fits s size) := inferInstanceAs (Decidable (_ ∧ _))

def smallBlocks (blocks : List Block) : List Block := blocks.filter fun b => b.size ≤ slab1024

def largeBlocks (blocks : List Block) : List Block := blocks.filter fun b => slab1024 < b.size

namespace HeapRun

/-- `kmalloc` takes any size; the other calls keep to what the caller owns. -/
def Allowed (s : SlabState) : HeapEvent → Prop
  | .call (.kmalloc size) => size < 2 ^ 64
  | .call e => s.Allowed e
  | .map virt phys flags => (phys < 2 ^ 64 ∧ flags < 2 ^ 64) ∧ Vm.pageOf virt < Vm.pageOf heapBase
  | .unmap virt => Vm.pageOf virt < Vm.pageOf heapBase

instance (s : SlabState) (e : HeapEvent) : Decidable (Allowed s e) :=
  match e with
  | .call (.kmalloc _) => inferInstanceAs (Decidable (_ < _))
  | .call (.kfree block) => inferInstanceAs (Decidable (s.Allowed (.kfree block)))
  | .call (.write block offset value) => inferInstanceAs (Decidable (s.Allowed (.write block offset value)))
  | .call .alloc => inferInstanceAs (Decidable (s.Allowed .alloc))
  | .call (.free ptr) => inferInstanceAs (Decidable (s.Allowed (.free ptr)))
  | .call (.poke address value) => inferInstanceAs (Decidable (s.Allowed (.poke address value)))
  | .map _ _ _ => inferInstanceAs (Decidable (_ ∧ _))
  | .unmap _ => inferInstanceAs (Decidable (_ < _))

def call (s : SlabState) : HeapEvent → Option SlabState
  | .call e => s.call e
  | .map virt phys flags => do
    let vm ← vmmMap s.heap.vm (physToVirt s.heap.vm.hhdm s.heap.cr3) virt phys flags
    some { s with heap := { s.heap with vm := vm } }
  | .unmap virt =>
    let vm := vmmUnmap s.heap.vm (physToVirt s.heap.vm.hhdm s.heap.cr3) virt
    some { s with heap := { s.heap with vm := vm } }

def step (s : SlabState) (e : HeapEvent) : Option SlabState :=
  if Allowed s e then call s e else none

/-- The machine before `heap_init`: the boot pagemap is a tree of tables that can be written
through, and the direct map ends below the heap's range. -/
structure Booted (s : Heap) : Prop where
  paging : s.vm.Paging s.cr3
  writable : s.vm.Writable s.cr3
  high : ∀ v, heapBase ≤ v → v < 2 ^ 64 → ¬ s.vm.directMapped v
  vaddr : s.heapVaddr = heapBase

def Started (s : SlabState) : Prop :=
  ∃ before, Booted before ∧ heapInit before = some s.heap ∧ s.blocks = [] ∧ s.held = []

/-- Large requests fit, and the holder of a large block keeps to its pages, which are fewer
than its size says where the page count overflowed. -/
def FitsEvent (s : SlabState) : HeapEvent → Prop
  | .call (.kmalloc size) => size ≤ slab1024 ∨ Fits s.heap size
  | .call (.write b offset _) =>
    b.size ≤ slab1024 ∨ offset + allocHeaderSize < pagesCount b.size * pageSize
  | _ => True

/-- A live block of whole pages, its header in place. -/
structure PageBlock (s : Heap) (pages : Nat → Prop) (top : Nat) (b : Block) : Prop where
  ptr : b.ptr = b.header + allocHeaderSize
  inside : ∀ k < pagesCount b.size, pages (b.header + k * pageSize)
  count : 0 < pagesCount b.size
  below : b.header + pagesCount b.size * pageSize ≤ top
  header : ∃ f, s.vm.leaf s.cr3 b.header = f + 3 ∧
    load 4 s.vm.mem (physToVirt s.vm.hhdm f) = magicPage ∧
    load 8 s.vm.mem (physToVirt s.vm.hhdm f + 8) = pagesCount b.size

/-- Two page blocks do not overlap. -/
def Apart (b b' : Block) : Prop :=
  b.header + pagesCount b.size * pageSize ≤ b'.header ∨
    b'.header + pagesCount b'.size * pageSize ≤ b.header

/-- The slabs of the caches that have any. -/
def slabOf (s : Heap) (chains : Nat → List Nat) : Nat → Prop := IsSlab s.created.caches chains

/-- The invariant: the slabs are in order, the frames of the arena apart, and the large blocks
lie one after the other below `top`, where the next one begins. -/
structure Inv (s : SlabState) (chains free : Nat → List Nat) (pages : Nat → Prop) (top : Nat) :
    Prop where
  slabs : SlabHeap s.heap.created (smallBlocks s.blocks) chains free
  sizes : s.heap.caches.map SlabCache.objSize = slabSizes
  arena : Arena s.heap.cr3 s.heap.vm (slabOf s.heap chains) s.held pages
  range : heapBase ≤ top ∧ top ≤ 2 ^ 64 ∧ top % pageSize = 0
  vaddr : s.heap.heapVaddr = wrap64 top
  below : ∀ v, pages v → v < top
  block : ∀ b ∈ largeBlocks s.blocks, PageBlock s.heap pages top b
  apart : (largeBlocks s.blocks).Pairwise Apart

variable {s s' : SlabState} {chains chains' free free' : Nat → List Nat} {pages : Nat → Prop}
  {top f : Nat} {b : Block} {blocks : List Block} {vm : Vm} {held' : List Nat}
  {writes : Nat → Prop}

theorem mem_largeBlocks : b ∈ largeBlocks blocks ↔ b ∈ blocks ∧ slab1024 < b.size := by
  simp [largeBlocks]

theorem mem_smallBlocks : b ∈ smallBlocks blocks ↔ b ∈ blocks ∧ b.size ≤ slab1024 := by
  simp [smallBlocks]

/-! ### Blocks while memory changes -/

/-- A page block depends on the first entry and on the bytes of its header. -/
theorem PageBlock.mono {heap heap' : Heap} (isBlock : PageBlock heap pages top b)
    (cr3 : heap'.cr3 = heap.cr3) (hhdm : heap'.vm.hhdm = heap.vm.hhdm)
    (leaf : heap'.vm.leaf heap.cr3 b.header = heap.vm.leaf heap.cr3 b.header)
    (bytes : ∀ f, heap.vm.leaf heap.cr3 b.header = f + 3 → ∀ a, physToVirt heap.vm.hhdm f ≤ a →
      a < physToVirt heap.vm.hhdm f + 16 → heap'.vm.mem a = heap.vm.mem a) :
    PageBlock heap' pages top b := by
  obtain ⟨f, mapped, magic, count⟩ := isBlock.header
  have here := bytes f mapped
  refine ⟨isBlock.ptr, isBlock.inside, isBlock.count, isBlock.below, f, ?_, ?_, ?_⟩
  · rw [cr3, leaf, mapped]
  · rw [hhdm, ← magic]
    apply load_congr
    intro a low high
    exact here a low (by omega)
  · rw [hhdm, ← count]
    apply load_congr
    intro a low high
    exact here a (by omega) (by omega)

/-- A block has at least one page, which is its header's. -/
theorem PageBlock.first {heap : Heap} (isBlock : PageBlock heap pages top b) : pages b.header := by
  have first := isBlock.inside 0 isBlock.count
  rwa [Nat.zero_mul, Nat.add_zero] at first

/-- The bytes of the header when the frame behind it is not written. -/
theorem Inv.block_effect (inv : Inv s chains free pages top)
    (effect : FrameEffect s.heap.vm vm writes)
    (leaf : ∀ v, pages v → vm.leaf s.heap.cr3 v = s.heap.vm.leaf s.heap.cr3 v)
    (other : ∀ f, DataFrame s.heap.cr3 s.heap.vm (slabOf s.heap chains) f → ¬ writes f) :
    ∀ b ∈ largeBlocks s.blocks, PageBlock { s.heap with vm := vm } pages top b := by
  intro b member
  have isBlock := inv.block b member
  apply isBlock.mono
  · rfl
  · exact effect.hhdm
  · exact leaf _ isBlock.first
  intro f mapped a low high
  have data := inv.arena.dataFrame isBlock.first mapped
  apply effect.bytes f data.frame data.held.not_free (other f data) a low
  dsimp only [pageSize]
  omega

/-- The slabs when neither their bytes nor their frames are touched. -/
theorem Inv.slabs_effect (inv : Inv s chains free pages top)
    (effect : FrameEffect s.heap.vm vm writes) (ready : vm.pmm.Ready)
    (other : ∀ f, slabOf s.heap chains (physToVirt s.heap.vm.hhdm f) → IsFrame f →
      s.heap.vm.pmm.Held f → ¬ s.heap.vm.IsTable s.heap.cr3 f → ¬ writes f ∧ ¬ vm.pmm.Free f) :
    SlabHeap { s.heap.created with vm := vm } (smallBlocks s.blocks) chains free := by
  apply inv.slabs.of_pages vm ready effect.hhdm
  · intro A isSlab
    have nonnull := (inv.slabs.frame A isSlab).nonnull
    obtain ⟨f, frame, isHeld, rfl, noTable⟩ := inv.arena.slabs A isSlab
    obtain ⟨_, used⟩ := other f isSlab frame isHeld noTable
    exact ⟨nonnull, f, frame, isHeld.mono effect.same used, by rw [effect.hhdm]⟩
  · intro A isSlab a low high
    obtain ⟨f, frame, isHeld, rfl, noTable⟩ := inv.arena.slabs A isSlab
    obtain ⟨kept, _⟩ := other f isSlab frame isHeld noTable
    exact effect.bytes f frame isHeld.not_free kept a low high

/-! ### Calls on the slabs -/

/-- A call on the slabs seen from the frames. -/
theorem Inv.slab_frames (inv : Inv s chains free pages top) {kept : List Block}
    (call : SlabCall s.heap.created chains chains' kept vm) :
    FrameEffect s.heap.vm vm (fun f => slabOf s.heap chains (physToVirt s.heap.vm.hhdm f)) ∧
      ∀ f, vm.pmm.Free f → s.heap.vm.pmm.Free f := by
  have frames := call.effect.pmm
  change vm.pmm = s.heap.vm.pmm ∨ ∃ f, s.heap.vm.pmm.Taken f vm.pmm at frames
  refine ⟨⟨?_, ?_⟩, ?_⟩
  · rcases frames with same | ⟨f, taken⟩
    · rw [same]
      exact inv.arena.paging.ready.wf.refl
    · exact taken.same
  · intro f frame used noSlab a low high
    have hhdm := inv.arena.paging.hhdm
    apply call.effect.bytes
    · intro A isSlab
      -- a slab of the heap
      obtain ⟨g, frameG, _, rfl, _⟩ := inv.arena.slabs A isSlab
      have differ : f ≠ g := by
        rintro rfl
        exact noSlab isSlab
      have apart := physToVirt_apart hhdm frame frameG differ
      omega
    · -- a frame that was free, such as a new slab
      intro g isFree
      have differ : f ≠ g := by
        rintro rfl
        exact used isFree
      have apart := physToVirt_apart hhdm frame (inv.arena.paging.ready.isFrame isFree) differ
      change a < physToVirt s.heap.vm.hhdm g ∨ physToVirt s.heap.vm.hhdm g + pageSize ≤ a
      omega
  · intro f isFree
    rcases frames with same | ⟨g, taken⟩
    · rwa [same] at isFree
    · exact ((taken.others f).mp isFree).1

/-- Calls on the slabs keep the invariant. -/
theorem Inv.slabCall (inv : Inv s chains free pages top) {kept : List Block}
    (heap : SlabHeap { s.heap.created with vm := vm } (smallBlocks blocks) chains' free')
    (call : SlabCall s.heap.created chains chains' kept vm)
    (same : largeBlocks blocks = largeBlocks s.blocks) :
    Inv { s with heap := { s.heap with vm := vm }, blocks := blocks } chains' free' pages top := by
  have ready : vm.pmm.Ready := heap.ready
  obtain ⟨effect, freed⟩ := inv.slab_frames call
  have apartFromSlabs : ∀ f, ∀ A, slabOf s.heap chains A → A = physToVirt s.heap.vm.hhdm f →
      IsFrame f → ¬ s.heap.vm.IsTable s.heap.cr3 f := by
    rintro f A isSlab same frame
    obtain ⟨g, frameG, _, same', noTable⟩ := inv.arena.slabs A isSlab
    rwa [physToVirt_inj frame frameG (same.symm.trans same')]
  obtain ⟨arena, leaf⟩ := inv.arena.quiet (slabOf s.heap chains') s.held (fun _ => False)
    effect ready
    (by
      rintro t ⟨q, short, reached⟩ isSlab
      exact apartFromSlabs t _ isSlab rfl (inv.arena.paging.table q t short reached).frame
        ⟨q, short, reached⟩)
    (fun f isFree => .inl (freed f isFree)) (fun _ none => none.elim)
    (by
      intro A isSlab
      rcases call.slabs A isSlab with old | ⟨f, isFree, rfl⟩
      · exact .inl old
      · refine .inr ⟨f, isFree, ?_, rfl⟩
        -- the new slab's frame is held
        obtain ⟨_, g, frame, isHeld, same⟩ := heap.frame _ isSlab
        have hhdm : vm.hhdm = s.heap.vm.hhdm := effect.hhdm
        change physToVirt s.heap.vm.hhdm f = physToVirt vm.hhdm g at same
        rw [hhdm] at same
        rw [physToVirt_inj (inv.arena.paging.ready.isFrame isFree) frame same]
        exact isHeld.not_free)
    (fun f member => .inl ⟨member, fun none => none⟩) inv.arena.distinct
  refine ⟨heap, inv.sizes, arena, inv.range, inv.vaddr, inv.below, ?_, ?_⟩
  · intro b member
    change b ∈ largeBlocks blocks at member
    rw [same] at member
    exact inv.block_effect effect (fun v _ => leaf v) (fun f data => data.noSlab) b member
  · change (largeBlocks blocks).Pairwise Apart
    rw [same]
    exact inv.apart

/-! ### Calls that write data -/

/-- Writes to data frames and frames of others, and the frames others take and give back. -/
theorem Inv.dataCall (inv : Inv s chains free pages top) (gives : Nat → Prop)
    (effect : FrameEffect s.heap.vm vm writes) (ready : vm.pmm.Ready)
    (writes_data : ∀ f, writes f → DataFrame s.heap.cr3 s.heap.vm (slabOf s.heap chains) f)
    (freed : ∀ f, vm.pmm.Free f → s.heap.vm.pmm.Free f ∨ gives f)
    (gives_held : ∀ f, gives f → f ∈ s.held)
    (kept : ∀ f ∈ held', (f ∈ s.held ∧ ¬ gives f) ∨ s.heap.vm.pmm.Free f ∧ f ≠ 0 ∧ ¬ vm.pmm.Free f)
    (distinct : held'.Nodup)
    (headers : ∀ b ∈ largeBlocks s.blocks, ∀ f, s.heap.vm.leaf s.heap.cr3 b.header = f + 3 →
      ∀ a, physToVirt s.heap.vm.hhdm f ≤ a → a < physToVirt s.heap.vm.hhdm f + 16 →
        vm.mem a = s.heap.vm.mem a) :
    Inv { s with heap := { s.heap with vm := vm }, held := held' } chains free pages top := by
  obtain ⟨arena, leaf⟩ := inv.arena.quiet (slabOf s.heap chains) held' gives effect ready
    (fun t table isWritten => (writes_data t isWritten).other table) freed gives_held
    (fun A isSlab => .inl isSlab)
    (by
      intro f member
      rcases kept f member with old | ⟨isFree, nonzero, used⟩
      · exact .inl old
      · refine .inr ⟨isFree, nonzero, used, fun isSlab => ?_⟩
        -- a slab is in a frame that is held, so it was not free
        obtain ⟨g, frame, isHeld, same, _⟩ := inv.arena.slabs _ isSlab
        obtain rfl := physToVirt_inj (inv.arena.paging.ready.isFrame isFree) frame same
        exact isHeld.not_free isFree) distinct
  refine ⟨?_, inv.sizes, arena, inv.range, inv.vaddr, inv.below, ?_, inv.apart⟩
  · apply inv.slabs_effect effect ready
    intro f isSlab _ isHeld _
    refine ⟨fun isWritten => (writes_data f isWritten).noSlab isSlab, fun isFree => ?_⟩
    rcases freed f isFree with old | given
    · exact isHeld.not_free old
    · exact (inv.arena.others f (gives_held f given)).1.noSlab isSlab
  · intro b member
    have isBlock := inv.block b member
    apply isBlock.mono
    · rfl
    · exact effect.hhdm
    · exact leaf _
    · exact headers b member

end HeapRun

end DedOS
