import DedOS.Mm.HeapRun

/-!
# Room in large blocks

What a non-null result of `kmalloc` promises for a large size (`LargeCapacity`), and when the
code keeps it (`CapacityHolds`): the sum of the size, the header and `kernel_heap_vaddr` must
not overflow, and the frames must suffice for the tables of the last page as well, whose
failure `vmm_map` does not report.
-/

namespace DedOS

open Lib

/-- The bytes of a block from its header on: in its slot, or in its pages. -/
def Block.extent (b : Block) : Nat :=
  if b.size ≤ slab1024 then b.size + allocHeaderSize else pagesCount b.size * pageSize

/-- The processor finds a byte of the block in the frame. -/
def UsedBy (s : Heap) (b : Block) (f : Nat) : Prop :=
  ∃ v a, b.header ≤ v ∧ v < b.header + b.extent ∧ s.vm.resolve s.cr3 vmmPresent v = some a ∧
    physToVirt s.vm.hhdm f ≤ a ∧ a < physToVirt s.vm.hhdm f + pageSize

/-- The frame holds a slab of one of the caches. -/
def HasSlab (s : Heap) (f : Nat) : Prop :=
  ∃ c ∈ s.caches, ∃ slabs, Chain (link s.vm.mem 16) (toPtr c.firstSlab) slabs ∧
    physToVirt s.vm.hhdm f ∈ slabs

/-- The page intersects `[p - 24, p + size)`. -/
def Touches (p size page : Nat) : Prop :=
  page * pageSize < p + size ∧ p < page * pageSize + pageSize + allocHeaderSize

/-- The page is mapped, from `s` to `s'`, to a frame that nobody else uses. -/
structure Backed (s s' : Heap) (blocks : List Block) (page f : Nat) : Prop where
  canonical : Vm.canonical (page * pageSize)
  mapped : s'.vm.frameOf s'.cr3 (vmmPresent ||| vmmWrite) (page * pageSize) = some f
  fresh : s.vm.pmm.Free f
  noTable : ¬ s'.vm.IsTable s'.cr3 f
  noSlab : ¬ HasSlab s' f
  noBlock : ∀ b ∈ blocks, ¬ UsedBy s' b f

/-- The header is written and every page of a non-null block is backed by a frame of its own. -/
def LargeCapacity (s : SlabState) (size : Nat) : Prop :=
  ∃ p heap, kmalloc s.heap size = some (p, heap) ∧ (p ≠ 0 → ∃ frame : Nat → Nat,
    (∀ page, Touches p size page → Backed s.heap heap s.blocks page (frame page)) ∧
    ∀ page page', Touches p size page → Touches p size page' → frame page = frame page' →
      page = page')

/-- Frames for all pages and their tables. -/
def Enough (s : Heap) (size : Nat) : Prop :=
  pagesCount size + (s.vm.needed s.cr3 s.heapVaddr 0 (pagesCount size)).card ≤ s.vm.pmm.freePages

/-- Not even frames for all pages and the tables of all but the last one. -/
def TooFew (s : Heap) (size : Nat) : Prop :=
  0 < pagesCount size ∧ s.vm.pmm.freePages <
    pagesCount size + (s.vm.needed s.cr3 s.heapVaddr 0 (pagesCount size - 1)).card

/-- `kmalloc` returns null, or the block ends in the address space and all its pages are
mapped. -/
def CapacityHolds (s : Heap) (size : Nat) : Prop :=
  TooFew s size ∨ s.heapVaddr + (size + allocHeaderSize) ≤ 2 ^ 64 ∧ Enough s size

namespace HeapRun

variable {s s' : SlabState} {chains free : Nat → List Nat} {pages : Nat → Prop} {top f size : Nat}
  {h : List (Entry SlabState HeapEvent)} {b : Block} {vm : Vm} {complete : Bool}
  {new : List (List (Fin 512))} {frames mapped : List Nat}

/-! ### Owners of frames -/

theorem Inv.hasSlab (inv : Inv s chains free pages top) (holds : HasSlab s.heap f) :
    slabOf s.heap chains (physToVirt s.heap.vm.hhdm f) := by
  obtain ⟨c, member, slabs, chain, inChain⟩ := holds
  by_cases null : c.firstSlab = 0
  · rw [null] at chain
    cases slabs with
    | nil => cases inChain
    | cons A rest =>
      rw [chain_cons] at chain
      cases chain.1
  · have isCreated : c ∈ s.heap.created.caches := List.mem_filter.mpr ⟨member, by simpa using null⟩
    have pointer : toPtr c.firstSlab = some c.firstSlab := if_neg null
    rw [pointer] at chain
    rw [chain.unique (inv.slabs.chain c isCreated)] at inChain
    exact ⟨c, isCreated, inChain⟩

/-- A byte of a small block lies in the frame of its slab. -/
theorem Inv.usedBy_small (inv : Inv s chains free pages top) (member : b ∈ smallBlocks s.blocks)
    (frame : IsFrame f) (used : UsedBy s.heap b f) :
    slabOf s.heap chains (physToVirt s.heap.vm.hhdm f) := by
  obtain ⟨v, a, low, high, there, lowA, highA⟩ := used
  obtain ⟨c, cached, slab, slot, room⟩ := inv.slabs.owner member
  obtain ⟨first, last⟩ := slot_bounds slot
  obtain ⟨g, frameG, isHeld, same, _⟩ := inv.arena.slabs _ ⟨c, cached, slab⟩
  rw [Block.extent, if_pos (mem_smallBlocks.mp member).2] at high
  have inSlab : (b.header &&& frameMask) ≤ v ∧ v < (b.header &&& frameMask) + pageSize := by omega
  have direct : s.heap.vm.directMapped v :=
    (inv.slabs.frame _ ⟨c, cached, slab⟩).direct inv.slabs.ready inSlab.1 inSlab.2
  rw [Vm.resolve, if_pos direct] at there
  obtain rfl := Option.some.inj there
  -- the frames of the slab and of the byte overlap
  have equal : f = g := by
    by_contra differ
    have apart := physToVirt_apart inv.arena.paging.hhdm frame frameG differ
    omega
  rw [equal, ← same]
  exact ⟨c, cached, slab⟩

/-- A byte of a large block lies in the frame behind one of its pages. -/
theorem Inv.usedBy_large (inv : Inv s chains free pages top) (member : b ∈ largeBlocks s.blocks)
    (frame : IsFrame f) (used : UsedBy s.heap b f) :
    ∃ k < pagesCount b.size, s.heap.vm.leaf s.heap.cr3 (b.header + k * pageSize) = f + 3 := by
  obtain ⟨v, a, low, high, there, lowA, highA⟩ := used
  have large := (mem_largeBlocks.mp member).2
  rw [Block.extent, if_neg (by omega)] at high
  have isBlock := inv.block b member
  obtain ⟨k, isK⟩ : ∃ k, k = (v - b.header) / pageSize := ⟨_, rfl⟩
  obtain ⟨o, isO⟩ : ∃ o, o = (v - b.header) % pageSize := ⟨_, rfl⟩
  have split : v = b.header + k * pageSize + o := by
    dsimp only [pageSize] at *
    omega
  have below : k < pagesCount b.size := by
    dsimp only [pageSize] at *
    omega
  have inPage : o < pageSize := by
    rw [isO]
    exact Nat.mod_lt _ (by decide)
  have page := isBlock.inside k below
  refine ⟨k, below, ?_⟩
  rw [split] at there
  rcases inv.arena.data _ page with unmapped | ⟨g, mapped, data⟩
  · rw [inv.arena.resolve_unmapped page unmapped (.inl rfl) inPage] at there
    cases there
  · have found : s.heap.vm.resolve s.heap.cr3 vmmPresent (b.header + k * pageSize + o) = _ :=
      inv.arena.resolve page mapped (fun _ _ => rfl) (.inl rfl) inPage
    rw [found] at there
    obtain rfl := Option.some.inj there
    -- the byte lies in one frame only
    have equal : f = g := by
      by_contra differ
      have apart := physToVirt_apart inv.arena.paging.hhdm frame data.frame differ
      omega
    rw [equal, mapped]

/-- The frame behind a page is used by no slab, and by no block without this page. -/
theorem Inv.unused (inv : Inv s chains free pages top) {v : Nat} (page : pages v)
    (mapped : s.heap.vm.leaf s.heap.cr3 v = f + 3) : ¬ HasSlab s.heap f ∧ ∀ b ∈ s.blocks,
      (slab1024 < b.size → ∀ k < pagesCount b.size, v ≠ b.header + k * pageSize) →
      ¬ UsedBy s.heap b f := by
  have data := inv.arena.dataFrame page mapped
  refine ⟨fun holds => data.noSlab (inv.hasSlab holds), fun b member outside used => ?_⟩
  by_cases small : b.size ≤ slab1024
  · exact data.noSlab (inv.usedBy_small (mem_smallBlocks.mpr ⟨member, small⟩) data.frame used)
  · have member' : b ∈ largeBlocks s.blocks := mem_largeBlocks.mpr ⟨member, by omega⟩
    obtain ⟨k, below, mapped'⟩ := inv.usedBy_large member' data.frame used
    apply outside (by omega) k below
    apply inv.arena.apart v _ page ((inv.block b member').inside k below)
    · rw [mapped]
      exact Nat.succ_ne_zero _
    · rw [mapped, mapped']

/-! ### The ends of a large request -/

/-- With too few frames `kmalloc` returns null, whatever the size, and with
`kernel_heap_vaddr` advanced. -/
theorem Inv.tooFew (inv : Inv s chains free pages top) (large : slab1024 < size)
    (few : TooFew s.heap size) : ∃ vm, kmalloc s.heap size = some (0, { s.heap with
      vm := vm
      heapVaddr := wrap64 (s.heap.heapVaddr + wrap64 (pagesCount size * pageSize)) }) := by
  obtain ⟨complete, vm, new, frames, mapped, done, outcome⟩ :=
    Vm.mapPages_spec inv.arena.paging s.heap.heapVaddr 0 (pagesCount size)
  have incomplete : complete = false := by
    rw [← Bool.not_eq_true, outcome.complete_iff]
    obtain ⟨some, less⟩ := few
    omega
  have result := kmallocPages_eq done
  rw [incomplete, if_neg Bool.false_ne_true, ← HeapRun.kmalloc_large large] at result
  exact ⟨vm, result⟩

/-- Otherwise the loop over the pages completes, and a result is not null. -/
theorem Inv.not_null (inv : Inv s chains free pages top) (large : slab1024 < size)
    (few : ¬ TooFew s.heap size) {p : Nat} {heap : Heap}
    (called : kmalloc s.heap size = some (p, heap)) :
    p = wrap64 (s.heap.heapVaddr + allocHeaderSize) ∧ p ≠ 0 := by
  obtain ⟨complete, vm, new, frames, mapped, done, outcome⟩ :=
    Vm.mapPages_spec inv.arena.paging s.heap.heapVaddr 0 (pagesCount size)
  have isComplete : complete = true := by
    apply outcome.complete_iff.mpr
    rw [TooFew] at few
    omega
  have result := kmallocPages_eq done
  rw [isComplete, if_pos rfl, ← HeapRun.kmalloc_large large, called] at result
  obtain ⟨written, _, same⟩ := Option.map_eq_some_iff.mp result.symm
  have pointer : wrap64 (s.heap.heapVaddr + allocHeaderSize) = p := congrArg Prod.fst same
  refine ⟨pointer.symm, ?_⟩
  -- `kernel_heap_vaddr` is at a page boundary
  have aligned := inv.range.2.2
  rw [← pointer, inv.vaddr]
  unfold wrap64
  dsimp only [allocHeaderSize, pageSize] at *
  omega

/-- With enough frames every page is mapped. -/
theorem Inv.kmalloc_enough (inv : Inv s chains free pages top) (large : slab1024 < size)
    (fits : Fits s.heap size) (enough : Enough s.heap size) :
    ∃ vm vm' new frames mapped,
      Vm.Outcome s.heap.cr3 top 0 (pagesCount size) s.heap.vm true vm new frames mapped ∧
      mapped.length = pagesCount size ∧
      (∀ v, vm'.leaf s.heap.cr3 v = vm.leaf s.heap.cr3 v) ∧
      Inv { s with
          heap := advanced s.heap vm' (top + pagesCount size * pageSize)
          blocks := ⟨top + allocHeaderSize, size⟩ :: s.blocks } chains free
        (withPages pages top (pagesCount size)) (top + pagesCount size * pageSize) ∧
      kmalloc s.heap size = some (top + allocHeaderSize,
        advanced s.heap vm' (top + pagesCount size * pageSize)) := by
  obtain ⟨complete, vm, new, frames, mapped, outcome, ends⟩ := inv.kmalloc_large large fits
  have vaddr := inv.vaddr_top fits.2.1
  rw [Enough, vaddr] at enough
  have full := outcome.full_iff.mpr enough
  have isComplete : complete = true := by
    have fewer : (s.heap.vm.needed s.heap.cr3 top 0 (pagesCount size - 1)).card ≤
        (s.heap.vm.needed s.heap.cr3 top 0 (pagesCount size)).card := Vm.needed_mono (Nat.sub_le _ _)
    apply outcome.complete_iff.mpr
    omega
  subst isComplete
  rcases ends with ⟨failed, _⟩ | ⟨_, none, _⟩ | ⟨_, f, rest, _, _, leaf, inv', done⟩
  · cases failed
  · have some := fits.1
    rw [none, List.length_nil] at full
    omega
  · exact ⟨vm, _, new, frames, mapped, outcome, full, leaf, inv', done⟩

/-- A request whose bytes end in the address space fits, for its pages do. -/
theorem Inv.fits_of_room (inv : Inv s chains free pages top) (inRange : heapBase ≤ s.heap.heapVaddr)
    (ends : s.heap.heapVaddr + (size + allocHeaderSize) ≤ 2 ^ 64) :
    Fits s.heap size ∧ size + allocHeaderSize + 4095 < 2 ^ 64 := by
  have small : size + allocHeaderSize + 4095 < 2 ^ 64 := by
    dsimp only [heapBase, allocHeaderSize] at *
    omega
  obtain ⟨covers, tight⟩ := pagesCount_bounds small
  have aligned := inv.range.2.2
  rw [inv.vaddr_top inRange] at ends
  refine ⟨⟨?_, inRange, ?_⟩, small⟩
  · dsimp only [allocHeaderSize, pageSize] at *
    omega
  · rw [inv.vaddr_top inRange]
    dsimp only [allocHeaderSize, pageSize] at *
    omega

/-- The page of an address range that starts at a page boundary. -/
theorem touches_page {page : Nat} (aligned : top % pageSize = 0)
    (room : size + allocHeaderSize ≤ pagesCount size * pageSize)
    (touched : Touches (top + allocHeaderSize) size page) :
    ∃ k < pagesCount size, page * pageSize = top + k * pageSize ∧ k = page - top / pageSize := by
  obtain ⟨low, high⟩ := touched
  refine ⟨page - top / pageSize, ?_, ?_, rfl⟩
  · dsimp only [allocHeaderSize, pageSize] at *
    omega
  · dsimp only [allocHeaderSize, pageSize] at *
    omega

/-- A request that does not overflow and finds frames for its pages and tables. -/
theorem Inv.capacity (inv : Inv s chains free pages top) (large : slab1024 < size)
    (inRange : heapBase ≤ s.heap.heapVaddr)
    (ends : s.heap.heapVaddr + (size + allocHeaderSize) ≤ 2 ^ 64) (enough : Enough s.heap size) :
    LargeCapacity s size := by
  obtain ⟨fits, small⟩ := inv.fits_of_room inRange ends
  obtain ⟨covers, _⟩ := pagesCount_bounds small
  obtain ⟨lowTop, highTop, aligned⟩ := inv.range
  obtain ⟨vm, vm', new, frames, mapped, outcome, full, leaf, inv', done⟩ :=
    inv.kmalloc_enough large fits enough
  have topEnd := inv'.range.2.1
  refine ⟨_, _, done, fun _ => ⟨fun page => mapped.getD (page - top / pageSize) 0, ?_, ?_⟩⟩
  · intro page touched
    obtain ⟨k, below, address, isK⟩ := touches_page aligned covers touched
    have isPage : withPages pages top (pagesCount size) (top + k * pageSize) := .inr ⟨k, below, rfl⟩
    have inMapped : k < mapped.length := by omega
    have here : vm'.leaf s.heap.cr3 (top + k * pageSize) = mapped[k] + 3 := by
      rw [leaf, leaf_mapped outcome lowTop topEnd inMapped]
    have frame : mapped.getD (page - top / pageSize) 0 = mapped[k] := by
      rw [← isK, List.getD_eq_getElem?_getD, List.getElem?_eq_getElem inMapped, Option.getD_some]
    have data := inv'.arena.dataFrame isPage here
    obtain ⟨noSlab, noBlock⟩ := inv'.unused isPage here
    -- older blocks end below the new one
    have older : ∀ b ∈ s.blocks,
        ¬ UsedBy (advanced s.heap vm' (top + pagesCount size * pageSize)) b mapped[k] := by
      intro b member
      apply noBlock b (List.mem_cons_of_mem _ member)
      intro isLarge l belowL
      have old := (inv.block b (mem_largeBlocks.mpr ⟨member, isLarge⟩)).below
      dsimp only [pageSize] at *
      omega
    show Backed _ _ _ _ (mapped.getD (page - top / pageSize) 0)
    rw [frame]
    refine ⟨?_, ?_, ?_, data.other, noSlab, older⟩
    · rw [address]
      right
      dsimp only [heapBase, pageSize] at *
      omega
    · rw [address]
      exact Vm.frameOf_mapped inv'.arena.writable (.inr rfl) data.frame here
    · exact (outcome.grown.taken _ (outcome.front.subset (List.getElem_mem inMapped))).1
  · -- two pages with one frame are one
    intro page page' touched touched' same
    obtain ⟨k, below, address, isK⟩ := touches_page aligned covers touched
    obtain ⟨l, below', address', isL⟩ := touches_page aligned covers touched'
    have distinct : mapped.Nodup := outcome.grown.distinct.sublist outcome.front.sublist
    dsimp only at same
    rw [← isK, ← isL, List.getD_eq_getElem?_getD, List.getD_eq_getElem?_getD,
      List.getElem?_eq_getElem (by omega), List.getElem?_eq_getElem (by omega)] at same
    have equal : k = l := distinct.getElem_inj_iff.mp same
    rw [equal, ← address'] at address
    dsimp only [pageSize] at address
    omega

/-- A block has room only where `CapacityHolds`. -/
theorem Inv.holds_of_capacity (inv : Inv s chains free pages top) (large : slab1024 < size)
    (inRange : heapBase ≤ s.heap.heapVaddr) (capacity : LargeCapacity s size) :
    CapacityHolds s.heap size := by
  obtain ⟨p, heap, called, room⟩ := capacity
  by_cases few : TooFew s.heap size
  · exact .inl few
  right
  have vaddr := inv.vaddr_top inRange
  obtain ⟨lowTop, highTop, aligned⟩ := inv.range
  have word : top + allocHeaderSize < 2 ^ 64 := by
    have notEnd := inv.vaddr
    rw [vaddr] at notEnd
    unfold wrap64 at notEnd
    dsimp only [heapBase, allocHeaderSize, pageSize] at *
    omega
  obtain ⟨pointer, some⟩ := inv.not_null large few called
  rw [vaddr, wrap64_of_lt word] at pointer
  subst pointer
  obtain ⟨frame, backed, _⟩ := room some
  have ends : top + (size + allocHeaderSize) ≤ 2 ^ 64 := by
    by_contra beyond
    -- the page behind the end of the address space
    have last := (backed (2 ^ 52) (by
      unfold Touches
      dsimp only [allocHeaderSize, pageSize] at *
      omega)).canonical
    unfold Vm.canonical at last
    dsimp only [pageSize] at last
    omega
  obtain ⟨fits, small⟩ := inv.fits_of_room inRange (by rwa [vaddr])
  obtain ⟨covers, tight⟩ := pagesCount_bounds small
  rw [vaddr]
  refine ⟨ends, ?_⟩
  obtain ⟨vm', new', frames', mapped', f, outcome', _, _, leaf, inv', _, heaps⟩ :=
    inv.kmalloc_block large fits called (Nat.succ_ne_zero _)
  rw [Enough, vaddr]
  apply outcome'.full_iff.mp
  by_contra notFull
  -- the last page has no table
  obtain ⟨one, hole⟩ := leaf_hole outcome' (inv.fits_top fits).1 notFull
  have page : Touches (top + allocHeaderSize) size (top / pageSize + mapped'.length) := by
    unfold Touches
    dsimp only [allocHeaderSize, pageSize] at *
    omega
  have there := (backed _ page).mapped
  have address : (top / pageSize + mapped'.length) * pageSize = top + mapped'.length * pageSize := by
    dsimp only [pageSize] at *
    omega
  have unmapped : (withHeader vm' f size).leaf s.heap.cr3 (top + mapped'.length * pageSize) = 0 := by
    rw [leaf, hole]
  rw [heaps, address] at there
  have none := Vm.frameOf_unmapped inv'.arena.writable (.inr rfl) unmapped
  cases none.symm.trans there

/-- The condition is sufficient. -/
theorem Inv.capacity_of_holds (inv : Inv s chains free pages top) (large : slab1024 < size)
    (inRange : heapBase ≤ s.heap.heapVaddr) (holds : CapacityHolds s.heap size) :
    LargeCapacity s size := by
  rcases holds with few | ⟨ends, enough⟩
  · obtain ⟨vm, null⟩ := inv.tooFew large few
    exact ⟨0, _, null, fun some => absurd rfl some⟩
  · exact inv.capacity large inRange ends enough

/-- In every run in which `kernel_heap_vaddr` has not wrapped, the pages of a large block are
mapped and its own if and only if `CapacityHolds` before the request. -/
theorem large_capacity (run : Run step Started h s) (fits : AllFit h)
    (inRange : heapBase ≤ s.heap.heapVaddr) (large : slab1024 < size) :
    LargeCapacity s size ↔ CapacityHolds s.heap size := by
  obtain ⟨chains, free, pages, top, inv⟩ := run_good run fits
  exact ⟨inv.holds_of_capacity large inRange, inv.capacity_of_holds large inRange⟩

/-- Four frames are enough for one page. -/
theorem enough_one {s : Heap} (one : pagesCount size = 1) (four : 4 ≤ s.vm.pmm.freePages) :
    Enough s size := by
  have tables := Vm.needed_le s.vm s.cr3 s.heapVaddr 0 1
  rw [Enough, one]
  omega

/-- 2000 bytes on the small machine. -/
theorem large_capacity_bareHeap : ∃ s, Started s ∧ LargeCapacity s 2000 := by
  obtain ⟨s, started, _, frames, vaddr, _⟩ := started_bareHeap
  refine ⟨s, started, ?_⟩
  apply (large_capacity (.start started) (fun x member => absurd member List.not_mem_nil)
    (Nat.le_of_eq vaddr.symm) (by decide : slab1024 < 2000)).mpr
  refine .inr ⟨?_, enough_one (by decide) (by omega)⟩
  rw [vaddr]
  decide

/-- `kmalloc(2^64 - 1)` hands out a block of one page. -/
theorem no_capacity_bareHeap : ∃ s, Started s ∧ ¬ LargeCapacity s (2 ^ 64 - 1) := by
  obtain ⟨s, started, _, frames, vaddr, _⟩ := started_bareHeap
  obtain ⟨chains, free, pages, top, inv⟩ := run_good (.start started)
    fun x member => absurd member List.not_mem_nil
  refine ⟨s, started, fun capacity => ?_⟩
  have one : pagesCount (2 ^ 64 - 1) = 1 := by decide
  rcases inv.holds_of_capacity (by decide) (Nat.le_of_eq vaddr.symm) capacity with few | ⟨ends, _⟩
  · have less := few.2
    rw [one, Nat.sub_self, Vm.needed_zero, Finset.card_empty, frames] at less
    omega
  · rw [vaddr] at ends
    dsimp only [heapBase, allocHeaderSize] at ends
    omega

end HeapRun

end DedOS
