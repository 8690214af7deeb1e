import DedOS.Mm.HeapRun

/-!
# Where the bytes of blocks lie

The holder of a block reaches its bytes through the direct map or through the page tables.
`Inv.cell_frame` says in which frames they end up and `Inv.cell_injective` that no two of them
meet. A call keeps a byte where it is when it keeps the entry of its page (`Inv.cell_kept`).
-/

namespace DedOS

open Lib

namespace HeapRun

/-- The place in memory of the byte at an offset in a block; `none` is a page fault. -/
def cell (s : Heap) (b : Block) (offset : Nat) : Option Nat :=
  s.vm.resolve s.cr3 vmmPresent (b.ptr + offset)

/-- What the holder reads there. -/
def byteAt (s : Heap) (b : Block) (offset : Nat) : Option UInt8 := (cell s b offset).map s.vm.mem

/-- The offset belongs to the block. A large block has fewer pages than its size says where the
page count overflowed. -/
def Inside (b : Block) (offset : Nat) : Prop :=
  offset < b.size ∧ (b.size ≤ slab1024 ∨ offset + allocHeaderSize < pagesCount b.size * pageSize)

variable {s s' : SlabState} {chains chains' free free' : Nat → List Nat}
  {pages pages' : Nat → Prop} {top top' v w f a offset offset' : Nat} {b b' : Block} {vm : Vm}
  {value : UInt8}

/-! ### Pages -/

/-- An access to a page of the heap depends on the page's entry only. -/
theorem Inv.resolve_page (inv : Inv s chains free pages top) (page : pages v)
    (below : offset < pageSize) {flags : Nat} (access : Vm.IsAccess flags) :
    s.heap.vm.resolve s.heap.cr3 flags (v + offset) =
      if s.heap.vm.leaf s.heap.cr3 v = 0 then none
      else some (physToVirt s.heap.vm.hhdm (s.heap.vm.leaf s.heap.cr3 v - 3) + offset) := by
  rcases inv.arena.data v page with unmapped | ⟨f, mapped, _⟩
  · rw [if_pos unmapped]
    exact inv.arena.resolve_unmapped page unmapped access below
  · have nonzero : s.heap.vm.leaf s.heap.cr3 v ≠ 0 := by omega
    rw [if_neg nonzero, mapped]
    exact inv.arena.resolve page mapped (fun _ _ => rfl) access below

/-- The page of the block in which an offset lies. -/
structure PageOffset (b : Block) (offset v o : Nat) : Prop where
  address : b.ptr + offset = v + o
  below : o < pageSize
  page : ∃ k < pagesCount b.size, v = b.header + k * pageSize

theorem Inv.page_offset (inv : Inv s chains free pages top) (member : b ∈ largeBlocks s.blocks)
    (inside : Inside b offset) : ∃ v o, pages v ∧ PageOffset b offset v o := by
  have isBlock := inv.block b member
  have large := (mem_largeBlocks.mp member).2
  have room : offset + allocHeaderSize < pagesCount b.size * pageSize :=
    inside.2.resolve_left (by omega)
  have below : (allocHeaderSize + offset) / pageSize < pagesCount b.size := by
    rw [Nat.div_lt_iff_lt_mul (by decide)]
    omega
  have address : b.ptr + offset = b.header + (allocHeaderSize + offset) / pageSize * pageSize +
      (allocHeaderSize + offset) % pageSize := by
    rw [isBlock.ptr]
    dsimp only [pageSize]
    omega
  exact ⟨_, _, isBlock.inside _ below, address, Nat.mod_lt _ (by decide), _, below, rfl⟩

/-! ### Small blocks -/

theorem Inv.small_bounds (inv : Inv s chains free pages top) (member : b ∈ smallBlocks s.blocks)
    (inside : offset < b.size) : ∃ A, slabOf s.heap chains A ∧ A ≤ b.ptr + offset ∧
      b.ptr + offset < A + pageSize := by
  obtain ⟨A, slab, low, high⟩ := inv.slabs.block_bounds member
  exact ⟨A, slab, by omega, by omega⟩

/-- Slabs are reached through the direct map, where every access is allowed. -/
theorem Inv.resolve_small (inv : Inv s chains free pages top) (member : b ∈ smallBlocks s.blocks)
    (inside : offset < b.size) (flags : Nat) :
    s.heap.vm.resolve s.heap.cr3 flags (b.ptr + offset) = some (b.ptr + offset) := by
  obtain ⟨A, slab, low, high⟩ := inv.small_bounds member inside
  have direct : s.heap.vm.directMapped (b.ptr + offset) :=
    (inv.slabs.frame A slab).direct inv.slabs.ready low high
  rw [Vm.resolve, if_pos direct]

/-! ### The frames behind the bytes -/

theorem small_or_large (member : b ∈ s.blocks) :
    b ∈ smallBlocks s.blocks ∨ b ∈ largeBlocks s.blocks := by
  rw [mem_smallBlocks, mem_largeBlocks]
  by_cases small : b.size ≤ slab1024
  · exact .inl ⟨member, small⟩
  · exact .inr ⟨member, by omega⟩

/-- The address lies in the frame `f`, which is no table and nobody else's. -/
structure InFrame (s : SlabState) (a f : Nat) : Prop where
  frame : IsFrame f
  held : s.heap.vm.pmm.Held f
  noTable : ¬ s.heap.vm.IsTable s.heap.cr3 f
  own : f ∉ s.held
  low : physToVirt s.heap.vm.hhdm f ≤ a
  high : a < physToVirt s.heap.vm.hhdm f + pageSize

/-- The bytes of small blocks are in slabs. -/
theorem Inv.small_frame (inv : Inv s chains free pages top) (member : b ∈ smallBlocks s.blocks)
    (inside : offset < b.size) : ∃ f, InFrame s (b.ptr + offset) f ∧
      slabOf s.heap chains (physToVirt s.heap.vm.hhdm f) := by
  obtain ⟨A, slab, low, high⟩ := inv.small_bounds member inside
  obtain ⟨f, frame, held, rfl, noTable⟩ := inv.arena.slabs A slab
  refine ⟨f, ⟨frame, held, noTable, ?_, low, high⟩, slab⟩
  intro other
  exact (inv.arena.others f other).1.noSlab slab

/-- The bytes of large blocks are in the frames behind their pages. -/
theorem Inv.large_frame (inv : Inv s chains free pages top) (member : b ∈ largeBlocks s.blocks)
    (inside : Inside b offset) (here : cell s.heap b offset = some a) : ∃ v o f, pages v ∧
      PageOffset b offset v o ∧ s.heap.vm.leaf s.heap.cr3 v = f + 3 ∧
      a = physToVirt s.heap.vm.hhdm f + o ∧ InFrame s a f ∧
      DataFrame s.heap.cr3 s.heap.vm (slabOf s.heap chains) f := by
  obtain ⟨v, o, page, place⟩ := inv.page_offset member inside
  rw [cell, place.address, inv.resolve_page page place.below (.inl rfl)] at here
  rcases inv.arena.data v page with unmapped | ⟨f, mapped, data⟩
  · rw [if_pos unmapped] at here
    cases here
  · rw [if_neg (by omega), mapped] at here
    obtain rfl := Option.some.inj here
    have below := place.below
    refine ⟨v, o, f, page, place, mapped, rfl, ⟨data.frame, data.held, data.other, ?_, ?_, ?_⟩, data⟩
    · intro other
      exact (inv.arena.others f other).2 v page mapped
    · rw [Nat.add_sub_cancel]
      exact Nat.le_add_right ..
    · rw [Nat.add_sub_cancel]
      omega

theorem Inv.cell_frame (inv : Inv s chains free pages top) (member : b ∈ s.blocks)
    (inside : Inside b offset) (here : cell s.heap b offset = some a) : ∃ f, InFrame s a f := by
  rcases small_or_large member with small | large
  · obtain ⟨f, inFrame, _⟩ := inv.small_frame small inside.1
    rw [cell, inv.resolve_small small inside.1] at here
    exact ⟨f, Option.some.inj here ▸ inFrame⟩
  · obtain ⟨_, _, f, _, _, _, _, inFrame, _⟩ := inv.large_frame large inside here
    exact ⟨f, inFrame⟩

/-- Bytes of frames in use when only other frames are written. -/
theorem InFrame.kept {writes : Nat → Prop} (inFrame : InFrame s a f)
    (effect : FrameEffect s.heap.vm vm writes) (other : ¬ writes f) :
    vm.mem a = s.heap.vm.mem a :=
  effect.bytes f inFrame.frame inFrame.held.not_free other a inFrame.low inFrame.high

/-! ### No two bytes share a place -/

/-- Two small blocks are apart. -/
theorem Inv.small_injective (inv : Inv s chains free pages top) (member : b ∈ smallBlocks s.blocks)
    (member' : b' ∈ smallBlocks s.blocks) (inside : offset < b.size) (inside' : offset' < b'.size)
    (same : b.ptr + offset = b'.ptr + offset') : b = b' := by
  by_contra differ
  have kept : b' ∈ (smallBlocks s.blocks).erase b :=
    (List.mem_erase_of_ne (Ne.symm differ)).mpr member'
  have headers := inv.slabs.header_erase member kept
  -- the object of `b'` is not the one of `b`
  obtain ⟨c, cached, slab, slot, fits⟩ := inv.slabs.owner member'
  have apart := inv.slabs.block_apart member cached slab slot headers.symm
  have ptr := (inv.slabs.block b member).1
  have ptr' := (inv.slabs.block b' member').1
  omega

/-- Slabs and data frames are different frames. -/
theorem Inv.small_large_apart (inv : Inv s chains free pages top)
    (member : b ∈ smallBlocks s.blocks) (member' : b' ∈ largeBlocks s.blocks)
    (inside : offset < b.size) (inside' : Inside b' offset') :
    cell s.heap b' offset' ≠ some (b.ptr + offset) := by
  intro here
  obtain ⟨f, inSlab, slab⟩ := inv.small_frame member inside
  obtain ⟨_, _, g, _, _, _, _, inPage, data⟩ := inv.large_frame member' inside' here
  have differ : f ≠ g := by
    rintro rfl
    exact data.noSlab slab
  have apart := physToVirt_apart inv.arena.paging.hhdm inSlab.frame inPage.frame differ
  have low := inSlab.low
  have high := inSlab.high
  have low' := inPage.low
  have high' := inPage.high
  omega

theorem Inv.large_injective (inv : Inv s chains free pages top)
    (member : b ∈ largeBlocks s.blocks) (member' : b' ∈ largeBlocks s.blocks)
    (inside : Inside b offset) (inside' : Inside b' offset')
    (here : cell s.heap b offset = some a) (here' : cell s.heap b' offset' = some a) :
    b = b' ∧ offset = offset' := by
  obtain ⟨v, o, f, page, place, mapped, isA, inPage, _⟩ := inv.large_frame member inside here
  obtain ⟨v', o', f', page', place', mapped', isA', inPage', _⟩ :=
    inv.large_frame member' inside' here'
  have frames : f = f' := by
    by_contra differ
    have apart := physToVirt_apart inv.arena.paging.hhdm inPage.frame inPage'.frame differ
    have low := inPage.low
    have high := inPage.high
    have low' := inPage'.low
    have high' := inPage'.high
    omega
  subst frames
  -- one frame is behind one page, and one page in one block
  obtain rfl : v = v' := inv.arena.apart v v' page page' (by omega) (mapped.trans mapped'.symm)
  obtain ⟨k, below, isK⟩ := place.page
  obtain ⟨l, below', isL⟩ := place'.page
  have blocks : b = b' := by
    by_contra differ
    have rows : k * pageSize + pageSize ≤ pagesCount b.size * pageSize := by
      rw [← Nat.succ_mul]
      exact Nat.mul_le_mul_right _ below
    have rows' : l * pageSize + pageSize ≤ pagesCount b'.size * pageSize := by
      rw [← Nat.succ_mul]
      exact Nat.mul_le_mul_right _ below'
    have apart := inv.apart_of_ne member member' differ
    have positive : 0 < pageSize := by decide
    unfold Apart at apart
    omega
  subst blocks
  have address := place.address
  have address' := place'.address
  exact ⟨rfl, by omega⟩

/-- Different bytes of live blocks are in different places. -/
theorem Inv.cell_injective (inv : Inv s chains free pages top) (member : b ∈ s.blocks)
    (member' : b' ∈ s.blocks) (inside : Inside b offset) (inside' : Inside b' offset')
    (here : cell s.heap b offset = some a) (here' : cell s.heap b' offset' = some a) :
    b = b' ∧ offset = offset' := by
  have small_cell : ∀ {b : Block} {offset : Nat}, b ∈ smallBlocks s.blocks → Inside b offset →
      cell s.heap b offset = some (b.ptr + offset) := by
    intro b offset small inside
    exact inv.resolve_small small inside.1 vmmPresent
  rcases small_or_large member with small | large
  · rw [small_cell small inside] at here
    obtain rfl := Option.some.inj here
    rcases small_or_large member' with small' | large'
    · rw [small_cell small' inside'] at here'
      have same := Option.some.inj here'
      obtain rfl := inv.small_injective small small' inside.1 inside'.1 same.symm
      exact ⟨rfl, by omega⟩
    · exact absurd here' (inv.small_large_apart small large' inside.1 inside')
  · rcases small_or_large member' with small' | large'
    · rw [small_cell small' inside'] at here'
      obtain rfl := Option.some.inj here'
      exact absurd here (inv.small_large_apart small' large inside'.1 inside)
    · exact inv.large_injective large large' inside inside' here here'

/-! ### Calls that leave a byte where it is -/

/-- A byte stays in its place when the entry of its page is kept. -/
theorem Inv.cell_kept (inv : Inv s chains free pages top) (inv' : Inv s' chains' free' pages' top')
    (member : b ∈ s.blocks) (member' : b ∈ s'.blocks) (inside : Inside b offset)
    (cr3 : s'.heap.cr3 = s.heap.cr3) (hhdm : s'.heap.vm.hhdm = s.heap.vm.hhdm)
    (leaf : b ∈ largeBlocks s.blocks → ∀ v, pages v →
      (∃ k < pagesCount b.size, v = b.header + k * pageSize) →
        s'.heap.vm.leaf s.heap.cr3 v = s.heap.vm.leaf s.heap.cr3 v) :
    cell s'.heap b offset = cell s.heap b offset := by
  rcases small_or_large member with small | large
  · have small' : b ∈ smallBlocks s'.blocks :=
      mem_smallBlocks.mpr ⟨member', (mem_smallBlocks.mp small).2⟩
    rw [cell, cell, inv.resolve_small small inside.1, inv'.resolve_small small' inside.1]
  · have large' : b ∈ largeBlocks s'.blocks :=
      mem_largeBlocks.mpr ⟨member', (mem_largeBlocks.mp large).2⟩
    obtain ⟨v, o, page, place⟩ := inv.page_offset large inside
    obtain ⟨k, below, isV⟩ := place.page
    have page' : pages' v := isV ▸ (inv'.block b large').inside k below
    rw [cell, cell, place.address, inv.resolve_page page place.below (.inl rfl),
      inv'.resolve_page page' place.below (.inl rfl), cr3, hhdm, leaf large v page place.page]

end HeapRun

end DedOS
