import DedOS.Mm.HeapCalls

/-!
# Large blocks

Writes of their holders, `kmalloc` and `kfree` of whole pages, and other calls of `vmm_map`
and `vmm_unmap`, each with the heap's invariant.
-/

namespace DedOS

open Lib

namespace HeapRun

variable {s s' : SlabState} {chains chains' free free' : Nat → List Nat} {pages pages' : Nat → Prop}
  {top top' f size : Nat} {b b' : Block} {vm : Vm} {new : List (List (Fin 512))}
  {frames : List Nat}

/-! ### Writes of the holders -/

theorem Apart.symm (apart : Apart b b') : Apart b' b := apart.elim .inr .inl

instance : Std.Symm Apart := ⟨fun _ _ apart => apart.symm⟩

theorem Inv.apart_of_ne (inv : Inv s chains free pages top) (member : b ∈ largeBlocks s.blocks)
    (member' : b' ∈ largeBlocks s.blocks) (differ : b ≠ b') : Apart b b' :=
  inv.apart.forall member member' differ

/-- The headers of two blocks are in different pages. -/
theorem Inv.block_of_page (inv : Inv s chains free pages top) (member : b ∈ largeBlocks s.blocks)
    (member' : b' ∈ largeBlocks s.blocks) {k : Nat} (below : k < pagesCount b.size)
    (same : b'.header = b.header + k * pageSize) : b' = b := by
  by_contra differ
  have count := (inv.block b' member').count
  dsimp only [pageSize] at *
  rcases inv.apart_of_ne member member' (Ne.symm differ) with before | behind
  · dsimp only [pageSize] at before
    omega
  · dsimp only [pageSize] at behind
    omega

/-- Bytes of a frame behind a page of the heap change, and no header does. -/
theorem Inv.writePage {v : Nat} {m : Memory} (inv : Inv s chains free pages top) (isPage : pages v)
    (mapped : s.heap.vm.leaf s.heap.cr3 v = f + 3)
    (bytes : ∀ a, a < physToVirt s.heap.vm.hhdm f ∨ physToVirt s.heap.vm.hhdm f + pageSize ≤ a →
      m a = s.heap.vm.mem a)
    (headers : ∀ b ∈ largeBlocks s.blocks, b.header = v → ∀ a, physToVirt s.heap.vm.hhdm f ≤ a →
      a < physToVirt s.heap.vm.hhdm f + 16 → m a = s.heap.vm.mem a) :
    Inv { s with heap := { s.heap with vm := { s.heap.vm with mem := m } } } chains free pages top ∧
      (∀ q, q.length ≤ 3 → ({ s.heap.vm with mem := m } : Vm).tableAt s.heap.cr3 q =
        s.heap.vm.tableAt s.heap.cr3 q) ∧
      ∀ w, ({ s.heap.vm with mem := m } : Vm).leaf s.heap.cr3 w = s.heap.vm.leaf s.heap.cr3 w := by
  have paging := inv.arena.paging
  have data := inv.arena.dataFrame isPage mapped
  have effect := FrameEffect.of_store paging.ready paging.hhdm data.frame bytes
  -- the frame of a heap page is no table
  obtain ⟨_, tables, _, leaf⟩ := effect.tables paging paging.ready (by
    rintro t table rfl
    exact data.other table) fun g isFree => ⟨paging.free_not_table isFree, paging.free g isFree⟩
  refine ⟨?_, tables, leaf⟩
  apply inv.dataCall (fun _ => False) effect paging.ready
  · rintro g rfl
    exact data
  · exact fun g isFree => .inl isFree
  · exact fun _ none => none.elim
  · exact fun g kept => .inl ⟨kept, fun none => none⟩
  · exact inv.arena.distinct
  · intro b member g mapped' a first last
    have isFirst := (inv.block b member).first
    by_cases same : g = f
    · -- two pages with one frame behind them are one page
      subst same
      have apart := inv.arena.apart _ _ isFirst isPage (by omega) (mapped'.trans mapped.symm)
      exact headers b member apart a first last
    · have owner := inv.arena.dataFrame isFirst mapped'
      apply effect.bytes g owner.frame owner.held.not_free same a first
      dsimp only [pageSize]
      omega

theorem Inv.write_large {offset : Nat} {value : UInt8} (inv : Inv s chains free pages top)
    (member : b ∈ largeBlocks s.blocks)
    (inside : offset + allocHeaderSize < pagesCount b.size * pageSize)
    (done : s.heap.vm.write s.heap.cr3 1 (b.ptr + offset) value.toNat = some vm) :
    Inv { s with heap := { s.heap with vm := vm } } chains free pages top := by
  have isBlock := inv.block b member
  obtain ⟨k, isK⟩ : ∃ k, k = (allocHeaderSize + offset) / pageSize := ⟨_, rfl⟩
  obtain ⟨o, isO⟩ : ∃ o, o = (allocHeaderSize + offset) % pageSize := ⟨_, rfl⟩
  have address : b.ptr + offset = b.header + k * pageSize + o := by
    rw [isBlock.ptr, isK, isO]
    dsimp only [allocHeaderSize, pageSize]
    omega
  have low : o < pageSize := by
    rw [isO]
    exact Nat.mod_lt _ (by decide)
  have below : k < pagesCount b.size := by
    rw [isK]
    dsimp only [allocHeaderSize, pageSize] at *
    omega
  have page := isBlock.inside k below
  rw [address] at done
  rcases inv.arena.data _ page with unmapped | ⟨f, mapped, data⟩
  · -- a page that `vmm_map` has missed
    rw [Vm.write, inv.arena.resolve_unmapped page unmapped (.inr rfl) low] at done
    cases done
  have written : s.heap.vm.write s.heap.cr3 1 (b.header + k * pageSize + o) value.toNat = _ :=
    inv.arena.write page mapped (fun _ _ => rfl) low
  rw [written] at done
  obtain rfl := Option.some.inj done
  refine (inv.writePage page mapped ?_ ?_).1
  · intro a outside
    apply store_outside
    omega
  · intro b' member' headers a first last
    -- the block's own header ends before its data
    obtain rfl := inv.block_of_page member member' below headers
    have zero : k = 0 := by
      dsimp only [pageSize] at headers
      omega
    apply store_outside
    rw [zero] at isK
    dsimp only [allocHeaderSize, pageSize] at isK isO
    omega

/-! ### Mapping -/

theorem PageBlock.widen {heap : Heap} (isBlock : PageBlock heap pages top b)
    (more : ∀ v, pages v → pages' v) (higher : top ≤ top') : PageBlock heap pages' top' b :=
  ⟨isBlock.ptr, fun k below => more _ (isBlock.inside k below), isBlock.count,
    Nat.le_trans isBlock.below higher, isBlock.header⟩

/-- `kernel_heap_vaddr` says nothing about slabs. -/
theorem slabs_vaddr {heap : Heap} {blocks : List Block} {vaddr : Nat}
    (slabs : SlabHeap heap blocks chains free) :
    SlabHeap { heap with heapVaddr := vaddr } blocks chains free :=
  ⟨slabs.ready, slabs.hhdm, slabs.distinct, slabs.sized, slabs.chain, slabs.frame, slabs.page,
    slabs.block⟩

/-- Tables were created and pages mapped above the old ones. -/
theorem Inv.extend (inv : Inv s chains free pages top)
    (grown : Vm.Extends s.heap.cr3 s.heap.vm vm new frames)
    (more : ∀ v, pages v → pages' v)
    (kept : ∀ v, pages v → vm.leaf s.heap.cr3 v = s.heap.vm.leaf s.heap.cr3 v)
    (inside : ∀ v, pages' v → heapBase ≤ v ∧ v < top' ∧ v % pageSize = 0)
    (page : ∀ v, pages' v → pages v ∨ vm.leaf s.heap.cr3 v = 0 ∨
      ∃ f ∈ frames, vm.leaf s.heap.cr3 v = f + 3)
    (apart : ∀ v w, pages' v → pages' w → ∀ f ∈ frames, vm.leaf s.heap.cr3 v = f + 3 →
      vm.leaf s.heap.cr3 w = f + 3 → v = w)
    (higher : top ≤ top') (range : top' ≤ 2 ^ 64 ∧ top' % pageSize = 0) :
    Inv { s with heap := { s.heap with vm := vm, heapVaddr := wrap64 top' } } chains free pages'
      top' := by
  have effect := grown.effect inv.arena.paging
  have arena := inv.arena.extend grown
    (fun v isPage => ⟨(inside v isPage).1, Nat.lt_of_lt_of_le (inside v isPage).2.1 range.1,
      (inside v isPage).2.2⟩)
    (by
      intro v isPage
      rcases page v isPage with old | unmapped | mapped
      · exact .inr (.inl ⟨old, kept v old⟩)
      · exact .inl unmapped
      · exact .inr (.inr mapped)) apart
  refine ⟨?_, inv.sizes, arena, ⟨Nat.le_trans inv.range.1 higher, range⟩, rfl, fun v isPage =>
    (inside v isPage).2.1, ?_, inv.apart⟩
  · -- the new tables are in frames that were free, and no slab is
    have slabs := inv.slabs_effect effect grown.paging.ready (by
      intro f _ _ isHeld noTable
      exact ⟨noTable, fun isFree => isHeld.not_free (grown.free f isFree)⟩)
    exact slabs_vaddr slabs
  · intro b member
    have isBlock := inv.block_effect effect kept (fun f data => data.other) b member
    obtain ⟨ptr, inside, room, below, header⟩ := isBlock.widen more higher
    exact ⟨ptr, inside, room, below, header⟩

theorem vaddr_eq (inv : Inv s chains free pages top) :
    ({ s.heap with vm := vm, heapVaddr := wrap64 top } : Heap) = { s.heap with vm := vm } := by
  rw [← inv.vaddr]

/-- Calls of `vmm_map` and `vmm_unmap` on pages that are not the heap's. -/
theorem Inv.otherPage (inv : Inv s chains free pages top)
    (grown : Vm.Extends s.heap.cr3 s.heap.vm vm new [])
    (kept : ∀ v, pages v → vm.leaf s.heap.cr3 v = s.heap.vm.leaf s.heap.cr3 v) :
    Inv { s with heap := { s.heap with vm := vm } } chains free pages top := by
  rw [← vaddr_eq inv]
  apply inv.extend grown (fun v isPage => isPage) kept
  · intro v isPage
    obtain ⟨low, _, aligned⟩ := inv.arena.inside v isPage
    exact ⟨low, inv.below v isPage, aligned⟩
  · exact fun v isPage => .inl isPage
  · intro v w _ _ f member
    exact absurd member List.not_mem_nil
  · exact Nat.le_refl top
  · exact inv.range.2

/-- Pages of the heap are not below it. -/
theorem Inv.page_ne {v virt : Nat} (inv : Inv s chains free pages top) (isPage : pages v)
    (below : Vm.pageOf virt < Vm.pageOf heapBase) : Vm.pageOf virt ≠ Vm.pageOf v := by
  obtain ⟨low, high, _⟩ := inv.arena.inside v isPage
  unfold Vm.pageOf at *
  dsimp only [pageSize, heapBase] at *
  omega

theorem Inv.map {virt phys flags : Nat} (inv : Inv s chains free pages top)
    (words : phys < 2 ^ 64 ∧ flags < 2 ^ 64) (below : Vm.pageOf virt < Vm.pageOf heapBase) :
    ∃ s', call s (.map virt phys flags) = some s' ∧ Inv s' chains free pages top := by
  obtain ⟨vm, new, grown, ⟨_, _, t, here, done⟩ | ⟨_, _, done, _⟩⟩ :=
    Vm.vmmMap_spec inv.arena.paging virt phys flags
  · have word : phys ||| flags < 2 ^ 64 := Nat.or_lt_two_pow words.1 words.2
    refine ⟨_, by simp only [call, done, Option.bind_eq_bind, Option.bind_some]; rfl, ?_⟩
    apply inv.otherPage (grown.extends.trans (Vm.extends_setLeaf grown.paging here word))
    intro v isPage
    rw [Vm.leaf_setLeaf grown.paging here word, if_neg (inv.page_ne isPage below), grown.leaf]
  · refine ⟨_, by simp only [call, done, Option.bind_eq_bind, Option.bind_some]; rfl, ?_⟩
    exact inv.otherPage grown.extends fun v _ => grown.leaf v

theorem Inv.unmap {virt : Nat} (inv : Inv s chains free pages top)
    (below : Vm.pageOf virt < Vm.pageOf heapBase) :
    ∃ s', call s (.unmap virt) = some s' ∧ Inv s' chains free pages top := by
  refine ⟨_, rfl, ?_⟩
  rw [Vm.vmmUnmap_eq]
  cases here : s.heap.vm.tableAt s.heap.cr3 (Vm.path virt) with
  | none => exact inv
  | some t =>
    have word : 0 < 2 ^ 64 := by decide
    apply inv.otherPage (Vm.extends_setLeaf inv.arena.paging here word)
    intro v isPage
    rw [Vm.leaf_setLeaf inv.arena.paging here word, if_neg (inv.page_ne isPage below)]

/-! ### kmalloc of pages -/

/-- The page count when no addition overflows. -/
theorem pagesCount_bounds (small : size + allocHeaderSize + 4095 < 2 ^ 64) :
    size + allocHeaderSize ≤ pagesCount size * pageSize ∧
      pagesCount size * pageSize < size + allocHeaderSize + pageSize := by
  unfold pagesCount wrap64
  dsimp only [allocHeaderSize, pageSize] at *
  omega

theorem Inv.vaddr_top (inv : Inv s chains free pages top) (inRange : heapBase ≤ s.heap.heapVaddr) :
    s.heap.heapVaddr = top := by
  have high := inv.range.2.1
  have vaddr := inv.vaddr
  unfold wrap64 at vaddr
  dsimp only [heapBase] at inRange
  omega

/-- A request that fits ends within the address space, and `kernel_heap_vaddr` moves behind it. -/
theorem Inv.fits_top (inv : Inv s chains free pages top) (fits : Fits s.heap size) :
    top + pagesCount size * pageSize ≤ 2 ^ 64 ∧
      wrap64 (s.heap.heapVaddr + wrap64 (pagesCount size * pageSize)) =
        wrap64 (top + pagesCount size * pageSize) := by
  obtain ⟨_, inRange, ends⟩ := fits
  have vaddr := inv.vaddr_top inRange
  have low := inv.range.1
  rw [vaddr] at ends ⊢
  refine ⟨ends, ?_⟩
  unfold wrap64
  dsimp only [heapBase] at low
  omega

/-- Pages at and above the heap's base are told apart by the page number. -/
theorem pageOf_inj {v w : Nat} (low : heapBase ≤ v) (high : v < 2 ^ 64) (aligned : v % pageSize = 0)
    (low' : heapBase ≤ w) (high' : w < 2 ^ 64) (aligned' : w % pageSize = 0)
    (same : Vm.pageOf v = Vm.pageOf w) : v = w := by
  unfold Vm.pageOf at same
  dsimp only [pageSize, heapBase] at *
  omega

/-- The pages of the heap and `n` more from `top` on. -/
def withPages (pages : Nat → Prop) (top n : Nat) (v : Nat) : Prop :=
  pages v ∨ ∃ k < n, v = top + k * pageSize

/-- The addresses of the new pages do not wrap. -/
theorem pageAddr_add {n k : Nat} (ends : top + n * pageSize ≤ 2 ^ 64) (below : k < n) :
    Vm.pageAddr top (0 + k) = top + k * pageSize := by
  rw [Nat.zero_add]
  apply wrap64_of_lt
  dsimp only [pageSize] at *
  omega

theorem page_above {n k : Nat} (range : heapBase ≤ top ∧ top ≤ 2 ^ 64 ∧ top % pageSize = 0)
    (below : k < n) : heapBase ≤ top + k * pageSize ∧ top + k * pageSize < top + n * pageSize ∧
      (top + k * pageSize) % pageSize = 0 := by
  dsimp only [pageSize] at *
  omega

/-- What the walk finds on a page that was mapped. -/
theorem leaf_mapped {root n k : Nat} {s₀ : Vm} {complete : Bool} {mapped : List Nat}
    (outcome : Vm.Outcome root top 0 n s₀ complete vm new frames mapped) (low : heapBase ≤ top)
    (ends : top + n * pageSize ≤ 2 ^ 64) (below : k < mapped.length) :
    vm.leaf root (top + k * pageSize) = mapped[k] + 3 := by
  have short := outcome.short
  have here := outcome.filled.here (by
    dsimp only [heapBase, pageSize] at *
    omega) k below
  rwa [pageAddr_add ends (Nat.lt_of_lt_of_le below short)] at here

/-- The page that `vmm_map` has missed is the last one, and its table is missing. -/
theorem leaf_hole {root n : Nat} {s₀ : Vm} {mapped : List Nat}
    (outcome : Vm.Outcome root top 0 n s₀ true vm new frames mapped)
    (ends : top + n * pageSize ≤ 2 ^ 64) (missed : mapped.length ≠ n) :
    mapped.length + 1 = n ∧ vm.leaf root (top + mapped.length * pageSize) = 0 := by
  obtain ⟨last, gone⟩ := outcome.hole rfl missed
  rw [pageAddr_add ends (by omega)] at gone
  refine ⟨last, ?_⟩
  rw [Vm.leaf, gone, Option.elim_none]

/-- The pages that the loop has passed: what is behind them, if anything, is one of the
frames it has taken. -/
theorem leaf_passed {root n k : Nat} {s₀ : Vm} {complete : Bool} {mapped : List Nat}
    (outcome : Vm.Outcome root top 0 n s₀ complete vm new frames mapped) (low : heapBase ≤ top)
    (ends : top + n * pageSize ≤ 2 ^ 64) (passed : k < if complete then n else mapped.length) :
    k < n ∧ (vm.leaf root (top + k * pageSize) = 0 ∨ ∃ below : k < mapped.length,
      vm.leaf root (top + k * pageSize) = mapped[k] + 3) := by
  have short := outcome.short
  by_cases isMapped : k < mapped.length
  · exact ⟨Nat.lt_of_lt_of_le isMapped short, .inr ⟨isMapped, leaf_mapped outcome low ends isMapped⟩⟩
  · cases complete with
    | false => exact absurd passed isMapped
    | true =>
      have passed : k < n := passed
      obtain ⟨last, unmapped⟩ := leaf_hole outcome ends (by omega)
      obtain rfl : k = mapped.length := by omega
      exact ⟨passed, .inl unmapped⟩

/-- Pages below the new ones keep what is behind them. -/
theorem Inv.kept_leaf {n v : Nat} {complete : Bool} {mapped : List Nat}
    (inv : Inv s chains free pages top)
    (outcome : Vm.Outcome s.heap.cr3 top 0 n s.heap.vm complete vm new frames mapped)
    (ends : top + n * pageSize ≤ 2 ^ 64) (isPage : pages v) :
    vm.leaf s.heap.cr3 v = s.heap.vm.leaf s.heap.cr3 v := by
  obtain ⟨lowV, highV, alignedV⟩ := inv.arena.inside v isPage
  have belowV := inv.below v isPage
  apply outcome.filled.others
  intro k below same
  have inBlock : k < n := Nat.lt_of_lt_of_le below outcome.short
  obtain ⟨lowK, highK, alignedK⟩ := page_above inv.range inBlock
  rw [pageAddr_add ends inBlock] at same
  have equal := pageOf_inj lowK (by omega) alignedK lowV highV alignedV same
  omega

/-- A frame that the loop has taken is behind no page but the one it was mapped to. -/
theorem Inv.index_of_frame {n v : Nat} {complete : Bool} {mapped : List Nat}
    (inv : Inv s chains free pages top)
    (outcome : Vm.Outcome s.heap.cr3 top 0 n s.heap.vm complete vm new frames mapped)
    (ends : top + n * pageSize ≤ 2 ^ 64)
    (isPage : withPages pages top (if complete then n else mapped.length) v) (member : f ∈ frames)
    (here : vm.leaf s.heap.cr3 v = f + 3) :
    ∃ k, ∃ below : k < mapped.length, v = top + k * pageSize ∧ mapped[k] = f := by
  obtain old | ⟨k, passed, rfl⟩ := isPage
  · -- what is behind an old page was not free
    rw [inv.kept_leaf outcome ends old] at here
    have data := inv.arena.dataFrame old here
    exact absurd (outcome.grown.taken f member).1 data.held.not_free
  · rcases (leaf_passed outcome inv.range.1 ends passed).2 with unmapped | ⟨isMapped, there⟩
    · omega
    · exact ⟨k, isMapped, rfl, by omega⟩

theorem Inv.mapped (inv : Inv s chains free pages top) (fits : Fits s.heap size) :
    ∃ complete vm new frames mapped,
      mapPages (physToVirt s.heap.vm.hhdm s.heap.cr3) s.heap.heapVaddr 0 (pagesCount size) s.heap.vm =
        some (complete, vm) ∧
      Vm.Outcome s.heap.cr3 s.heap.heapVaddr 0 (pagesCount size) s.heap.vm complete vm new frames
        mapped ∧
      Inv { s with heap := { s.heap with
          vm := vm, heapVaddr := wrap64 (top + pagesCount size * pageSize) } } chains free
        (withPages pages top (if complete then pagesCount size else mapped.length))
        (top + pagesCount size * pageSize) := by
  obtain ⟨complete, vm, new, frames, mapped, done, outcome⟩ :=
    Vm.mapPages_spec inv.arena.paging s.heap.heapVaddr 0 (pagesCount size)
  refine ⟨complete, vm, new, frames, mapped, done, outcome, ?_⟩
  obtain ⟨ends, _⟩ := inv.fits_top fits
  rw [inv.vaddr_top fits.2.1] at outcome
  obtain ⟨low, _, aligned⟩ := inv.range
  apply inv.extend outcome.grown
  · exact fun v isPage => .inl isPage
  · exact fun v isPage => inv.kept_leaf outcome ends isPage
  · rintro v (isPage | ⟨k, passed, rfl⟩)
    · obtain ⟨lowV, _, alignedV⟩ := inv.arena.inside v isPage
      have belowV := inv.below v isPage
      exact ⟨lowV, by omega, alignedV⟩
    · exact page_above inv.range (leaf_passed outcome low ends passed).1
  · rintro v (isPage | ⟨k, passed, rfl⟩)
    · exact .inl isPage
    · right
      rcases (leaf_passed outcome low ends passed).2 with unmapped | ⟨isMapped, here⟩
      · exact .inl unmapped
      · exact .inr ⟨mapped[k], outcome.front.subset (List.getElem_mem isMapped), here⟩
  · intro v w isPage isPage' f member here here'
    obtain ⟨k, below, rfl, frame⟩ := inv.index_of_frame outcome ends isPage member here
    obtain ⟨l, below', rfl, frame'⟩ := inv.index_of_frame outcome ends isPage' member here'
    -- no frame is behind two of the new pages
    have distinct : mapped.Nodup := outcome.grown.distinct.sublist outcome.front.sublist
    have same : k = l := distinct.getElem_inj_iff.mp (frame.trans frame'.symm)
    rw [same]
  · omega
  · refine ⟨ends, ?_⟩
    dsimp only [pageSize] at *
    omega

/-- The memory after the stores into the header at `a`. -/
def putHeader (m : Memory) (a count size : Nat) : Memory :=
  store 8 (store 8 (store 4 m a magicPage) (a + 8) count) (a + 16) size

theorem putHeader_outside {m : Memory} {a count size x : Nat} (outside : x < a ∨ a + 24 ≤ x) :
    putHeader m a count size x = m x := by
  rw [putHeader, store_outside (by omega), store_outside (by omega), store_outside (by omega)]

theorem load_putHeader {m : Memory} {a count size : Nat} (word : count < 2 ^ 64) :
    load 4 (putHeader m a count size) a = magicPage ∧
      load 8 (putHeader m a count size) (a + 8) = count := by
  unfold putHeader
  constructor
  · rw [load_store_disjoint (by omega), load_store_disjoint (by omega)]
    exact load_store_same (by decide)
  · rw [load_store_disjoint (by omega)]
    exact load_store_same word

/-- `kmalloc` behind its loop. -/
def writeHeader (s : Vm) (root virt count size : Nat) : Option Vm := do
  let s ← s.write root 4 virt magicPage
  let s ← s.write root 8 (virt + 8) count
  s.write root 8 (virt + 16) size

/-- The header of a mapped page is written to the frame behind it. -/
theorem writeHeader_mapped {root v count size : Nat} {slab : Nat → Prop} {held : List Nat}
    (arena : Arena root vm slab held pages) (page : pages v) (mapped : vm.leaf root v = f + 3) :
    writeHeader vm root v count size =
      some { vm with mem := putHeader vm.mem (physToVirt vm.hhdm f) count size } := by
  obtain ⟨a, isA⟩ : ∃ a, a = physToVirt vm.hhdm f := ⟨_, rfl⟩
  obtain ⟨m₁, isM₁⟩ : ∃ m, m = store 4 vm.mem a magicPage := ⟨_, rfl⟩
  obtain ⟨m₂, isM₂⟩ : ∃ m, m = store 8 m₁ (a + 8) count := ⟨_, rfl⟩
  have agree₁ : ∀ x, x < a ∨ a + pageSize ≤ x → m₁ x = vm.mem x := by
    intro x outside
    dsimp only [pageSize] at outside
    rw [isM₁, store_outside (by omega)]
  have agree₂ : ∀ x, x < a ∨ a + pageSize ≤ x → m₂ x = vm.mem x := by
    intro x outside
    rw [← agree₁ x outside, isM₂]
    dsimp only [pageSize] at outside
    exact store_outside (by omega)
  rw [isA] at agree₁ agree₂
  -- the three stores, each to the memory after the one before
  have first : vm.write root 4 v magicPage = some { vm with mem := m₁ } := by
    have written : ({ vm with mem := vm.mem } : Vm).write root 4 (v + 0) magicPage = _ :=
      arena.write page mapped (fun _ _ => rfl) (by decide)
    rw [Nat.add_zero, Nat.add_zero, ← isA] at written
    rw [isM₁]
    exact written
  have second : ({ vm with mem := m₁ } : Vm).write root 8 (v + 8) count = some { vm with mem := m₂ } := by
    rw [arena.write page mapped agree₁ (by decide), ← isA, ← isM₂]
  have third : ({ vm with mem := m₂ } : Vm).write root 8 (v + 16) size =
      some { vm with mem := store 8 m₂ (a + 16) size } := by
    rw [arena.write page mapped agree₂ (by decide), ← isA]
  rw [writeHeader, first]
  simp only [Option.bind_eq_bind, Option.bind_some, second, third]
  rw [isM₂, isM₁, ← isA]
  rfl

/-- The write to a header on a page that is not mapped faults. -/
theorem writeHeader_unmapped {root v count size : Nat} {slab : Nat → Prop} {held : List Nat}
    (arena : Arena root vm slab held pages) (page : pages v) (unmapped : vm.leaf root v = 0) :
    writeHeader vm root v count size = none := by
  have fault := arena.resolve_unmapped page unmapped (.inr rfl) (by decide : 0 < pageSize)
  rw [Nat.add_zero] at fault
  rw [writeHeader, Vm.write, fault]
  rfl

theorem kmallocPages_eq {s : Heap} {complete : Bool}
    (done : mapPages (physToVirt s.vm.hhdm s.cr3) s.heapVaddr 0 (pagesCount size) s.vm =
      some (complete, vm)) : kmallocPages s size =
    if complete then
      (writeHeader vm s.cr3 s.heapVaddr (pagesCount size) size).map fun vm =>
        (wrap64 (s.heapVaddr + allocHeaderSize), { s with
          vm := vm, heapVaddr := wrap64 (s.heapVaddr + wrap64 (pagesCount size * pageSize)) })
    else some (0, { s with
      vm := vm, heapVaddr := wrap64 (s.heapVaddr + wrap64 (pagesCount size * pageSize)) }) := by
  rw [kmallocPages, done, Option.bind_eq_bind, Option.bind_some]
  cases complete with
  | false => rfl
  | true =>
    simp only [writeHeader, Option.bind_eq_bind, Option.map_eq_bind, Option.bind_assoc,
      Function.comp_def, if_true]

theorem kmalloc_large {s : Heap} (large : slab1024 < size) : kmalloc s size = kmallocPages s size := by
  rw [kmalloc, if_neg (by omega), if_pos large]


/-- One more block above all others. -/
theorem Inv.handOut {s : SlabState} {pages : Nat → Prop} {top : Nat}
    (inv : Inv s chains free pages top) (large : slab1024 < b.size)
    (isBlock : PageBlock s.heap pages top b)
    (above : ∀ b' ∈ largeBlocks s.blocks, b'.header + pagesCount b'.size * pageSize ≤ b.header) :
    Inv { s with blocks := b :: s.blocks } chains free pages top := by
  have isLarge : largeBlocks (b :: s.blocks) = b :: largeBlocks s.blocks := by
    rw [largeBlocks, List.filter_cons_of_pos (by simpa using large)]
    rfl
  have notSmall : smallBlocks (b :: s.blocks) = smallBlocks s.blocks := by
    rw [smallBlocks, List.filter_cons_of_neg (by simpa using large)]
    rfl
  refine ⟨?_, inv.sizes, inv.arena, inv.range, inv.vaddr, inv.below, ?_, ?_⟩
  · change SlabHeap s.heap.created (smallBlocks (b :: s.blocks)) chains free
    rw [notSmall]
    exact inv.slabs
  · intro b' member
    change b' ∈ largeBlocks (b :: s.blocks) at member
    rw [isLarge] at member
    rcases List.mem_cons.mp member with rfl | old
    · exact isBlock
    · exact inv.block b' old
  · change (largeBlocks (b :: s.blocks)).Pairwise Apart
    rw [isLarge]
    exact List.pairwise_cons.mpr ⟨fun b' old => .inr (above b' old), inv.apart⟩

/-- The heap with `kernel_heap_vaddr` at `top`. -/
def advanced (s : Heap) (vm : Vm) (top : Nat) : Heap := { s with vm := vm, heapVaddr := wrap64 top }

/-- The header of a block of `size` bytes is written to its first frame. -/
def withHeader (vm : Vm) (f size : Nat) : Vm :=
  { vm with mem := putHeader vm.mem (physToVirt vm.hhdm f) (pagesCount size) size }

/-- The three ends of a large request that fits: no frame for one of its pages; no table for
its only page, and a fault at the header; a block. -/
theorem Inv.kmalloc_large (inv : Inv s chains free pages top) (large : slab1024 < size)
    (fits : Fits s.heap size) : ∃ complete vm new frames mapped,
    Vm.Outcome s.heap.cr3 top 0 (pagesCount size) s.heap.vm complete vm new frames mapped ∧
    ((complete = false ∧
        Inv { s with heap := advanced s.heap vm (top + pagesCount size * pageSize) } chains free
          (withPages pages top mapped.length) (top + pagesCount size * pageSize) ∧
        kmalloc s.heap size = some (0, advanced s.heap vm (top + pagesCount size * pageSize))) ∨
      (complete = true ∧ mapped = [] ∧ kmalloc s.heap size = none) ∨
      complete = true ∧ ∃ f rest, mapped = f :: rest ∧
        (∀ q, q.length ≤ 3 →
          (withHeader vm f size).tableAt s.heap.cr3 q = vm.tableAt s.heap.cr3 q) ∧
        (∀ v, (withHeader vm f size).leaf s.heap.cr3 v = vm.leaf s.heap.cr3 v) ∧
        Inv { s with
            heap := advanced s.heap (withHeader vm f size) (top + pagesCount size * pageSize)
            blocks := ⟨top + allocHeaderSize, size⟩ :: s.blocks } chains free
          (withPages pages top (pagesCount size)) (top + pagesCount size * pageSize) ∧
        kmalloc s.heap size = some (top + allocHeaderSize,
          advanced s.heap (withHeader vm f size) (top + pagesCount size * pageSize))) := by
  obtain ⟨complete, vm, new, frames, mapped, done, outcome, inv'⟩ := inv.mapped fits
  obtain ⟨ends, advance⟩ := inv.fits_top fits
  have vaddr := inv.vaddr_top fits.2.1
  have result := kmallocPages_eq done
  rw [advance, ← DedOS.HeapRun.kmalloc_large large, vaddr] at result
  rw [vaddr] at outcome
  refine ⟨complete, vm, new, frames, mapped, outcome, ?_⟩
  cases complete with
  | false => exact .inl ⟨rfl, inv', result⟩
  | true =>
    right
    simp only [if_true] at result inv'
    have pos := fits.1
    have small : top + pageSize ≤ 2 ^ 64 := by
      dsimp only [pageSize] at *
      omega
    have first : withPages pages top (pagesCount size) top := .inr ⟨0, pos, by simp⟩
    have arena := inv'.arena
    dsimp only at arena
    cases mapped with
    | nil =>
      -- the only page is the one without a table
      left
      obtain ⟨_, unmapped⟩ := leaf_hole outcome ends (Nat.ne_of_lt pos)
      rw [List.length_nil, Nat.zero_mul, Nat.add_zero] at unmapped
      rw [writeHeader_unmapped arena first unmapped] at result
      exact ⟨rfl, rfl, result⟩
    | cons f rest =>
      right
      have pages_lt : pagesCount size < 2 ^ 64 := by
        dsimp only [pageSize] at ends
        omega
      have mapped : vm.leaf s.heap.cr3 top = f + 3 := by
        have here := leaf_mapped outcome inv.range.1 ends (Nat.succ_pos _)
        rwa [Nat.zero_mul, Nat.add_zero] at here
      rw [writeHeader_mapped arena first mapped, Option.map_some, wrap64_of_lt (by
        dsimp only [allocHeaderSize, pageSize] at *
        omega)] at result
      obtain ⟨written, tables, leaf⟩ := inv'.writePage first mapped (m := putHeader vm.mem
          (physToVirt vm.hhdm f) (pagesCount size) size) (by
        intro a outside
        dsimp only [pageSize] at outside
        exact putHeader_outside (by omega)) (by
        -- the older blocks end below the new one
        intro b' member same
        have isBlock' := inv'.block b' member
        have before := (inv.block b' member).below
        have count := isBlock'.count
        dsimp only [pageSize] at count before
        omega)
      have header : (⟨top + allocHeaderSize, size⟩ : Block).header = top := Nat.add_sub_cancel top _
      refine ⟨rfl, f, rest, rfl, tables, leaf, ?_, result⟩
      refine Inv.handOut written large ⟨?_, ?_, pos, ?_, f, ?_, ?_⟩ ?_
      · rw [header]
      · intro k below
        rw [header]
        exact .inr ⟨k, below, rfl⟩
      · rw [header]
      · rw [header]
        exact (leaf top).trans mapped
      · exact load_putHeader pages_lt
      · intro b' member
        rw [header]
        exact (inv.block b' member).below

/-- A large request that is given a block has come to the third end. -/
theorem Inv.kmalloc_block {p : Nat} {heap : Heap} (inv : Inv s chains free pages top)
    (large : slab1024 < size) (fits : Fits s.heap size)
    (done : kmalloc s.heap size = some (p, heap)) (nonnull : p ≠ 0) :
    ∃ vm new frames mapped f,
      Vm.Outcome s.heap.cr3 top 0 (pagesCount size) s.heap.vm true vm new frames mapped ∧
      0 < mapped.length ∧
      (∀ q, q.length ≤ 3 →
        (withHeader vm f size).tableAt s.heap.cr3 q = vm.tableAt s.heap.cr3 q) ∧
      (∀ v, (withHeader vm f size).leaf s.heap.cr3 v = vm.leaf s.heap.cr3 v) ∧
      Inv { s with
          heap := advanced s.heap (withHeader vm f size) (top + pagesCount size * pageSize)
          blocks := ⟨top + allocHeaderSize, size⟩ :: s.blocks } chains free
        (withPages pages top (pagesCount size)) (top + pagesCount size * pageSize) ∧
      p = top + allocHeaderSize ∧
      heap = advanced s.heap (withHeader vm f size) (top + pagesCount size * pageSize) := by
  obtain ⟨complete, vm, new, frames, mapped, outcome, ends⟩ := inv.kmalloc_large large fits
  rcases ends with ⟨_, _, null⟩ | ⟨_, _, fault⟩ | ⟨rfl, f, rest, isMapped, tables, leaf, inv', served⟩
  · have pointer : (0 : Nat) = p := congrArg Prod.fst (Option.some.inj (null.symm.trans done))
    exact absurd pointer.symm nonnull
  · cases fault.symm.trans done
  · have both := Option.some.inj (served.symm.trans done)
    have some : 0 < mapped.length := isMapped ▸ Nat.succ_pos rest.length
    exact ⟨vm, new, frames, mapped, f, outcome, some, tables, leaf, inv',
      (congrArg Prod.fst both).symm, (congrArg Prod.snd both).symm⟩

/-! ### kfree of pages -/

/-- The pages of a live block, as the loops count them. -/
theorem Inv.block_pages (inv : Inv s chains free pages top) (member : b ∈ largeBlocks s.blocks) :
    pagesCount b.size ≤ 2 ^ 36 ∧
      ∀ k < pagesCount b.size, Vm.pageAddr b.header k = b.header + k * pageSize := by
  have isBlock := inv.block b member
  have below := isBlock.below
  have high := inv.range.2.1
  obtain ⟨low, _, _⟩ := inv.arena.inside b.header isBlock.first
  refine ⟨?_, fun k inBlock => ?_⟩
  · dsimp only [heapBase, pageSize] at *
    omega
  · apply wrap64_of_lt
    dsimp only [pageSize] at *
    omega

theorem Inv.owns (inv : Inv s chains free pages top) (member : b ∈ largeBlocks s.blocks) :
    Vm.Owns s.heap.cr3 b.header 0 (pagesCount b.size) s.heap.vm := by
  have isBlock := inv.block b member
  have address := (inv.block_pages member).2
  constructor
  · intro k below
    rw [Nat.zero_add, address k below]
    rcases inv.arena.data _ (isBlock.inside k below) with unmapped | ⟨f, mapped, data⟩
    · exact .inl unmapped
    · exact .inr ⟨f, mapped, data.toHeldFrame⟩
  · intro k below l below' some same
    rw [Nat.zero_add, address k below] at some same
    rw [Nat.zero_add, address l below'] at same
    have equal := inv.arena.apart _ _ (isBlock.inside k below) (isBlock.inside l below') some same
    dsimp only [pageSize] at equal
    omega

/-- Pages outside a block keep their entries when it is released. -/
theorem Inv.released_leaf {v : Nat} (inv : Inv s chains free pages top)
    (member : b ∈ largeBlocks s.blocks)
    (released : Vm.Released s.heap.cr3 b.header 0 (pagesCount b.size) s.heap.vm vm) (page : pages v)
    (outside : ∀ k < pagesCount b.size, v ≠ b.header + k * pageSize) :
    vm.leaf s.heap.cr3 v = s.heap.vm.leaf s.heap.cr3 v := by
  have isBlock := inv.block b member
  apply released.others
  intro k below same
  rw [Nat.zero_add, (inv.block_pages member).2 k below] at same
  obtain ⟨low, high, aligned⟩ := inv.arena.inside v page
  obtain ⟨low', high', aligned'⟩ := inv.arena.inside _ (isBlock.inside k below)
  exact outside k below (pageOf_inj low' high' aligned' low high aligned same).symm

/-- `kfree` finds the header of a live block and releases its pages. -/
theorem Inv.kfree_header (inv : Inv s chains free pages top) (member : b ∈ largeBlocks s.blocks)
    (done : unmapPages (physToVirt s.heap.vm.hhdm s.heap.cr3) b.header 0 (pagesCount b.size)
      s.heap.vm = some vm) : kfree s.heap b.ptr = some { s.heap with vm := vm } := by
  have isBlock := inv.block b member
  obtain ⟨f, mapped, magic, count⟩ := isBlock.header
  have first := isBlock.first
  obtain ⟨low, high, _⟩ := inv.arena.inside _ first
  have ptr := isBlock.ptr
  have nonnull : b.ptr ≠ 0 := by
    rw [ptr]
    exact Nat.succ_ne_zero _
  have header : wrap64 (b.ptr + (2 ^ 64 - allocHeaderSize)) = b.header := by
    rw [ptr]
    unfold wrap64
    dsimp only [allocHeaderSize]
    omega
  have read₁ : s.heap.vm.read s.heap.cr3 4 (b.header + 0) = _ :=
    inv.arena.read first mapped (fun _ _ => rfl) (by decide)
  have read₂ : s.heap.vm.read s.heap.cr3 8 (b.header + 8) = _ :=
    inv.arena.read first mapped (fun _ _ => rfl) (by decide)
  rw [Nat.add_zero, Nat.add_zero, magic] at read₁
  rw [count] at read₂
  rw [kfree_eq nonnull, header, kfreeHeader, read₁, Option.bind_eq_bind, Option.bind_some,
    if_neg (by decide), if_pos rfl, read₂, Option.bind_some, done]
  rfl

theorem smallBlocks_erase (member : b ∈ largeBlocks s.blocks) :
    smallBlocks (s.blocks.erase b) = smallBlocks s.blocks := by
  rw [smallBlocks, ← List.erase_filter, List.erase_of_not_mem]
  · rfl
  · intro isSmall
    have small := (mem_smallBlocks.mp isSmall).2
    have large := (mem_largeBlocks.mp member).2
    omega

theorem largeBlocks_erase : largeBlocks (s.blocks.erase b) = (largeBlocks s.blocks).erase b := by
  rw [largeBlocks, ← List.erase_filter]
  rfl

/-- The other live blocks are apart from one that is given back, also if two look the same. -/
theorem Inv.apart_of_erase (inv : Inv s chains free pages top) (member : b ∈ largeBlocks s.blocks)
    (kept : b' ∈ (largeBlocks s.blocks).erase b) : Apart b b' := by
  have split := (List.perm_cons_erase member).pairwise_iff (R := Apart)
    (fun {_ _} apart => apart.symm)
  exact (List.pairwise_cons.mp (split.mp inv.apart)).1 b' kept

/-- The pages of a live block are released. -/
theorem Inv.release (inv : Inv s chains free pages top) (member : b ∈ largeBlocks s.blocks)
    (released : Vm.Released s.heap.cr3 b.header 0 (pagesCount b.size) s.heap.vm vm) :
    Inv { s with heap := { s.heap with vm := vm }, blocks := s.blocks.erase b } chains free pages
      top := by
  have isBlock := inv.block b member
  obtain ⟨_, address⟩ := inv.block_pages member
  have effect := released.effect inv.arena.paging
  have arena := inv.arena.release (fun k below => by
    rw [address k below]
    exact isBlock.inside k below) released
  refine ⟨?_, inv.sizes, arena, inv.range, inv.vaddr, inv.below, ?_, ?_⟩
  · change SlabHeap { s.heap.created with vm := vm } (smallBlocks (s.blocks.erase b)) chains free
    rw [smallBlocks_erase member]
    apply inv.slabs_effect effect released.paging.ready
    intro f isSlab _ isHeld noTable
    refine ⟨noTable, fun isFree => ?_⟩
    rcases (released.free f).mp isFree with old | ⟨k, below, mapped⟩
    · exact isHeld.not_free old
    · -- the frames given back are no slabs
      rw [Nat.zero_add, address k below] at mapped
      exact (inv.arena.dataFrame (isBlock.inside k below) mapped).noSlab isSlab
  · -- the headers of the other blocks are on other pages
    intro b' kept
    change b' ∈ largeBlocks (s.blocks.erase b) at kept
    rw [largeBlocks_erase] at kept
    have isBlock' := inv.block b' (List.mem_of_mem_erase kept)
    have apart := inv.apart_of_erase member kept
    have outside : ∀ k < pagesCount b.size, b'.header ≠ b.header + k * pageSize := by
      intro k below same
      have count := isBlock'.count
      dsimp only [Apart, pageSize] at *
      omega
    apply isBlock'.mono
    · rfl
    · exact effect.hhdm
    · exact inv.released_leaf member released isBlock'.first outside
    · intro f mapped a low high
      have data := inv.arena.dataFrame isBlock'.first mapped
      apply effect.bytes f data.frame data.held.not_free data.other a low
      exact Nat.lt_of_lt_of_le high (Nat.add_le_add_left (by decide) _)
  · change (largeBlocks (s.blocks.erase b)).Pairwise Apart
    rw [largeBlocks_erase]
    exact inv.apart.sublist List.erase_sublist

theorem Inv.kfree_large (inv : Inv s chains free pages top) (member : b ∈ largeBlocks s.blocks) :
    ∃ vm, kfree s.heap b.ptr = some { s.heap with vm := vm } ∧
      Vm.Released s.heap.cr3 b.header 0 (pagesCount b.size) s.heap.vm vm ∧
      Inv { s with heap := { s.heap with vm := vm }, blocks := s.blocks.erase b } chains free pages
        top := by
  obtain ⟨few, _⟩ := inv.block_pages member
  obtain ⟨vm, done, released⟩ := Vm.unmapPages_spec inv.arena.paging (inv.owns member) (by omega)
  exact ⟨vm, inv.kfree_header member done, released, inv.release member released⟩

end HeapRun

end DedOS
