import DedOS.Mm.Capacity

/-!
# kfree of large blocks

`kfree_undoes_kmalloc`: the pages of the block are no longer translated, the frames behind
them are free again, and nothing else changes. After `kmalloc` and `kfree` only the tables
that the mapping created are missing from the free frames.
-/

namespace DedOS

open Lib

/-! ### Translations with any rights -/

namespace Vm

variable {root flags virt t : Nat} {s s' : Vm} {q : List (Fin 512)}

theorem child_of_grants {w f : Nat} (present : flags % 2 = 1) (granted : grants flags w = some f) :
    child w = some f := by
  unfold grants at granted
  split at granted
  next both =>
    have odd : w % 2 = 1 := by
      have bit : (w &&& flags) % 2 = (w % 2) &&& (flags % 2) := Nat.and_mod_two_pow (n := 1)
      rw [both, present, Nat.and_one_is_mod, Nat.mod_mod] at bit
      exact bit.symm
    rw [child, if_pos ((and_present w).mpr odd)]
    exact granted
  · cases granted

/-- Translations depend on the tables of the walk alone. -/
theorem frameOf_congr (present : flags % 2 = 1)
    (tables : ∀ q, q.length ≤ 3 → s'.tableAt root q = s.tableAt root q)
    (upper : ∀ q t i, q.length ≤ 2 → s.tableAt root q = some t → s'.slot t i = s.slot t i)
    (leaf : s'.leaf root virt = s.leaf root virt) :
    s'.frameOf root flags virt = s.frameOf root flags virt := by
  apply walk_agree
  intro before i after t split reached
  have here : s.tableAt root before = some t :=
    walk_imp (fun w u => child_of_grants present) reached
  rcases List.eq_nil_or_concat after with rfl | ⟨rest, j, rfl⟩
  · -- the last entry
    have last : before = path virt ∧ i = ptIdx virt := by
      have ends : path virt ++ [ptIdx virt] = before ++ [i] := split
      obtain ⟨same, index⟩ := List.append_inj' ends rfl
      exact ⟨same.symm, (List.cons.inj index).1.symm⟩
    obtain ⟨rfl, rfl⟩ := last
    have here' := (tables (path virt) path_short).trans here
    rw [Vm.leaf, Vm.leaf, here, here', Option.elim_some, Option.elim_some] at leaf
    rw [leaf]
  · rw [upper before t i _ here]
    have total := congrArg List.length split
    simp [path] at total
    omega

/-- A page whose last-level entry is clear has no translation. -/
theorem frameOf_clear (present : flags % 2 = 1) (clear : s.leaf root virt = 0) :
    s.frameOf root flags virt = none := by
  rw [frameOf, walk_append]
  cases reached : walk s.slot (grants flags) root (path virt) with
  | none => rfl
  | some t =>
    have here : s.tableAt root (path virt) = some t :=
      walk_imp (fun w u => child_of_grants present) reached
    rw [leaf, here, Option.elim_some] at clear
    have nothing : (0 : Nat) ≠ flags := by omega
    rw [Option.bind_some, walk_cons, clear, grants, Nat.zero_and, if_neg nothing]
    rfl

/-- Canonical addresses outside a range of pages are on other pages. -/
theorem pageOf_canonical {v w : Nat} (isCanonical : canonical v) (isCanonical' : canonical w)
    (same : pageOf v = pageOf w) : v / pageSize = w / pageSize := by
  unfold pageOf at same
  unfold canonical at isCanonical isCanonical'
  dsimp only [pageSize] at *
  omega

end Vm

/-- The processor finds every page of the block. -/
def AllMapped (s : Heap) (b : Block) : Prop :=
  ∀ k < pagesCount b.size, (s.vm.frameOf s.cr3 vmmPresent (b.header + k * pageSize)).isSome

/-- From `s` to `vm` a block of whole pages is given back, and nothing else changes. -/
structure GivenBack (s : Heap) (b : Block) (vm : Vm) : Prop where
  unmapped : ∀ flags v, flags % 2 = 1 → b.header ≤ v →
    v < b.header + pagesCount b.size * pageSize → vm.frameOf s.cr3 flags v = none
  frames : ∃ frames : List Nat,
    frames.length = (b.size + allocHeaderSize + 4095) / pageSize ∧ frames.Nodup ∧
    (∀ k (below : k < frames.length),
      s.vm.frameOf s.cr3 vmmPresent (b.header + k * pageSize) = some frames[k]) ∧
    (∀ f ∈ frames, ¬ s.vm.pmm.Free f) ∧
    ∀ f, vm.pmm.Free f ↔ s.vm.pmm.Free f ∨ f ∈ frames
  others : ∀ flags v, flags % 2 = 1 → Vm.canonical v →
    v < b.header ∨ b.header + pagesCount b.size * pageSize ≤ v →
    vm.frameOf s.cr3 flags v = s.vm.frameOf s.cr3 flags v
  slabs : ∀ f, HasSlab s f → ∀ a, physToVirt s.vm.hhdm f ≤ a →
    a < physToVirt s.vm.hhdm f + pageSize → vm.mem a = s.vm.mem a

namespace HeapRun

variable {s : SlabState} {chains free : Nat → List Nat} {pages : Nat → Prop} {top f size p : Nat}
  {h : List (Entry SlabState HeapEvent)} {b : Block} {vm : Vm} {heap : Heap}

/-- The frames behind a block whose pages are all mapped. -/
theorem Inv.block_frames (inv : Inv s chains free pages top) (member : b ∈ largeBlocks s.blocks)
    (mapped : AllMapped s.heap b) : ∃ frames : List Nat, frames.length = pagesCount b.size ∧
      frames.Nodup ∧ ∀ k (below : k < frames.length),
        s.heap.vm.leaf s.heap.cr3 (b.header + k * pageSize) = frames[k] + 3 ∧
        DataFrame s.heap.cr3 s.heap.vm (slabOf s.heap chains) frames[k] := by
  have isBlock := inv.block b member
  have each : ∀ k < pagesCount b.size, ∃ f,
      s.heap.vm.leaf s.heap.cr3 (b.header + k * pageSize) = f + 3 ∧
      DataFrame s.heap.cr3 s.heap.vm (slabOf s.heap chains) f := by
    intro k below
    rcases inv.arena.data _ (isBlock.inside k below) with unmapped | found
    · have some := mapped k below
      rw [Vm.frameOf_unmapped inv.arena.writable (.inl rfl) unmapped] at some
      cases some
    · exact found
  choose! frame leaf data using each
  refine ⟨(List.range (pagesCount b.size)).map frame, by simp, ?_, ?_⟩
  · apply List.Nodup.map_on _ List.nodup_range
    intro k below l below' same
    rw [List.mem_range] at below below'
    have pagesSame := inv.arena.apart _ _ (isBlock.inside k below) (isBlock.inside l below')
      (by rw [leaf k below]; exact Nat.succ_ne_zero _)
      (by rw [leaf k below, leaf l below', same])
    dsimp only [pageSize] at pagesSame
    omega
  · intro k below
    rw [List.length_map, List.length_range] at below
    rw [List.getElem_map, List.getElem_range]
    exact ⟨leaf k below, data k below⟩

/-- A page of the block, from an address in it. -/
theorem Inv.page_in_block (inv : Inv s chains free pages top) (member : b ∈ largeBlocks s.blocks)
    {v : Nat} (low : b.header ≤ v) (high : v < b.header + pagesCount b.size * pageSize) :
    ∃ k < pagesCount b.size, Vm.pageOf (Vm.pageAddr b.header (0 + k)) = Vm.pageOf v := by
  have isBlock := inv.block b member
  obtain ⟨_, _, aligned⟩ := inv.arena.inside b.header isBlock.first
  obtain ⟨_, address⟩ := inv.block_pages member
  refine ⟨(v - b.header) / pageSize, ?_, ?_⟩
  · dsimp only [pageSize] at *
    omega
  · rw [Nat.zero_add, address]
    · unfold Vm.pageOf
      dsimp only [pageSize] at *
      omega
    · dsimp only [pageSize] at *
      omega

theorem Inv.givenBack (inv : Inv s chains free pages top) (member : b ∈ largeBlocks s.blocks)
    (small : b.size + allocHeaderSize + 4095 < 2 ^ 64) (mapped : AllMapped s.heap b) :
    ∃ vm, kfree s.heap b.ptr = some { s.heap with vm := vm } ∧ GivenBack s.heap b vm := by
  obtain ⟨vm, done, released, _⟩ := inv.kfree_large member
  obtain ⟨frames, length, distinct, behind⟩ := inv.block_frames member mapped
  have isBlock := inv.block b member
  obtain ⟨few, address⟩ := inv.block_pages member
  refine ⟨vm, done, ?_, ⟨frames, ?_, distinct, ?_, ?_, ?_⟩, ?_, ?_⟩
  · -- the pages of the block are unmapped
    intro flags v present low high
    exact Vm.frameOf_clear present (released.here v (inv.page_in_block member low high))
  · have total : wrap64 (b.size + allocHeaderSize) = b.size + allocHeaderSize :=
      wrap64_of_lt (by omega)
    rw [length, pagesCount, total, wrap64_of_lt small]
  · -- each of the frames was behind its page
    intro k below
    exact Vm.frameOf_mapped inv.arena.writable (.inl rfl) (behind k below).2.frame (behind k below).1
  · -- and was not free
    intro f inFrames
    obtain ⟨k, below, rfl⟩ := List.getElem_of_mem inFrames
    exact (behind k below).2.held.not_free
  · intro f
    rw [released.free]
    apply or_congr Iff.rfl
    constructor
    · rintro ⟨k, below, leaf⟩
      rw [Nat.zero_add, address k below, (behind k (by omega)).1] at leaf
      have same : frames[k] = f := by omega
      rw [← same]
      exact List.getElem_mem _
    · intro inFrames
      obtain ⟨k, below, rfl⟩ := List.getElem_of_mem inFrames
      refine ⟨k, by omega, ?_⟩
      rw [Nat.zero_add, address k (by omega)]
      exact (behind k below).1
  · -- a page outside of the block keeps its frame
    intro flags v present isCanonical outside
    apply Vm.frameOf_congr present released.tables released.upper
    apply released.others
    intro k below same
    obtain ⟨low, high, aligned⟩ := inv.arena.inside _ (isBlock.inside k below)
    obtain ⟨_, _, first⟩ := inv.arena.inside _ isBlock.first
    rw [Nat.zero_add, address k below] at same
    have pages := Vm.pageOf_canonical (.inr ⟨by dsimp only [heapBase] at low; omega, high⟩)
      isCanonical same
    dsimp only [pageSize] at *
    omega
  · -- a slab is in none of the tables that change
    intro f holds a low high
    obtain ⟨g, frame, _, same, noTable⟩ := inv.arena.slabs _ (inv.hasSlab holds)
    apply released.bytes
    rintro t ⟨q, short, reached⟩
    have table := inv.arena.paging.table q t short reached
    have differ : g ≠ t := by
      rintro rfl
      exact noTable ⟨q, short, reached⟩
    have apart := physToVirt_apart inv.arena.paging.hhdm frame table.frame differ
    omega

/-- When no page is left out, the frames taken are those behind the pages. -/
theorem behind_iff {root n : Nat} {s₀ : Vm} {complete : Bool} {vm : Vm}
    {new : List (List (Fin 512))} {frames mapped : List Nat}
    (outcome : Vm.Outcome root top 0 n s₀ complete vm new frames mapped) (few : n ≤ 2 ^ 36)
    (full : mapped.length = n) (g : Nat) :
    (∃ k < n, vm.leaf root (Vm.pageAddr top (0 + k)) = g + 3) ↔ g ∈ frames := by
  have here := outcome.filled.here (by omega)
  have all : mapped = frames := outcome.front.eq_of_length_le (full ▸ outcome.few)
  rw [← all]
  constructor
  · rintro ⟨k, below, there⟩
    rw [here k (by omega)] at there
    have same : mapped[k] = g := by omega
    rw [← same]
    exact List.getElem_mem _
  · intro inFrames
    obtain ⟨k, below, rfl⟩ := List.getElem_of_mem inFrames
    exact ⟨k, by omega, here k below⟩

/-- `kmalloc` followed by `kfree` costs the tables that were created, and no other frame. -/
theorem Inv.kmalloc_kfree (inv : Inv s chains free pages top) (large : slab1024 < size)
    (fits : Fits s.heap size) (done : kmalloc s.heap size = some (p, heap)) (some : p ≠ 0)
    (mapped : AllMapped heap ⟨p, size⟩) : ∃ vm, kfree heap p = Option.some { heap with vm := vm } ∧
      ∀ f, vm.pmm.Free f ↔ s.heap.vm.pmm.Free f ∧ ¬ vm.IsTable s.heap.cr3 f := by
  obtain ⟨vm, new, frames, got, f, outcome, _, tables, leaf, inv', rfl, rfl⟩ :=
    inv.kmalloc_block large fits done some
  have member : (⟨top + allocHeaderSize, size⟩ : Block) ∈
      largeBlocks (⟨top + allocHeaderSize, size⟩ :: s.blocks) :=
    mem_largeBlocks.mpr ⟨List.mem_cons_self, large⟩
  have header : (⟨top + allocHeaderSize, size⟩ : Block).header = top := Nat.add_sub_cancel top _
  obtain ⟨few, _⟩ := inv'.block_pages member
  obtain ⟨vm', freed, released, _⟩ := inv'.kfree_large member
  rw [header] at released
  replace few : pagesCount size ≤ 2 ^ 36 := few
  replace released : Vm.Released s.heap.cr3 top 0 (pagesCount size) (withHeader vm f size) vm' :=
    released
  refine ⟨vm', freed, fun g => ?_⟩
  -- no page is left out, so the frames taken are those behind the pages
  have full : got.length = pagesCount size := by
    by_contra notFull
    obtain ⟨last, hole⟩ := leaf_hole outcome inv'.range.2.1 notFull
    have unmapped : (withHeader vm f size).leaf s.heap.cr3 (top + got.length * pageSize) = 0 := by
      rw [leaf, hole]
    have found := mapped got.length (by
      dsimp only
      omega)
    rw [header] at found
    have nothing : (withHeader vm f size).frameOf s.heap.cr3 vmmPresent
        (top + got.length * pageSize) = none :=
      Vm.frameOf_unmapped inv'.arena.writable (.inl rfl) unmapped
    dsimp only [advanced] at found
    rw [nothing] at found
    cases found
  have isTable : vm'.IsTable s.heap.cr3 g ↔ vm.IsTable s.heap.cr3 g := by
    rw [released.isTable]
    constructor
    · rintro ⟨q, short, reached⟩
      exact ⟨q, short, (tables q short).symm.trans reached⟩
    · rintro ⟨q, short, reached⟩
      exact ⟨q, short, (tables q short).trans reached⟩
  have freeAfter : vm'.pmm.Free g ↔ vm.pmm.Free g ∨ g ∈ frames := by
    rw [← behind_iff outcome few full g]
    simp only [← leaf]
    exact released.free g
  rw [freeAfter, isTable]
  exact outcome.grown.free_or_taken

/-- In every run in which `kernel_heap_vaddr` has not wrapped, `kfree` of a large block gives
it back, and `kmalloc` followed by `kfree` keeps the free frames but for new tables. -/
theorem kfree_undoes_kmalloc (run : Run step Started h s) (fits : AllFit h) :
    (∀ b ∈ s.blocks, slab1024 < b.size → b.size + allocHeaderSize + 4095 < 2 ^ 64 →
      AllMapped s.heap b →
      ∃ vm, kfree s.heap b.ptr = some { s.heap with vm := vm } ∧ GivenBack s.heap b vm) ∧
    ∀ size p heap, slab1024 < size → Fits s.heap size → kmalloc s.heap size = some (p, heap) →
      p ≠ 0 → AllMapped heap ⟨p, size⟩ → ∃ vm, kfree heap p = some { heap with vm := vm } ∧
        ∀ f, vm.pmm.Free f ↔ s.heap.vm.pmm.Free f ∧ ¬ vm.IsTable s.heap.cr3 f := by
  obtain ⟨chains, free, pages, top, inv⟩ := run_good run fits
  constructor
  · intro b member large small mapped
    exact inv.givenBack (mem_largeBlocks.mpr ⟨member, large⟩) small mapped
  · intro size p heap large fits done some mapped
    exact inv.kmalloc_kfree large fits done some mapped

/-- With enough frames the whole block is mapped. -/
theorem Inv.allMapped (inv : Inv s chains free pages top) (large : slab1024 < size)
    (fits : Fits s.heap size) (enough : Enough s.heap size) : ∃ p heap,
      kmalloc s.heap size = some (p, heap) ∧ p ≠ 0 ∧ AllMapped heap ⟨p, size⟩ := by
  obtain ⟨vm, vm', new, frames, mapped, outcome, full, leaf, inv', done⟩ :=
    inv.kmalloc_enough large fits enough
  refine ⟨_, _, done, Nat.succ_ne_zero _, fun k below => ?_⟩
  have inMapped : k < mapped.length := full ▸ below
  have page : withPages pages top (pagesCount size) (top + k * pageSize) := .inr ⟨k, below, rfl⟩
  have here : vm'.leaf s.heap.cr3 (top + k * pageSize) = mapped[k] + 3 := by
    rw [leaf, leaf_mapped outcome inv.range.1 inv'.range.2.1 inMapped]
  have data := inv'.arena.dataFrame page here
  have header : (⟨top + allocHeaderSize, size⟩ : Block).header = top := Nat.add_sub_cancel top _
  have found : vm'.frameOf s.heap.cr3 vmmPresent (top + k * pageSize) = some mapped[k] :=
    Vm.frameOf_mapped inv'.arena.writable (.inl rfl) data.frame here
  rw [header]
  exact Option.isSome_of_eq_some found

/-- A request for one page on the small machine. -/
theorem one_page (large : slab1024 < size) (word : size < 2 ^ 64) (one : pagesCount size = 1) :
    ∃ s s' p, Started s ∧ Fits s.heap size ∧ kmalloc s.heap size = some (p, s'.heap) ∧ p ≠ 0 ∧
      AllMapped s'.heap ⟨p, size⟩ ∧ ⟨p, size⟩ ∈ s'.blocks ∧
      step s (.call (.kmalloc size)) = some s' := by
  obtain ⟨s, started, none, frames, vaddr, _⟩ := started_bareHeap
  have fits : Fits s.heap size := by
    rw [Fits, vaddr, one]
    decide
  obtain ⟨chains, free, inv⟩ := started.inv
  obtain ⟨p, heap, done, some, mapped⟩ := inv.allMapped large fits (enough_one one (by omega))
  refine ⟨s, { s with heap := heap, blocks := ⟨p, size⟩ :: s.blocks }, p, started, fits, done, some,
    mapped, List.mem_cons_self, ?_⟩
  have allowed : Allowed s (.call (.kmalloc size)) := word
  rw [step, if_pos allowed, call, SlabState.call, done]
  simp only [Option.bind_eq_bind, Option.bind_some, if_neg some]

/-- A block of one page on the small machine. -/
theorem kfree_undoes_kmalloc_one_page : ∃ s : SlabState, ∃ b ∈ s.blocks, b.size = 2000 ∧
    ∃ vm, kfree s.heap b.ptr = some { s.heap with vm := vm } ∧ GivenBack s.heap b vm := by
  have large : slab1024 < 2000 := by decide
  obtain ⟨s, s', p, started, fits, done, some, mapped, member, taken⟩ :=
    one_page large (by decide) (by decide)
  have allFit : AllFit [⟨s, .call (.kmalloc 2000), s'⟩] := by
    intro x isEntry
    obtain rfl := List.mem_singleton.mp isEntry
    exact .inr fits
  have undone := (kfree_undoes_kmalloc (.step (.start started) taken) allFit).1 ⟨p, 2000⟩ member
  exact ⟨s', _, member, rfl,
    undone large (by decide : 2000 + allocHeaderSize + 4095 < 2 ^ 64) mapped⟩

end HeapRun

end DedOS
