import DedOS.Mm.Requests

/-!
# kfree of a block that is free

The link of a free object overwrites the magic number of its header: links are null or point
to slots, which are even, while both magic numbers are odd. `double_free_detected`: as long
as the slot of a freed block is not handed out again, another `kfree` finds no magic number
and changes nothing.
-/

namespace DedOS

open Lib

namespace HeapRun

/-- `x` is a slot of a slab and no small block has its header there. -/
def Vacant (s : SlabState) (chains : Nat → List Nat) (x : Nat) : Prop :=
  (∃ c ∈ s.heap.created.caches, ∃ A ∈ chains c.objSize, x ∈ slots A c.objSize) ∧
    ∀ b ∈ smallBlocks s.blocks, b.header ≠ x

/-- No request of the run returns `ptr`. -/
def NotHandedOut (ptr : Nat) (h : List (Entry SlabState HeapEvent)) : Prop :=
  ∀ x ∈ h, ∀ size heap, x.event = .call (.kmalloc size) →
    kmalloc x.pre.heap size ≠ some (ptr, heap)

/-- `kfree` finds neither magic number. -/
def Corrupt (s : Heap) (ptr : Nat) : Prop :=
  ∃ magic, s.vm.read s.cr3 4 (ptr - allocHeaderSize) = some magic ∧ magic ≠ magicSlab ∧
    magic ≠ magicPage

variable {s s' s₁ s₂ : SlabState} {chains chains' free : Nat → List Nat} {pages : Nat → Prop}
  {top x A ptr : Nat} {b : Block} {e : HeapEvent} {h later : List (Entry SlabState HeapEvent)}
  {c : SlabCache}

/-! ### Links -/

/-- Object sizes are multiples of eight, and so are the slots of a page. -/
theorem slot_even (aligned : A % pageSize = 0) (size : c.objSize ∈ slabSizes)
    (slot : x ∈ slots A c.objSize) : x % 8 = 0 := by
  obtain ⟨k, _, rfl⟩ := mem_slots.mp slot
  have eights : ∀ o ∈ slabSizes, o % 8 = 0 := by decide
  have object := Nat.mul_mod k c.objSize 8
  rw [eights _ size, Nat.mul_zero, Nat.zero_mod] at object
  dsimp only [pageSize, slabHeaderSize] at *
  omega

/-- What a free object holds in place of the magic number is even. -/
theorem link_even {m : Memory} {o : Nat} {list live : List Nat} (page : SlabPage m o A list live)
    (even : ∀ y ∈ slots A o, y % 8 = 0) (isFree : x ∈ list) : load 4 m x % 2 = 0 := by
  have word : load 8 m x % 2 = 0 := by
    obtain ⟨before, after, split⟩ := List.append_of_mem isFree
    have chain := page.chain
    rw [split] at chain
    obtain ⟨_, _, onward⟩ := chain_append.mp chain
    have next := (chain_cons.mp onward).2
    rw [link_zero] at next
    cases after with
    | nil =>
      rw [toPtr_eq_none.mp (chain_nil.mp next)]
    | cons y rest =>
      obtain ⟨target, _⟩ := toPtr_eq_some.mp (chain_cons.mp next).1
      have slot : y ∈ slots A o := page.mem_free (by simp [split])
      have eights := even y slot
      omega
  rw [load_mod_two] at word ⊢
  exact word

/-- A vacant slot is on the free list of its slab. -/
theorem Inv.vacant_free (inv : Inv s chains free pages top) (vacant : Vacant s chains x) :
    ∃ c ∈ s.heap.created.caches, ∃ A ∈ chains c.objSize, x ∈ slots A c.objSize ∧ x ∈ free A := by
  obtain ⟨⟨c, member, A, slab, slot⟩, noBlock⟩ := vacant
  refine ⟨c, member, A, slab, slot, ?_⟩
  have page := inv.slabs.page c member A slab
  rcases List.mem_append.mp (page.slots.mem_iff.mpr slot) with isFree | live
  · exact isFree
  · obtain ⟨b, isBlock, header⟩ := List.mem_map.mp (List.mem_filter.mp live).1
    exact absurd header (noBlock b isBlock)

/-- `kfree` of a vacant slot. -/
theorem Inv.kfree_vacant (inv : Inv s chains free pages top) (vacant : Vacant s chains x) :
    Corrupt s.heap (x + allocHeaderSize) ∧ kfree s.heap (x + allocHeaderSize) = some s.heap := by
  obtain ⟨c, member, A, slab, slot, isFree⟩ := inv.vacant_free vacant
  have isSlab : IsSlab s.heap.created.caches chains A := ⟨c, member, slab⟩
  have aligned := inv.slabs.aligned isSlab
  have frame := inv.slabs.frame A isSlab
  have word := frame.lt
  have size : c.objSize ∈ slabSizes := by
    rw [← inv.sizes]
    exact List.mem_map_of_mem (List.mem_filter.mp member).1
  obtain ⟨first, last⟩ := slot_bounds slot
  have sized := inv.slabs.sized c member
  have direct : s.heap.vm.directMapped x := frame.direct inv.slabs.ready (by omega) (by omega)
  -- the first word of a free object is a link, and the magic numbers are odd
  have even : load 4 s.heap.vm.mem x % 2 = 0 :=
    link_even (inv.slabs.page c member A slab) (fun y slotY => slot_even aligned size slotY) isFree
  have notSlab : load 4 s.heap.vm.mem x ≠ magicSlab := by
    intro magic
    rw [magic] at even
    exact absurd even (by decide)
  have notPage : load 4 s.heap.vm.mem x ≠ magicPage := by
    intro magic
    rw [magic] at even
    exact absurd even (by decide)
  have read : s.heap.vm.read s.heap.cr3 4 x = some (load 4 s.heap.vm.mem x) := Vm.read_direct direct
  have header : wrap64 (x + allocHeaderSize + (2 ^ 64 - allocHeaderSize)) = x := by
    unfold wrap64
    dsimp only [allocHeaderSize, slabHeaderSize, pageSize] at *
    omega
  constructor
  · refine ⟨_, ?_, notSlab, notPage⟩
    rw [Nat.add_sub_cancel]
    exact read
  · have nonnull : x + allocHeaderSize ≠ 0 := Nat.succ_ne_zero _
    rw [kfree_eq nonnull, header, kfreeHeader, read, Option.bind_eq_bind,
      Option.bind_some, if_neg notSlab, if_neg notPage]

/-! ### Runs -/

/-- The slot of a block that is freed becomes vacant. -/
theorem Inv.freed_vacant (inv : Inv s chains free pages top) (isBlock : b ∈ s.blocks)
    (small : b.size ≤ slab1024) (freed : HeapRun.step s (.call (.kfree b)) = some s') :
    ∃ chains' free' pages' top', Inv s' chains' free' pages' top' ∧ Vacant s' chains' b.header := by
  obtain ⟨vm, done, free', inv'⟩ := inv.kfree_small isBlock small
  have allowed : Allowed s (.call (.kfree b)) := isBlock
  simp only [HeapRun.step, if_pos allowed, HeapRun.call, SlabState.call, done, Option.bind_eq_bind,
    Option.bind_some, Option.some.injEq] at freed
  subst freed
  have member : b ∈ smallBlocks s.blocks := mem_smallBlocks.mpr ⟨isBlock, small⟩
  obtain ⟨c, cached, slab, slot, _⟩ := inv.slabs.owner member
  refine ⟨_, _, _, _, inv', ⟨c, cached, _, slab, slot⟩, fun b' kept => ?_⟩
  have rest : smallBlocks (s.blocks.erase b) = (smallBlocks s.blocks).erase b := by
    rw [smallBlocks, ← List.erase_filter]
    rfl
  change b' ∈ smallBlocks (s.blocks.erase b) at kept
  rw [rest] at kept
  exact (inv.slabs.header_erase member kept).symm

/-- A step that does not hand the slot out leaves it vacant. -/
theorem Vacant.step {free' : Nat → List Nat} {pages' : Nat → Prop} {top' : Nat}
    (vacant : Vacant s chains x) (inv' : Inv s' chains' free' pages' top')
    (stays : Stays s.heap.created chains chains') (taken : HeapRun.step s e = some s')
    (kept : ∀ size heap, e = .call (.kmalloc size) →
      kmalloc s.heap size ≠ some (x + allocHeaderSize, heap)) : Vacant s' chains' x := by
  obtain ⟨⟨c, member, A, slab, slot⟩, noBlock⟩ := vacant
  obtain ⟨vm, vaddr, isHeap, _, blocks⟩ := step_changes taken
  have sameCaches : s'.heap.created.caches = s.heap.created.caches := by
    rw [isHeap]
    rfl
  refine ⟨⟨c, sameCaches ▸ member, A, stays c member A slab, slot⟩, fun b isBlock header => ?_⟩
  obtain ⟨isBlock', small⟩ := mem_smallBlocks.mp isBlock
  rcases blocks b isBlock' with old | ⟨heap, isCall, done⟩
  · exact noBlock b (mem_smallBlocks.mpr ⟨old, small⟩) header
  · -- a new block in the slot would have its pointer
    have ptr := (inv'.slabs.block b isBlock).1
    rw [header] at ptr
    rw [ptr] at done
    exact kept b.size heap isCall done

theorem vacant_of_run (inv : Inv s₁ chains free pages top) (vacant : Vacant s₁ chains x)
    (run : Run step (· = s₁) later s₂) (fits : AllFit later)
    (kept : NotHandedOut (x + allocHeaderSize) later) :
    ∃ chains' free' pages' top', Inv s₂ chains' free' pages' top' ∧ Vacant s₂ chains' x := by
  induction run with
  | start same =>
    subst same
    exact ⟨_, _, _, _, inv, vacant⟩
  | step before taken ih =>
    obtain ⟨_, _, _, _, inv', vacant'⟩ := ih
      (fun y member => fits y (List.mem_cons_of_mem _ member))
      fun y member => kept y (List.mem_cons_of_mem _ member)
    obtain ⟨_, _, _, _, inv'', stays⟩ := inv'.step (fits _ List.mem_cons_self) taken
    exact ⟨_, _, _, _, inv'', vacant'.step inv'' stays taken (kept _ List.mem_cons_self)⟩

/-- After any run in which a freed slot is not handed out again, `kfree` of its block finds no
magic number and leaves the whole state as it is. -/
theorem double_free_detected (run : Run step Started h s) (fits : AllFit h) (isBlock : b ∈ s.blocks)
    (small : b.size ≤ slab1024) (freed : step s (.call (.kfree b)) = some s₁)
    (run' : Run step (· = s₁) later s₂) (fits' : AllFit later)
    (kept : NotHandedOut b.ptr later) :
    Corrupt s₂.heap b.ptr ∧ kfree s₂.heap b.ptr = some s₂.heap := by
  obtain ⟨_, _, _, _, inv⟩ := run_good run fits
  have ptr := (inv.slabs.block b (mem_smallBlocks.mpr ⟨isBlock, small⟩)).1
  obtain ⟨_, _, _, _, inv', vacant⟩ := inv.freed_vacant isBlock small freed
  rw [ptr] at kept ⊢
  obtain ⟨_, _, _, _, inv'', vacant'⟩ := vacant_of_run inv' vacant run' fits' kept
  exact inv''.kfree_vacant vacant'

/-- 100 bytes on the small machine, freed twice. -/
theorem double_free_detected_bareHeap : ∃ s p, p ≠ 0 ∧ Corrupt s p ∧ kfree s p = some s := by
  obtain ⟨s, started, none, frames, _, created⟩ := started_bareHeap
  obtain ⟨chains, free, inv⟩ := started.inv
  obtain ⟨p, heap, done, nonnull⟩ := inv.kmalloc_served created (by decide : 1 ≤ 100) (by decide)
    (by omega)
  obtain ⟨s', isS'⟩ : ∃ s' : SlabState, s' = ⟨heap, [⟨p, 100⟩], s.held⟩ := ⟨_, rfl⟩
  have allowed : Allowed s (.call (.kmalloc 100)) := (by decide : (100 : Nat) < 2 ^ 64)
  have taken : step s (.call (.kmalloc 100)) = some s' := by
    rw [step, if_pos allowed, call, SlabState.call, done, isS', ← none]
    simp only [Option.bind_eq_bind, Option.bind_some, if_neg nonnull]
  have fits : AllFit [⟨s, .call (.kmalloc 100), s'⟩] := by
    intro x isEntry
    obtain rfl := List.mem_singleton.mp isEntry
    exact .inl (by decide : (100 : Nat) ≤ slab1024)
  have member : (⟨p, 100⟩ : Block) ∈ s'.blocks := by
    rw [isS']
    exact List.mem_cons_self
  obtain ⟨_, _, _, _, inv'⟩ := run_good (.step (.start started) taken) fits
  obtain ⟨vm, freed, _⟩ := inv'.kfree_small member (by decide : (100 : Nat) ≤ slab1024)
  have isLive : Allowed s' (.call (.kfree ⟨p, 100⟩)) := member
  have released : step s' (.call (.kfree ⟨p, 100⟩)) =
      some ⟨{ s'.heap with vm := vm }, s'.blocks.erase ⟨p, 100⟩, s'.held⟩ := by
    rw [step, if_pos isLive, call, SlabState.call, freed]
    rfl
  obtain ⟨corrupt, same⟩ := double_free_detected (.step (.start started) taken) fits member
    (by decide : (100 : Nat) ≤ slab1024) released (.start rfl)
    (fun x member => absurd member List.not_mem_nil)
    (fun x member => absurd member List.not_mem_nil)
  exact ⟨_, p, nonnull, corrupt, same⟩

end HeapRun

end DedOS
