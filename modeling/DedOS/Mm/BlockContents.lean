import DedOS.Mm.Cells
import DedOS.Mm.Release

/-!
# What the holders of blocks read

To its holder every live block is an array of its own. A call leaves each of its bytes in place
and unchanged, whoever makes it and whatever it does to tables, slabs and frames; only a write
of the holder changes one (`Inv.step_kept`). So what is read is what was last written
(`block_contents`).
-/

namespace DedOS

open Lib

namespace HeapRun

/-- The byte that the event writes for the holder of a block. -/
def writtenTo (b : Block) (offset : Nat) : HeapEvent → Option UInt8
  | .call (.write b' offset' value) => if b' = b ∧ offset' = offset then some value else none
  | _ => none

/-- The last byte that the holder has written in a history. -/
def lastWritten (b : Block) (offset : Nat) : List (Entry SlabState HeapEvent) → Option UInt8
  | [] => none
  | x :: h => (writtenTo b offset x.event).or (lastWritten b offset h)

/-- The byte stays in its place and holds what its holder writes, or else what it held. -/
structure Kept (s s' : SlabState) (e : HeapEvent) (b : Block) (offset : Nat) : Prop where
  place : cell s'.heap b offset = cell s.heap b offset
  byte : ∀ a, cell s.heap b offset = some a →
    s'.heap.vm.mem a = (writtenTo b offset e).getD (s.heap.vm.mem a)
  /-- a write does not fault -/
  mapped : writtenTo b offset e ≠ none → cell s.heap b offset ≠ none

variable {s s' : SlabState} {chains chains' free free' : Nat → List Nat}
  {pages pages' : Nat → Prop} {top top' f size offset offset' : Nat} {b b' : Block} {vm : Vm}
  {value : UInt8} {e : HeapEvent} {kept : List Block}

theorem Kept.byteAt (same : Kept s s' e b offset) : byteAt s'.heap b offset =
    (writtenTo b offset e).elim (HeapRun.byteAt s.heap b offset) some := by
  rw [HeapRun.byteAt, HeapRun.byteAt, same.place]
  cases here : cell s.heap b offset with
  | none =>
    have silent : writtenTo b offset e = none := by
      by_contra written
      exact same.mapped written here
    rw [silent]
    rfl
  | some a =>
    rw [Option.map_some, Option.map_some, same.byte a here]
    cases writtenTo b offset e <;> rfl

/-- A byte of a live block while a call changes the state, with the invariant before and after. -/
structure Watched (s s' : SlabState) (chains free chains' free' : Nat → List Nat)
    (pages pages' : Nat → Prop) (top top' : Nat) (b : Block) (offset : Nat) : Prop where
  before : Inv s chains free pages top
  after : Inv s' chains' free' pages' top'
  live : b ∈ s.blocks
  stays : b ∈ s'.blocks
  inside : Inside b offset

section Calls

variable (watched : Watched s s' chains free chains' free' pages pages' top top' b offset)

include watched

/-- Calls that write tables, free frames and frames of others. -/
theorem Watched.kept_of_effect {writes : Nat → Prop} (cr3 : s'.heap.cr3 = s.heap.cr3)
    (effect : FrameEffect s.heap.vm s'.heap.vm writes)
    (other : ∀ f, writes f → s.heap.vm.IsTable s.heap.cr3 f ∨ f ∈ s.held)
    (leaf : b ∈ largeBlocks s.blocks → ∀ v, pages v →
      (∃ k < pagesCount b.size, v = b.header + k * pageSize) →
        s'.heap.vm.leaf s.heap.cr3 v = s.heap.vm.leaf s.heap.cr3 v)
    (silent : writtenTo b offset e = none) : Kept s s' e b offset where
  place := watched.before.cell_kept watched.after watched.live watched.stays watched.inside cr3
    effect.hhdm leaf
  byte a here := by
    obtain ⟨f, inFrame⟩ := watched.before.cell_frame watched.live watched.inside here
    rw [silent]
    apply inFrame.kept effect
    intro written
    rcases other f written with table | held
    · exact inFrame.noTable table
    · exact inFrame.own held
  mapped written := absurd silent written

/-- Calls that write no table at all. -/
theorem Watched.kept_of_quiet {writes : Nat → Prop} (cr3 : s'.heap.cr3 = s.heap.cr3)
    (effect : FrameEffect s.heap.vm s'.heap.vm writes) (other : ∀ f, writes f → f ∈ s.held)
    (freed : ∀ f, s'.heap.vm.pmm.Free f → s.heap.vm.pmm.Free f ∨ f ∈ s.held)
    (silent : writtenTo b offset e = none) : Kept s s' e b offset := by
  have inv := watched.before
  have ready : s'.heap.vm.pmm.Ready := watched.after.arena.paging.ready
  refine watched.kept_of_effect cr3 effect (fun f written => .inr (other f written))
    (fun _ v _ _ => ?_) silent
  refine (effect.tables inv.arena.paging ready ?_ ?_).2.2.2 v
  · intro t table written
    exact (inv.arena.others t (other t written)).1.other table
  · intro f isFree
    rcases freed f isFree with old | held
    · exact ⟨inv.arena.paging.free_not_table old, inv.arena.paging.free f old⟩
    · have data := (inv.arena.others f held).1
      exact ⟨data.other, data.nonnull⟩

theorem Watched.kept_of_same (same : s'.heap = s.heap) (silent : writtenTo b offset e = none) :
    Kept s s' e b offset := by
  have effect : FrameEffect s.heap.vm s'.heap.vm fun _ => False := by
    rw [same]
    exact ⟨watched.before.arena.paging.ready.wf.refl, fun _ _ _ _ _ _ _ => rfl⟩
  refine watched.kept_of_quiet (by rw [same]) effect (fun _ none => none.elim) ?_ silent
  intro f isFree
  rw [same] at isFree
  exact .inl isFree

/-! ### The slabs -/

/-- Calls on the slabs write no table, so that the entries stay. -/
theorem Watched.kept_of_slabCall {chains'' : Nat → List Nat}
    (call : SlabCall s.heap.created chains chains'' kept vm)
    (heap : s'.heap = { s.heap with vm := vm }) (isKept : b ∈ smallBlocks s.blocks → b ∈ kept)
    (silent : writtenTo b offset e = none) : Kept s s' e b offset := by
  have inv := watched.before
  obtain ⟨effect, freed⟩ := inv.slab_frames call
  have ready : vm.pmm.Ready := by
    have ready' := watched.after.arena.paging.ready
    rwa [heap] at ready'
  have leaf : ∀ v, vm.leaf s.heap.cr3 v = s.heap.vm.leaf s.heap.cr3 v := by
    refine (effect.tables inv.arena.paging ready ?_ ?_).2.2.2
    · rintro t ⟨q, short, reached⟩ isSlab
      obtain ⟨g, frame, _, same, noTable⟩ := inv.arena.slabs _ isSlab
      have table := (inv.arena.paging.table q t short reached).frame
      exact noTable (physToVirt_inj table frame same ▸ ⟨q, short, reached⟩)
    · intro f isFree
      exact ⟨inv.arena.paging.free_not_table (freed f isFree),
        inv.arena.paging.free f (freed f isFree)⟩
  have cr3 : s'.heap.cr3 = s.heap.cr3 := by rw [heap]
  have hhdm : s'.heap.vm.hhdm = s.heap.vm.hhdm := by
    rw [heap]
    exact effect.hhdm
  refine ⟨?_, ?_, fun written => absurd silent written⟩
  · refine inv.cell_kept watched.after watched.live watched.stays watched.inside cr3 hhdm
      fun _ v _ _ => ?_
    rw [heap]
    exact leaf v
  · intro a here
    rw [silent, heap]
    rcases small_or_large watched.live with small | large
    · -- the objects of other blocks are not touched
      rw [cell, inv.resolve_small small watched.inside.1] at here
      obtain rfl := Option.some.inj here
      have below := watched.inside.1
      exact call.kept b (isKept small) _ (Nat.le_add_right ..) (by omega)
    · obtain ⟨_, _, f, _, _, _, _, inFrame, data⟩ := inv.large_frame large watched.inside here
      exact inFrame.kept effect data.noSlab

theorem Watched.kmalloc_small (small : size ≤ slab1024)
    (done : s.call (.kmalloc size) = some s') : Kept s s' (.call (.kmalloc size)) b offset := by
  have inv := watched.before
  by_cases served : size ≠ 0 ∧ size + allocHeaderSize ≤ slab1024
  · obtain ⟨p, vm, _, _, result, _, call, _⟩ :=
      kmalloc_created inv.slabs inv.sizes served.1 served.2
    simp only [SlabState.call, result, Option.bind_eq_bind, Option.bind_some] at done
    exact watched.kept_of_slabCall call (congrArg SlabState.heap (Option.some.inj done)).symm id rfl
  · have null : kmalloc s.heap size = some (0, s.heap) := by
      apply kmalloc_unserved inv.sizes
      omega
    simp only [SlabState.call, null, Option.bind_eq_bind, Option.bind_some] at done
    exact watched.kept_of_same (congrArg SlabState.heap (Option.some.inj done)).symm rfl

theorem Watched.kfree_small (member : b' ∈ s.blocks) (small : b'.size ≤ slab1024)
    (done : s.call (.kfree b') = some s') : Kept s s' (.call (.kfree b')) b offset := by
  obtain ⟨vm, _, result, _, call⟩ :=
    DedOS.kfree_small watched.before.slabs (mem_smallBlocks.mpr ⟨member, small⟩)
  have freed : kfree s.heap b'.ptr = some { s.heap with vm := vm } := by
    rw [kfree_created, result]
    rfl
  simp only [SlabState.call, freed, Option.bind_eq_bind, Option.bind_some] at done
  have isState := Option.some.inj done
  refine watched.kept_of_slabCall call (congrArg SlabState.heap isState).symm ?_ rfl
  intro isSmall
  have stays := watched.stays
  rw [← isState] at stays
  have left : b ∈ smallBlocks (s.blocks.erase b') :=
    mem_smallBlocks.mpr ⟨stays, (mem_smallBlocks.mp isSmall).2⟩
  rwa [smallBlocks, ← List.erase_filter] at left

/-! ### Pages -/

theorem Watched.kmalloc_large (large : slab1024 < size) (fits : Fits s.heap size)
    (done : s.call (.kmalloc size) = some s') : Kept s s' (.call (.kmalloc size)) b offset := by
  have inv := watched.before
  obtain ⟨complete, vm, new, frames, mapped, outcome, ends⟩ := inv.kmalloc_large large fits
  have room := (inv.fits_top fits).1
  have effect := outcome.grown.effect inv.arena.paging
  rcases ends with ⟨_, _, null⟩ | ⟨_, _, fault⟩ | ⟨_, f, rest, isMapped, _, leaf, _, served⟩
  · simp only [SlabState.call, null, Option.bind_eq_bind, Option.bind_some] at done
    obtain rfl := Option.some.inj done
    exact watched.kept_of_effect rfl effect (fun f table => .inl table)
      (fun _ v page _ => inv.kept_leaf outcome room page) rfl
  · simp only [SlabState.call, fault, Option.bind_eq_bind, Option.bind_none] at done
    cases done
  · simp only [SlabState.call, served, Option.bind_eq_bind, Option.bind_some] at done
    obtain rfl := Option.some.inj done
    have first : f ∈ frames := outcome.front.subset (isMapped ▸ List.mem_cons_self)
    have isFree := (outcome.grown.taken f first).1
    have frame := inv.arena.paging.ready.isFrame isFree
    -- the header goes to a frame that was free
    have written : FrameEffect s.heap.vm (withHeader vm f size) (s.heap.vm.IsTable s.heap.cr3) := by
      refine ⟨effect.same, fun g frameG used noTable a low high => ?_⟩
      have differ : g ≠ f := by
        rintro rfl
        exact used isFree
      have apart := physToVirt_apart inv.arena.paging.hhdm frameG frame differ
      have hhdm : vm.hhdm = s.heap.vm.hhdm := effect.hhdm
      have outside : a < physToVirt vm.hhdm f ∨ physToVirt vm.hhdm f + 24 ≤ a := by
        rw [hhdm]
        dsimp only [pageSize] at *
        omega
      rw [withHeader]
      exact (putHeader_outside outside).trans (effect.bytes g frameG used noTable a low high)
    exact watched.kept_of_effect rfl written (fun f table => .inl table)
      (fun _ v page _ => (leaf v).trans (inv.kept_leaf outcome room page)) rfl

theorem Watched.kfree_large (member : b' ∈ largeBlocks s.blocks)
    (done : s.call (.kfree b') = some s') : Kept s s' (.call (.kfree b')) b offset := by
  have inv := watched.before
  obtain ⟨vm, freed, released, _⟩ := inv.kfree_large member
  simp only [SlabState.call, freed, Option.bind_eq_bind, Option.bind_some] at done
  have isState := Option.some.inj done
  have stays := watched.stays
  subst isState
  refine watched.kept_of_effect rfl (released.effect inv.arena.paging)
    (fun f table => .inl table) ?_ rfl
  rintro large v page ⟨k, below, rfl⟩
  apply inv.released_leaf member released page
  -- the pages of the block that stays are not those of `b'`
  intro l below' same
  have left : b ∈ (largeBlocks s.blocks).erase b' := by
    rw [← largeBlocks_erase]
    exact mem_largeBlocks.mpr ⟨stays, (mem_largeBlocks.mp large).2⟩
  have apart := inv.apart_of_erase member left
  have rows : k * pageSize + pageSize ≤ pagesCount b.size * pageSize := by
    rw [← Nat.succ_mul]
    exact Nat.mul_le_mul_right _ below
  have rows' : l * pageSize + pageSize ≤ pagesCount b'.size * pageSize := by
    rw [← Nat.succ_mul]
    exact Nat.mul_le_mul_right _ below'
  have positive : 0 < pageSize := by decide
  unfold Apart at apart
  omega

/-! ### Writes -/

/-- A write of a holder changes one byte, where a read would find it. -/
theorem Watched.write (member : b' ∈ s.blocks) (inside : Inside b' offset')
    (done : s.call (.write b' offset' value) = some s') :
    Kept s s' (.call (.write b' offset' value)) b offset := by
  have inv := watched.before
  simp only [SlabState.call, Option.bind_eq_bind, Option.bind_eq_some_iff, Option.some.injEq,
    Vm.write, Option.map_eq_some_iff] at done
  obtain ⟨_, ⟨a, resolved, rfl⟩, rfl⟩ := done
  have here : cell s.heap b' offset' = some a := by
    rcases small_or_large member with small | large
    · rw [cell, inv.resolve_small small inside.1, ← resolved, inv.resolve_small small inside.1]
    · obtain ⟨v, o, page, place⟩ := inv.page_offset large inside
      rw [place.address, inv.resolve_page page place.below (.inr rfl)] at resolved
      rw [cell, place.address, inv.resolve_page page place.below (.inl rfl), resolved]
  obtain ⟨m, isM⟩ : ∃ m, m = store 1 s.heap.vm.mem a value.toNat := ⟨_, rfl⟩
  have outside : ∀ x, x ≠ a → m x = s.heap.vm.mem x := by
    intro x differ
    rw [isM]
    exact store_outside (by omega)
  have there : m a = value := by
    rw [isM, store_succ, if_pos rfl, UInt8.ofNat_toNat]
  obtain ⟨f, inFrame⟩ := inv.cell_frame member inside here
  have low := inFrame.low
  have high := inFrame.high
  have effect : FrameEffect s.heap.vm { s.heap.vm with mem := m } (· = f) :=
    FrameEffect.of_store inv.arena.paging.ready inv.arena.paging.hhdm inFrame.frame fun x away =>
      outside x (by omega)
  -- the entries stay, since the byte is in no table
  have leaf : ∀ v, ({ s.heap.vm with mem := m } : Vm).leaf s.heap.cr3 v =
      s.heap.vm.leaf s.heap.cr3 v := by
    refine (effect.tables inv.arena.paging inv.arena.paging.ready ?_ ?_).2.2.2
    · rintro t table rfl
      exact inFrame.noTable table
    · intro g isFree
      exact ⟨inv.arena.paging.free_not_table isFree, inv.arena.paging.free g isFree⟩
  rw [← isM] at watched ⊢
  constructor
  case place =>
    exact inv.cell_kept watched.after watched.live watched.stays watched.inside rfl rfl
      fun _ v _ _ => leaf v
  case byte =>
    intro x found
    by_cases same : b' = b ∧ offset' = offset
    · obtain ⟨rfl, rfl⟩ := same
      obtain rfl := Option.some.inj (here.symm.trans found)
      simpa [writtenTo] using there
    · -- another byte is in another place
      have differ : x ≠ a := by
        rintro rfl
        exact same (inv.cell_injective member watched.live inside watched.inside here found)
      rw [writtenTo, if_neg same]
      exact outside x differ
  case mapped =>
    intro written none
    rw [writtenTo] at written
    split at written
    next same =>
      obtain ⟨rfl, rfl⟩ := same
      rw [here] at none
      cases none
    · exact written rfl

/-! ### The others -/

theorem Watched.alloc_frame (done : s.call .alloc = some s') : Kept s s' (.call .alloc) b offset := by
  rcases watched.before.arena.paging.ready.alloc with ⟨_, none⟩ | ⟨ptr, pmm, found, taken⟩
  · simp only [SlabState.call, none, Option.bind_eq_bind, Option.bind_some] at done
    exact watched.kept_of_same (congrArg SlabState.heap (Option.some.inj done)).symm rfl
  · simp only [SlabState.call, found, Option.bind_eq_bind, Option.bind_some] at done
    obtain rfl := Option.some.inj done
    have effect : FrameEffect s.heap.vm { s.heap.vm with pmm := pmm } fun _ => False :=
      ⟨taken.same, fun _ _ _ _ _ _ _ => rfl⟩
    exact watched.kept_of_quiet rfl effect (fun _ none => none.elim)
      (fun g isFree => .inl ((taken.others g).mp isFree).1) rfl

theorem Watched.free_frame {ptr : Nat} (member : ptr ∈ s.held) (done : s.call (.free ptr) = some s') :
    Kept s s' (.call (.free ptr)) b offset := by
  have data := (watched.before.arena.others ptr member).1
  obtain ⟨pmm, freed, given⟩ := watched.before.arena.paging.ready.free data.held data.nonzero
  simp only [SlabState.call, freed, Option.bind_eq_bind, Option.bind_some] at done
  obtain rfl := Option.some.inj done
  have effect : FrameEffect s.heap.vm { s.heap.vm with pmm := pmm } fun _ => False :=
    ⟨given.same, fun _ _ _ _ _ _ _ => rfl⟩
  refine watched.kept_of_quiet rfl effect (fun _ none => none.elim) (fun g isFree => ?_) rfl
  rcases (given.others g).mp isFree with old | rfl
  · exact .inl old
  · exact .inr member

theorem Watched.poke {address : Nat} (allowed : s.Allowed (.poke address value))
    (done : s.call (.poke address value) = some s') :
    Kept s s' (.call (.poke address value)) b offset := by
  obtain rfl := Option.some.inj done
  obtain ⟨f, member, low, high⟩ := allowed
  have inv := watched.before
  have data := (inv.arena.others f member).1
  have effect := FrameEffect.of_store (m := Function.update s.heap.vm.mem address value)
    inv.arena.paging.ready inv.arena.paging.hhdm data.frame (by
      intro x outside
      apply Function.update_of_ne
      omega)
  refine watched.kept_of_quiet rfl effect ?_ (fun g isFree => .inl isFree) rfl
  rintro g rfl
  exact member

theorem Watched.map {virt phys flags : Nat} (words : phys < 2 ^ 64 ∧ flags < 2 ^ 64)
    (below : Vm.pageOf virt < Vm.pageOf heapBase) (done : call s (.map virt phys flags) = some s') :
    Kept s s' (.map virt phys flags) b offset := by
  have inv := watched.before
  obtain ⟨vm, new, grown, ⟨_, _, t, here, result⟩ | ⟨_, _, result, _⟩⟩ :=
    Vm.vmmMap_spec inv.arena.paging virt phys flags
  · have word : phys ||| flags < 2 ^ 64 := Nat.or_lt_two_pow words.1 words.2
    simp only [call, result, Option.bind_eq_bind, Option.bind_some] at done
    obtain rfl := Option.some.inj done
    refine watched.kept_of_effect rfl
      ((grown.extends.trans (Vm.extends_setLeaf grown.paging here word)).effect inv.arena.paging)
      (fun f table => .inl table) (fun _ v page _ => ?_) rfl
    exact (Vm.leaf_setLeaf grown.paging here word v).trans
      ((if_neg (inv.page_ne page below)).trans (grown.leaf v))
  · simp only [call, result, Option.bind_eq_bind, Option.bind_some] at done
    obtain rfl := Option.some.inj done
    exact watched.kept_of_effect rfl (grown.extends.effect inv.arena.paging)
      (fun f table => .inl table) (fun _ v _ _ => grown.leaf v) rfl

theorem Watched.unmap {virt : Nat} (below : Vm.pageOf virt < Vm.pageOf heapBase)
    (done : call s (.unmap virt) = some s') : Kept s s' (.unmap virt) b offset := by
  have inv := watched.before
  obtain rfl := Option.some.inj done
  rw [Vm.vmmUnmap_eq] at watched ⊢
  cases here : s.heap.vm.tableAt s.heap.cr3 (Vm.path virt) with
  | none =>
    rw [here] at watched
    exact watched.kept_of_same rfl rfl
  | some t =>
    rw [here] at watched
    have word : 0 < 2 ^ 64 := by decide
    refine watched.kept_of_effect rfl
      ((Vm.extends_setLeaf inv.arena.paging here word).effect inv.arena.paging)
      (fun f table => .inl table) (fun _ v page _ => ?_) rfl
    exact (Vm.leaf_setLeaf inv.arena.paging here word v).trans (if_neg (inv.page_ne page below))

end Calls

/-! ### Runs -/

/-- No step moves a byte of a live block, and only its holder changes it. -/
theorem Inv.step_kept (inv : Inv s chains free pages top) (fits : FitsEvent s e)
    (taken : HeapRun.step s e = some s') (live : b ∈ s.blocks) (stays : b ∈ s'.blocks)
    (inside : Inside b offset) : Kept s s' e b offset := by
  obtain ⟨_, _, _, _, inv', _⟩ := inv.step fits taken
  have watched := Watched.mk inv inv' live stays inside
  unfold HeapRun.step at taken
  split at taken
  · next allowed =>
    cases e with
    | call e =>
      cases e with
      | kmalloc size =>
        rcases fits with small | fits
        · exact watched.kmalloc_small small taken
        · by_cases small : size ≤ slab1024
          · exact watched.kmalloc_small small taken
          · exact watched.kmalloc_large (by omega) fits taken
      | kfree b' =>
        have member : b' ∈ s.blocks := allowed
        rcases small_or_large member with small | large
        · exact watched.kfree_small member (mem_smallBlocks.mp small).2 taken
        · exact watched.kfree_large large taken
      | write b' offset' value => exact watched.write allowed.1 ⟨allowed.2, fits⟩ taken
      | alloc => exact watched.alloc_frame taken
      | free ptr => exact watched.free_frame allowed taken
      | poke address value => exact watched.poke allowed taken
    | map virt phys flags => exact watched.map allowed.1 allowed.2 taken
    | unmap virt => exact watched.unmap allowed taken
  · cases taken

/-- The bytes of live blocks are apart from each other, and each holds what was last written. -/
structure PrivateArrays (s₀ s : SlabState) (h : List (Entry SlabState HeapEvent)) : Prop where
  apart : ∀ b ∈ s.blocks, ∀ b' ∈ s.blocks, ∀ offset offset' a, Inside b offset →
    Inside b' offset' → cell s.heap b offset = some a → cell s.heap b' offset' = some a →
    b = b' ∧ offset = offset'
  /-- while a block is live its bytes stay in place and hold what its holder has written since,
  or else what they held -/
  contents : ∀ b ∈ s₀.blocks, (∀ x ∈ h, b ∈ x.post.blocks) → ∀ offset, Inside b offset →
    cell s.heap b offset = cell s₀.heap b offset ∧ byteAt s.heap b offset =
      (lastWritten b offset h).elim (byteAt s₀.heap b offset) some

theorem private_contents {s₀ : SlabState} {h₀ h : List (Entry SlabState HeapEvent)}
    (before : Run step Started h₀ s₀) (fits₀ : AllFit h₀) (run : Run step (· = s₀) h s)
    (fits : AllFit h) (live : b ∈ s₀.blocks) (stays : ∀ x ∈ h, b ∈ x.post.blocks)
    (inside : Inside b offset) : b ∈ s.blocks ∧
      cell s.heap b offset = cell s₀.heap b offset ∧
      byteAt s.heap b offset = (lastWritten b offset h).elim (byteAt s₀.heap b offset) some := by
  induction run with
  | start same =>
    subst same
    exact ⟨live, rfl, rfl⟩
  | @step h s s' e rest taken ih =>
    have fitsRest : AllFit h := fun x member => fits x (List.mem_cons_of_mem _ member)
    obtain ⟨here, place, byte⟩ := ih fitsRest fun x member => stays x (List.mem_cons_of_mem _ member)
    have there : b ∈ s'.blocks := stays _ List.mem_cons_self
    obtain ⟨_, _, _, _, inv⟩ := run_good (before.append rest) fun x member =>
      (List.mem_append.mp member).elim (fitsRest x) (fits₀ x)
    have same := inv.step_kept (fits _ List.mem_cons_self) taken here there inside
    refine ⟨there, same.place.trans place, ?_⟩
    rw [same.byteAt, byte, lastWritten]
    cases writtenTo b offset e <;> rfl

/-- In every run over the whole heap the live blocks are arrays that belong to their holders
alone, small or large, whatever happens to the page tables and to the frames of others. -/
theorem block_contents {s₀ : SlabState} {h₀ h : List (Entry SlabState HeapEvent)}
    (before : Run step Started h₀ s₀) (fits₀ : AllFit h₀) (run : Run step (· = s₀) h s)
    (fits : AllFit h) : PrivateArrays s₀ s h where
  apart b member b' member' offset offset' a inside inside' here here' := by
    obtain ⟨_, _, _, _, inv⟩ := run_good (before.append run) fun x member =>
      (List.mem_append.mp member).elim (fits x) (fits₀ x)
    exact inv.cell_injective member member' inside inside' here here'
  contents b live stays offset inside :=
    (private_contents before fits₀ run fits live stays inside).2

/-- A holder can write what it can read. -/
theorem Inv.write_served (inv : Inv s chains free pages top) (member : b ∈ s.blocks)
    (inside : Inside b offset) (mapped : cell s.heap b offset ≠ none) (value : UInt8) :
    ∃ s', HeapRun.step s (.call (.write b offset value)) = some s' ∧ s'.blocks = s.blocks := by
  obtain ⟨a, here⟩ := Option.ne_none_iff_exists'.mp mapped
  have resolved : s.heap.vm.resolve s.heap.cr3 (vmmPresent ||| vmmWrite) (b.ptr + offset) = some a := by
    rw [cell] at here
    rcases small_or_large member with small | large
    · rw [inv.resolve_small small inside.1] at here ⊢
      exact here
    · obtain ⟨v, o, page, place⟩ := inv.page_offset large inside
      rw [place.address, inv.resolve_page page place.below (.inl rfl)] at here
      rw [place.address, inv.resolve_page page place.below (.inr rfl), here]
  have allowed : Allowed s (.call (.write b offset value)) := ⟨member, inside.1⟩
  rw [HeapRun.step, if_pos allowed, HeapRun.call, SlabState.call, Vm.write, resolved]
  exact ⟨_, rfl, rfl⟩

/-- Where all pages are mapped the holder reaches all bytes. -/
theorem Inv.cell_mapped (inv : Inv s chains free pages top) (member : b ∈ largeBlocks s.blocks)
    (mapped : AllMapped s.heap b) (inside : Inside b offset) : cell s.heap b offset ≠ none := by
  obtain ⟨v, o, page, place⟩ := inv.page_offset member inside
  obtain ⟨k, below, rfl⟩ := place.page
  have present := mapped k below
  intro none
  rw [cell, place.address, inv.resolve_page page place.below (.inl rfl)] at none
  split at none
  next unmapped =>
    rw [Vm.frameOf_unmapped inv.arena.writable (.inl rfl) unmapped] at present
    cases present
  · cases none

/-- A byte of a block of one page is written and read back. -/
theorem block_contents_one_write : ∃ s₀ s h₀ h, Run step Started h₀ s₀ ∧
    Run step (· = s₀) h s ∧ PrivateArrays s₀ s h ∧
    ∃ b ∈ s.blocks, byteAt s.heap b 7 = some 42 := by
  have large : slab1024 < 2000 := by decide
  obtain ⟨s, s₀, p, started, fits, _, _, mapped, member, taken⟩ :=
    one_page large (by decide) (by decide)
  have allFit : AllFit [⟨s, .call (.kmalloc 2000), s₀⟩] := by
    intro x isEntry
    obtain rfl := List.mem_singleton.mp isEntry
    exact .inr fits
  have before : Run step Started _ s₀ := .step (.start started) taken
  obtain ⟨_, _, _, _, inv⟩ := run_good before allFit
  have inside : Inside ⟨p, 2000⟩ 7 := by
    refine ⟨?_, .inr ?_⟩
    · exact (by decide : 7 < 2000)
    · exact (by decide : 7 + allocHeaderSize < pagesCount 2000 * pageSize)
  have isLarge := mem_largeBlocks.mpr ⟨member, large⟩
  have readable := inv.cell_mapped isLarge mapped inside
  obtain ⟨s', wrote, blocks⟩ := inv.write_served member inside readable 42
  have run : Run step (· = s₀) [⟨s₀, .call (.write ⟨p, 2000⟩ 7 42), s'⟩] s' :=
    .step (.start rfl) wrote
  have stays : (⟨p, 2000⟩ : Block) ∈ s'.blocks := blocks ▸ member
  have arrays := block_contents before allFit run (by
    intro x isEntry
    obtain rfl := List.mem_singleton.mp isEntry
    exact inside.2)
  refine ⟨s₀, s', _, _, before, run, arrays, _, stays, ?_⟩
  have read := (arrays.contents _ member (by simpa using stays) 7 inside).2
  simpa [lastWritten, writtenTo] using read

end HeapRun

end DedOS
