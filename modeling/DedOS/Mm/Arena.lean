import DedOS.Mm.PageBlocks
import DedOS.Mm.SlabCalls

/-!
# The arena of page blocks

An `Arena` separates the owners of frames: the tables of the active pagemap, the slabs, the
pages that `kmalloc` has mapped, and everybody else. What a call does to it is a `Move`
(`Arena.move`); calls that write no table are `Arena.quiet`. Memory behind a mapped page is
reached through the walk of the processor (`resolve_page`).
-/

namespace DedOS

open Lib

variable {root f g t v w virt flags : Nat} {vm vm' : Vm} {slab slab' : Nat → Prop}
  {held held' : List Nat} {pages pages' : Nat → Prop} {j : Fin 512} {q : List (Fin 512)}

/-! ### The walk of the processor -/

namespace Vm

/-- Upper entries that are present can be written through. -/
def Writable (root : Nat) (s : Vm) : Prop :=
  ∀ q t i, q.length ≤ 2 → s.tableAt root q = some t → s.slot t i % 2 = 1 → s.slot t i % 4 = 3

/-- The flags of a read or of a write. -/
def IsAccess (flags : Nat) : Prop := flags = vmmPresent ∨ flags = vmmPresent ||| vmmWrite

theorem and_access (access : IsAccess flags) (w : Nat) :
    w &&& flags = flags ↔ if flags = vmmPresent then w % 2 = 1 else w % 4 = 3 := by
  rcases access with rfl | rfl
  · have low : w &&& vmmPresent = w % 2 := Nat.and_two_pow_sub_one_eq_mod w 1
    rw [low, if_pos rfl]
    rfl
  · have low : w &&& (vmmPresent ||| vmmWrite) = w % 4 := Nat.and_two_pow_sub_one_eq_mod w 2
    rw [low, if_neg (by decide)]
    rfl

/-- An entry that grants an access refers to the same table for the walk of the code. -/
theorem grants_eq_child (access : IsAccess flags) (writable : w % 2 = 1 → w % 4 = 3) :
    grants flags w = child w := by
  have same : w &&& flags = flags ↔ w &&& vmmPresent ≠ 0 := by
    rw [and_access access, and_present]
    split
    · rfl
    · exact ⟨fun both => by omega, writable⟩
  unfold grants child
  simp only [same]

/-- The processor finds the table the code finds, and there the last-level entry. -/
theorem frameOf_eq (writable : Writable root vm) (access : IsAccess flags) :
    vm.frameOf root flags virt =
      (vm.tableAt root (path virt)).bind fun t => grants flags (vm.slot t (ptIdx virt)) := by
  have upper : walk vm.slot (grants flags) root (path virt) = vm.tableAt root (path virt) := by
    apply walk_agree
    intro before i after t split reached
    exact grants_eq_child access (writable before t i (way_short split) reached)
  rw [frameOf, walk_append, upper]
  cases vm.tableAt root (path virt) with
  | none => rfl
  | some t =>
    rw [Option.bind_some, Option.bind_some, walk_cons]
    cases grants flags (vm.slot t (ptIdx virt)) <;> rfl

theorem grants_frame (access : IsAccess flags) (frame : IsFrame f) : grants flags (f + 3) = some f := by
  have both : f + 3 &&& flags = flags := by
    have aligned := frame.1
    dsimp only [pageSize] at aligned
    rw [and_access access]
    split <;> omega
  rw [grants, if_pos both, frame_of_leaf frame]

/-- A page that `kmalloc` has mapped to a frame. -/
theorem frameOf_mapped (writable : Writable root vm) (access : IsAccess flags) (frame : IsFrame f)
    (mapped : vm.leaf root virt = f + 3) : vm.frameOf root flags virt = some f := by
  rw [frameOf_eq writable access]
  cases here : vm.tableAt root (path virt) with
  | none =>
    rw [leaf, here, Option.elim_none] at mapped
    omega
  | some t =>
    rw [leaf, here, Option.elim_some] at mapped
    rw [Option.bind_some, mapped, grants_frame access frame]

/-- A page without an entry. -/
theorem frameOf_unmapped (writable : Writable root vm) (access : IsAccess flags)
    (unmapped : vm.leaf root virt = 0) : vm.frameOf root flags virt = none := by
  rw [frameOf_eq writable access]
  cases here : vm.tableAt root (path virt) with
  | none => rfl
  | some t =>
    rw [leaf, here, Option.elim_some] at unmapped
    rw [Option.bind_some, unmapped, grants, Nat.zero_and, if_neg]
    rcases access with rfl | rfl <;> decide

/-- Addresses of one page have one last-level entry. -/
theorem leaf_page (same : pageOf v = pageOf w) : vm.leaf root v = vm.leaf root w := by
  obtain ⟨paths, index⟩ := (pageOf_eq_iff v w).mp same
  rw [leaf, leaf, paths, index]

/-- The byte at an offset in a mapped page of the upper half. -/
theorem resolve_page {offset : Nat} (writable : Writable root vm) (access : IsAccess flags)
    (frame : IsFrame f) (mapped : vm.leaf root v = f + 3) (aligned : v % pageSize = 0)
    (high : heapBase ≤ v) (word : v < 2 ^ 64) (below : offset < pageSize)
    (apart : ¬ vm.directMapped (v + offset)) :
    vm.resolve root flags (v + offset) = some (physToVirt vm.hhdm f + offset) := by
  have page : pageOf (v + offset) = pageOf v := by
    unfold pageOf
    dsimp only [pageSize] at *
    omega
  have isCanonical : canonical (v + offset) := by
    right
    dsimp only [pageSize, heapBase] at *
    omega
  have there : vm.leaf root (v + offset) = f + 3 := by rw [leaf_page page, mapped]
  have rest : (v + offset) % pageSize = offset := by
    dsimp only [pageSize] at *
    omega
  rw [resolve, if_neg apart, if_pos isCanonical, frameOf_mapped writable access frame there,
    Option.map_some, rest]

end Vm

/-! ### Who owns which frame -/

/-- A frame that is neither a table nor a slab. -/
structure DataFrame (root : Nat) (vm : Vm) (slab : Nat → Prop) (f : Nat) : Prop
    extends PageState.HeldFrame root vm f where
  noSlab : ¬ slab (physToVirt vm.hhdm f)

/-- The page at `A` is the direct map's view of a held frame that is no table. -/
def SlabApart (root : Nat) (vm : Vm) (A : Nat) : Prop :=
  ∃ f, IsFrame f ∧ vm.pmm.Held f ∧ A = physToVirt vm.hhdm f ∧ ¬ vm.IsTable root f

/-- Frames under one pagemap: tables, slabs, the frames behind the `pages` of the heap and the
frames others hold, all of them apart. -/
structure Arena (root : Nat) (vm : Vm) (slab : Nat → Prop) (held : List Nat)
    (pages : Nat → Prop) : Prop where
  paging : vm.Paging root
  writable : vm.Writable root
  /-- the direct map does not reach into the heap's range -/
  high : ∀ v, heapBase ≤ v → v < 2 ^ 64 → ¬ vm.directMapped v
  inside : ∀ v, pages v → heapBase ≤ v ∧ v < 2 ^ 64 ∧ v % pageSize = 0
  slabs : ∀ A, slab A → SlabApart root vm A
  data : ∀ v, pages v → vm.leaf root v = 0 ∨ ∃ f, vm.leaf root v = f + 3 ∧ DataFrame root vm slab f
  apart : ∀ v w, pages v → pages w → vm.leaf root v ≠ 0 → vm.leaf root v = vm.leaf root w → v = w
  others : ∀ f ∈ held, DataFrame root vm slab f ∧ ∀ v, pages v → vm.leaf root v ≠ f + 3
  distinct : held.Nodup

/-- What a call may do to the arena: free frames become tables, slabs, frames of others or
frames behind pages; the frames `gives` become free. -/
structure Move (root : Nat) (vm vm' : Vm) (slab slab' : Nat → Prop) (held held' : List Nat)
    (pages pages' : Nat → Prop) (gives : Nat → Prop) : Prop where
  paging : vm'.Paging root
  writable : vm'.Writable root
  same : Pmm.SameMap vm.pmm vm'.pmm
  inside : ∀ v, pages' v → heapBase ≤ v ∧ v < 2 ^ 64 ∧ v % pageSize = 0
  table : ∀ t, vm'.IsTable root t → vm.IsTable root t ∨ vm.pmm.Free t
  slabs : ∀ A, slab' A → slab A ∨
    SlabApart root vm' A ∧ ∃ f, vm.pmm.Free f ∧ A = physToVirt vm.hhdm f
  free : ∀ f, vm'.pmm.Free f → vm.pmm.Free f ∨ gives f
  given : ∀ f, gives f → DataFrame root vm slab f
  page : ∀ v, pages' v → vm'.leaf root v = 0 ∨
    (pages v ∧ vm'.leaf root v = vm.leaf root v ∧ ∀ f, vm.leaf root v = f + 3 → ¬ gives f) ∨
    ∃ f, vm'.leaf root v = f + 3 ∧ vm.pmm.Free f ∧ DataFrame root vm' slab' f ∧ f ∉ held'
  apart : ∀ v w f, pages' v → pages' w → vm.pmm.Free f → vm'.leaf root v = f + 3 →
    vm'.leaf root w = f + 3 → v = w
  others : ∀ f ∈ held', (f ∈ held ∧ ¬ gives f) ∨
    vm.pmm.Free f ∧ DataFrame root vm' slab' f ∧ ∀ v, pages' v → vm'.leaf root v ≠ f + 3
  distinct : held'.Nodup

section Moves

variable {gives : Nat → Prop} (arena : Arena root vm slab held pages)
  (moved : Move root vm vm' slab slab' held held' pages pages' gives)

include arena moved

/-- Frames in use that are not given back keep their owner. -/
theorem Move.data (data : DataFrame root vm slab f) (kept : ¬ gives f) :
    DataFrame root vm' slab' f := by
  have hhdm : vm'.hhdm = vm.hhdm := moved.same.hhdmOffset
  have used := data.held.not_free
  refine ⟨⟨data.frame, data.nonzero, by rw [hhdm]; exact data.nonnull,
    data.held.mono moved.same fun free => ?_, fun table => ?_⟩, ?_⟩
  · rcases moved.free f free with old | given
    · exact used old
    · exact kept given
  · rcases moved.table f table with old | free
    · exact data.other old
    · exact used free
  · rw [hhdm]
    intro isSlab
    rcases moved.slabs _ isSlab with old | ⟨_, g, free, same⟩
    · exact data.noSlab old
    · obtain rfl := physToVirt_inj data.frame (arena.paging.ready.isFrame free) same
      exact used free

theorem Arena.move : Arena root vm' slab' held' pages' := by
  have hhdm : vm'.hhdm = vm.hhdm := moved.same.hhdmOffset
  refine ⟨moved.paging, moved.writable, ?_, moved.inside, ?_, ?_, ?_, ?_, moved.distinct⟩
  · intro v low word
    have same : vm'.directMapped v ↔ vm.directMapped v := by
      unfold Vm.directMapped
      rw [hhdm, moved.same.totalPages]
    rw [same]
    exact arena.high v low word
  · intro A isSlab
    rcases moved.slabs A isSlab with old | ⟨new, _⟩
    · obtain ⟨f, frame, isHeld, rfl, noTable⟩ := arena.slabs A old
      refine ⟨f, frame, isHeld.mono moved.same fun free => ?_, by rw [hhdm], fun table => ?_⟩
      · rcases moved.free f free with before | given
        · exact isHeld.not_free before
        · exact (moved.given f given).noSlab old
      · rcases moved.table f table with before | free
        · exact noTable before
        · exact isHeld.not_free free
    · exact new
  · intro v page
    rcases moved.page v page with unmapped | ⟨old, same, kept⟩ | ⟨f, mapped, _, data, _⟩
    · exact .inl unmapped
    · rw [same]
      rcases arena.data v old with unmapped | ⟨f, mapped, data⟩
      · exact .inl unmapped
      · exact .inr ⟨f, mapped, moved.data arena data (kept f mapped)⟩
    · exact .inr ⟨f, mapped, data⟩
  · intro v w page page' some same
    -- a frame that was free is behind new pages only
    have old_or_new : ∀ v, pages' v → vm'.leaf root v ≠ 0 →
        (pages v ∧ vm'.leaf root v = vm.leaf root v ∧ ∃ f, vm.leaf root v = f + 3 ∧ ¬ vm.pmm.Free f) ∨
        ∃ f, vm'.leaf root v = f + 3 ∧ vm.pmm.Free f := by
      intro v page some
      rcases moved.page v page with unmapped | ⟨old, same, _⟩ | ⟨f, mapped, free, _, _⟩
      · exact absurd unmapped some
      · rcases arena.data v old with unmapped | ⟨f, mapped, data⟩
        · exact absurd (same.trans unmapped) some
        · exact .inl ⟨old, same, f, mapped, data.held.not_free⟩
      · exact .inr ⟨f, mapped, free⟩
    rcases old_or_new v page some with ⟨old, leaf, f, mapped, used⟩ | ⟨f, mapped, free⟩
    · rcases old_or_new w page' (same ▸ some) with ⟨old', leaf', _⟩ | ⟨g, mapped', free⟩
      · rw [leaf, leaf'] at same
        exact arena.apart v w old old' (leaf ▸ some) same
      · have frames : f = g := by omega
        exact absurd (frames ▸ free) used
    · exact moved.apart v w f page page' free mapped (same ▸ mapped)
  · intro f member
    rcases moved.others f member with ⟨old, kept⟩ | ⟨_, data, away⟩
    · obtain ⟨data, away⟩ := arena.others f old
      refine ⟨moved.data arena data kept, fun v page mapped => ?_⟩
      rcases moved.page v page with unmapped | ⟨before, same, _⟩ | ⟨g, mapped', _, _, other⟩
      · omega
      · exact away v before (same ▸ mapped)
      · have frames : f = g := by omega
        exact other (frames ▸ member)
    · exact ⟨data, away⟩

end Moves

/-! ### Calls that write no table -/

/-- The maps agree, and outside the frames `writes` the bytes of frames that are not free. -/
structure FrameEffect (vm vm' : Vm) (writes : Nat → Prop) : Prop where
  same : Pmm.SameMap vm.pmm vm'.pmm
  bytes : ∀ f, IsFrame f → ¬ vm.pmm.Free f → ¬ writes f → ∀ a, physToVirt vm.hhdm f ≤ a →
    a < physToVirt vm.hhdm f + pageSize → vm'.mem a = vm.mem a

theorem FrameEffect.hhdm {writes : Nat → Prop} (effect : FrameEffect vm vm' writes) :
    vm'.hhdm = vm.hhdm := effect.same.hhdmOffset

/-- Tables and translations when no table is written and none is given back. -/
theorem FrameEffect.tables {writes : Nat → Prop} (effect : FrameEffect vm vm' writes)
    (paging : vm.Paging root) (ready : vm'.pmm.Ready)
    (noTable : ∀ t, vm.IsTable root t → ¬ writes t)
    (free : ∀ f, vm'.pmm.Free f → ¬ vm.IsTable root f ∧ physToVirt vm.hhdm f ≠ 0) :
    vm'.Paging root ∧ (∀ q, q.length ≤ 3 → vm'.tableAt root q = vm.tableAt root q) ∧
      (∀ q t j, q.length ≤ 3 → vm.tableAt root q = some t → vm'.slot t j = vm.slot t j) ∧
      ∀ virt, vm'.leaf root virt = vm.leaf root virt := by
  have slots : ∀ q t j, q.length ≤ 3 → vm.tableAt root q = some t → vm'.slot t j = vm.slot t j := by
    intro q t j short reached
    have table := paging.table q t short reached
    apply Vm.slot_congr effect.hhdm
    exact effect.bytes t table.frame table.used (noTable t ⟨q, short, reached⟩)
  obtain ⟨tables, paging'⟩ := paging.of_agree vm' ready effect.hhdm
    (fun q t j short => slots q t j (by omega)) free
  exact ⟨paging', tables, slots, PageState.leaf_of_tables tables slots⟩

/-- A call that writes no table, for instance on the slabs. -/
theorem Arena.quiet {writes : Nat → Prop} (arena : Arena root vm slab held pages)
    (slab' : Nat → Prop) (held' : List Nat) (gives : Nat → Prop) (effect : FrameEffect vm vm' writes) (ready : vm'.pmm.Ready)
    (noTable : ∀ t, vm.IsTable root t → ¬ writes t)
    (free : ∀ f, vm'.pmm.Free f → vm.pmm.Free f ∨ gives f) (gives_held : ∀ f, gives f → f ∈ held)
    (slabs : ∀ A, slab' A → slab A ∨
      ∃ f, vm.pmm.Free f ∧ ¬ vm'.pmm.Free f ∧ A = physToVirt vm.hhdm f)
    (kept : ∀ f ∈ held', (f ∈ held ∧ ¬ gives f) ∨
      vm.pmm.Free f ∧ f ≠ 0 ∧ ¬ vm'.pmm.Free f ∧ ¬ slab' (physToVirt vm.hhdm f))
    (distinct : held'.Nodup) : Arena root vm' slab' held' pages ∧
      (∀ virt, vm'.leaf root virt = vm.leaf root virt) := by
  have hhdm := effect.hhdm
  have ready₀ := arena.paging.ready
  obtain ⟨paging, tables, slots, leaf⟩ := effect.tables arena.paging ready noTable (by
    intro f isFree
    rcases free f isFree with old | given
    · exact ⟨arena.paging.free_not_table old, arena.paging.free f old⟩
    · have data := (arena.others f (gives_held f given)).1
      exact ⟨data.other, data.nonnull⟩)
  have isTable : ∀ t, vm'.IsTable root t → vm.IsTable root t := by
    rintro t ⟨q, short, reached⟩
    rw [tables q short] at reached
    exact ⟨q, short, reached⟩
  -- a frame that was free and is taken now
  have taken : ∀ f, vm.pmm.Free f → ¬ vm'.pmm.Free f → vm'.pmm.Held f := by
    intro f isFree used
    obtain ⟨page, below, rfl, _⟩ := isFree
    exact .of_not_free (by rwa [effect.same.totalPages]) used
  suffices moved : Move root vm vm' slab slab' held held' pages pages gives from
    ⟨arena.move moved, leaf⟩
  refine ⟨paging, ?_, effect.same, arena.inside, fun t table => .inl (isTable t table), ?_, free,
    ?_, ?_, ?_, ?_, distinct⟩
  · intro q t i short reached present
    rw [tables q (by omega)] at reached
    rw [slots q t i (by omega) reached] at present ⊢
    exact arena.writable q t i short reached present
  · intro A isSlab
    rcases slabs A isSlab with old | ⟨f, isFree, used, rfl⟩
    · exact .inl old
    · refine .inr ⟨⟨f, ready₀.isFrame isFree, taken f isFree used, by rw [hhdm], ?_⟩, f, isFree, rfl⟩
      exact fun table => arena.paging.free_not_table isFree (isTable f table)
  · intro f given
    exact (arena.others f (gives_held f given)).1
  · intro v page
    refine .inr (.inl ⟨page, leaf v, fun f mapped given => ?_⟩)
    exact (arena.others f (gives_held f given)).2 v page mapped
  · intro v w f page page' isFree mapped
    rw [leaf] at mapped
    rcases arena.data v page with unmapped | ⟨g, mapped', data⟩
    · omega
    · have frames : f = g := by omega
      exact absurd (frames ▸ isFree) data.held.not_free
  · intro f member
    rcases kept f member with old | ⟨isFree, nonzero, used, noSlab⟩
    · exact .inl old
    · refine .inr ⟨isFree, ⟨⟨ready₀.isFrame isFree, nonzero, ?_, taken f isFree used, ?_⟩, ?_⟩, ?_⟩
      · rw [hhdm]
        exact arena.paging.free f isFree
      · exact fun table => arena.paging.free_not_table isFree (isTable f table)
      · rwa [hhdm]
      · intro v page mapped
        rw [leaf] at mapped
        rcases arena.data v page with unmapped | ⟨g, mapped', data⟩
        · omega
        · have frames : f = g := by omega
          exact absurd (frames ▸ isFree) data.held.not_free

/-! ### Calls that map pages -/

/-- Bytes of frames in use that hold no table. -/
theorem bytes_of_outside (paging : vm.Paging root)
    (bytes : ∀ a, (∀ g, vm.pmm.Free g ∨ vm.IsTable root g →
      a < physToVirt vm.hhdm g ∨ physToVirt vm.hhdm g + pageSize ≤ a) → vm'.mem a = vm.mem a)
    (frame : IsFrame f) (used : ¬ vm.pmm.Free f) (noTable : ¬ vm.IsTable root f) {a : Nat}
    (low : physToVirt vm.hhdm f ≤ a) (above : a < physToVirt vm.hhdm f + pageSize) :
    vm'.mem a = vm.mem a := by
  apply bytes
  intro g reached
  have other : f ≠ g ∧ IsFrame g := by
    rcases reached with free | ⟨q, short, here⟩
    · refine ⟨?_, paging.ready.isFrame free⟩
      rintro rfl
      exact used free
    · refine ⟨?_, (paging.table q g short here).frame⟩
      rintro rfl
      exact noTable ⟨q, short, here⟩
  have apart := physToVirt_apart paging.hhdm frame other.2 other.1
  omega

theorem Vm.Extends.effect {new : List (List (Fin 512))} {frames : List Nat}
    (paging : vm.Paging root) (grown : Vm.Extends root vm vm' new frames) :
    FrameEffect vm vm' (vm.IsTable root) where
  same := grown.same
  bytes _ frame used noTable _ low high :=
    bytes_of_outside paging grown.bytes frame used noTable low high

/-- Tables were created and some of the `frames` taken are behind new pages. -/
theorem Arena.extend {new : List (List (Fin 512))} {frames : List Nat}
    (arena : Arena root vm slab held pages) (grown : Vm.Extends root vm vm' new frames)
    (inside : ∀ v, pages' v → heapBase ≤ v ∧ v < 2 ^ 64 ∧ v % pageSize = 0)
    (page : ∀ v, pages' v → vm'.leaf root v = 0 ∨ (pages v ∧ vm'.leaf root v = vm.leaf root v) ∨
      ∃ f ∈ frames, vm'.leaf root v = f + 3)
    (apart : ∀ v w, pages' v → pages' w → ∀ f ∈ frames, vm'.leaf root v = f + 3 →
      vm'.leaf root w = f + 3 → v = w) : Arena root vm' slab held pages' := by
  have hhdm := grown.hhdm
  have ready := arena.paging.ready
  -- the new frames belong to nobody else
  have data : ∀ f ∈ frames, DataFrame root vm' slab f := by
    intro f member
    obtain ⟨free, used, noTable⟩ := grown.taken f member
    refine ⟨⟨ready.isFrame free, ?_, ?_, ?_, noTable⟩, ?_⟩
    · rintro rfl
      exact ready.frame0 free
    · rw [hhdm]
      exact arena.paging.free f free
    · obtain ⟨page, below, rfl, _⟩ := free
      exact .of_not_free (by rwa [grown.same.totalPages]) used
    · rw [hhdm]
      intro isSlab
      obtain ⟨g, frame, isHeld, same, _⟩ := arena.slabs _ isSlab
      obtain rfl := physToVirt_inj (ready.isFrame free) frame same
      exact isHeld.not_free free
  suffices moved : Move root vm vm' slab slab held held pages pages' fun _ => False from
    arena.move moved
  refine ⟨grown.paging, ?_, grown.same, inside, fun t => grown.table, fun A isSlab => .inl isSlab,
    fun f free => .inl (grown.free f free), fun f none => none.elim, ?_, ?_, ?_, arena.distinct⟩
  · intro q t i short reached present
    rcases grown.upper q t i short reached present with ⟨old, same⟩ | new
    · rw [same] at present ⊢
      exact arena.writable q t i short old present
    · exact new
  · intro v isPage
    rcases page v isPage with unmapped | ⟨old, same⟩ | ⟨f, member, mapped⟩
    · exact .inl unmapped
    · exact .inr (.inl ⟨old, same, fun _ _ none => none⟩)
    · refine .inr (.inr ⟨f, mapped, (grown.taken f member).1, data f member, fun isHeld => ?_⟩)
      exact (arena.others f isHeld).1.held.not_free (grown.taken f member).1
  · intro v w f isPage isPage' free mapped mapped'
    rcases page v isPage with unmapped | ⟨old, same⟩ | ⟨g, member, mappedG⟩
    · omega
    · rcases arena.data v old with unmapped | ⟨g, mappedG, dataG⟩
      · omega
      · have frames : f = g := by omega
        exact absurd (frames ▸ free) dataG.held.not_free
    · have frames : f = g := by omega
      subst frames
      exact apart v w isPage isPage' f member mapped mapped'
  · intro f member
    exact .inl ⟨member, fun none => none⟩

/-! ### Calls that unmap pages -/

theorem Vm.Released.effect {base i n : Nat} (paging : vm.Paging root)
    (released : Vm.Released root base i n vm vm') : FrameEffect vm vm' (vm.IsTable root) where
  same := released.same
  bytes _ frame used noTable _ low high := by
    apply bytes_of_outside paging _ frame used noTable low high
    intro a outside
    exact released.bytes a fun t table => outside t (.inr table)

/-- The frames behind unmapped pages are free. -/
theorem Arena.release {base n : Nat} (arena : Arena root vm slab held pages)
    (isPage : ∀ k < n, pages (Vm.pageAddr base k))
    (released : Vm.Released root base 0 n vm vm') : Arena root vm' slab held pages := by
  have shift : ∀ k, 0 + k = k := Nat.zero_add
  have frameOf : ∀ v f, pages v → vm.leaf root v = f + 3 → DataFrame root vm slab f := by
    intro v f page mapped
    rcases arena.data v page with unmapped | ⟨g, mapped', data⟩
    · omega
    · have frames : f = g := by omega
      exact frames ▸ data
  suffices moved : Move root vm vm' slab slab held held pages pages fun f =>
      ∃ k < n, vm.leaf root (Vm.pageAddr base k) = f + 3 from arena.move moved
  refine ⟨released.paging, ?_, released.same, arena.inside, ?_, fun A isSlab => .inl isSlab, ?_, ?_,
    ?_, ?_, ?_, arena.distinct⟩
  · intro q t i short reached present
    rw [released.tables q (by omega)] at reached
    rw [released.upper q t i short reached] at present ⊢
    exact arena.writable q t i short reached present
  · intro t table
    exact .inl (released.isTable.mp table)
  · intro f free
    simpa [shift] using (released.free f).mp free
  · rintro f ⟨k, below, mapped⟩
    exact frameOf _ f (isPage k below) mapped
  · intro v page
    by_cases block : ∃ k < n, Vm.pageOf (Vm.pageAddr base (0 + k)) = Vm.pageOf v
    · exact .inl (released.here v block)
    · refine .inr (.inl ⟨page, released.others v fun k below same => block ⟨k, below, same⟩, ?_⟩)
      -- pages with one frame behind them are one page
      rintro f mapped ⟨k, below, mapped'⟩
      have same := arena.apart v _ page (isPage k below) (by omega) (mapped.trans mapped'.symm)
      exact block ⟨k, below, by rw [shift, same]⟩
  · intro v w f page _ free mapped _
    by_cases block : ∃ k < n, Vm.pageOf (Vm.pageAddr base (0 + k)) = Vm.pageOf v
    · rw [released.here v block] at mapped
      omega
    · rw [released.others v fun k below same => block ⟨k, below, same⟩] at mapped
      exact absurd free (frameOf v f page mapped).held.not_free
  · intro f member
    refine .inl ⟨member, ?_⟩
    rintro ⟨k, below, mapped⟩
    exact (arena.others f member).2 _ (isPage k below) mapped

/-! ### Bytes behind pages -/

theorem FrameEffect.of_store {m : Memory} (ready : vm.pmm.Ready) (hhdm : vm.hhdm % pageSize = 0)
    (frame : IsFrame f) (agree : ∀ a, a < physToVirt vm.hhdm f ∨ physToVirt vm.hhdm f + pageSize ≤ a →
      m a = vm.mem a) : FrameEffect vm { vm with mem := m } (· = f) where
  same := ready.wf.refl
  bytes g frameG _ other a low high := by
    have apart := physToVirt_apart hhdm frameG frame other
    apply agree
    omega

/-- An access to a page that is not mapped faults. -/
theorem Arena.resolve_unmapped {offset : Nat} (arena : Arena root vm slab held pages)
    (page : pages v) (unmapped : vm.leaf root v = 0) (access : Vm.IsAccess flags)
    (below : offset < pageSize) : vm.resolve root flags (v + offset) = none := by
  obtain ⟨low, word, aligned⟩ := arena.inside v page
  have samePage : Vm.pageOf (v + offset) = Vm.pageOf v := by
    unfold Vm.pageOf
    dsimp only [pageSize] at *
    omega
  have there : vm.leaf root (v + offset) = 0 := by rw [Vm.leaf_page samePage, unmapped]
  have apart : ¬ vm.directMapped (v + offset) := by
    apply arena.high
    · omega
    · dsimp only [pageSize] at *
      omega
  rw [Vm.resolve, if_neg apart, Vm.frameOf_unmapped arena.writable access there]
  split <;> rfl

/-- An access to a mapped page when no frame but those of data has been written. -/
theorem Arena.resolve_written {m : Memory} {offset : Nat} (arena : Arena root vm slab held pages)
    (page : pages v) (agree : ∀ a, (∀ g, DataFrame root vm slab g →
      a < physToVirt vm.hhdm g ∨ physToVirt vm.hhdm g + pageSize ≤ a) → m a = vm.mem a)
    (access : Vm.IsAccess flags) (below : offset < pageSize) :
    (vm.leaf root v = f + 3 → ({ vm with mem := m } : Vm).resolve root flags (v + offset) =
      some (physToVirt vm.hhdm f + offset)) ∧
    (vm.leaf root v = 0 → ({ vm with mem := m } : Vm).resolve root flags (v + offset) = none) := by
  -- only data frames have been written, so the walk is the same
  have effect : FrameEffect vm { vm with mem := m } (DataFrame root vm slab) := by
    refine ⟨arena.paging.ready.wf.refl, fun g frame _ noData a low high => ?_⟩
    apply agree
    intro d data
    have differ : g ≠ d := by
      rintro rfl
      exact noData data
    have apart := physToVirt_apart arena.paging.hhdm frame data.frame differ
    omega
  obtain ⟨arena', leaf⟩ := arena.quiet slab held (fun _ => False) effect arena.paging.ready
    (fun t table data => data.other table) (fun g isFree => .inl isFree) (fun _ none => none.elim)
    (fun _ isSlab => .inl isSlab) (fun g kept => .inl ⟨kept, fun none => none⟩) arena.distinct
  constructor
  · intro mapped
    obtain ⟨low, word, aligned⟩ := arena.inside v page
    have data : DataFrame root vm slab f := by
      rcases arena.data v page with unmapped | ⟨g, mapped', data⟩
      · omega
      · have frames : f = g := by omega
        exact frames ▸ data
    apply Vm.resolve_page arena'.writable access data.frame _ aligned low word below
    · apply arena.high
      · omega
      · dsimp only [pageSize] at *
        omega
    · rw [leaf, mapped]
  · intro unmapped
    exact arena'.resolve_unmapped page (by rw [leaf, unmapped]) access below

section Bytes

variable {m : Memory} {n offset value : Nat} (arena : Arena root vm slab held pages)
  (page : pages v) (mapped : vm.leaf root v = f + 3)
  (agree : ∀ a, a < physToVirt vm.hhdm f ∨ physToVirt vm.hhdm f + pageSize ≤ a → m a = vm.mem a)

include arena page mapped

theorem Arena.dataFrame : DataFrame root vm slab f := by
  rcases arena.data v page with unmapped | ⟨g, mapped', data⟩
  · omega
  · have frames : f = g := by omega
    exact frames ▸ data

include agree

/-- An access to a mapped page, when only that page has been written. -/
theorem Arena.resolve (access : Vm.IsAccess flags) (below : offset < pageSize) :
    ({ vm with mem := m } : Vm).resolve root flags (v + offset) =
      some (physToVirt vm.hhdm f + offset) := by
  have data := arena.dataFrame page mapped
  obtain ⟨low, word, aligned⟩ := arena.inside v page
  obtain ⟨_, tables, slots, leaf⟩ := (FrameEffect.of_store arena.paging.ready arena.paging.hhdm
    data.frame agree).tables arena.paging arena.paging.ready (by
      rintro t table rfl
      exact data.other table) fun g free =>
        ⟨arena.paging.free_not_table free, arena.paging.free g free⟩
  apply Vm.resolve_page _ access data.frame _ aligned low word below
  · apply arena.high
    · omega
    · dsimp only [pageSize] at *
      omega
  · intro q t i short reached present
    rw [tables q (by omega)] at reached
    rw [slots q t i (by omega) reached] at present ⊢
    exact arena.writable q t i short reached present
  · rw [leaf, mapped]

theorem Arena.read (below : offset < pageSize) : ({ vm with mem := m } : Vm).read root n (v + offset) =
    some (load n m (physToVirt vm.hhdm f + offset)) := by
  rw [Vm.read, arena.resolve page mapped agree (.inl rfl) below, Option.map_some]

theorem Arena.write (below : offset < pageSize) :
    ({ vm with mem := m } : Vm).write root n (v + offset) value =
      some { vm with mem := store n m (physToVirt vm.hhdm f + offset) value } := by
  rw [Vm.write, arena.resolve page mapped agree (.inr rfl) below, Option.map_some]

end Bytes

end DedOS
