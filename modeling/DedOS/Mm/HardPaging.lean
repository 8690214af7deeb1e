import DedOS.Mm.Processor

/-!
# Structures with large pages

`HardPaging root s`: the tables that the processor reaches from `root` form a tree, whatever else
their entries hold. `entryAt` reads it as a map from positions to entries. On a way of clean
entries `vmm_map` fills absent entries with new tables, whose entries are 0, and sets one
last-level entry (`vmmMap_hard`); `vmm_unmap` sets it to 0 (`vmmUnmap_hard`). All other entries
stay (`HardEdit`).
-/

namespace DedOS

open Lib

namespace Vm

/-- The tables that the processor reaches form a tree, in frames that the allocator holds back. -/
structure HardPaging (root : Nat) (s : Vm) : Prop where
  ready : s.pmm.Ready
  hhdm : s.hhdm % pageSize = 0
  tree : TreeTables s.slot tableOf root 3
  table : ∀ q t, q.length ≤ 3 → s.hardTable root q = some t → s.TableFrame t
  free : ∀ f, s.pmm.Free f → physToVirt s.hhdm f ≠ 0

/-- Entry `i` of the table that the processor reaches along `p`. -/
def entryAt (s : Vm) (root : Nat) (p : List (Fin 512)) (i : Fin 512) : Option Nat :=
  (s.hardTable root p).map fun t => s.slot t i

/-- There is no entry, or it is not present. -/
def Absent (entry : Option Nat) : Prop := ∀ w, entry = some w → w % 2 = 0

variable {s s' s₁ s₂ s₃ : Vm} {root virt phys flags t u f w : Nat} {i j : Fin 512}
  {p q way : List (Fin 512)} {before after : Option Nat}

/-- Tables of 4 KiB mappings are such a structure. -/
theorem Paging.hard (paging : Paging root s) : HardPaging root s where
  ready := paging.ready
  hhdm := paging.hhdm
  tree p q t short short' reached reached' := by
    rw [← hardTable, paging.hardTable_eq short] at reached
    rw [← hardTable, paging.hardTable_eq short'] at reached'
    exact paging.tree p q t short short' reached reached'
  table q t short reached := by
    rw [paging.hardTable_eq short] at reached
    exact paging.table q t short reached
  free := paging.free

theorem tableOf_eq_some (word : w < 2 ^ 64) :
    tableOf w = some t ↔ w % 2 = 1 ∧ w % 256 < 128 ∧ t = w / pageSize * pageSize % 2 ^ 52 := by
  rw [← and_present, ← and_largePage, ← and_addressMask word, tableOf]
  by_cases refers : w &&& vmmPresent ≠ 0 ∧ w &&& largePage = 0
  · rw [if_pos refers, Option.some.injEq]
    exact ⟨fun same => ⟨refers.1, refers.2, same.symm⟩, fun all => all.2.2.symm⟩
  · rw [if_neg refers]
    constructor
    · rintro ⟨⟩
    · exact fun all => absurd ⟨all.1, all.2.1⟩ refers

theorem tableOf_absent (absent : w % 2 = 0) : tableOf w = none := by
  rw [tableOf, if_neg]
  rintro ⟨present, _⟩
  rw [and_present] at present
  omega

/-- The entry of a new table. -/
theorem tableOf_new (frame : IsFrame u) (writable : flags = 3 ∨ flags = 7) :
    tableOf (u + flags) = some u := by
  obtain ⟨aligned, small⟩ := frame
  rw [tableOf_eq_some (by omega)]
  dsimp only [pageSize] at *
  omega

theorem new_present (frame : IsFrame u) (writable : flags = 3 ∨ flags = 7) :
    ¬ (u + flags) &&& vmmPresent = 0 ∧ (u + flags) &&& largePage = 0 := by
  obtain ⟨aligned, _⟩ := frame
  rw [← ne_eq, and_present, and_largePage]
  dsimp only [pageSize] at aligned
  omega

theorem entryAt_eq_some :
    s.entryAt root p i = some w ↔ ∃ t, s.hardTable root p = some t ∧ s.slot t i = w :=
  Option.map_eq_some_iff

theorem hardTable_concat : s.hardTable root (p ++ [i]) = (s.entryAt root p i).bind tableOf := by
  cases here : s.hardTable root p with
  | none =>
    rw [entryAt, here, hardTable, walk_append, ← hardTable, here]
    rfl
  | some t =>
    rw [entryAt, here]
    exact walk_concat here

theorem entryAt_present (reached : s.hardTable root (p ++ [i]) = some t) :
    ∃ w, s.entryAt root p i = some w ∧ tableOf w = some t := by
  rw [hardTable_concat, Option.bind_eq_some_iff] at reached
  exact reached

/-! ### A new table -/

section Hang

variable (paging : HardPaging root s) (here : s.hardTable root p = some t) (room : p.length ≤ 2)
  (absent : s.slot t i % 2 = 0) (hung : Hung s s' t i u flags) (writable : flags = 3 ∨ flags = 7)

include paging hung

theorem Hung.hard_kept (reached : s.hardTable root q = some f) (short : q.length ≤ 3)
    (elsewhere : (f, j) ≠ (t, i)) : s'.slot f j = s.slot f j := by
  have table := paging.table q f short reached
  apply hung.others f j table.frame _ elsewhere
  rintro rfl
  exact table.used hung.taken.free

include here room absent writable

theorem Hung.hardTable (short : q.length ≤ 3) :
    s'.hardTable root q = if q = p ++ [i] then some u else s.hardTable root q := by
  apply walk_grow paging.tree here (by omega) (tableOf_absent absent)
  · rw [hung.hung]
    exact tableOf_new (paging.ready.isFrame hung.taken.free) writable
  · intro j
    rw [hung.zeroed]
    rfl
  · intro q f j short reached elsewhere
    rw [hung.hard_kept paging reached short elsewhere]
  · exact short

theorem Hung.hardPaging : HardPaging root s' := by
  have walks := fun {q} => hung.hardTable (q := q) paging here room absent writable
  have frame := paging.ready.isFrame hung.taken.free
  have sameHhdm := hung.hhdm
  refine ⟨hung.taken.ready, by rw [sameHhdm]; exact paging.hhdm, ?_, ?_, ?_⟩
  · -- the new table was free, so it is in no tree from before
    apply tree_grow paging.tree _ fun q short => walks short
    intro q short reached
    exact (paging.table q u short reached).used hung.taken.free
  · intro q f short reached
    rw [walks short] at reached
    split at reached
    · obtain rfl := Option.some.inj reached
      exact ⟨frame, sameHhdm ▸ paging.free u hung.taken.free, fun free =>
        ((hung.taken.others u).mp free).2 rfl⟩
    · have old := paging.table q f short reached
      exact ⟨old.frame, sameHhdm ▸ old.nonnull, fun free =>
        old.used ((hung.taken.others f).mp free).1⟩
  · intro f free
    rw [sameHhdm]
    exact paging.free f ((hung.taken.others f).mp free).1

end Hang

/-- Entry `i` at `p` while tables with `flags` in their entries are created on the way: it stays,
or it was absent and now refers to a new table, or it is in a new table and 0. -/
def EntryGrew (way : List (Fin 512)) (flags : Nat) (p : List (Fin 512)) (i : Fin 512)
    (before after : Option Nat) : Prop :=
  after = before ∨
  (p ++ [i] <+: way ∧ Absent before ∧ ∃ u, IsFrame u ∧ after = some (u + flags)) ∨
  (before = none ∧ after = some 0)

/-- Tables are created on the way. -/
structure Grew (root : Nat) (way : List (Fin 512)) (flags : Nat) (s s' : Vm) : Prop where
  paging : HardPaging root s'
  same : Pmm.SameMap s.pmm s'.pmm
  free : ∀ f, s'.pmm.Free f → s.pmm.Free f
  entries : ∀ p i, p.length ≤ 3 →
    EntryGrew way flags p i (s.entryAt root p i) (s'.entryAt root p i)

theorem Grew.refl (paging : HardPaging root s) : Grew root way flags s s :=
  ⟨paging, paging.ready.wf.refl, fun _ free => free, fun _ _ _ => .inl rfl⟩

theorem EntryGrew.trans {mid : Option Nat} (writable : flags = 3 ∨ flags = 7)
    (first : EntryGrew way flags p i before mid) (second : EntryGrew way flags p i mid after) :
    EntryGrew way flags p i before after := by
  rcases first with rfl | ⟨onWay, absent, u, frame, rfl⟩ | ⟨gone, rfl⟩
  · exact second
  · rcases second with rfl | ⟨_, absent', _⟩ | ⟨none, _⟩
    · exact .inr (.inl ⟨onWay, absent, u, frame, rfl⟩)
    · -- the new entry is present
      have even := absent' _ rfl
      have aligned := frame.1
      dsimp only [pageSize] at aligned
      omega
    · cases none
  · rcases second with rfl | ⟨onWay, _, u, frame, rfl⟩ | ⟨none, _⟩
    · exact .inr (.inr ⟨gone, rfl⟩)
    · refine .inr (.inl ⟨onWay, ?_, u, frame, rfl⟩)
      rw [gone]
      rintro w ⟨⟩
    · cases none

theorem Grew.trans (writable : flags = 3 ∨ flags = 7) (first : Grew root way flags s₁ s₂)
    (second : Grew root way flags s₂ s₃) : Grew root way flags s₁ s₃ where
  paging := second.paging
  same := first.same.trans second.same
  free f free := first.free f (second.free f free)
  entries p i short := (first.entries p i short).trans writable (second.entries p i short)

theorem Hung.grew (paging : HardPaging root s) (here : s.hardTable root p = some t)
    (room : p.length ≤ 2) (absent : s.slot t i % 2 = 0) (hung : Hung s s' t i u flags)
    (writable : flags = 3 ∨ flags = 7) (onWay : p ++ [i] <+: way) : Grew root way flags s s' := by
  have walks := fun {q} => hung.hardTable (q := q) paging here room absent writable
  have frame := paging.ready.isFrame hung.taken.free
  refine ⟨hung.hardPaging paging here room absent writable, hung.taken.same,
    fun f free => ((hung.taken.others f).mp free).1, ?_⟩
  intro q j short
  rw [entryAt, entryAt, walks short]
  by_cases new : q = p ++ [i]
  · -- the new table
    have gone : s.hardTable root (p ++ [i]) = none := (walk_concat here).trans (tableOf_absent absent)
    rw [if_pos new, new, gone, Option.map_some, hung.zeroed]
    exact .inr (.inr ⟨rfl, rfl⟩)
  rw [if_neg new]
  cases reached : s.hardTable root q with
  | none =>
    rw [Option.map_none, Option.map_none]
    exact .inl rfl
  | some f =>
    by_cases here' : (f, j) = (t, i)
    · -- the entry that the table was hung into, which has one place in the tree
      obtain ⟨rfl, rfl⟩ := Prod.mk.inj here'
      obtain rfl := paging.tree q p f short (Nat.le_succ_of_le room) reached here
      refine .inr (.inl ⟨onWay, ?_, u, frame, ?_⟩)
      · intro w value
        obtain rfl := Option.some.inj value
        exact absent
      · rw [Option.map_some, hung.hung]
    · rw [Option.map_some, Option.map_some, hung.hard_kept paging reached short here']
      exact .inl rfl

/-! ### The descent -/

/-- `get_or_create` at a clean entry: the next table is there or is created, or no frame is left. -/
theorem getOrCreate_hard (paging : HardPaging root s) (here : s.hardTable root p = some t)
    (room : p.length ≤ 2) (writable : flags = 3 ∨ flags = 7) (onWay : p ++ [i] <+: way)
    (clean : s.slot t i &&& vmmPresent ≠ 0 → s.slot t i < 2 ^ 52 ∧ s.slot t i &&& largePage = 0) :
    (s.hardTable root (p ++ [i]) = none ∧
      getOrCreate s (physToVirt s.hhdm t) i flags = some (0, s)) ∨
    ∃ u s', getOrCreate s (physToVirt s.hhdm t) i flags = some (physToVirt s'.hhdm u, s') ∧
      s'.hardTable root (p ++ [i]) = some u ∧ Grew root way flags s s' := by
  have next : s.hardTable root (p ++ [i]) = tableOf (s.slot t i) := walk_concat here
  by_cases present : s.slot t i &&& vmmPresent ≠ 0
  · right
    have refers : child (s.slot t i) = some (s.slot t i &&& frameMask) := if_pos present
    -- the entry is present: nothing is written
    refine ⟨_, s, ?_, next.trans ((tableOf_eq slot_lt clean).trans refers), .refl paging⟩
    exact if_pos present
  have absent : s.slot t i % 2 = 0 := by
    rw [and_present] at present
    omega
  have fails : ¬ s.entry (physToVirt s.hhdm t) i &&& vmmPresent ≠ 0 := present
  rcases paging.ready.alloc with ⟨none, failed⟩ | ⟨u, pmm, found, taken⟩
  · left
    -- no frame for the new table
    refine ⟨next.trans (tableOf_absent absent), ?_⟩
    rw [getOrCreate, if_neg fails, failed]
    rfl
  · right
    have table := paging.table p t (Nat.le_succ_of_le room) here
    have sameHhdm : Vm.hhdm { s with pmm := pmm } = s.hhdm := taken.hhdm
    have small : flags < pageSize := by
      dsimp only [pageSize]
      omega
    have hung := hung_of_taken (i := i) paging.ready paging.hhdm table taken small
    refine ⟨u, _, ?_, ?_, hung.grew paging here room absent writable onWay⟩
    · rw [hung.hhdm, getOrCreate, if_neg fails, found]
      simp only [Option.bind_eq_bind, Option.bind_some, if_neg taken.nonzero, sameHhdm]
    · have length : (p ++ [i]).length ≤ 3 := by
        rw [List.length_append]
        exact Nat.succ_le_succ room
      rw [hung.hardTable paging here room absent writable length, if_pos rfl]

/-- The way stays clean. -/
theorem upperClean_of_entries (writable : flags = 3 ∨ flags = 7) (clean : s.UpperClean root virt)
    (entries : ∀ p i, p.length ≤ 2 →
      EntryGrew way flags p i (s.entryAt root p i) (s'.entryAt root p i)) :
    s'.UpperClean root virt := by
  rintro w ⟨p, i, rest, t, split, reached, rfl⟩ present
  have after : s'.entryAt root p i = some (s'.slot t i) := entryAt_eq_some.mpr ⟨t, reached, rfl⟩
  rcases entries p i (way_short split) with same | ⟨_, _, u, frame, new⟩ | ⟨_, new⟩
  · obtain ⟨t', reached', same'⟩ := entryAt_eq_some.mp (same.symm.trans after)
    rw [← same'] at present ⊢
    exact clean _ ⟨p, i, rest, t', split, reached', rfl⟩ present
  · -- the entry of a new table is an address of physical memory with PRESENT, WRITE and USER only
    obtain value := Option.some.inj (after.symm.trans new)
    have aligned := frame.1
    have small := frame.2
    rw [value, and_largePage]
    dsimp only [pageSize] at aligned
    omega
  · rw [Option.some.inj (after.symm.trans new)] at present
    exact absurd (Nat.zero_and _) present

theorem Grew.upperClean (grew : Grew root way flags s s') (writable : flags = 3 ∨ flags = 7)
    (clean : s.UpperClean root virt) : s'.UpperClean root virt :=
  upperClean_of_entries writable clean fun p i short => grew.entries p i (Nat.le_succ_of_le short)

/-- On a clean way `vmm_map` creates tables and sets one entry, or stops where no frame is left. -/
theorem vmmMap_grows (paging : HardPaging root s) (clean : s.UpperClean root virt) (phys flags : Nat) :
    ∃ s₁, Grew root (path virt) (tableFlags flags) s s₁ ∧
      ((∃ t, s₁.hardTable root (path virt) = some t ∧
        vmmMap s (physToVirt s.hhdm root) virt phys flags =
          some (s₁.setEntry (physToVirt s₁.hhdm t) (ptIdx virt) (phys ||| flags))) ∨
      (s₁.hardTable root (path virt) = none ∧
        vmmMap s (physToVirt s.hhdm root) virt phys flags = some s₁)) := by
  have writable := tableFlags_cases flags
  have way : path virt = [pml4Idx virt, pdptIdx virt, pdIdx virt] := rfl
  have ends : ∀ {s : Vm} {p i rest}, path virt = p ++ [i] ++ rest →
      s.hardTable root (p ++ [i]) = none → s.hardTable root (path virt) = none := by
    intro s p i rest split gone
    rw [split, hardTable, walk_append, ← hardTable, gone]
    rfl
  have onWay : ∀ {s : Vm} {p i rest t}, s.UpperClean root virt → path virt = p ++ i :: rest →
      s.hardTable root p = some t → s.slot t i &&& vmmPresent ≠ 0 →
      s.slot t i < 2 ^ 52 ∧ s.slot t i &&& largePage = 0 :=
    fun clean split reached => clean _ ⟨_, _, _, _, split, reached, rfl⟩
  -- the three calls of `get_or_create`, each of which may find no frame
  have step₁ : [] ++ [pml4Idx virt] <+: path virt := by simp [way]
  have step₂ : [pml4Idx virt] ++ [pdptIdx virt] <+: path virt := by simp [way]
  have step₃ : [pml4Idx virt, pdptIdx virt] ++ [pdIdx virt] <+: path virt := by simp [way]
  rcases getOrCreate_hard paging rfl (by simp) writable step₁ (onWay (p := []) clean way rfl) with
    ⟨gone, fail⟩ | ⟨u₁, s₁, create₁, here₁, grew₁⟩
  · refine ⟨s, .refl paging, .inr ⟨ends (p := []) way gone, ?_⟩⟩
    rw [vmmMap, fail]
    rfl
  have null₁ := (grew₁.paging.table _ u₁ (by simp) here₁).nonnull
  have clean₁ := grew₁.upperClean writable clean
  rw [vmmMap, create₁]
  simp only [Option.bind_eq_bind, Option.bind_some, if_neg null₁]
  rcases getOrCreate_hard grew₁.paging here₁ (by simp) writable step₂ (onWay clean₁ way here₁) with
    ⟨gone, fail⟩ | ⟨u₂, s₂, create₂, here₂, grew₂⟩
  · refine ⟨s₁, grew₁, .inr ⟨ends (p := [pml4Idx virt]) way gone, ?_⟩⟩
    rw [fail]
    rfl
  have null₂ := (grew₂.paging.table _ u₂ (by simp) here₂).nonnull
  have clean₂ := grew₂.upperClean writable clean₁
  have both := grew₁.trans writable grew₂
  simp only [create₂, Option.bind_some, if_neg null₂]
  rcases getOrCreate_hard grew₂.paging here₂ (by simp) writable step₃ (onWay clean₂ way here₂) with
    ⟨gone, fail⟩ | ⟨u₃, s₃, create₃, here₃, grew₃⟩
  · refine ⟨s₂, both, .inr ⟨ends (p := [pml4Idx virt, pdptIdx virt]) way gone, ?_⟩⟩
    rw [fail]
    rfl
  have null₃ := (grew₃.paging.table _ u₃ (by simp) here₃).nonnull
  refine ⟨s₃, both.trans writable grew₃, .inl ⟨u₃, here₃, ?_⟩⟩
  simp only [create₃, Option.bind_some, if_neg null₃]
  rfl

/-! ### The last level -/

/-- Replacing a last-level entry. -/
theorem setLeaf_hard (paging : HardPaging root s) (here : s.hardTable root (path virt) = some t)
    (word : w < 2 ^ 64) : HardPaging root (s.setEntry (physToVirt s.hhdm t) (ptIdx virt) w) ∧
      ∀ q j, q.length ≤ 3 → (s.setEntry (physToVirt s.hhdm t) (ptIdx virt) w).entryAt root q j =
        if q = path virt ∧ j = ptIdx virt then some w else s.entryAt root q j := by
  have slots := fun {q f j} (short : q.length ≤ 3) (reached : s.hardTable root q = some f) =>
    slot_setEntry (i := ptIdx virt) (j := j) paging.hhdm (paging.table _ t path_short here).frame
      (paging.table q f short reached).frame word
  have walks : ∀ q, q.length ≤ 3 →
      (s.setEntry (physToVirt s.hhdm t) (ptIdx virt) w).hardTable root q = s.hardTable root q := by
    intro q short
    apply walk_congr
    intro before i after f split reached
    have upper : before.length ≤ 2 := by
      rw [split, List.length_append, List.length_cons] at short
      omega
    rw [slots (Nat.le_succ_of_le upper) reached, if_neg]
    rintro ⟨rfl, _⟩
    -- an upper table is not the last one
    have same := paging.tree _ _ f path_short (Nat.le_succ_of_le upper) here reached
    rw [← same] at upper
    exact absurd upper (by simp [path])
  refine ⟨⟨paging.ready, paging.hhdm, ?_, ?_, paging.free⟩, ?_⟩
  · intro p q f short short' reached reached'
    rw [← hardTable, walks p short] at reached
    rw [← hardTable, walks q short'] at reached'
    exact paging.tree p q f short short' reached reached'
  · intro q f short reached
    rw [walks q short] at reached
    have table := paging.table q f short reached
    exact ⟨table.frame, table.nonnull, table.used⟩
  · intro q j short
    rw [entryAt, entryAt, walks q short]
    cases reached : s.hardTable root q with
    | none =>
      have other : ¬ (q = path virt ∧ j = ptIdx virt) := by
        rintro ⟨rfl, _⟩
        rw [here] at reached
        cases reached
      rw [if_neg other, Option.map_none, Option.map_none]
    | some f =>
      -- in the tree a table has one path
      have same : f = t ∧ j = ptIdx virt ↔ q = path virt ∧ j = ptIdx virt := by
        constructor
        · rintro ⟨rfl, index⟩
          exact ⟨paging.tree q _ f short path_short reached here, index⟩
        · rintro ⟨rfl, index⟩
          exact ⟨Option.some.inj (reached.symm.trans here), index⟩
      rw [Option.map_some, slots short reached, Option.map_some]
      by_cases last : q = path virt ∧ j = ptIdx virt
      · rw [if_pos (same.mpr last), if_pos last]
      · rw [if_neg (mt same.mp last), if_neg last]

/-- What mapping or unmapping the page at `virt` does to the entries: the last-level entry of the
page apart, they stay or grow. -/
structure HardEdit (root virt flags : Nat) (s s' : Vm) : Prop where
  paging : HardPaging root s'
  entries : ∀ p i, p.length ≤ 3 → ¬ (p = path virt ∧ i = ptIdx virt) →
    EntryGrew (path virt) flags p i (s.entryAt root p i) (s'.entryAt root p i)

theorem HardEdit.upper (edit : HardEdit root virt flags s s') (short : p.length ≤ 2) :
    EntryGrew (path virt) flags p i (s.entryAt root p i) (s'.entryAt root p i) := by
  apply edit.entries p i (Nat.le_succ_of_le short)
  rintro ⟨rfl, _⟩
  exact absurd short (by simp [path])

/-- Upper entries that are present stay. -/
theorem HardEdit.stays (edit : HardEdit root virt flags s s') (short : p.length ≤ 2)
    (here : s.entryAt root p i = some w) (present : w % 2 = 1) : s'.entryAt root p i = some w := by
  rcases edit.upper (i := i) short with same | ⟨_, absent, _⟩ | ⟨gone, _⟩
  · exact same.trans here
  · have even := absent w here
    omega
  · rw [here] at gone
    cases gone

theorem HardEdit.upperClean (edit : HardEdit root virt flags s s') (writable : flags = 3 ∨ flags = 7)
    (clean : s.UpperClean root virt) : s'.UpperClean root virt :=
  upperClean_of_entries writable clean fun _ _ short => edit.upper short

theorem Grew.hardEdit (grew : Grew root (path virt) flags s s') : HardEdit root virt flags s s' :=
  ⟨grew.paging, fun p i short _ => grew.entries p i short⟩

theorem Grew.setLeaf (grew : Grew root (path virt) flags s s')
    (here : s'.hardTable root (path virt) = some t) (word : w < 2 ^ 64) :
    HardEdit root virt flags s (s'.setEntry (physToVirt s'.hhdm t) (ptIdx virt) w) ∧
      (s'.setEntry (physToVirt s'.hhdm t) (ptIdx virt) w).entryAt root (path virt) (ptIdx virt) =
        some w := by
  obtain ⟨after, entries⟩ := setLeaf_hard grew.paging here word
  refine ⟨⟨after, ?_⟩, ?_⟩
  · intro p i short elsewhere
    rw [entries p i short, if_neg elsewhere]
    exact grew.entries p i short
  · rw [entries _ _ path_short, if_pos ⟨rfl, rfl⟩]

/-- `vmm_map` on a clean way sets the entry of the page, unless the frames run out. -/
theorem vmmMap_hard (paging : HardPaging root s) (clean : s.UpperClean root virt)
    (word : phys ||| flags < 2 ^ 64) : ∃ s',
      vmmMap s (physToVirt s.hhdm root) virt phys flags = some s' ∧
      HardEdit root virt (tableFlags flags) s s' ∧
      (s'.entryAt root (path virt) (ptIdx virt) = some (phys ||| flags) ∨
        s.hardTable root (path virt) = none ∧ s'.hardTable root (path virt) = none) := by
  obtain ⟨s₁, grew, ⟨t, here, done⟩ | ⟨gone, done⟩⟩ := vmmMap_grows paging clean phys flags
  · obtain ⟨edit, leaf⟩ := grew.setLeaf here word
    exact ⟨_, done, edit, .inl leaf⟩
  · refine ⟨s₁, done, grew.hardEdit, .inr ⟨?_, gone⟩⟩
    -- a table that was there would still be there
    cases here : s.hardTable root (path virt) with
    | none => rfl
    | some t =>
      have entry : s.entryAt root (path virt) (ptIdx virt) = some (s.slot t (ptIdx virt)) :=
        entryAt_eq_some.mpr ⟨t, here, rfl⟩
      rcases grew.entries _ (ptIdx virt) path_short with same | ⟨onWay, _⟩ | ⟨none, _⟩
      · rw [entry, entryAt, gone] at same
        cases same
      · exact absurd onWay.length_le (by simp [path])
      · rw [entry] at none
        cases none

/-- … and `vmm_unmap` clears it. -/
theorem vmmUnmap_hard (paging : HardPaging root s) (clean : s.UpperClean root virt) (flags : Nat) :
    HardEdit root virt flags s (vmmUnmap s (physToVirt s.hhdm root) virt) ∧
      Absent ((vmmUnmap s (physToVirt s.hhdm root) virt).entryAt root (path virt) (ptIdx virt)) := by
  rw [vmmUnmap_eq, tableAt_eq clean List.prefix_rfl]
  have start : Grew root (path virt) flags s s := .refl paging
  cases here : s.hardTable root (path virt) with
  | none =>
    refine ⟨start.hardEdit, ?_⟩
    rw [entryAt, here]
    rintro w ⟨⟩
  | some t =>
    obtain ⟨edit, leaf⟩ := start.setLeaf (w := 0) here (by decide)
    refine ⟨edit, ?_⟩
    rw [leaf]
    rintro w ⟨⟩
    rfl

/-! ### The processor's walk over the entries -/

/-- The four indices of a page. -/
def fullPath (virt : Nat) : List (Fin 512) := path virt ++ [ptIdx virt]

/-- The entries that the processor reads from the table `t` on, unless it faults. -/
def readFrom (s : Vm) : Nat → List (Fin 512) → Option (List Nat)
  | _, [] => some []
  | t, i :: rest =>
    let w := s.slot t i
    if w &&& vmmPresent = 0 then none
    else if w &&& largePage ≠ 0 ∧ rest ≠ [] then
      -- bit 7 of a PML4 entry is reserved
      if rest.length = 3 then none else some [w]
    else (s.readFrom (w &&& addressMask) rest).map (w :: ·)

/-- The frame behind `virt`, from the entries read. -/
def frameRead (virt : Nat) : List Nat → Nat
  | [_, w] => largeFrame 30 w virt
  | [_, _, w] => largeFrame 21 w virt
  | [_, _, _, w] => w &&& addressMask
  | _ => 0

section Read

variable {rest : List (Fin 512)}

theorem readFrom_absent (absent : s.slot t i &&& vmmPresent = 0) :
    s.readFrom t (i :: rest) = none := by
  rw [readFrom, if_pos absent]

theorem readFrom_large (present : ¬ s.slot t i &&& vmmPresent = 0)
    (large : s.slot t i &&& largePage ≠ 0) (upper : rest ≠ []) :
    s.readFrom t (i :: rest) = if rest.length = 3 then none else some [s.slot t i] := by
  rw [readFrom, if_neg present, if_pos ⟨large, upper⟩]

theorem readFrom_table (present : ¬ s.slot t i &&& vmmPresent = 0)
    (small : ¬ (s.slot t i &&& largePage ≠ 0 ∧ rest ≠ [])) :
    s.readFrom t (i :: rest) =
      (s.readFrom (s.slot t i &&& addressMask) rest).map (s.slot t i :: ·) := by
  rw [readFrom, if_neg present, if_neg small]

/-- On a way without large pages the processor reads the upper entries, all present, and the
last-level entry. -/
theorem readFrom_clean {d : Fin 512} {l : List Nat}
    (clean : ∀ p i after t', rest = p ++ i :: after → walk s.slot tableOf t p = some t' →
      s.slot t' i % 2 = 1 → s.slot t' i % 256 < 128)
    (read : s.readFrom t (rest ++ [d]) = some l) : ∃ us t', l = us ++ [s.slot t' d] ∧
      walk s.slot tableOf t rest = some t' ∧ s.slot t' d % 2 = 1 ∧
      (∀ u ∈ us, ∃ p i after t', rest = p ++ i :: after ∧ walk s.slot tableOf t p = some t' ∧
        s.slot t' i = u) ∧
      ∀ p i after t', rest = p ++ i :: after → walk s.slot tableOf t p = some t' →
        s.slot t' i ∈ us := by
  induction rest generalizing t l with
  | nil =>
    -- the last level, where bit 7 means nothing
    rw [List.nil_append] at read
    by_cases absent : s.slot t d &&& vmmPresent = 0
    · rw [readFrom_absent absent] at read
      cases read
    · rw [readFrom_table absent fun both => both.2 rfl, readFrom, Option.map_some] at read
      obtain rfl := Option.some.inj read
      exact ⟨[], t, rfl, rfl, (and_present _).mp absent, fun u none => absurd none List.not_mem_nil,
        fun p i after t' split => absurd split (by simp)⟩
  | cons i rest ih =>
    rw [List.cons_append] at read
    by_cases absent : s.slot t i &&& vmmPresent = 0
    · rw [readFrom_absent absent] at read
      cases read
    have small := clean [] i rest t rfl rfl ((and_present _).mp absent)
    rw [← and_largePage] at small
    have next : tableOf (s.slot t i) = some (s.slot t i &&& addressMask) := if_pos ⟨absent, small⟩
    rw [readFrom_table absent fun both => both.1 small, Option.map_eq_some_iff] at read
    obtain ⟨l', read', rfl⟩ := read
    have through : ∀ {p v}, walk s.slot tableOf (s.slot t i &&& addressMask) p = some v →
        walk s.slot tableOf t (i :: p) = some v := by
      intro p v reached
      rw [walk_cons, next]
      exact reached
    obtain ⟨us, t', rfl, reached, present, all, each⟩ := ih (fun p j after t' split reached =>
      clean (i :: p) j after t' (by rw [split, List.cons_append]) (through reached)) read'
    refine ⟨s.slot t i :: us, t', rfl, through reached, present, ?_, ?_⟩
    · intro u member
      rcases List.mem_cons.mp member with rfl | member
      · exact ⟨[], i, rest, t, rfl, rfl, rfl⟩
      · obtain ⟨p, j, after, t'', rfl, reached', same⟩ := all u member
        exact ⟨i :: p, j, after, t'', rfl, through reached', same⟩
    · intro p j after t'' split reached'
      cases p with
      | nil =>
        obtain ⟨rfl, _⟩ := List.cons.inj split
        obtain rfl := Option.some.inj reached'
        exact List.mem_cons_self
      | cons k p =>
        obtain ⟨rfl, split'⟩ := List.cons.inj split
        rw [walk_cons, next] at reached'
        exact List.mem_cons_of_mem _ (each p j after t'' split' reached')

end Read

/-- The processor's translation is a function of the entries read. -/
theorem processorWalk_read :
    s.processorWalk root virt = (s.readFrom root (fullPath virt)).map (frameRead virt) := by
  have full : fullPath virt = [pml4Idx virt, pdptIdx virt, pdIdx virt, ptIdx virt] := rfl
  rw [full, processorWalk]
  dsimp only
  generalize pml4Idx virt = a
  generalize pdptIdx virt = b
  generalize pdIdx virt = c
  generalize ptIdx virt = d
  -- PML4
  by_cases absent₁ : s.slot root a &&& vmmPresent = 0
  · rw [if_pos (.inl absent₁), readFrom_absent absent₁, Option.map_none]
  by_cases large₁ : s.slot root a &&& largePage ≠ 0
  · rw [if_pos (.inr large₁), readFrom_large absent₁ large₁ (by simp)]
    rfl
  rw [if_neg (not_or.mpr ⟨absent₁, large₁⟩), readFrom_table absent₁ fun both => large₁ both.1]
  generalize s.slot root a &&& addressMask = t₁
  -- PDPT
  by_cases absent₂ : s.slot t₁ b &&& vmmPresent = 0
  · rw [if_pos absent₂, readFrom_absent absent₂, Option.map_none, Option.map_none]
  rw [if_neg absent₂]
  by_cases large₂ : s.slot t₁ b &&& largePage ≠ 0
  · rw [if_pos large₂, readFrom_large absent₂ large₂ (by simp)]
    rfl
  rw [if_neg large₂, readFrom_table absent₂ fun both => large₂ both.1]
  generalize s.slot t₁ b &&& addressMask = t₂
  -- PD
  by_cases absent₃ : s.slot t₂ c &&& vmmPresent = 0
  · rw [if_pos absent₃, readFrom_absent absent₃, Option.map_none, Option.map_none, Option.map_none]
  rw [if_neg absent₃]
  by_cases large₃ : s.slot t₂ c &&& largePage ≠ 0
  · rw [if_pos large₃, readFrom_large absent₃ large₃ (by simp)]
    rfl
  rw [if_neg large₃, readFrom_table absent₃ fun both => large₃ both.1]
  generalize s.slot t₂ c &&& addressMask = t₃
  -- PT
  by_cases absent₄ : s.slot t₃ d &&& vmmPresent = 0
  · rw [if_pos absent₄, readFrom_absent absent₄]
    rfl
  · rw [if_neg absent₄, readFrom_table absent₄ fun both => both.2 rfl]
    rfl

/-- Behind a clean way the processor ends at the last-level entry. -/
theorem processorWalk_leaf (clean : s.UpperClean root virt)
    (leaf : s.entryAt root (path virt) (ptIdx virt) = some w) (present : w &&& vmmPresent ≠ 0) :
    s.processorWalk root virt = some (w &&& addressMask) := by
  obtain ⟨t, reached, value⟩ := entryAt_eq_some.mp leaf
  rw [processorWalk_eq (not_meetsLarge clean), reached, Option.bind_some, value, if_neg present]

/-! ### Other pages -/

theorem fullPath_split {virt' : Nat} {rest : List (Fin 512)} (elsewhere : pageOf virt ≠ pageOf virt')
    (split : fullPath virt' = q ++ i :: rest) :
    q.length ≤ 3 ∧ ¬ (q = path virt ∧ i = ptIdx virt) := by
  have length := congrArg List.length split
  simp only [fullPath, path, List.length_append, List.length_cons, List.length_nil] at length
  refine ⟨by omega, ?_⟩
  rintro ⟨rfl, rfl⟩
  apply elsewhere
  obtain ⟨paths, last⟩ := List.append_inj split rfl
  rw [pageOf_eq_iff]
  exact ⟨paths.symm, (List.cons.inj last).1.symm⟩

/-- An entry on the way to a last-level table is not the last one. -/
theorem upper_of_onWay {virt' : Nat} {rest : List (Fin 512)}
    (split : fullPath virt' = q ++ i :: rest) (onWay : q ++ [i] <+: path virt) : rest ≠ [] := by
  rintro rfl
  have length := congrArg List.length split
  have short := onWay.length_le
  simp only [fullPath, path, List.length_append, List.length_cons, List.length_nil] at length short
  omega

section Elsewhere

variable {virt' : Nat} {rest : List (Fin 512)} (edit : HardEdit root virt flags s s')
  (writable : flags = 3 ∨ flags = 7) (elsewhere : pageOf virt ≠ pageOf virt')

include edit writable elsewhere

/-- In a new table the processor finds no page but the one that was mapped. -/
theorem HardEdit.readFrom_new (split : fullPath virt' = q ++ rest) (nonempty : rest ≠ [])
    (gone : s.hardTable root q = none) (here : s'.hardTable root q = some t) :
    s'.readFrom t rest = none := by
  induction rest generalizing q t with
  | nil => exact absurd rfl nonempty
  | cons i rest ih =>
    obtain ⟨short, other⟩ := fullPath_split elsewhere split
    have before : s.entryAt root q i = none := by
      rw [entryAt, gone]
      rfl
    have after : s'.entryAt root q i = some (s'.slot t i) := entryAt_eq_some.mpr ⟨t, here, rfl⟩
    rcases edit.entries q i short other with same | ⟨onWay, _, u, frame, new⟩ | ⟨_, new⟩
    · rw [before, after] at same
      cases same
    · -- the next new table on the way
      have value := Option.some.inj (after.symm.trans new)
      obtain ⟨present, small⟩ := new_present frame writable
      rw [← value] at present small
      rw [readFrom_table present fun both => both.1 small,
        ih (q := q ++ [i]) _ (upper_of_onWay split onWay), Option.map_none]
      · rw [hardTable_concat, before]
        rfl
      · rw [hardTable_concat, after]
        exact if_pos ⟨present, small⟩
      · rw [split, List.append_assoc, List.singleton_append]
    · have zero := Option.some.inj (after.symm.trans new)
      apply readFrom_absent
      rw [zero]
      exact Nat.zero_and _

/-- Other pages are read as before. -/
theorem HardEdit.readFrom_eq (split : fullPath virt' = q ++ rest) (here : s.hardTable root q = some t)
    (here' : s'.hardTable root q = some t) : s'.readFrom t rest = s.readFrom t rest := by
  induction rest generalizing q t with
  | nil => rfl
  | cons i rest ih =>
    obtain ⟨short, other⟩ := fullPath_split elsewhere split
    have before : s.entryAt root q i = some (s.slot t i) := entryAt_eq_some.mpr ⟨t, here, rfl⟩
    have after : s'.entryAt root q i = some (s'.slot t i) := entryAt_eq_some.mpr ⟨t, here', rfl⟩
    have split' : fullPath virt' = q ++ [i] ++ rest := by
      rw [split, List.append_assoc, List.singleton_append]
    rcases edit.entries q i short other with same | ⟨onWay, absent, u, frame, new⟩ | ⟨none, _⟩
    · -- the entry stays: absent, a large page, or the next table
      have value : s'.slot t i = s.slot t i :=
        Option.some.inj (after.symm.trans (same.trans before))
      by_cases present : s.slot t i &&& vmmPresent = 0
      · rw [readFrom_absent present, readFrom_absent (by rw [value, present])]
      by_cases large : s.slot t i &&& largePage ≠ 0 ∧ rest ≠ []
      · rw [readFrom_large present large.1 large.2, readFrom_large _ _ large.2, value]
        · rw [value]
          exact present
        · rw [value]
          exact large.1
      have table : s'.readFrom t (i :: rest) =
          (s'.readFrom (s.slot t i &&& addressMask) rest).map (s.slot t i :: ·) := by
        rw [readFrom_table, value]
        · rw [value]
          exact present
        · rw [value]
          exact large
      rw [readFrom_table present large, table]
      by_cases last : rest = []
      · rw [last, readFrom, readFrom]
      · have small : s.slot t i &&& largePage = 0 := by
          by_contra large'
          exact large ⟨large', last⟩
        have refers : tableOf (s.slot t i) = some (s.slot t i &&& addressMask) := if_pos ⟨present, small⟩
        rw [ih split']
        · rw [hardTable_concat, before]
          exact refers
        · rw [hardTable_concat, after, value]
          exact refers
    · -- the processor faulted here, and now comes to a new table
      have value := Option.some.inj (after.symm.trans new)
      obtain ⟨present', small⟩ := new_present frame writable
      rw [← value] at present' small
      have absent' : s.slot t i &&& vmmPresent = 0 := by
        by_contra present
        have even := absent _ before
        rw [← ne_eq, and_present] at present
        omega
      have new := edit.readFrom_new (t := s'.slot t i &&& addressMask) writable elsewhere split'
        (upper_of_onWay split onWay)
      rw [readFrom_absent absent', readFrom_table present' fun both => both.1 small, new, Option.map_none]
      · rw [hardTable_concat, before]
        exact if_neg fun both => both.1 absent'
      · rw [hardTable_concat, after]
        exact if_pos ⟨present', small⟩
    · -- an entry that is gone was not there before
      exact absurd (before.symm.trans none) (Option.some_ne_none _)

/-- … and so the processor translates them as before. -/
theorem HardEdit.read_eq : s'.readFrom root (fullPath virt') = s.readFrom root (fullPath virt') :=
  edit.readFrom_eq (q := []) writable elsewhere rfl rfl rfl

end Elsewhere

/-- One page mapped on the empty pagemap. -/
theorem map_emptyPagemap_hard (flags : Nat) (word : 0x5000 ||| flags < 2 ^ 64) : ∃ s',
    vmmMap emptyPagemap (physToVirt emptyPagemap.hhdm 0x1000) 0x400000 0x5000 flags = some s' ∧
      s'.Paging 0x1000 ∧ HardEdit 0x1000 0x400000 (tableFlags flags) emptyPagemap s' ∧
      s'.entryAt 0x1000 (path 0x400000) (ptIdx 0x400000) = some (0x5000 ||| flags) := by
  obtain ⟨s', done, paging, value⟩ := map_emptyPagemap flags word
  obtain ⟨_, again, edit, entry⟩ := vmmMap_hard emptyPagemap_paging.hard
    (emptyPagemap_paging.upperClean 0x400000) word
  obtain rfl := Option.some.inj (done.symm.trans again)
  rcases entry with entry | ⟨_, gone⟩
  · exact ⟨s', done, paging, edit, entry⟩
  · -- the page has a last-level entry
    rw [leaf, ← paging.hardTable_eq path_short, gone] at value
    have some : 0x5000 ≤ 0x5000 ||| flags := Nat.left_le_or
    rw [← value] at some
    cases some

end Vm

end DedOS
