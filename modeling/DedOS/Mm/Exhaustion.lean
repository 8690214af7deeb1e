import DedOS.Mm.Family
import DedOS.Mm.MapWrites

/-!
# When the frames run out

`Separate s maps`: pagemaps that are trees of 4 KiB mappings and meet at most in tables of the
upper half, at equal paths. Every edit of one of them keeps this (`Separate.keeps`), and leaves
the translations of the others alone where it leaves its own (`Separate.leaf_kept`). A mapping
that `pmm_alloc` fails is such an edit; `vmm_new_pagemap` does not test for the failure
(`paging_survives_iff`).
-/

namespace DedOS

open Lib

namespace Vm

/-- Pagemaps that meet in tables of the upper half only. -/
structure Separate (s : Vm) (maps : List Nat) : Prop where
  paging : ∀ r ∈ maps, s.Paging r
  apart : ∀ r ∈ maps, ∀ r' ∈ maps, r ≠ r' → s.Apart r r'

variable {s s' : Vm} {maps : List Nat} {r root root' virt virt' f t u : Nat} {i j : Fin 512}
  {p q : List (Fin 512)}

theorem Sharing.separate (sharing : Sharing s maps) : Separate s maps :=
  ⟨sharing.paging, sharing.apart⟩

theorem Upper.append (upper : Upper q) : Upper (q ++ p) := by
  obtain ⟨i, q, rfl, high⟩ := upper
  exact ⟨i, q ++ p, rfl, high⟩

/-! ### An edit of one pagemap -/

section Edit

variable (separate : Separate s maps) (member : r ∈ maps) (edit : Edit r virt s s')

include separate member edit

/-- A table of another pagemap is written only if it is a table of the edited one, too. -/
theorem Separate.slot_cases (member' : root ∈ maps) (other : root ≠ r) (short : q.length ≤ 3)
    (here : s.tableAt root q = some t) :
    (∀ j, s'.slot t j = s.slot t j) ∨ Upper q ∧ s.tableAt r q = some t := by
  have table := (separate.paging root member').table q t short here
  by_cases onWay : ∃ p, p <+: path virt ∧ s.tableAt r p = some t
  · obtain ⟨p, before, reached⟩ := onWay
    have length := Nat.le_trans before.length_le path_short
    obtain ⟨rfl, upper⟩ := separate.apart r member root member' other.symm p q t length short reached here
    exact .inr ⟨upper, reached⟩
  · left
    intro j
    exact edit.slots t j table.frame table.used fun p before reached => onWay ⟨p, before, reached⟩

/-- The tables of another pagemap after the edit: those it had, and new ones of the edited
pagemap. -/
theorem Separate.table_cases (member' : root ∈ maps) (other : root ≠ r) (short : q.length ≤ 3) :
    s'.tableAt root q = s.tableAt root q ∨
      Upper q ∧ s.tableAt root q = none ∧ s.tableAt r q = none ∧
        s'.tableAt root q = s'.tableAt r q := by
  induction q using List.reverseRecOn with
  | nil =>
    rw [tableAt_nil, tableAt_nil]
    exact .inl rfl
  | append_singleton q i ih =>
    rw [List.length_append, List.length_singleton] at short
    have shorter : q.length ≤ 3 := Nat.le_of_succ_le short
    have below : ∀ {s : Vm} {root : Nat}, s.tableAt root q = none → s.tableAt root (q ++ [i]) = none := by
      intro s root gone
      rw [tableAt, walk_append, ← tableAt, gone]
      rfl
    -- on the level above the table is the old one, or new and shared
    rcases ih shorter with same | ⟨upper, gone, gone', same⟩
    · cases here : s.tableAt root q with
      | none => exact .inl ((below (same.trans here)).trans (below here).symm)
      | some t =>
        have next : s.tableAt root (q ++ [i]) = child (s.slot t i) := walk_concat here
        have next' : s'.tableAt root (q ++ [i]) = child (s'.slot t i) := walk_concat (same.trans here)
        rcases separate.slot_cases member edit member' other shorter here with slots | ⟨upper, reached⟩
        · left
          rw [next, next', slots]
        · -- the table is shared with the edited pagemap
          have edited : s.tableAt r (q ++ [i]) = child (s.slot t i) := walk_concat reached
          have edited' : s'.tableAt r (q ++ [i]) = child (s'.slot t i) :=
            walk_concat (edit.kept q t shorter reached)
          cases refers : child (s.slot t i) with
          | none =>
            -- the edit has hung its new table here
            rw [refers] at next edited
            exact .inr ⟨upper.append, next, edited, next'.trans edited'.symm⟩
          | some u =>
            rw [refers] at next edited
            have kept := edit.kept (q ++ [i]) u (by simpa using short) edited
            exact .inl (next'.trans (edited'.symm.trans (kept.trans next.symm)))
    · -- below a new table
      right
      refine ⟨upper.append, below gone, below gone', ?_⟩
      rw [tableAt, tableAt, walk_append, walk_append, ← tableAt, ← tableAt, same]

/-- A table of another pagemap after the edit has been there before, or was free. -/
theorem Separate.old_or_free (member' : root ∈ maps) (other : root ≠ r) (short : q.length ≤ 3)
    (here : s'.tableAt root q = some t) : s.tableAt root q = some t ∨
      Upper q ∧ s'.tableAt r q = some t ∧ s.pmm.Free t := by
  rcases separate.table_cases member edit member' other short with same | ⟨upper, _, gone, same⟩
  · exact .inl (same.symm.trans here)
  · have here' := same.symm.trans here
    rcases edit.added q t short here' with old | ⟨_, _, _, free⟩
    · rw [gone] at old
      cases old
    · exact .inr ⟨upper, here', free⟩

/-- Where a page of the edited pagemap keeps its entry, it keeps it in all of them. -/
theorem Separate.leaf_kept (member' : root ∈ maps) (kept : s'.leaf r virt' = s.leaf r virt') :
    s'.leaf root virt' = s.leaf root virt' := by
  by_cases other : root = r
  · rw [other, kept]
  -- a page of its own is not touched, a shared one is as in the edited pagemap
  rw [leaf, leaf] at kept ⊢
  rcases separate.table_cases member edit member' other path_short with same | ⟨_, gone, gone', same⟩
  · rw [same]
    cases here : s.tableAt root (path virt') with
    | none => rfl
    | some t =>
      rcases separate.slot_cases member edit member' other path_short here with slots | ⟨_, reached⟩
      · exact slots _
      · rw [reached, edit.kept _ t path_short reached] at kept
        exact kept
  · rw [same, gone, kept, gone']

theorem Separate.keeps_paging (member' : root ∈ maps) : s'.Paging root := by
  by_cases other : root = r
  · rw [other]
    exact edit.paging
  have old := separate.paging root member'
  have cases := fun {q t} => separate.old_or_free (q := q) (t := t) member edit member' other
  refine ⟨edit.paging.ready, edit.paging.hhdm, ?_, ?_, ?_, edit.paging.free⟩
  · -- a table that was free is in no tree from before
    intro p q t short short' reached reached'
    rcases cases short reached with here | ⟨_, here, free⟩
    · rcases cases short' reached' with here' | ⟨_, _, free⟩
      · exact old.tree p q t short short' here here'
      · exact absurd free (old.table p t short here).used
    · rcases cases short' reached' with here' | ⟨_, here', _⟩
      · exact absurd free (old.table q t short' here').used
      · exact edit.paging.tree p q t short short' here here'
  · intro q t short reached
    rcases cases short reached with here | ⟨_, here, _⟩
    · have table := old.table q t short here
      refine ⟨table.frame, ?_, fun free => table.used (edit.free t free)⟩
      rw [edit.hhdm]
      exact table.nonnull
    · exact edit.paging.table q t short here
  · intro q t j short reached present
    have short' : q.length ≤ 3 := Nat.le_succ_of_le short
    rcases cases short' reached with here | ⟨_, here, _⟩
    · rcases separate.slot_cases member edit member' other short' here with slots | ⟨_, shared⟩
      · rw [slots] at present ⊢
        exact old.upper q t j short here present
      · exact edit.paging.upper q t j short (edit.kept q t short' shared) present
    · exact edit.paging.upper q t j short here present

theorem Separate.keeps_apart (member₁ : root ∈ maps) (member₂ : root' ∈ maps) (differ : root ≠ root') :
    s'.Apart root root' := by
  have cases : ∀ {x p t}, x ∈ maps → x ≠ r → p.length ≤ 3 → s'.tableAt x p = some t →
      s.tableAt x p = some t ∨ Upper p ∧ s'.tableAt r p = some t ∧ s.pmm.Free t :=
    fun inside => separate.old_or_free member edit inside
  have used := fun {root q t} (inside : root ∈ maps) (short : q.length ≤ 3)
    (here : s.tableAt root q = some t) => ((separate.paging root inside).table q t short here).used
  intro p q t short short' reached reached'
  -- each of the two is the edited pagemap or one that has its tables from before or shares them
  by_cases first : root = r
  · subst first
    rcases cases member₂ differ.symm short' reached' with here' | ⟨upper, here', _⟩
    · rcases edit.added p t short reached with here | ⟨_, _, _, free⟩
      · exact separate.apart root member root' member₂ differ p q t short short' here here'
      · exact absurd free (used member₂ short' here')
    · obtain rfl := edit.paging.tree p q t short short' reached here'
      exact ⟨rfl, upper⟩
  rcases cases member₁ first short reached with here | ⟨upper, here, free⟩
  · by_cases second : root' = r
    · subst second
      rcases edit.added q t short' reached' with here' | ⟨_, _, _, free⟩
      · exact separate.apart root member₁ root' member differ p q t short short' here here'
      · exact absurd free (used member₁ short here)
    rcases cases member₂ second short' reached' with here' | ⟨_, _, free⟩
    · exact separate.apart root member₁ root' member₂ differ p q t short short' here here'
    · exact absurd free (used member₁ short here)
  · by_cases second : root' = r
    · subst second
      obtain rfl := edit.paging.tree p q t short short' here reached'
      exact ⟨rfl, upper⟩
    rcases cases member₂ second short' reached' with here' | ⟨_, here', _⟩
    · exact absurd free (used member₂ short' here')
    · obtain rfl := edit.paging.tree p q t short short' here here'
      exact ⟨rfl, upper⟩

theorem Separate.keeps : Separate s' maps where
  paging _ member' := separate.keeps_paging member edit member'
  apart _ member₁ _ member₂ differ := separate.keeps_apart member edit member₁ member₂ differ

end Edit

/-! ### A mapping that fails -/

/-- Without enough frames `vmm_map` creates some of the missing tables and maps nothing. -/
theorem vmmMap_exhausted (phys flags : Nat) (paging : Paging r s)
    (few : s.pmm.freePages < (s.missing r virt).length) :
    ∃ s', vmmMap s (physToVirt s.hhdm r) virt phys flags = some s' ∧ Edit r virt s s' ∧
      ∀ virt', s'.leaf r virt' = s.leaf r virt' := by
  obtain ⟨s', new, grown, ⟨enough, _⟩ | ⟨_, _, done, missing⟩⟩ := vmmMap_spec paging virt phys flags
  · exact absurd enough (by omega)
  refine ⟨s', done, ⟨grown.paging, grown.same, grown.free, grown.kept, ?_, ?_, ?_⟩, grown.leaf⟩
  · intro q t short after
    rcases grown.added q t short after with old | ⟨member, free⟩
    · exact .inl old
    · obtain ⟨onWay, nonempty, gone⟩ := mem_missing (missing q member)
      exact .inr ⟨onWay, nonempty, gone, free⟩
  · intro f j frame used other
    apply slot_congr grown.hhdm
    intro a low high
    apply vmmMap_touches paging done
    exact offWay_of_page paging frame used path_short other low high
  · exact fun virt' _ => grown.leaf virt'

/-- What is asked of `vmm_map`: it writes tables of the pagemap and frames that it obtained, and
where the frames run out all pagemaps translate as before and can be mapped into again. -/
def MapSurvives (s : Vm) (maps : List Nat) : Prop :=
  ∀ root ∈ maps, ∀ virt phys flags, ∃ s',
    vmmMap s (physToVirt s.hhdm root) virt phys flags = some s' ∧ WritesTables root s s' ∧
    (s.pmm.freePages < (s.missing root virt).length → Separate s' maps ∧
      ∀ other ∈ maps, ∀ virt', s'.leaf other virt' = s.leaf other virt')

theorem Separate.mapSurvives (separate : Separate s maps) : MapSurvives s maps := by
  intro root member virt phys flags
  have paging := separate.paging root member
  obtain ⟨s', done, writes⟩ := vmmMap_writes paging.ready.wf paging.hhdm paging.root_frame.frame
    (paging.upperClean virt) phys flags
  refine ⟨s', done, writes, fun few => ?_⟩
  obtain ⟨t, failed, edit, leaves⟩ := vmmMap_exhausted phys flags paging few
  obtain rfl := Option.some.inj (failed.symm.trans done)
  refine ⟨separate.keeps member edit, ?_⟩
  intro other member' virt'
  exact separate.leaf_kept member edit member' (leaves virt')

/-! ### A pagemap that fails -/

/-- What is asked of `vmm_new_pagemap`: it writes frames that it obtained, and where there are
none it returns NULL and all pagemaps translate as before. -/
def NewSurvives (s : Vm) (maps : List Nat) (cr3 : Nat) : Prop :=
  ∃ pml4 s', vmmNewPagemap s cr3 = some (pml4, s') ∧
    (∀ a, (∀ f, Fresh s s' f → a < physToVirt s.hhdm f ∨ physToVirt s.hhdm f + pageSize ≤ a) →
      s'.mem a = s.mem a) ∧
    (s.pmm.freePages = 0 →
      pml4 = 0 ∧ ∀ root ∈ maps, ∀ virt, s'.leaf root virt = s.leaf root virt)

/-- With a frame left a new pagemap is written into that frame. -/
theorem newSurvives_of_frame {cr3 : Nat} (ready : s.pmm.Ready) (room : 0 < s.pmm.freePages) :
    NewSurvives s maps cr3 := by
  rcases ready.alloc with ⟨none, _⟩ | ⟨u, pmm, found, taken⟩
  · omega
  have hhdm : Vm.hhdm { s with pmm := pmm } = s.hhdm := taken.hhdm
  refine ⟨physToVirt s.hhdm u,
    ⟨copyUpper (physToVirt s.hhdm u) (vmmGetCurrent s cr3) 512 s.mem, pmm⟩, ?_, ?_, ?_⟩
  · rw [vmmNewPagemap, found]
    simp only [Option.bind_eq_bind, Option.bind_some, vmmGetCurrent, hhdm]
  · intro a off
    have away := off u ⟨taken.free, fun left => ((taken.others u).mp left).2 rfl⟩
    apply copyUpper_outside
    dsimp only [pageSize] at away
    omega
  · intro empty
    omega

/-- Without one the failure is not tested for: frame 0 is taken for the new pagemap. -/
theorem vmmNewPagemap_exhausted {cr3 : Nat} (ready : s.pmm.Ready) (empty : s.pmm.freePages = 0) :
    vmmNewPagemap s cr3 = some (physToVirt s.hhdm 0,
      { s with mem := copyUpper (physToVirt s.hhdm 0) (vmmGetCurrent s cr3) 512 s.mem }) := by
  rcases ready.alloc with ⟨_, failed⟩ | ⟨u, pmm, _, taken⟩
  · rw [vmmNewPagemap, failed]
    simp only [Option.bind_eq_bind, Option.bind_some]
  · have count := taken.count
    omega

theorem not_newSurvives {cr3 : Nat} (ready : s.pmm.Ready) (higher : physToVirt s.hhdm 0 ≠ 0)
    (empty : s.pmm.freePages = 0) : ¬ NewSurvives s maps cr3 := by
  rintro ⟨pml4, s', done, _, failed⟩
  rw [vmmNewPagemap_exhausted ready empty] at done
  obtain ⟨rfl, _⟩ := Prod.mk.inj (Option.some.inj done)
  exact higher (failed empty).1

/-- Both calls survive exhaustion, `vmm_map` in every state and `vmm_new_pagemap` as long as a
frame is left. -/
theorem paging_survives_iff {cr3 : Nat} (separate : Separate s maps) (active : cr3 &&& frameMask ∈ maps)
    (higher : physToVirt s.hhdm 0 ≠ 0) :
    MapSurvives s maps ∧ (NewSurvives s maps cr3 ↔ 0 < s.pmm.freePages) := by
  have ready := (separate.paging _ active).ready
  refine ⟨separate.mapSurvives, ?_, newSurvives_of_frame ready⟩
  intro survives
  by_contra empty
  exact not_newSurvives ready higher (by omega) survives

theorem emptyPagemap_separate : Separate emptyPagemap [0x1000] :=
  (Sharing.single emptyPagemap_paging).separate

theorem paging_survives_empty : MapSurvives emptyPagemap [0x1000] ∧
    (NewSurvives emptyPagemap [0x1000] 0x1000 ↔ 0 < emptyPagemap.pmm.freePages) :=
  paging_survives_iff emptyPagemap_separate (by decide +kernel) (by decide)

/-- The empty pagemap with all sixteen pages taken. -/
def fullPagemap : Vm :=
  { mem := fun _ => 0, pmm := ⟨0xffff800000100000, [0xff, 0xff], 16, 0, 0xffff800000000000⟩ }

theorem fullPagemap_paging : fullPagemap.Paging 0x1000 := by
  have taken : ∀ page < 16, fullPagemap.pmm.taken page = true := by decide
  have none : ∀ f, ¬ fullPagemap.pmm.Free f := by
    rintro f ⟨page, below, rfl, clear⟩
    rw [taken page below] at clear
    cases clear
  have ready : fullPagemap.pmm.Ready := ⟨⟨by decide, by decide, by decide, by decide⟩, none 0⟩
  apply paging_empty ready (by decide)
  · exact ⟨⟨by decide, by decide⟩, by decide, none 0x1000⟩
  · intro i
    simp [slot, entry, fullPagemap, load]
  · exact fun f free => absurd free (none f)

/-- `vmm_new_pagemap` returns `hhdm_offset`. -/
theorem full_not_survived : Separate fullPagemap [0x1000] ∧
    (∃ s', vmmNewPagemap fullPagemap 0x1000 = some (0xffff800000000000, s')) ∧
    ¬ NewSurvives fullPagemap [0x1000] 0x1000 := by
  have ready := fullPagemap_paging.ready
  refine ⟨(Sharing.single fullPagemap_paging).separate, ?_, not_newSurvives ready (by decide) rfl⟩
  exact ⟨_, vmmNewPagemap_exhausted ready rfl⟩

end Vm

end DedOS
