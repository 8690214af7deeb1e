import DedOS.Mm.Pagemap
import Mathlib.Data.List.Nodup

/-!
# Pagemaps that share their upper half

`Sharing s maps`: every pagemap of the family is a tree of its own, two of them meet only in
tables of the upper half, and there all of them agree. An edit of one pagemap keeps this when
it adds no entry to a top table that the others would miss (`Sharing.keeps`), and so does
`vmm_new_pagemap` (`Sharing.grow`).
-/

namespace DedOS

open Lib

namespace Vm

variable {r root root' cur f t u virt : Nat} {s s' : Vm} {i j : Fin 512} {p q : List (Fin 512)}
  {maps : List Nat}

/-- The path starts in the upper half of the top table. -/
def Upper (p : List (Fin 512)) : Prop := ∃ i q, p = i :: q ∧ 256 ≤ (i : Nat)

theorem upper_cons : Upper (i :: q) ↔ 256 ≤ (i : Nat) := by
  constructor
  · rintro ⟨i', q', same, high⟩
    obtain ⟨rfl, _⟩ := List.cons.inj same
    exact high
  · intro high
    exact ⟨i, q, rfl, high⟩

theorem not_upper_nil : ¬ Upper [] := by
  rintro ⟨i, q, same, _⟩
  cases same

/-- Prefixes of a path are in the same half as the path. -/
theorem Upper.of_prefix (before : p <+: q) (nonempty : p ≠ []) : Upper p ↔ Upper q := by
  obtain ⟨rest, rfl⟩ := before
  cases p with
  | nil => exact absurd rfl nonempty
  | cons i p => rw [List.cons_append, upper_cons, upper_cons]

theorem tableAt_one : s.tableAt root [i] = child (s.slot root i) := by
  rw [tableAt, walk_cons]
  cases child (s.slot root i) <;> rfl

theorem tableAt_cons : s.tableAt root (i :: q) =
    (s.tableAt root [i]).bind fun t => s.tableAt t q := by
  rw [tableAt_one, tableAt, walk_cons]
  rfl

/-- The tables of two pagemaps meet at most at one path, in the upper half. -/
def Apart (s : Vm) (root root' : Nat) : Prop :=
  ∀ p q t, p.length ≤ 3 → q.length ≤ 3 → s.tableAt root p = some t → s.tableAt root' q = some t →
    p = q ∧ Upper p

structure Sharing (s : Vm) (maps : List Nat) : Prop where
  paging : ∀ r ∈ maps, s.Paging r
  distinct : maps.Nodup
  apart : ∀ r ∈ maps, ∀ r' ∈ maps, r ≠ r' → s.Apart r r'
  top : ∀ r ∈ maps, ∀ r' ∈ maps, ∀ i : Fin 512, 256 ≤ (i : Nat) → s.tableAt r [i] = s.tableAt r' [i]

/-- In the upper half all pagemaps have the same tables. -/
theorem Sharing.same_upper (sharing : Sharing s maps) (member : root ∈ maps)
    (member' : root' ∈ maps) (upper : Upper p) : s.tableAt root p = s.tableAt root' p := by
  obtain ⟨i, q, rfl, high⟩ := upper
  rw [tableAt_cons, sharing.top root member root' member' i high, ← tableAt_cons]

theorem Sharing.leaf_upper (sharing : Sharing s maps) (member : root ∈ maps)
    (member' : root' ∈ maps) (upper : Upper (path virt)) : s.leaf root virt = s.leaf root' virt := by
  rw [leaf, leaf, sharing.same_upper member member' upper]

/-! ### An edit of one pagemap -/

section Edit

variable (sharing : Sharing s maps) (member : r ∈ maps) (edit : Edit r virt s s')
  (top : ∀ i : Fin 512, 256 ≤ (i : Nat) → s'.tableAt r [i] = s.tableAt r [i])

include sharing member edit

/-- Outside the upper half the edit does not write tables of the other pagemaps. -/
theorem Sharing.untouched (member' : root ∈ maps) (other : root ≠ r) (short : q.length ≤ 3)
    (lower : ¬ Upper q) (here : s.tableAt root q = some t) : s'.slot t j = s.slot t j := by
  have table := (sharing.paging root member').table q t short here
  apply edit.slots t j table.frame table.used
  intro p onWay reached
  have length := Nat.le_trans onWay.length_le path_short
  obtain ⟨rfl, upper⟩ := sharing.apart r member root member' other.symm p q t length short reached here
  exact lower upper

theorem Sharing.lower_table (member' : root ∈ maps) (other : root ≠ r) (short : q.length ≤ 3)
    (lower : ¬ Upper q) : s'.tableAt root q = s.tableAt root q := by
  apply walk_congr
  intro before i after t split reached
  have shorter : before.length ≤ 3 := by
    rw [split, List.length_append] at short
    omega
  have lower' : ¬ Upper before := by
    intro upper
    apply lower
    rw [← Upper.of_prefix ⟨i :: after, split.symm⟩]
    · exact upper
    · rintro rfl
      exact not_upper_nil upper
  rw [sharing.untouched member edit member' other shorter lower' reached]

theorem Sharing.lower_leaf {virt' : Nat} (member' : root ∈ maps) (other : root ≠ r)
    (lower : ¬ Upper (path virt')) : s'.leaf root virt' = s.leaf root virt' := by
  rw [leaf, leaf, sharing.lower_table member edit member' other path_short lower]
  cases here : s.tableAt root (path virt') with
  | none => rw [Option.elim_none, Option.elim_none]
  | some t => exact sharing.untouched member edit member' other path_short lower here

include top

/-- Every pagemap's top table has the upper entries of the edited one. -/
theorem Sharing.top_table (member' : root ∈ maps) (high : 256 ≤ (i : Nat)) :
    s'.tableAt root [i] = s'.tableAt r [i] := by
  by_cases same : root = r
  · rw [same]
  · have own : s'.tableAt root [i] = s.tableAt root [i] := by
      rw [tableAt_one, tableAt_one, sharing.untouched (q := []) member edit member' same
        (Nat.zero_le 3) not_upper_nil tableAt_nil]
    rw [own, top i high]
    exact sharing.top root member' r member i high

theorem Sharing.upper_table (member' : root ∈ maps) (upper : Upper q) :
    s'.tableAt root q = s'.tableAt r q := by
  obtain ⟨i, q, rfl, high⟩ := upper
  rw [tableAt_cons, sharing.top_table member edit top member' high, ← tableAt_cons]

/-- Where a table of another pagemap comes from after the edit. -/
theorem Sharing.table_cases (member' : root ∈ maps) (other : root ≠ r) (short : q.length ≤ 3)
    (here : s'.tableAt root q = some t) :
    Upper q ∧ s'.tableAt r q = some t ∨ ¬ Upper q ∧ s.tableAt root q = some t := by
  by_cases upper : Upper q
  · rw [sharing.upper_table member edit top member' upper] at here
    exact .inl ⟨upper, here⟩
  · rw [sharing.lower_table member edit member' other short upper] at here
    exact .inr ⟨upper, here⟩

omit top in
/-- An upper table of the edited pagemap is no lower table of another one. -/
theorem Sharing.mixed (member' : root ∈ maps) (other : root ≠ r) (short : p.length ≤ 3)
    (short' : q.length ≤ 3) (here : s'.tableAt r p = some t) (lower : ¬ Upper q)
    (here' : s.tableAt root q = some t) : False := by
  rcases edit.added p t short here with old | ⟨_, _, _, free⟩
  · obtain ⟨rfl, upper⟩ := sharing.apart r member root member' other.symm p q t short short' old here'
    exact lower upper
  · exact ((sharing.paging root member').table q t short' here').used free

theorem Sharing.keeps_paging (member' : root ∈ maps) : s'.Paging root := by
  by_cases same : root = r
  · rw [same]
    exact edit.paging
  have old := sharing.paging root member'
  have cases := fun {q t} => sharing.table_cases (q := q) (t := t) member edit top member' same
  refine ⟨edit.paging.ready, edit.paging.hhdm, ?_, ?_, ?_, edit.paging.free⟩
  · intro p q t short short' reached reached'
    rcases cases short reached with ⟨_, here⟩ | ⟨lower, here⟩
    · rcases cases short' reached' with ⟨_, here'⟩ | ⟨lower', here'⟩
      · exact edit.paging.tree p q t short short' here here'
      · exact (sharing.mixed member edit member' same short short' here lower' here').elim
    · rcases cases short' reached' with ⟨_, here'⟩ | ⟨_, here'⟩
      · exact (sharing.mixed member edit member' same short' short here' lower here).elim
      · exact old.tree p q t short short' here here'
  · intro q t short reached
    rcases cases short reached with ⟨_, here⟩ | ⟨_, here⟩
    · exact edit.paging.table q t short here
    · have table := old.table q t short here
      refine ⟨table.frame, ?_, fun free => table.used (edit.free t free)⟩
      rw [edit.hhdm]
      exact table.nonnull
  · intro q t j short reached present
    have short' : q.length ≤ 3 := Nat.le_succ_of_le short
    rcases cases short' reached with ⟨_, here⟩ | ⟨lower, here⟩
    · exact edit.paging.upper q t j short here present
    · rw [sharing.untouched member edit member' same short' lower here] at present ⊢
      exact old.upper q t j short here present

theorem Sharing.keeps_apart (member₁ : root ∈ maps) (member₂ : root' ∈ maps) (differ : root ≠ root') :
    s'.Apart root root' := by
  intro p q t short short' reached reached'
  by_cases first : root = r
  · subst first
    rcases sharing.table_cases member edit top member₂ differ.symm short' reached' with
      ⟨upper, here'⟩ | ⟨lower, here'⟩
    · obtain rfl := edit.paging.tree p q t short short' reached here'
      exact ⟨rfl, upper⟩
    · exact (sharing.mixed member edit member₂ differ.symm short short' reached lower here').elim
  rcases sharing.table_cases member edit top member₁ first short reached with
    ⟨upper, here⟩ | ⟨lower, here⟩
  · by_cases second : root' = r
    · subst second
      obtain rfl := edit.paging.tree p q t short short' here reached'
      exact ⟨rfl, upper⟩
    rcases sharing.table_cases member edit top member₂ second short' reached' with
      ⟨_, here'⟩ | ⟨lower', here'⟩
    · obtain rfl := edit.paging.tree p q t short short' here here'
      exact ⟨rfl, upper⟩
    · exact (sharing.mixed member edit member₂ second short short' here lower' here').elim
  · by_cases second : root' = r
    · subst second
      exact (sharing.mixed member edit member₁ first short' short reached' lower here).elim
    rcases sharing.table_cases member edit top member₂ second short' reached' with
      ⟨_, here'⟩ | ⟨_, here'⟩
    · exact (sharing.mixed member edit member₁ first short' short here' lower here).elim
    · exact sharing.apart root member₁ root' member₂ differ p q t short short' here here'

/-- The family is as it should be after the edit. -/
theorem Sharing.keeps : Sharing s' maps where
  paging _ member' := sharing.keeps_paging member edit top member'
  distinct := sharing.distinct
  apart _ member₁ _ member₂ differ := sharing.keeps_apart member edit top member₁ member₂ differ
  top _ member₁ _ member₂ _ high :=
    (sharing.top_table member edit top member₁ high).trans
      (sharing.top_table member edit top member₂ high).symm

end Edit

/-! ### A new pagemap -/

/-- `s'` has a new top table in the frame `u`, a copy of the upper half of the one at `cur`. -/
structure Copied (s s' : Vm) (cur u : Nat) : Prop where
  taken : s.pmm.Taken u s'.pmm
  slots : ∀ f j, IsFrame f → f ≠ u → s'.slot f j = s.slot f j
  new : ∀ j, s'.slot u j = if 256 ≤ (j : Nat) then s.slot cur j else 0

theorem Copied.hhdm (copied : Copied s s' cur u) : s'.hhdm = s.hhdm := copied.taken.hhdm

/-- `vmm_new_pagemap` when a frame is left. -/
theorem vmmNewPagemap_copies {cr3 : Nat} (paging : s.Paging cur) (active : cr3 &&& frameMask = cur)
    (room : 0 < s.pmm.freePages) :
    ∃ u s', vmmNewPagemap s cr3 = some (physToVirt s'.hhdm u, s') ∧ Copied s s' cur u := by
  rcases paging.ready.alloc with ⟨none, _⟩ | ⟨u, pmm, found, taken⟩
  · omega
  have frame := paging.ready.isFrame taken.free
  have root := paging.root_frame
  -- the new frame was free, the current top table was not
  have differ : cur ≠ u := by
    rintro rfl
    exact root.used taken.free
  have apart := physToVirt_apart paging.hhdm frame root.frame differ.symm
  obtain ⟨s', isNew⟩ : ∃ s' : Vm, s' =
      ⟨copyUpper (physToVirt s.hhdm u) (physToVirt s.hhdm cur) 512 s.mem, pmm⟩ := ⟨_, rfl⟩
  have samePmm : s'.pmm = pmm := by rw [isNew]
  have sameMem : s'.mem = copyUpper (physToVirt s.hhdm u) (physToVirt s.hhdm cur) 512 s.mem := by
    rw [isNew]
  have sameHhdm : s'.hhdm = s.hhdm := by
    rw [Vm.hhdm, samePmm]
    exact taken.hhdm
  refine ⟨u, s', ?_, by rw [samePmm]; exact taken, ?_, ?_⟩
  · have hhdm : Vm.hhdm { s with pmm := pmm } = s.hhdm := taken.hhdm
    rw [vmmNewPagemap, found, sameHhdm, isNew]
    simp only [Option.bind_eq_bind, Option.bind_some, vmmGetCurrent, active, hhdm]
  · intro f j isFrame other
    have away := physToVirt_apart paging.hhdm isFrame frame other
    apply slot_congr sameHhdm
    intro a low high
    rw [sameMem]
    apply copyUpper_outside
    dsimp only [pageSize] at *
    omega
  · intro j
    rw [slot, slot, entry, entry, sameHhdm, sameMem]
    exact load_copyUpper apart (Nat.le_refl 512) j.isLt

section New

variable (sharing : Sharing s maps) (member : cur ∈ maps) (copied : Copied s s' cur u)

include sharing copied

omit copied in
/-- A free frame is in none of the pagemaps. -/
theorem Sharing.fresh (member' : root ∈ maps) (free : s.pmm.Free u) (short : q.length ≤ 3) :
    s.tableAt root q ≠ some u := by
  intro here
  exact ((sharing.paging root member').table q u short here).used free

/-- The other pagemaps stay as they are. -/
theorem Sharing.copied_old (member' : root ∈ maps) :
    (∀ q, q.length ≤ 3 → s'.tableAt root q = s.tableAt root q) ∧ s'.Paging root := by
  have paging := sharing.paging root member'
  apply paging.of_agree s' copied.taken.ready copied.hhdm
  · intro q t j short reached
    have short' : q.length ≤ 3 := Nat.le_succ_of_le short
    apply copied.slots t j (paging.table q t short' reached).frame
    rintro rfl
    exact sharing.fresh member' copied.taken.free short' reached
  · intro f free
    have old := ((copied.taken.others f).mp free).1
    exact ⟨paging.free_not_table old, paging.free f old⟩

include member

/-- The new pagemap has the upper tables of the copied one and no others. -/
theorem Sharing.copied_new : s'.tableAt u (i :: q) =
    if 256 ≤ (i : Nat) then s'.tableAt cur (i :: q) else none := by
  have paging := sharing.paging cur member
  have differ : cur ≠ u := by
    rintro rfl
    exact paging.root_frame.used copied.taken.free
  rw [tableAt_cons, tableAt_one, copied.new]
  split
  · rw [← copied.slots cur i paging.root_frame.frame differ, ← tableAt_one, ← tableAt_cons]
  · rfl

theorem Sharing.new_cases (short : q.length ≤ 3) (here : s'.tableAt u q = some t) :
    q = [] ∧ t = u ∨ Upper q ∧ s.tableAt cur q = some t := by
  cases q with
  | nil => exact .inl ⟨rfl, (Option.some.inj here).symm⟩
  | cons i q =>
    rw [sharing.copied_new member copied] at here
    split at here
    next high =>
      rw [(sharing.copied_old copied member).1 _ short] at here
      exact .inr ⟨upper_cons.mpr high, here⟩
    · cases here

theorem Sharing.new_paging : s'.Paging u := by
  have paging := sharing.paging cur member
  have frame := paging.ready.isFrame copied.taken.free
  have unused : ¬ s'.pmm.Free u := fun free => ((copied.taken.others u).mp free).2 rfl
  have old := sharing.copied_old copied member
  have cases := fun {q t} => sharing.new_cases (q := q) (t := t) member copied
  refine ⟨old.2.ready, old.2.hhdm, ?_, ?_, ?_, old.2.free⟩
  · intro p q t short short' reached reached'
    rcases cases short reached with ⟨rfl, rfl⟩ | ⟨_, here⟩
    · rcases cases short' reached' with ⟨rfl, _⟩ | ⟨_, here'⟩
      · rfl
      · -- the new top table is in no older tree
        exact absurd here' (sharing.fresh member copied.taken.free short')
    · rcases cases short' reached' with ⟨_, rfl⟩ | ⟨_, here'⟩
      · exact absurd here (sharing.fresh member copied.taken.free short)
      · exact paging.tree p q t short short' here here'
  · intro q t short reached
    rcases cases short reached with ⟨_, rfl⟩ | ⟨_, here⟩
    · refine ⟨frame, ?_, unused⟩
      rw [copied.hhdm]
      exact paging.free t copied.taken.free
    · rw [← old.1 q short] at here
      exact old.2.table q t short here
  · intro q t j short reached present
    have short' : q.length ≤ 3 := Nat.le_succ_of_le short
    rcases cases short' reached with ⟨_, rfl⟩ | ⟨_, here⟩
    · -- only the upper entries were copied
      rw [copied.new] at present ⊢
      split at present
      next high =>
        rw [if_pos high]
        exact paging.upper [] cur j (by simp) rfl present
      · cases present
    · rw [← old.1 q short'] at here
      exact old.2.upper q t j short here present

theorem Sharing.new_apart (member' : root ∈ maps) : s'.Apart u root := by
  have old := sharing.copied_old copied member'
  intro p q t short short' reached reached'
  rw [old.1 q short'] at reached'
  rcases sharing.new_cases member copied short reached with ⟨_, rfl⟩ | ⟨upper, here⟩
  · exact absurd reached' (sharing.fresh member' copied.taken.free short')
  · by_cases same : cur = root
    · subst same
      exact ⟨(sharing.paging cur member).tree p q t short short' here reached', upper⟩
    · exact sharing.apart cur member root member' same p q t short short' here reached'

/-- The family with the new pagemap. -/
theorem Sharing.grow : Sharing s' (u :: maps) := by
  have old := fun {root} (member' : root ∈ maps) => sharing.copied_old copied member'
  have outside : u ∉ maps := by
    intro inside
    exact (sharing.paging u inside).root_frame.used copied.taken.free
  constructor
  case paging =>
    intro r inside
    rcases List.mem_cons.mp inside with rfl | member'
    · exact sharing.new_paging member copied
    · exact (old member').2
  case distinct => exact List.nodup_cons.mpr ⟨outside, sharing.distinct⟩
  case apart =>
    intro r inside r' inside' differ
    rcases List.mem_cons.mp inside with rfl | member₁
    · rcases List.mem_cons.mp inside' with rfl | member₂
      · exact absurd rfl differ
      · exact sharing.new_apart member copied member₂
    · rcases List.mem_cons.mp inside' with rfl | member₂
      · intro p q t short short' reached reached'
        -- the new pagemap on the other side
        obtain ⟨rfl, upper⟩ := sharing.new_apart member copied member₁ q p t short' short reached' reached
        exact ⟨rfl, upper⟩
      · intro p q t short short' reached reached'
        rw [(old member₁).1 p short] at reached
        rw [(old member₂).1 q short'] at reached'
        exact sharing.apart r member₁ r' member₂ differ p q t short short' reached reached'
  case top =>
    -- all top tables have the upper entries of the current one
    have asCur : ∀ r ∈ u :: maps, ∀ i : Fin 512, 256 ≤ (i : Nat) →
        s'.tableAt r [i] = s'.tableAt cur [i] := by
      intro r inside i high
      rcases List.mem_cons.mp inside with rfl | member'
      · rw [sharing.copied_new member copied, if_pos high]
      · rw [(old member').1 [i] (by simp), (old member).1 [i] (by simp)]
        exact sharing.top r member' cur member i high
    intro r inside r' inside' i high
    rw [asCur r inside i high, asCur r' inside' i high]

end New

/-- A single pagemap shares with nobody. -/
theorem Sharing.single (paging : s.Paging r) : Sharing s [r] where
  paging r' member := by
    rw [List.mem_singleton.mp member]
    exact paging
  distinct := List.nodup_singleton r
  apart r₁ member₁ r₂ member₂ differ := by
    rw [List.mem_singleton.mp member₁, List.mem_singleton.mp member₂] at differ
    exact absurd rfl differ
  top r₁ member₁ r₂ member₂ i _ := by
    rw [List.mem_singleton.mp member₁, List.mem_singleton.mp member₂]

end Vm

end DedOS
