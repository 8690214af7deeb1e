import DedOS.Mm.Pagemap
import DedOS.Mm.PagingRun
import Mathlib.Data.List.Induction

/-!
# The processor's walk

What the processor makes of the tables under `cr3`: it takes the address of the next table
from bits 12 to 51 of an entry, and bit 7 of a PDPT or PD entry ends the walk at a large page.
`vmm_get_phys` takes all bits from 12 on, knows no large pages and does not look at the present
bit of the last entry; `get_phys_agrees` says when that makes no difference.
-/

namespace DedOS

open Lib

/-- `VMM_NX` -/
def vmmNx : Nat := 2 ^ 63

/-- Bits 12 to 51 of an entry: a physical address. -/
def addressMask : Nat := 0x000FFFFFFFFFF000

/-- Bit 7, which marks the entry of a large page. -/
def largePage : Nat := 0x80

/-- The table that the processor goes to from an upper entry. -/
def tableOf (w : Nat) : Option Nat :=
  if w &&& vmmPresent ≠ 0 ∧ w &&& largePage = 0 then some (w &&& addressMask) else none

namespace Vm

/-- The 4 KiB frame behind `virt` in a page of `2 ^ shift` bytes. -/
def largeFrame (shift w virt : Nat) : Nat :=
  (w &&& addressMask) / 2 ^ shift * 2 ^ shift + virt % 2 ^ shift / pageSize * pageSize

/-- The frame the processor translates `virt` to; `none` is a fault. -/
def processorWalk (s : Vm) (root virt : Nat) : Option Nat :=
  let pml4e := s.slot root (pml4Idx virt)
  -- bit 7 of a PML4 entry is reserved
  if pml4e &&& vmmPresent = 0 ∨ pml4e &&& largePage ≠ 0 then none
  else
    let pdpte := s.slot (pml4e &&& addressMask) (pdptIdx virt)
    if pdpte &&& vmmPresent = 0 then none
    else if pdpte &&& largePage ≠ 0 then some (largeFrame 30 pdpte virt)
    else
      let pde := s.slot (pdpte &&& addressMask) (pdIdx virt)
      if pde &&& vmmPresent = 0 then none
      else if pde &&& largePage ≠ 0 then some (largeFrame 21 pde virt)
      else
        let pte := s.slot (pde &&& addressMask) (ptIdx virt)
        if pte &&& vmmPresent = 0 then none else some (pte &&& addressMask)

/-- The table that the processor reaches along a path of indices. -/
def hardTable (s : Vm) (root : Nat) (path : List (Fin 512)) : Option Nat :=
  walk s.slot tableOf root path

/-- The processor reads the upper entry `w` on its way to the page. -/
def OnWay (s : Vm) (root virt w : Nat) : Prop :=
  ∃ before i after t, path virt = before ++ i :: after ∧ s.hardTable root before = some t ∧
    w = s.slot t i

/-- The walk comes to a large page. -/
def MeetsLarge (s : Vm) (root virt : Nat) : Prop :=
  ∃ w, s.OnWay root virt w ∧ w &&& vmmPresent ≠ 0 ∧ w &&& largePage ≠ 0

/-- The upper entries on the way are absent or refer to a table, with bits 52 to 63 clear. -/
def UpperClean (s : Vm) (root virt : Nat) : Prop :=
  ∀ w, s.OnWay root virt w → w &&& vmmPresent ≠ 0 → w < 2 ^ 52 ∧ w &&& largePage = 0

/-- The last entry has bits 52 to 63 clear, and nothing but flags when it is absent. -/
def LeafClean (s : Vm) (root virt : Nat) : Prop :=
  ∀ t, s.hardTable root (path virt) = some t →
    if s.slot t (ptIdx virt) &&& vmmPresent ≠ 0 then s.slot t (ptIdx virt) < 2 ^ 52
    else s.slot t (ptIdx virt) < pageSize

/-- `vmm_get_phys` reads its tables where the direct map shows physical memory, and answers as
the processor does. -/
structure GetPhysAgrees (s : Vm) (root virt : Nat) : Prop where
  reads : ∀ p t, p <+: path virt → p ≠ [] → s.tableAt root p = some t → t < 2 ^ 52
  answer : vmmGetPhys s (physToVirt s.hhdm root) virt = (s.processorWalk root virt).getD 0

variable {s : Vm} {root virt t w : Nat} {i : Fin 512} {p q : List (Fin 512)}

/-! ### Entries -/

theorem and_addressMask (word : w < 2 ^ 64) :
    w &&& addressMask = w / pageSize * pageSize % 2 ^ 52 := by
  have cut : addressMask = frameMask &&& (2 ^ 52 - 1) := by decide
  rw [cut, ← Nat.and_assoc, and_frameMask word, Nat.and_two_pow_sub_one_eq_mod]

theorem and_largePage (w : Nat) : w &&& largePage = 0 ↔ w % 256 < 128 := by
  have bit : w &&& largePage = 0 ↔ w / 2 ^ 7 % 2 = 0 := and_two_pow_eq_zero w 7
  rw [bit]
  omega

/-- Without the upper bits both readers take the same address from an entry. -/
theorem masks_agree (word : w < 2 ^ 64) : w &&& frameMask = w &&& addressMask ↔ w < 2 ^ 52 := by
  rw [and_frameMask word, and_addressMask word]
  dsimp only [pageSize]
  omega

theorem tableOf_lt (word : w < 2 ^ 64) (next : tableOf w = some t) : t < 2 ^ 52 := by
  unfold tableOf at next
  split at next
  · obtain rfl := Option.some.inj next
    rw [and_addressMask word]
    exact Nat.mod_lt _ (by decide)
  · cases next

/-- On a clean entry the processor and the code go the same way. -/
theorem tableOf_eq (word : w < 2 ^ 64)
    (clean : w &&& vmmPresent ≠ 0 → w < 2 ^ 52 ∧ w &&& largePage = 0) : tableOf w = child w := by
  unfold tableOf child
  by_cases present : w &&& vmmPresent ≠ 0
  · obtain ⟨low, small⟩ := clean present
    rw [if_pos ⟨present, small⟩, if_pos present, (masks_agree word).mpr low]
  · rw [if_neg fun both => present both.1, if_neg present]

/-! ### Walks -/

/-- The processor's way to a table that exists ends below 2^52. -/
theorem hardTable_lt (nonempty : p ≠ []) (here : s.hardTable root p = some t) : t < 2 ^ 52 := by
  obtain ⟨before, i, rfl⟩ := (List.eq_nil_or_concat p).resolve_left nonempty
  rw [List.concat_eq_append, hardTable, walk_append, Option.bind_eq_some_iff] at here
  obtain ⟨u, _, last⟩ := here
  rw [walk_cons, Option.bind_eq_some_iff] at last
  obtain ⟨v, next, rest⟩ := last
  obtain rfl := Option.some.inj rest
  exact tableOf_lt slot_lt next

/-- On a clean way the code sees the tables that the processor sees. -/
theorem tableAt_eq (clean : s.UpperClean root virt) (onWay : p <+: path virt) :
    s.tableAt root p = s.hardTable root p := by
  obtain ⟨rest, whole⟩ := onWay
  apply walk_agree
  intro before i after t split reached
  apply Eq.symm
  apply tableOf_eq slot_lt
  apply clean
  refine ⟨before, i, after ++ rest, t, ?_, reached, rfl⟩
  rw [← whole, split, List.append_assoc, List.cons_append]

/-- Tables of 4 KiB mappings are clean on every way. -/
theorem Paging.hardTable_eq (paging : Paging root s) (short : q.length ≤ 3) :
    s.hardTable root q = s.tableAt root q := by
  apply walk_agree
  intro before i after t split reached
  apply tableOf_eq slot_lt
  intro present
  have upper : before.length ≤ 2 := by
    rw [split, List.length_append, List.length_cons] at short
    omega
  obtain ⟨low, small⟩ := paging.upper before t i upper reached ((and_present _).mp present)
  exact ⟨low, (and_largePage _).mpr small⟩

theorem Paging.upperClean (paging : Paging root s) (virt : Nat) : s.UpperClean root virt := by
  rintro w ⟨before, i, after, t, split, reached, rfl⟩ present
  have short := way_short split
  rw [paging.hardTable_eq (Nat.le_succ_of_le short)] at reached
  obtain ⟨low, small⟩ := paging.upper before t i short reached ((and_present _).mp present)
  exact ⟨low, (and_largePage _).mpr small⟩

theorem UpperClean.small {rest : List (Fin 512)} (clean : s.UpperClean root virt)
    (split : path virt = p ++ i :: rest) (reached : s.hardTable root p = some t)
    (present : s.slot t i % 2 = 1) : s.slot t i % 256 < 128 := by
  rw [← and_largePage]
  exact (clean _ ⟨p, i, rest, t, split, reached, rfl⟩ ((and_present _).mpr present)).2

theorem not_meetsLarge (clean : s.UpperClean root virt) : ¬ s.MeetsLarge root virt := by
  rintro ⟨w, onWay, present, large⟩
  exact large (clean w onWay present).2

/-- Without large pages the processor ends at a last-level table, or faults before. -/
theorem processorWalk_eq (small : ¬ s.MeetsLarge root virt) : s.processorWalk root virt =
    (s.hardTable root (path virt)).bind fun t =>
      if s.slot t (ptIdx virt) &&& vmmPresent = 0 then none
      else some (s.slot t (ptIdx virt) &&& addressMask) := by
  have plain : ∀ before i after t, path virt = before ++ i :: after →
      s.hardTable root before = some t → s.slot t i &&& vmmPresent ≠ 0 →
      s.slot t i &&& largePage = 0 := by
    intro before i after t split reached present
    by_contra large
    exact small ⟨_, ⟨before, i, after, t, split, reached, rfl⟩, present, large⟩
  -- a present entry leads to the next table, an absent one ends the way
  have next : ∀ {before i after t}, path virt = before ++ i :: after →
      s.hardTable root before = some t → s.slot t i &&& vmmPresent ≠ 0 →
      s.hardTable root (before ++ [i]) = some (s.slot t i &&& addressMask) := by
    intro before i after t split reached present
    rw [hardTable, walk_concat reached, tableOf,
      if_pos ⟨present, plain before i after t split reached present⟩]
  have gone : ∀ {before i after t}, path virt = before ++ i :: after →
      s.hardTable root before = some t → s.slot t i &&& vmmPresent = 0 →
      s.hardTable root (path virt) = none := by
    intro before i after t split reached absent
    rw [split]
    apply walk_below_none reached
    rw [tableOf, if_neg fun both => both.1 absent]
  have way : path virt = [] ++ pml4Idx virt :: [pdptIdx virt, pdIdx virt] := rfl
  have way' : path virt = [pml4Idx virt] ++ pdptIdx virt :: [pdIdx virt] := rfl
  have way'' : path virt = [pml4Idx virt, pdptIdx virt] ++ pdIdx virt :: [] := rfl
  have first : s.hardTable root [] = some root := rfl
  unfold processorWalk
  dsimp only
  -- the PML4, the PDPT, the PD and the last-level table in turn
  by_cases absent : s.slot root (pml4Idx virt) &&& vmmPresent = 0
  · rw [gone way first absent, if_pos (.inl absent)]
    rfl
  have second := next way first absent
  rw [if_neg (not_or.mpr ⟨absent, not_not.mpr (plain _ _ _ _ way first absent)⟩)]
  by_cases absent' : s.slot (s.slot root (pml4Idx virt) &&& addressMask) (pdptIdx virt) &&& vmmPresent = 0
  · rw [gone way' second absent', if_pos absent']
    rfl
  have third := next way' second absent'
  rw [if_neg absent', if_neg (not_not.mpr (plain _ _ _ _ way' second absent'))]
  by_cases absent'' : s.slot (s.slot (s.slot root (pml4Idx virt) &&& addressMask) (pdptIdx virt) &&&
      addressMask) (pdIdx virt) &&& vmmPresent = 0
  · rw [gone way'' third absent'', if_pos absent'']
    rfl
  have last := next way'' third absent''
  rw [if_neg absent'', if_neg (not_not.mpr (plain _ _ _ _ way'' third absent''))]
  have whole : s.hardTable root (path virt) = _ := last
  rw [whole, Option.bind_some]

/-! ### Agreement -/

theorem getPhysAgrees_of_clean (clean : s.UpperClean root virt) (leafClean : s.LeafClean root virt) :
    s.GetPhysAgrees root virt where
  reads p t onWay nonempty here := by
    rw [tableAt_eq clean onWay] at here
    exact hardTable_lt nonempty here
  answer := by
    rw [vmmGetPhys_eq, processorWalk_eq (not_meetsLarge clean), leaf, tableAt_eq clean List.prefix_rfl]
    cases here : s.hardTable root (path virt) with
    | none => exact Nat.zero_and _
    | some t =>
      have last := leafClean t here
      rw [Option.elim_some, Option.bind_some]
      split at last
      next present =>
        rw [if_neg present]
        exact (masks_agree slot_lt).mpr last
      next absent =>
        -- an absent entry without address bits
        rw [not_not] at absent
        rw [if_pos absent, and_frameMask slot_lt, Nat.div_eq_of_lt last]
        rfl

/-- Reading in physical memory only, the code sees the tables that the processor sees. -/
theorem tableAt_of_reads (reads : ∀ p t, p <+: path virt → p ≠ [] → s.tableAt root p = some t →
      t < 2 ^ 52) (small : ¬ s.MeetsLarge root virt) (onWay : p <+: path virt) :
    s.tableAt root p = s.hardTable root p := by
  obtain ⟨rest, whole⟩ := onWay
  induction p using List.reverseRecOn generalizing rest with
  | nil => rfl
  | append_singleton p i ih =>
    have split : path virt = p ++ i :: rest := by
      rw [← whole, List.append_assoc, List.singleton_append]
    have before := ih (i :: rest) split.symm
    cases here : s.hardTable root p with
    | none =>
      -- the way has ended further up, for both
      rw [here] at before
      rw [tableAt, walk_append, ← tableAt, before, hardTable, walk_append, ← hardTable, here]
      rfl
    | some t =>
      rw [here] at before
      have next : s.tableAt root (p ++ [i]) = child (s.slot t i) := walk_concat before
      have next' : s.hardTable root (p ++ [i]) = tableOf (s.slot t i) := walk_concat here
      rw [next, next']
      apply Eq.symm
      apply tableOf_eq slot_lt
      intro present
      -- bits 52 to 63 would put the next table beyond physical memory
      have refers : child (s.slot t i) = some (s.slot t i &&& frameMask) := if_pos present
      have low := reads (p ++ [i]) _ ⟨rest, whole⟩ (by simp) (next.trans refers)
      constructor
      · rw [and_frameMask slot_lt] at low
        dsimp only [pageSize] at low
        omega
      · by_contra large
        exact small ⟨_, ⟨p, i, rest, t, split, here, rfl⟩, present, large⟩

theorem clean_of_getPhysAgrees (agrees : s.GetPhysAgrees root virt)
    (small : ¬ s.MeetsLarge root virt) : s.UpperClean root virt ∧ s.LeafClean root virt := by
  have same := fun {p} => tableAt_of_reads (p := p) agrees.reads small
  constructor
  · rintro w ⟨before, i, after, t, split, reached, rfl⟩ present
    have onWay : before ++ [i] <+: path virt := by
      refine ⟨after, ?_⟩
      rw [split, List.append_assoc, List.singleton_append]
    have here : s.tableAt root before = some t :=
      (same (List.IsPrefix.trans ⟨[i], rfl⟩ onWay)).trans reached
    have next : s.tableAt root (before ++ [i]) = some (s.slot t i &&& frameMask) :=
      (walk_concat here).trans (if_pos present)
    -- the processor reads the entry as it is, so its frame is its address
    have low := agrees.reads _ _ onWay (by simp) next
    constructor
    · rw [and_frameMask slot_lt] at low
      dsimp only [pageSize] at low
      omega
    · by_contra large
      exact small ⟨_, ⟨before, i, after, t, split, reached, rfl⟩, present, large⟩
  · intro t reached
    have answer := agrees.answer
    rw [vmmGetPhys_eq, processorWalk_eq small, leaf, same List.prefix_rfl, reached,
      Option.elim_some, Option.bind_some] at answer
    split
    next present =>
      rw [if_neg present] at answer
      exact (masks_agree slot_lt).mp answer
    next absent =>
      rw [if_pos (not_not.mp absent), and_frameMask slot_lt] at answer
      have zero : s.slot t (ptIdx virt) / pageSize * pageSize = 0 := answer
      dsimp only [pageSize] at zero ⊢
      omega

/-- `vmm_get_phys` agrees with the processor where the entries on the way are clean, and nowhere
else unless the way comes to a large page. -/
theorem get_phys_agrees :
    (s.UpperClean root virt ∧ s.LeafClean root virt → s.GetPhysAgrees root virt) ∧
      (s.GetPhysAgrees root virt → (s.UpperClean root virt ∧ s.LeafClean root virt) ∨
        s.MeetsLarge root virt) := by
  constructor
  · rintro ⟨clean, leafClean⟩
    exact getPhysAgrees_of_clean clean leafClean
  · intro agrees
    by_cases large : s.MeetsLarge root virt
    · exact .inr large
    · exact .inl (clean_of_getPhysAgrees agrees large)

theorem processorWalk_lt {f : Nat} (small : ¬ s.MeetsLarge root virt)
    (found : s.processorWalk root virt = some f) : f < 2 ^ 52 := by
  rw [processorWalk_eq small, Option.bind_eq_some_iff] at found
  obtain ⟨t, _, last⟩ := found
  split at last
  · cases last
  · obtain rfl := Option.some.inj last
    rw [and_addressMask slot_lt]
    exact Nat.mod_lt _ (by decide)

/-- One page mapped on the empty pagemap. -/
theorem map_emptyPagemap (flags : Nat) (word : 0x5000 ||| flags < 2 ^ 64) : ∃ s',
    vmmMap emptyPagemap (physToVirt emptyPagemap.hhdm 0x1000) 0x400000 0x5000 flags = some s' ∧
      s'.Paging 0x1000 ∧ s'.leaf 0x1000 0x400000 = 0x5000 ||| flags := by
  have enough : (emptyPagemap.missing 0x1000 0x400000).length ≤ emptyPagemap.pmm.freePages := by
    decide +kernel
  obtain ⟨s', done, edit, leaf⟩ := vmmMap_edit emptyPagemap_paging word enough
  exact ⟨s', done, edit.paging, leaf⟩

theorem get_phys_agrees_mapped : ∃ s',
    vmmMap emptyPagemap (physToVirt emptyPagemap.hhdm 0x1000) 0x400000 0x5000 3 = some s' ∧
      s'.GetPhysAgrees 0x1000 0x400000 := by
  obtain ⟨s', done, paging, leaf⟩ := map_emptyPagemap 3 (by decide)
  refine ⟨s', done, get_phys_agrees.1 ⟨paging.upperClean _, ?_⟩⟩
  intro t here
  rw [paging.hardTable_eq path_short] at here
  have value : s'.slot t (ptIdx 0x400000) = 0x5003 := by
    rw [Vm.leaf, here] at leaf
    exact leaf
  rw [value]
  decide

/-- With `VMM_NX` in the flags the answer has bit 63 set. -/
theorem get_phys_disagrees : ∃ s', vmmMap emptyPagemap (physToVirt emptyPagemap.hhdm 0x1000)
      0x400000 0x5000 (vmmPresent ||| vmmNx) = some s' ∧ ¬ s'.GetPhysAgrees 0x1000 0x400000 := by
  obtain ⟨s', done, paging, leaf⟩ := map_emptyPagemap (vmmPresent ||| vmmNx) (by decide)
  refine ⟨s', done, fun agrees => ?_⟩
  have answer := agrees.answer
  rw [vmmGetPhys_eq, leaf] at answer
  have high : 2 ^ 63 ≤ (0x5000 ||| (vmmPresent ||| vmmNx)) &&& frameMask := by decide
  cases found : s'.processorWalk 0x1000 0x400000 with
  | none =>
    rw [found, Option.getD_none] at answer
    omega
  | some f =>
    have low := processorWalk_lt (not_meetsLarge (paging.upperClean _)) found
    rw [found, Option.getD_some] at answer
    omega

end Vm

end DedOS
