import DedOS.Lib.Trace
import DedOS.Mm.Family
import DedOS.Mm.PagingRun

/-!
# Runs over a family of pagemaps

The family grows from a boot pagemap by `vmm_new_pagemap`; any of its members may be active
and any of them is mapped into. `address_spaces_isolated`: calls on lower-half addresses of one
pagemap do not show in the others. `kernel_half_shared`: the upper half is common to all as long
as no call adds an entry to a top table behind the back of the others.
-/

namespace DedOS

open Lib Vm

/-- Memory and allocator, `cr3`, and the top tables of the pagemaps, latest first. -/
structure Family where
  vm : Vm
  cr3 : Nat
  maps : List Nat

inductive FamilyEvent where
  | new
  | switch (root : Nat)
  | map (root virt phys flags : Nat)
  | unmap (root virt : Nat)
  deriving DecidableEq

namespace Family

/-- Calls name pagemaps of the family and pass 64-bit arguments; frames do not run out. -/
def Allowed (s : Family) : FamilyEvent → Prop
  | .new => 0 < s.vm.pmm.freePages
  | .switch root => root ∈ s.maps
  | .map root virt phys flags => root ∈ s.maps ∧ phys < 2 ^ 64 ∧ flags < 2 ^ 64 ∧
      (s.vm.missing root virt).length ≤ s.vm.pmm.freePages
  | .unmap root _ => root ∈ s.maps

instance (s : Family) (e : FamilyEvent) : Decidable (s.Allowed e) :=
  match e with
  | .new => inferInstanceAs (Decidable (_ < _))
  | .switch root => inferInstanceAs (Decidable (root ∈ s.maps))
  | .map _ _ _ _ => inferInstanceAs (Decidable (_ ∧ _))
  | .unmap root _ => inferInstanceAs (Decidable (root ∈ s.maps))

/-- The pointer to the top table in the frame `root`. -/
def pml4 (s : Family) (root : Nat) : Nat := physToVirt s.vm.hhdm root

def call (s : Family) : FamilyEvent → Option Family
  | .new => do
    let (pml4, vm) ← vmmNewPagemap s.vm s.cr3
    some { s with vm := vm, maps := virtToPhys vm.hhdm pml4 :: s.maps }
  | .switch root => some { s with cr3 := vmmSwitch s.vm (s.pml4 root) }
  | .map root virt phys flags => do
    let vm ← vmmMap s.vm (s.pml4 root) virt phys flags
    some { s with vm := vm }
  | .unmap root virt => some { s with vm := vmmUnmap s.vm (s.pml4 root) virt }

def step (s : Family) (e : FamilyEvent) : Option Family :=
  if s.Allowed e then s.call e else none

/-- Only the boot pagemap exists, and it is active. -/
structure Booted (boot : Nat) (s : Family) : Prop where
  paging : s.vm.Paging boot
  active : s.cr3 &&& frameMask = boot
  maps : s.maps = [boot]

structure Inv (s : Family) : Prop where
  sharing : s.vm.Sharing s.maps
  active : s.cr3 &&& frameMask ∈ s.maps

/-- Bit 47 is set. -/
def upperHalf (virt : Nat) : Prop := virt.testBit 47 = true

instance (virt : Nat) : Decidable (upperHalf virt) := inferInstanceAs (Decidable (_ = _))

/-- The call maps or unmaps only below bit 47. -/
def LowerHalf : FamilyEvent → Prop
  | .map _ virt _ _ => ¬ upperHalf virt
  | .unmap _ virt => ¬ upperHalf virt
  | .new | .switch _ => True

/-- The call adds no entry to the upper half of a top table that another pagemap would miss. -/
def KeepsTop (s : Family) : FamilyEvent → Prop
  | .map root virt _ _ => ¬ upperHalf virt ∨ s.maps = [root] ∨
      s.vm.entry (s.pml4 root) (pml4Idx virt) &&& vmmPresent ≠ 0
  | .unmap _ _ | .new | .switch _ => True

/-- The pagemap that a call works on. -/
def target : FamilyEvent → Option Nat
  | .map root _ _ _ => some root
  | .unmap root _ => some root
  | .new | .switch _ => none

/-- What the pagemap at `root` translates an address to. -/
def translate (s : Family) (root virt : Nat) : Nat := vmmGetPhys s.vm (s.pml4 root) virt

variable {s s' s₀ : Family} {e : FamilyEvent} {root boot virt : Nat}

theorem translate_eq : s.translate root virt = s.vm.leaf root virt &&& frameMask :=
  vmmGetPhys_eq s.vm root virt

theorem upper_path : Upper (path virt) ↔ upperHalf virt := by
  have half : upperHalf virt ↔ virt / 2 ^ 47 % 2 = 1 := by
    rw [upperHalf, Nat.testBit_eq_decide_div_mod_eq, decide_eq_true_eq]
  rw [path, upper_cons, half, pml4Idx, tableIdx_val]
  omega

theorem KeepsTop.of_lower (lower : LowerHalf e) : s.KeepsTop e := by
  cases e with
  | map root virt phys flags => exact .inl lower
  | _ => trivial

theorem Booted.inv (booted : Booted boot s) : Inv s where
  sharing := by
    rw [booted.maps]
    exact .single booted.paging
  active := by
    rw [booted.maps, booted.active]
    exact List.mem_singleton_self boot

/-! ### Steps -/

/-- An edit whose new tables, if any, hang below the lower half or below an entry that was
there leaves the upper entries of the top table as they are. -/
theorem top_of_edit {vm' : Vm} (edit : Edit root virt s.vm vm')
    (keeps : ¬ upperHalf virt ∨ (s.vm.tableAt root [pml4Idx virt]).isSome) (i : Fin 512)
    (high : 256 ≤ (i : Nat)) : vm'.tableAt root [i] = s.vm.tableAt root [i] := by
  cases after : vm'.tableAt root [i] with
  | none =>
    cases before : s.vm.tableAt root [i] with
    | none => rfl
    | some t =>
      rw [edit.kept [i] t (by simp) before] at after
      cases after
  | some t =>
    rcases edit.added [i] t (by simp) after with old | ⟨onWay, _, gone, _⟩
    · exact old.symm
    · -- the new table would be the one for `virt`
      have upper : Upper (path virt) :=
        (Upper.of_prefix onWay (by simp)).mp (upper_cons.mpr high)
      have same : i = pml4Idx virt := by
        obtain ⟨rest, split⟩ := onWay
        exact (List.cons.inj split).1
      rcases keeps with lower | present
      · exact absurd (upper_path.mp upper) lower
      · rw [← same, gone] at present
        cases present

/-- The family after an edit of one of its pagemaps, and what the others show of it. -/
theorem Inv.edit {vm' : Vm} (inv : Inv s) (member : root ∈ s.maps) (edit : Edit root virt s.vm vm')
    (keeps : ¬ upperHalf virt ∨ s.maps = [root] ∨ (s.vm.tableAt root [pml4Idx virt]).isSome) :
    Inv { s with vm := vm' } ∧ (¬ upperHalf virt → ∀ other ∈ s.maps, other ≠ root → ∀ virt',
      vm'.leaf other virt' = s.vm.leaf other virt') := by
  rcases or_left_comm.mp keeps with alone | keeps
  · have single : vm'.Sharing s.maps := by
      rw [alone]
      exact .single edit.paging
    refine ⟨⟨single, inv.active⟩, ?_⟩
    intro _ other member' differ
    rw [alone, List.mem_singleton] at member'
    exact absurd member' differ
  · have top := top_of_edit edit keeps
    have after := inv.sharing.keeps member edit top
    refine ⟨⟨after, inv.active⟩, ?_⟩
    intro lower other member' differ virt'
    by_cases upper : Upper (path virt')
    · -- the upper half of the edited pagemap did not change either
      have elsewhere : pageOf virt ≠ pageOf virt' := by
        intro same
        rw [← ((pageOf_eq_iff virt virt').mp same).1] at upper
        exact lower (upper_path.mp upper)
      rw [after.leaf_upper member' member upper, edit.leaf virt' elsewhere]
      exact inv.sharing.leaf_upper member member' upper
    · exact inv.sharing.lower_leaf member edit member' differ upper

theorem present_table (present : s.vm.entry (s.pml4 root) (pml4Idx virt) &&& vmmPresent ≠ 0) :
    (s.vm.tableAt root [pml4Idx virt]).isSome := by
  have refers : child (s.vm.slot root (pml4Idx virt)) =
      some (s.vm.slot root (pml4Idx virt) &&& frameMask) := if_pos present
  rw [tableAt_one, refers]
  rfl

/-- The invariant after a call, and what pagemaps that the call is not about show of it. -/
def Served (s : Family) (e : FamilyEvent) : Prop :=
  ∃ s', s.call e = some s' ∧ Inv s' ∧ (LowerHalf e → ∀ root, target e = some root →
    ∀ other ∈ s.maps, other ≠ root → ∀ virt, s'.vm.leaf other virt = s.vm.leaf other virt)

theorem Inv.served (inv : Inv s) (allowed : s.Allowed e) (keeps : s.KeepsTop e) : Served s e := by
  cases e with
  | new =>
    have paging := inv.sharing.paging _ inv.active
    -- a new pagemap copies the upper half of the current one
    obtain ⟨u, vm, made, copied⟩ := vmmNewPagemap_copies paging rfl allowed
    have frame := paging.ready.isFrame copied.taken.free
    refine ⟨{ s with vm := vm, maps := u :: s.maps }, ?_, ⟨?_, ?_⟩, ?_⟩
    · simp only [call, made, Option.bind_eq_bind, Option.bind_some, virtToPhys_physToVirt frame]
    · exact inv.sharing.grow inv.active copied
    · exact List.mem_cons_of_mem u inv.active
    · intro _ root none
      cases none
  | switch root =>
    have frame := (inv.sharing.paging root allowed).root_frame.frame
    refine ⟨_, rfl, ⟨inv.sharing, ?_⟩, ?_⟩
    · change vmmSwitch s.vm (physToVirt s.vm.hhdm root) &&& frameMask ∈ s.maps
      rw [vmmSwitch, virtToPhys_physToVirt frame, frame_and_mask frame]
      exact allowed
    · intro _ root none
      cases none
  | map root virt phys flags =>
    obtain ⟨member, small, small', enough⟩ := allowed
    obtain ⟨vm, done, edit, _⟩ := vmmMap_edit (inv.sharing.paging root member)
      (Nat.or_lt_two_pow small small') enough
    -- a lower entry, or a single pagemap, or a table that all of them have
    obtain ⟨after, others⟩ := inv.edit member edit (by
      rcases keeps with lower | alone | present
      · exact .inl lower
      · exact .inr (.inl alone)
      · exact .inr (.inr (present_table present)))
    refine ⟨{ s with vm := vm }, ?_, after, ?_⟩
    · simp only [call, pml4, done, Option.bind_eq_bind, Option.bind_some]
    · intro lower root' same
      obtain rfl := Option.some.inj same
      exact others lower
  | unmap root virt =>
    have edit := vmmUnmap_edit (inv.sharing.paging root allowed) virt
    by_cases present : (s.vm.tableAt root [pml4Idx virt]).isSome
    · obtain ⟨after, others⟩ := inv.edit allowed edit (.inr (.inr present))
      refine ⟨_, rfl, after, ?_⟩
      intro lower root' same
      obtain rfl := Option.some.inj same
      exact others lower
    · -- without an entry in the top table there is nothing to unmap
      have gone : s.vm.tableAt root (path virt) = none := by
        rw [path, tableAt_cons, Option.not_isSome_iff_eq_none.mp present]
        rfl
      have idle : vmmUnmap s.vm (s.pml4 root) virt = s.vm := by
        rw [pml4, vmmUnmap_eq, gone]
      refine ⟨s, ?_, inv, fun _ _ _ _ _ _ _ => rfl⟩
      rw [call, idle]

theorem Inv.step (inv : Inv s) (keeps : s.KeepsTop e) (taken : s.step e = some s') :
    Inv s' ∧ (LowerHalf e → ∀ root, target e = some root → ∀ other ∈ s.maps, other ≠ root →
      ∀ virt, s'.translate other virt = s.translate other virt) := by
  unfold Family.step at taken
  split at taken
  next allowed =>
    obtain ⟨t, called, after, others⟩ := inv.served allowed keeps
    obtain rfl := Option.some.inj (called.symm.trans taken)
    refine ⟨after, ?_⟩
    intro lower root same other member differ virt
    rw [translate_eq, translate_eq, others lower root same other member differ]
  · cases taken

/-- The invariant holds through every run in which all calls keep the top tables in step. -/
theorem Run.inv {h : List (Entry Family FamilyEvent)} (booted : Booted boot s₀)
    (run : Run step (· = s₀) h s) (keeps : ∀ e ∈ h, e.pre.KeepsTop e.event) : Inv s := by
  induction run with
  | start same =>
    subst same
    exact booted.inv
  | step _ taken ih =>
    obtain ⟨now, before⟩ := List.forall_mem_cons.mp keeps
    exact ((ih before).step now taken).1

theorem Inv.step_isSome (inv : Inv s) (keeps : s.KeepsTop e) (allowed : s.Allowed e) :
    (s.step e).isSome := by
  obtain ⟨t, called, _⟩ := inv.served allowed keeps
  rw [Family.step, if_pos allowed, called]
  rfl

/-- Every call on lower-half addresses returns, and leaves the translations of all pagemaps but
its own alone. -/
theorem address_spaces_isolated {h : List (Entry Family FamilyEvent)} (booted : Booted boot s₀)
    (run : Run step (· = s₀) h s) (lower : ∀ e ∈ h, LowerHalf e.event) (now : LowerHalf e)
    (allowed : s.Allowed e) :
    ∃ s', s.step e = some s' ∧ ∀ root, target e = some root → ∀ other ∈ s.maps, other ≠ root →
      ∀ virt, s'.translate other virt = s.translate other virt := by
  have inv := Run.inv booted run fun e member => .of_lower (lower e member)
  have keeps : s.KeepsTop e := .of_lower now
  obtain ⟨s', taken⟩ := Option.isSome_iff_exists.mp (inv.step_isSome keeps allowed)
  exact ⟨s', taken, (inv.step keeps taken).2 now⟩

/-- While no call adds an entry to the upper half of one top table only, all pagemaps translate
upper-half addresses alike. -/
theorem kernel_half_shared {h : List (Entry Family FamilyEvent)} (booted : Booted boot s₀)
    (run : Run step (· = s₀) h s) (keeps : ∀ e ∈ h, e.pre.KeepsTop e.event) :
    ∀ root ∈ s.maps, ∀ other ∈ s.maps, ∀ virt, upperHalf virt →
      s.translate root virt = s.translate other virt := by
  intro root member other member' virt upper
  have inv := Run.inv booted run keeps
  rw [translate_eq, translate_eq,
    inv.sharing.leaf_upper member member' (upper_path.mpr upper)]

/-! ### Behind the back of the others -/

/-- A mapping that adds an entry to the upper half of one top table is seen through no other. -/
theorem Inv.map_splits {other phys flags : Nat} (inv : Inv s) (member' : other ∈ s.maps)
    (differ : other ≠ root) (upper : upperHalf virt)
    (gone : s.vm.tableAt root [pml4Idx virt] = none)
    (allowed : s.Allowed (.map root virt phys flags)) :
    ∃ s', s.step (.map root virt phys flags) = some s' ∧ s'.maps = s.maps ∧
      s'.translate root virt = (phys ||| flags) &&& frameMask ∧ s'.translate other virt = 0 := by
  obtain ⟨member, small, small', enough⟩ := allowed
  obtain ⟨vm, done, edit, leaf⟩ := vmmMap_edit (inv.sharing.paging root member)
    (Nat.or_lt_two_pow small small') enough
  have called : s.call (.map root virt phys flags) = some { s with vm := vm } := by
    simp only [call, pml4, done, Option.bind_eq_bind, Option.bind_some]
  refine ⟨{ s with vm := vm }, ?_, rfl, ?_, ?_⟩
  · rw [Family.step, if_pos ⟨member, small, small', enough⟩, called]
  · rw [translate_eq, leaf]
  · -- the other top table had no entry either, and it was not written
    have before : s.vm.tableAt other [pml4Idx virt] = none := by
      rw [inv.sharing.top other member' root member _ (upper_cons.mp (upper_path.mpr upper)), gone]
    have after : vm.tableAt other [pml4Idx virt] = none := by
      rw [tableAt_one, inv.sharing.untouched (q := []) member edit member' differ (Nat.zero_le 3)
        not_upper_nil tableAt_nil, ← tableAt_one, before]
    have none : vm.tableAt other (path virt) = none := by
      rw [path, tableAt_cons, after]
      rfl
    rw [translate_eq, Vm.leaf, none]
    exact Nat.zero_and _

theorem missing_length {vm : Vm} : (vm.missing root virt).length ≤ 3 := by
  have one : ∀ q, (vm.absent root q).length ≤ 1 := by
    intro q
    unfold Vm.absent
    split <;> simp
  have first := one [pml4Idx virt]
  have second := one [pml4Idx virt, pdptIdx virt]
  have third := one (path virt)
  simp only [Vm.missing, List.length_append]
  omega

/-- The boot pagemap of sixteen pages. -/
def start : Family := { vm := emptyPagemap, cr3 := 0x1000, maps := [0x1000] }

theorem start_booted : Booted 0x1000 start := ⟨emptyPagemap_paging, by decide +kernel, rfl⟩

/-- A second pagemap, before anything is mapped. -/
theorem start_new : ∃ (s : Family) (u : Nat), u ≠ 0x1000 ∧ Run step (· = start) [⟨start, .new, s⟩] s ∧
    s.maps = [u, 0x1000] ∧ 3 ≤ s.vm.pmm.freePages ∧ ∀ i, s.vm.tableAt 0x1000 [i] = none := by
  have active : 0x1000 &&& frameMask = 0x1000 := by decide +kernel
  obtain ⟨u, vm, made, copied⟩ := vmmNewPagemap_copies emptyPagemap_paging active (by decide)
  have frame := emptyPagemap_paging.ready.isFrame copied.taken.free
  have called : start.step .new = some { start with vm := vm, maps := u :: start.maps } := by
    have room : start.Allowed .new := by decide
    have made' : vmmNewPagemap start.vm start.cr3 = some (physToVirt vm.hhdm u, vm) := made
    rw [step, if_pos room, call, made']
    simp only [Option.bind_eq_bind, Option.bind_some, virtToPhys_physToVirt frame]
  have count : vm.pmm.freePages + 1 = 14 := copied.taken.count
  have boot : Run step (· = start) [] start := .start rfl
  refine ⟨_, u, ?_, boot.step called, rfl, ?_, ?_⟩
  · rintro rfl
    exact emptyPagemap_paging.root_frame.used copied.taken.free
  · change 3 ≤ vm.pmm.freePages
    omega
  · intro i
    have sharing := start_booted.inv.sharing
    have empty : emptyPagemap.slot 0x1000 i = 0 := by
      simp [Vm.slot, Vm.entry, emptyPagemap, load]
    have old := (sharing.copied_old copied (List.mem_singleton_self 0x1000)).1 [i] (by simp)
    change vm.tableAt 0x1000 [i] = none
    rw [old]
    change emptyPagemap.tableAt 0x1000 [i] = none
    rw [tableAt_one, empty]
    rfl

theorem address_spaces_isolated_two : ∃ (s s' : Family) (u : Nat), u ∈ s.maps ∧ u ≠ 0x1000 ∧
    s.step (.map 0x1000 0x400000 0x5000 7) = some s' ∧
    ∀ virt, s'.translate u virt = s.translate u virt := by
  obtain ⟨s, u, differ, run, maps, room, _⟩ := start_new
  have inside : 0x1000 ∈ s.maps := by simp [maps]
  have allowed : s.Allowed (.map 0x1000 0x400000 0x5000 7) :=
    ⟨inside, by decide, by decide, Nat.le_trans missing_length room⟩
  have lower : ¬ upperHalf 0x400000 := by decide +kernel
  obtain ⟨s', taken, isolated⟩ := address_spaces_isolated
    (e := .map 0x1000 0x400000 0x5000 7) start_booted run (by simp [LowerHalf]) lower allowed
  have member : u ∈ s.maps := by simp [maps]
  exact ⟨s, s', u, member, differ, taken, isolated 0x1000 rfl u member differ⟩

theorem kernel_half_shared_two : ∃ (s : Family) (u : Nat), u ∈ s.maps ∧ u ≠ 0x1000 ∧
    s.translate 0x1000 0xffffffff90000000 = s.translate u 0xffffffff90000000 := by
  obtain ⟨s, u, differ, run, maps, _, _⟩ := start_new
  have member : u ∈ s.maps := by simp [maps]
  exact ⟨s, u, member, differ, kernel_half_shared start_booted run (by simp [KeepsTop]) 0x1000
    (by simp [maps]) u member 0xffffffff90000000 (by decide +kernel)⟩

/-- A page of the kernel heap is mapped through the boot pagemap after another one was made. -/
theorem kernel_half_splits : ∃ (h : List (Entry Family FamilyEvent)) (s : Family) (u : Nat),
    Run step (· = start) h s ∧ Booted 0x1000 start ∧
    h.map Entry.event = [.map 0x1000 0xffffffff90000000 0x5000 3, .new] ∧
    0x1000 ∈ s.maps ∧ u ∈ s.maps ∧ upperHalf 0xffffffff90000000 ∧
    s.translate 0x1000 0xffffffff90000000 = 0x5000 ∧ s.translate u 0xffffffff90000000 = 0 := by
  obtain ⟨s, u, differ, run, maps, room, gone⟩ := start_new
  have inv := Run.inv start_booted run (by simp [KeepsTop])
  have member : u ∈ s.maps := by simp [maps]
  have inside : 0x1000 ∈ s.maps := by simp [maps]
  have upper : upperHalf 0xffffffff90000000 := by decide +kernel
  have allowed : s.Allowed (.map 0x1000 0xffffffff90000000 0x5000 3) :=
    ⟨inside, by decide, by decide, Nat.le_trans missing_length room⟩
  obtain ⟨s', taken, same, mapped, unmapped⟩ := inv.map_splits member differ upper (gone _) allowed
  refine ⟨_, s', u, run.step taken, start_booted, rfl, ?_, ?_, upper, ?_, unmapped⟩
  · rw [same]
    exact inside
  · rw [same]
    exact member
  · rw [mapped]
    decide +kernel

end Family

end DedOS
