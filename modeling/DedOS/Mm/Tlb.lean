import DedOS.Lib.Trace
import DedOS.Mm.PagingRun
import DedOS.Mm.HardPaging

/-!
# Cached translations

The processor may cache the translation of any page that is present. `vmm_unmap` ends with
`invlpg`, `vmm_map` does not: `no_stale_iff` says that nothing stale stays cached exactly when
every page that is mapped is not cached, or is mapped to what is cached.
-/

namespace DedOS

open Lib Vm

/-- What the processor takes from a walk: the frame, WRITE and USER where all entries have them,
and NX where one has it. -/
structure Translation where
  frame : Nat
  rights : Nat
  noExecute : Bool
  deriving DecidableEq

/-- `vmm_unmap` gets to its `invlpg`. -/
def vmmUnmapInvlpg (s : Vm) (pml4 virt : Nat) : Bool :=
  if s.entry pml4 (pml4Idx virt) &&& vmmPresent = 0 then false
  else
    let pdpt := physToVirt s.hhdm (s.entry pml4 (pml4Idx virt) &&& frameMask)
    if s.entry pdpt (pdptIdx virt) &&& vmmPresent = 0 then false
    else
      let pd := physToVirt s.hhdm (s.entry pdpt (pdptIdx virt) &&& frameMask)
      if s.entry pd (pdIdx virt) &&& vmmPresent = 0 then false else true

namespace Vm

def translationOf (virt : Nat) (entries : List Nat) : Translation where
  frame := frameRead virt entries
  rights := entries.foldr (· &&& ·) (vmmWrite ||| vmmUser)
  noExecute := entries.any fun w => w &&& vmmNx ≠ 0

/-- The current translation of `virt`. -/
def translation (s : Vm) (root virt : Nat) : Option Translation :=
  (s.readFrom root (fullPath virt)).map (translationOf virt)

end Vm

/-- The page tables, and the cached translations with their pages. -/
structure TlbState where
  vm : Vm
  tlb : List (Nat × Translation)

inductive TlbEvent where
  | fill (virt : Nat)
  | map (virt phys flags : Nat)
  | unmap (virt : Nat)
  deriving DecidableEq

namespace TlbState

/-- Pages that are present are cached, and calls pass 64-bit arguments. -/
def Allowed (root : Nat) (s : TlbState) : TlbEvent → Prop
  | .fill virt => (s.vm.translation root virt).isSome
  | .map _ phys flags => phys < 2 ^ 64 ∧ flags < 2 ^ 64
  | .unmap _ => True

instance (root : Nat) (s : TlbState) (e : TlbEvent) : Decidable (s.Allowed root e) :=
  match e with
  | .fill _ => inferInstanceAs (Decidable (_ = true))
  | .map _ _ _ => inferInstanceAs (Decidable (_ ∧ _))
  | .unmap _ => instDecidableTrue

def call (root : Nat) (s : TlbState) : TlbEvent → Option TlbState
  | .fill virt => do
    let x ← s.vm.translation root virt
    some { s with tlb := (pageOf virt, x) :: s.tlb }
  | .map virt phys flags => do
    let vm ← vmmMap s.vm (physToVirt s.vm.hhdm root) virt phys flags
    some { s with vm := vm }
  | .unmap virt =>
    some {
      vm := vmmUnmap s.vm (physToVirt s.vm.hhdm root) virt
      tlb :=
        if vmmUnmapInvlpg s.vm (physToVirt s.vm.hhdm root) virt then
          s.tlb.filter fun cached => cached.1 ≠ pageOf virt
        else s.tlb }

def step (root : Nat) (s : TlbState) (e : TlbEvent) : Option TlbState :=
  if s.Allowed root e then s.call root e else none

/-- Every cached translation is what the page tables say. -/
def Current (root : Nat) (s : TlbState) : Prop :=
  ∀ cached ∈ s.tlb, ∀ virt, pageOf virt = cached.1 → s.vm.translation root virt = some cached.2

/-- The entries on the way of the call are clean. -/
def CleanWay (root : Nat) (s : TlbState) : TlbEvent → Prop
  | .fill _ => True
  | .map virt _ _ => s.vm.UpperClean root virt
  | .unmap virt => s.vm.UpperClean root virt

/-- Where a translation of the page is cached, it is the one that the new last-level entry gives. -/
def KeepsCached (root : Nat) (s : TlbState) : TlbEvent → Prop
  | .map virt phys flags => ∀ x, (pageOf virt, x) ∈ s.tlb →
      (phys ||| flags) &&& vmmPresent ≠ 0 ∧ ∃ l, s.vm.readFrom root (fullPath virt) = some l ∧
        translationOf virt (l.dropLast ++ [phys ||| flags]) = x
  | .fill _ | .unmap _ => True

end TlbState

namespace Vm

variable {s s' : Vm} {root virt virt' t w flags : Nat} {q rest : List (Fin 512)} {l : List Nat}

/-- The same page has the same translation at all its addresses. -/
theorem translation_page (same : pageOf virt = pageOf virt') :
    s.translation root virt = s.translation root virt' := by
  have offsets : virt % 2 ^ 30 / pageSize = virt' % 2 ^ 30 / pageSize ∧
      virt % 2 ^ 21 / pageSize = virt' % 2 ^ 21 / pageSize := by
    dsimp only [pageOf, pageSize] at same ⊢
    omega
  have frames : ∀ l, frameRead virt l = frameRead virt' l := by
    intro l
    unfold frameRead largeFrame
    rw [offsets.1, offsets.2]
  obtain ⟨paths, index⟩ := (pageOf_eq_iff virt virt').mp same
  have functions : translationOf virt = translationOf virt' := by
    funext l
    rw [translationOf, translationOf, frames]
  rw [translation, translation, fullPath, fullPath, paths, index, functions]

theorem vmmUnmapInvlpg_eq : vmmUnmapInvlpg s (physToVirt s.hhdm root) virt =
    (s.tableAt root (path virt)).isSome := by
  simp only [vmmUnmapInvlpg, tableAt, path, walk, child_eq, slot]
  by_cases first : s.entry (physToVirt s.hhdm root) (pml4Idx virt) &&& vmmPresent = 0
  · simp [first]
  simp only [first, if_false]
  by_cases second : s.entry (physToVirt s.hhdm (s.entry (physToVirt s.hhdm root) (pml4Idx virt) &&&
      frameMask)) (pdptIdx virt) &&& vmmPresent = 0
  · simp [second]
  simp only [second, if_false]
  split <;> rfl

theorem readFrom_cons {i : Fin 512} (read : s.readFrom t (i :: rest) = some l) :
    ∃ l', l = s.slot t i :: l' := by
  by_cases absent : s.slot t i &&& vmmPresent = 0
  · rw [readFrom_absent absent] at read
    cases read
  by_cases large : s.slot t i &&& largePage ≠ 0 ∧ rest ≠ []
  · rw [readFrom_large absent large.1 large.2] at read
    split at read
    · cases read
    · exact ⟨[], (Option.some.inj read).symm⟩
  · rw [readFrom_table absent large, Option.map_eq_some_iff] at read
    obtain ⟨l', _, same⟩ := read
    exact ⟨l', same.symm⟩

/-- The page itself is read with its new last-level entry. -/
theorem HardEdit.readFrom_own (edit : HardEdit root virt flags s s') (clean : s.UpperClean root virt)
    (leaf : s'.entryAt root (path virt) (ptIdx virt) = some w) (split : path virt = q ++ rest)
    (here : s.hardTable root q = some t) (here' : s'.hardTable root q = some t)
    (read : s.readFrom t (rest ++ [ptIdx virt]) = some l) :
    s'.readFrom t (rest ++ [ptIdx virt]) =
      if w &&& vmmPresent = 0 then none else some (l.dropLast ++ [w]) := by
  induction rest generalizing q t l with
  | nil =>
    -- the last-level entry, which has been replaced
    rw [List.append_nil] at split
    rw [← split] at here'
    obtain ⟨t', reached, value⟩ := entryAt_eq_some.mp leaf
    obtain rfl := Option.some.inj (here'.symm.trans reached)
    rw [List.nil_append] at read ⊢
    have only : l.dropLast = [] := by
      by_cases absent : s.slot t (ptIdx virt) &&& vmmPresent = 0
      · rw [readFrom_absent absent] at read
        cases read
      · rw [readFrom_table absent fun both => both.2 rfl, readFrom, Option.map_some] at read
        rw [← Option.some.inj read]
        rfl
    by_cases absent : w &&& vmmPresent = 0
    · rw [if_pos absent, readFrom_absent (by rw [value, absent])]
    · rw [if_neg absent, only, readFrom_table _ fun both => both.2 rfl, readFrom, value]
      · rfl
      · rw [value]
        exact absent
  | cons i rest ih =>
    rw [List.cons_append] at read ⊢
    have before : s.entryAt root q i = some (s.slot t i) := entryAt_eq_some.mpr ⟨t, here, rfl⟩
    have after : s'.entryAt root q i = some (s'.slot t i) := entryAt_eq_some.mpr ⟨t, here', rfl⟩
    by_cases absent : s.slot t i &&& vmmPresent = 0
    · rw [readFrom_absent absent] at read
      cases read
    -- the upper entry is present and clean, and stays
    have small := (clean _ ⟨q, i, rest, t, split, here, rfl⟩ absent).2
    have refers : tableOf (s.slot t i) = some (s.slot t i &&& addressMask) := if_pos ⟨absent, small⟩
    have value : s'.slot t i = s.slot t i := Option.some.inj
      (after.symm.trans (edit.stays (way_short split) before ((and_present _).mp absent)))
    rw [readFrom_table absent fun both => both.1 small, Option.map_eq_some_iff] at read
    obtain ⟨l', read', rfl⟩ := read
    have next := ih (q := q ++ [i]) (by rw [split, List.append_assoc, List.singleton_append])
      (hardTable_concat.trans (by rw [before]; exact refers))
      (hardTable_concat.trans (by rw [after, value]; exact refers)) read'
    have nonempty : l' ≠ [] := by
      rintro rfl
      cases rest with
      | nil => exact absurd (readFrom_cons read') (by simp)
      | cons j rest => exact absurd (readFrom_cons read') (by simp)
    have table : s'.readFrom t (i :: (rest ++ [ptIdx virt])) =
        (s'.readFrom (s.slot t i &&& addressMask) (rest ++ [ptIdx virt])).map (s.slot t i :: ·) := by
      rw [readFrom_table, value]
      · rw [value]
        exact absent
      · rw [value]
        exact fun both => both.1 small
    rw [table, next]
    split_ifs
    · rfl
    · rw [Option.map_some, List.dropLast_cons_of_ne_nil nonempty, List.cons_append]

/-- What `vmm_map` makes of a page that is present. -/
theorem vmmMap_present_read {phys : Nat} (paging : HardPaging root s) (clean : s.UpperClean root virt)
    (word : phys ||| flags < 2 ^ 64)
    (done : vmmMap s (physToVirt s.hhdm root) virt phys flags = some s')
    (read : s.readFrom root (fullPath virt) = some l) : s'.readFrom root (fullPath virt) =
      if (phys ||| flags) &&& vmmPresent = 0 then none else some (l.dropLast ++ [phys ||| flags]) := by
  obtain ⟨_, again, edit, leaf⟩ := vmmMap_hard paging clean word
  obtain rfl := Option.some.inj (done.symm.trans again)
  obtain ⟨_, t, _, reached, _⟩ := readFrom_clean (fun _ _ _ _ => clean.small) read
  rcases leaf with leaf | ⟨gone, _⟩
  · exact edit.readFrom_own (q := []) clean leaf rfl rfl rfl read
  · exact absurd (reached.symm.trans gone) (Option.some_ne_none t)

end Vm

namespace TlbState

variable {root : Nat} {s s' s₀ : TlbState} {e : TlbEvent}

theorem Current.read {virt : Nat} {x : Translation} (current : Current root s)
    (member : (pageOf virt, x) ∈ s.tlb) :
    ∃ l, s.vm.readFrom root (fullPath virt) = some l ∧ translationOf virt l = x :=
  Option.map_eq_some_iff.mp (current _ member virt rfl)

/-- After a mapping nothing stale is cached if and only if the page was not cached, or with the
same translation. -/
theorem map_current {virt phys flags : Nat} {vm : Vm} (paging : HardPaging root s.vm)
    (clean : s.vm.UpperClean root virt) (word : phys ||| flags < 2 ^ 64) (current : Current root s)
    (done : vmmMap s.vm (physToVirt s.vm.hhdm root) virt phys flags = some vm) :
    Current root { s with vm := vm } ↔ KeepsCached root s (.map virt phys flags) := by
  obtain ⟨_, again, edit, _⟩ := vmmMap_hard paging clean word
  obtain rfl := Option.some.inj (done.symm.trans again)
  have own := fun {l} => vmmMap_present_read (l := l) paging clean word done
  constructor
  · -- what is cached is what was read before the call and what is read after it
    intro after x member
    obtain ⟨l, read, _⟩ := current.read member
    obtain ⟨l', read', same⟩ := after.read (s := { s with vm := vm }) member
    rw [own read] at read'
    split at read'
    · cases read'
    next present =>
      obtain rfl := Option.some.inj read'
      exact ⟨present, l, read, same⟩
  · rintro keeps ⟨page, x⟩ member virt' here
    by_cases same : pageOf virt = pageOf virt'
    · obtain rfl : pageOf virt = page := same.trans here
      obtain ⟨present, l, read, cached⟩ := keeps x member
      rw [← translation_page same, translation, own read, if_neg present, Option.map_some, cached]
    · -- other pages are read as before
      rw [translation, edit.read_eq (tableFlags_cases flags) same]
      exact current _ member virt' here

/-- After an unmapping nothing stale is cached. -/
theorem unmap_current {virt : Nat} (paging : HardPaging root s.vm) (clean : s.vm.UpperClean root virt)
    (current : Current root s) (taken : s.call root (.unmap virt) = some s') : Current root s' := by
  obtain rfl := Option.some.inj taken
  obtain ⟨edit, _⟩ := vmmUnmap_hard paging clean 3
  rw [vmmUnmapInvlpg_eq]
  cases here : s.vm.tableAt root (path virt) with
  | none =>
    -- an upper entry is absent: nothing is written
    have idle : vmmUnmap s.vm (physToVirt s.vm.hhdm root) virt = s.vm := by rw [vmmUnmap_eq, here]
    rw [idle]
    exact current
  | some t =>
    -- `invlpg` has removed the page, and the others are read as before
    rintro ⟨page, x⟩ member virt' same
    obtain ⟨cached, other⟩ := List.mem_filter.mp member
    have elsewhere : pageOf virt ≠ pageOf virt' := by
      intro equal
      rw [decide_eq_true_eq] at other
      exact other (same.symm.trans equal.symm)
    rw [translation, edit.read_eq (.inl rfl) elsewhere]
    exact current _ cached virt' same

/-- One event. -/
theorem served (paging : HardPaging root s.vm) (allowed : s.Allowed root e) (clean : CleanWay root s e) :
    ∃ s', s.step root e = some s' ∧ HardPaging root s'.vm ∧
      (Current root s → (Current root s' ↔ KeepsCached root s e)) := by
  rw [step, if_pos allowed]
  cases e with
  | fill virt =>
    obtain ⟨x, now⟩ := Option.isSome_iff_exists.mp allowed
    refine ⟨{ s with tlb := (pageOf virt, x) :: s.tlb }, ?_, paging, fun current => ?_⟩
    · simp only [call, now, Option.bind_eq_bind, Option.bind_some]
    · refine iff_of_true ?_ trivial
      intro cached member virt' same
      rcases List.mem_cons.mp member with rfl | member
      · exact (translation_page same).trans now
      · exact current cached member virt' same
  | map virt phys flags =>
    have word : phys ||| flags < 2 ^ 64 := Nat.or_lt_two_pow allowed.1 allowed.2
    obtain ⟨vm, done, edit, _⟩ := vmmMap_hard paging clean word
    refine ⟨{ s with vm := vm }, ?_, edit.paging, fun current => ?_⟩
    · simp only [call, done, Option.bind_eq_bind, Option.bind_some]
    · exact map_current paging clean word current done
  | unmap virt =>
    refine ⟨_, rfl, (vmmUnmap_hard paging clean 3).1.paging, fun current => ?_⟩
    exact iff_of_true (unmap_current paging clean current rfl) trivial

theorem step_cases (taken : s.step root e = some s') (paging : HardPaging root s.vm)
    (clean : CleanWay root s e) : HardPaging root s'.vm ∧
      (Current root s → (Current root s' ↔ KeepsCached root s e)) := by
  unfold TlbState.step at taken
  split at taken
  next allowed =>
    obtain ⟨t, called, after⟩ := served paging allowed clean
    rw [step, if_pos allowed] at called
    obtain rfl := Option.some.inj (called.symm.trans taken)
    exact after
  · cases taken

/-- In every run over clean ways nothing stale is ever cached if and only if every page that is
mapped is not cached at that time, or is cached with its new translation; and the calls return. -/
theorem no_stale_iff {h : List (Entry TlbState TlbEvent)} (paging : HardPaging root s₀.vm)
    (current : Current root s₀) (run : Run (step root) (· = s₀) h s)
    (clean : ∀ e ∈ h, CleanWay root e.pre e.event) :
    ((∀ e ∈ h, Current root e.post) ↔ ∀ e ∈ h, KeepsCached root e.pre e.event) ∧
    ∀ e, s.Allowed root e → CleanWay root s e → (s.step root e).isSome := by
  have along : HardPaging root s.vm ∧ ((∀ e ∈ h, Current root e.post) → Current root s) ∧
      ((∀ e ∈ h, Current root e.post) ↔ ∀ e ∈ h, KeepsCached root e.pre e.event) := by
    induction run with
    | start same =>
      subst same
      exact ⟨paging, fun _ => current, by simp⟩
    | step _ taken ih =>
      obtain ⟨now, before⟩ := List.forall_mem_cons.mp clean
      obtain ⟨paging, last, both⟩ := ih before
      obtain ⟨paging', one⟩ := step_cases taken paging now
      refine ⟨paging', fun all => (List.forall_mem_cons.mp all).1, ?_⟩
      -- one more entry on both sides
      rw [List.forall_mem_cons, List.forall_mem_cons]
      constructor
      · rintro ⟨after, all⟩
        exact ⟨(one (last all)).mp after, both.mp all⟩
      · rintro ⟨keeps, all⟩
        exact ⟨(one (last (both.mpr all))).mpr keeps, both.mpr all⟩
  refine ⟨along.2.2, ?_⟩
  intro e allowed clean
  obtain ⟨s', taken, _⟩ := served along.1 allowed clean
  rw [taken]
  rfl

/-- The empty pagemap with nothing cached. -/
def emptyTlb : TlbState := { vm := emptyPagemap, tlb := [] }

theorem emptyTlb_current : Current 0x1000 emptyTlb := fun _ member => absurd member List.not_mem_nil

theorem no_stale_empty : ∃ (h : List (Entry TlbState TlbEvent)) (s : TlbState),
    Run (step 0x1000) (· = emptyTlb) h s ∧ h.map Entry.event = [.map 0x400000 0x5000 3] ∧
    ((∀ e ∈ h, Current 0x1000 e.post) ↔ ∀ e ∈ h, KeepsCached 0x1000 e.pre e.event) := by
  have start : Run (step 0x1000) (· = emptyTlb) [] emptyTlb := .start rfl
  have clean : CleanWay 0x1000 emptyTlb (.map 0x400000 0x5000 3) := emptyPagemap_paging.upperClean _
  obtain ⟨s, taken⟩ := Option.isSome_iff_exists.mp ((no_stale_iff emptyPagemap_paging.hard
    emptyTlb_current start (by simp)).2 (.map 0x400000 0x5000 3) (by decide) clean)
  have run := start.step taken
  exact ⟨_, s, run, rfl, (no_stale_iff emptyPagemap_paging.hard emptyTlb_current run (by
    simpa using clean)).1⟩

theorem translation_frame {vm : Vm} {virt : Nat} :
    vm.processorWalk root virt = (vm.translation root virt).map Translation.frame := by
  rw [processorWalk_read, translation, Option.map_map]
  rfl

/-- A cached page is mapped to another frame; the processor goes on with the old one. -/
theorem stale_after_remap : ∃ (h : List (Entry TlbState TlbEvent)) (s : TlbState),
    Run (step 0x1000) (· = emptyTlb) h s ∧
    h.map Entry.event = [.map 0x400000 0x6000 3, .fill 0x400000, .map 0x400000 0x5000 3] ∧
    HardPaging 0x1000 emptyTlb.vm ∧ Current 0x1000 emptyTlb ∧ ¬ Current 0x1000 s := by
  obtain ⟨vm₁, done₁, paging₁, _, entry₁⟩ := map_emptyPagemap_hard 3 (by decide)
  have walk₁ := processorWalk_leaf (paging₁.upperClean 0x400000) entry₁ (by decide)
  obtain ⟨t, here, _⟩ := entryAt_eq_some.mp entry₁
  have word : 0x6000 ||| 3 < 2 ^ 64 := by decide
  obtain ⟨vm₂, done₂, edit₂, entry₂⟩ := vmmMap_hard paging₁.hard (paging₁.upperClean 0x400000) word
  have last : vm₂.entryAt 0x1000 (path 0x400000) (ptIdx 0x400000) = some (0x6000 ||| 3) := by
    rcases entry₂ with last | ⟨gone, _⟩
    · exact last
    · rw [here] at gone
      cases gone
  have walk₂ := processorWalk_leaf (edit₂.upperClean (tableFlags_cases 3) (paging₁.upperClean _)) last
    (by decide)
  -- the translation that is cached in between
  rw [translation_frame, Option.map_eq_some_iff] at walk₁
  obtain ⟨x, now, frame⟩ := walk₁
  have taken₁ : step 0x1000 emptyTlb (.map 0x400000 0x5000 3) = some ⟨vm₁, []⟩ := by
    rw [step, if_pos ⟨by decide, by decide⟩]
    simp only [call, emptyTlb, done₁, Option.bind_eq_bind, Option.bind_some]
  have taken₂ : step 0x1000 ⟨vm₁, []⟩ (.fill 0x400000) = some ⟨vm₁, [(pageOf 0x400000, x)]⟩ := by
    have allowed : Allowed 0x1000 ⟨vm₁, []⟩ (.fill 0x400000) := Option.isSome_iff_exists.mpr ⟨x, now⟩
    rw [step, if_pos allowed]
    simp only [call, now, Option.bind_eq_bind, Option.bind_some]
  have taken₃ : step 0x1000 ⟨vm₁, [(pageOf 0x400000, x)]⟩ (.map 0x400000 0x6000 3) =
      some ⟨vm₂, [(pageOf 0x400000, x)]⟩ := by
    rw [step, if_pos ⟨by decide, by decide⟩]
    simp only [call, done₂, Option.bind_eq_bind, Option.bind_some]
  have start : Run (step 0x1000) (· = emptyTlb) [] emptyTlb := .start rfl
  refine ⟨_, _, ((start.step taken₁).step taken₂).step taken₃, rfl, emptyPagemap_paging.hard,
    emptyTlb_current, fun current => ?_⟩
  have stale := current (pageOf 0x400000, x) List.mem_cons_self 0x400000 rfl
  rw [translation_frame, stale, Option.map_some, frame] at walk₂
  exact absurd walk₂ (by decide)

end TlbState

end DedOS
