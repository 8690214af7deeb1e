import DedOS.Lib.Trace
import DedOS.Mm.FamilyRun
import DedOS.Mm.HardPaging

/-!
# Rights

The processor grants WRITE and USER where every entry of its walk has them. `vmm_map` gives the
entries of new tables WRITE, and USER if the page has it, but leaves present entries as they are:
`rights_follow` says when every page of the lower half has the rights that it was last mapped
with, `user_denied` what happens otherwise.
-/

namespace DedOS

open Lib Vm

namespace Vm

/-- WRITE and USER, each and-ed over the entries of the processor's walk. -/
def rights (s : Vm) (root virt : Nat) : Nat :=
  ((s.readFrom root (fullPath virt)).getD []).foldr (· &&& ·) (vmmWrite ||| vmmUser)

end Vm

inductive MapEvent where
  | map (virt phys flags : Nat)
  | unmap (virt : Nat)
  deriving DecidableEq

namespace MapEvent

/-- A page is mapped to a page, with PRESENT and any of WRITE and USER. -/
def Allowed : MapEvent → Prop
  | .map _ phys flags => phys % pageSize = 0 ∧ phys < 2 ^ 64 ∧
      flags ||| (vmmWrite ||| vmmUser) = vmmPresent ||| (vmmWrite ||| vmmUser)
  | .unmap _ => True

instance (e : MapEvent) : Decidable e.Allowed :=
  match e with
  | .map _ _ _ => inferInstanceAs (Decidable (_ ∧ _ ∧ _))
  | .unmap _ => instDecidableTrue

def call (root : Nat) (s : Vm) : MapEvent → Option Vm
  | .map virt phys flags => vmmMap s (physToVirt s.hhdm root) virt phys flags
  | .unmap virt => some (vmmUnmap s (physToVirt s.hhdm root) virt)

def step (root : Nat) (s : Vm) (e : MapEvent) : Option Vm :=
  if e.Allowed then e.call root s else none

/-- The flags of the last mapping of a page, most recent call first. -/
def lastFlags (page : Nat) : List MapEvent → Option Nat
  | [] => none
  | .map virt _ flags :: before => if pageOf virt = page then some flags else lastFlags page before
  | .unmap virt :: before => if pageOf virt = page then none else lastFlags page before

/-- The way of the page is clean, and a USER page of the lower half finds USER in all entries
that are present on its way. -/
def FindsUser (root : Nat) (s : Vm) : MapEvent → Prop
  | .map virt _ flags => s.UpperClean root virt ∧
      (¬ Family.upperHalf virt → flags &&& vmmUser ≠ 0 →
        ∀ w, s.OnWay root virt w → w &&& vmmPresent ≠ 0 → w &&& vmmUser ≠ 0)
  | .unmap virt => s.UpperClean root virt

end MapEvent

open MapEvent

namespace Vm

variable {s s' : Vm} {root virt virt' t u w flags : Nat} {i d : Fin 512} {p rest : List (Fin 512)}

/-! ### Bits -/

/-- Every bit set in `x` is set in all of `us`. -/
theorem foldr_and {us : List Nat} {x : Nat} (all : ∀ u ∈ us, u &&& x = x) :
    us.foldr (· &&& ·) x = x := by
  induction us with
  | nil => rfl
  | cons u us ih =>
    obtain ⟨first, rest⟩ := List.forall_mem_cons.mp all
    rw [List.foldr_cons, ih rest, first]

/-- A bit that is clear in one of `us` is clear in all of them. -/
theorem foldr_and_clear {us : List Nat} {x b : Nat} (member : u ∈ us) (clear : u &&& b = 0) :
    us.foldr (· &&& ·) x &&& b = 0 := by
  induction us with
  | nil => exact absurd member List.not_mem_nil
  | cons v us ih =>
    rw [List.foldr_cons]
    rcases List.mem_cons.mp member with rfl | member
    · rw [Nat.and_right_comm, clear, Nat.zero_and]
    · rw [Nat.and_assoc, ih member, Nat.and_zero]

theorem and_rights (w : Nat) : w &&& (vmmWrite ||| vmmUser) = w % 8 &&& (vmmWrite ||| vmmUser) := by
  have mask : vmmWrite ||| vmmUser = (2 ^ 3 - 1) &&& (vmmWrite ||| vmmUser) := by decide
  rw [mask, ← Nat.and_assoc, ← Nat.and_assoc, Nat.and_two_pow_sub_one_eq_mod,
    Nat.and_two_pow_sub_one_eq_mod, Nat.mod_mod]

theorem and_user (w : Nat) : w &&& vmmUser = 0 ↔ w / 4 % 2 = 0 := and_two_pow_eq_zero w 2

/-- An upper entry takes no rights from a last-level entry `w`. -/
theorem keeps_rights (write : u / 2 % 2 = 1) (user : w / 4 % 2 = 1 → u / 4 % 2 = 1) :
    u &&& (w &&& (vmmWrite ||| vmmUser)) = w &&& (vmmWrite ||| vmmUser) := by
  have bits : ∀ a < 8, ∀ b < 8, a / 2 % 2 = 1 → (b / 4 % 2 = 1 → a / 4 % 2 = 1) →
      (a &&& (vmmWrite ||| vmmUser)) &&& (b &&& (vmmWrite ||| vmmUser)) =
        b &&& (vmmWrite ||| vmmUser) := by decide
  have twice : u &&& (w &&& (vmmWrite ||| vmmUser)) =
      (u &&& (vmmWrite ||| vmmUser)) &&& (w &&& (vmmWrite ||| vmmUser)) := by
    rw [Nat.and_assoc, Nat.and_left_comm (vmmWrite ||| vmmUser), Nat.and_self]
  rw [twice, and_rights u, and_rights w]
  apply bits _ (Nat.mod_lt _ (by decide)) _ (Nat.mod_lt _ (by decide))
  · omega
  · omega

/-! ### The invariant -/

/-- A page that is present has the rights of its last mapping in its last-level entry, and if
these include USER the upper entries on its way have it, too. -/
def LeafRights (root : Nat) (history : List MapEvent) (s : Vm) (virt : Nat) : Prop :=
  ∀ w, s.entryAt root (path virt) (ptIdx virt) = some w → w % 2 = 1 →
    ∃ flags, lastFlags (pageOf virt) history = some flags ∧
      w &&& (vmmWrite ||| vmmUser) = flags &&& (vmmWrite ||| vmmUser) ∧
      (w / 4 % 2 = 1 → ∀ p i rest u, path virt = p ++ i :: rest → s.entryAt root p i = some u →
        u / 4 % 2 = 1)

/-- Upper entries of the lower half are clean and have WRITE, and its pages have their rights. -/
structure RightsInv (root : Nat) (history : List MapEvent) (s : Vm) : Prop where
  paging : HardPaging root s
  upper : ∀ p i w, p.length ≤ 2 → ¬ Upper (p ++ [i]) → s.entryAt root p i = some w → w % 2 = 1 →
    w < 2 ^ 52 ∧ w % 256 < 128 ∧ w / 2 % 2 = 1
  leaf : ∀ virt, ¬ Family.upperHalf virt → LeafRights root history s virt

variable {history : List MapEvent} {e : MapEvent}

/-- The upper entries on the way to a last-level table are present. -/
theorem way_present (reached : s.hardTable root (path virt) = some t)
    (split : path virt = p ++ i :: rest) : ∃ v, s.entryAt root p i = some v ∧ v % 2 = 1 := by
  have whole : path virt = (p ++ [i]) ++ rest := by
    rw [split, List.append_assoc, List.singleton_append]
  rw [whole, hardTable, walk_append, Option.bind_eq_some_iff] at reached
  obtain ⟨v, reached, _⟩ := reached
  obtain ⟨w, entry, refers⟩ := entryAt_present reached
  obtain ⟨t', _, same⟩ := entryAt_eq_some.mp entry
  rw [← same, tableOf_eq_some slot_lt, same] at refers
  exact ⟨w, entry, refers.1⟩

theorem way_lower (lower : ¬ Family.upperHalf virt) (split : path virt = p ++ i :: rest) :
    ¬ Upper (p ++ [i]) := by
  rw [← Family.upper_path] at lower
  have before : p ++ [i] <+: path virt := ⟨rest, by rw [split, List.append_assoc, List.singleton_append]⟩
  rwa [Upper.of_prefix before (by simp)]

/-- In the lower half the rights are those of the last mapping. -/
theorem RightsInv.rights {f : Nat} (inv : RightsInv root history s) (lower : ¬ Family.upperHalf virt)
    (mapped : s.processorWalk root virt = some f) :
    ∃ flags, lastFlags (pageOf virt) history = some flags ∧
      s.rights root virt = flags &&& (vmmWrite ||| vmmUser) := by
  rw [processorWalk_read, Option.map_eq_some_iff] at mapped
  obtain ⟨l, read, _⟩ := mapped
  have entry : ∀ {p i t'}, walk s.slot tableOf root p = some t' → s.entryAt root p i = some (s.slot t' i) :=
    fun reached => entryAt_eq_some.mpr ⟨_, reached, rfl⟩
  obtain ⟨us, t, rfl, reached, present, all, _⟩ := readFrom_clean (fun p i after t' split reached present =>
    (inv.upper p i _ (way_short split) (way_lower lower split) (entry reached) present).2.1) read
  obtain ⟨flags, last, same, user⟩ := inv.leaf virt lower _ (entry reached) present
  refine ⟨flags, last, ?_⟩
  rw [Vm.rights, read, Option.getD_some, List.foldr_append, List.foldr_cons, List.foldr_nil, foldr_and, same]
  intro u member
  obtain ⟨p, i, after, t', split, reached', rfl⟩ := all u member
  obtain ⟨v, here, present'⟩ := way_present reached split
  obtain rfl := Option.some.inj (here.symm.trans (entry reached'))
  exact keeps_rights (inv.upper p i _ (way_short split) (way_lower lower split) here present').2.2
    fun granted => user granted p i after _ split here

/-! ### Steps -/

/-- An edit keeps the invariant if the edited page is as it should be. -/
theorem RightsInv.edit {tf : Nat} (inv : RightsInv root history s) (edit : HardEdit root virt tf s s')
    (writable : tf = 3 ∨ tf = 7)
    (others : ∀ page, pageOf virt ≠ page → lastFlags page (e :: history) = lastFlags page history)
    (own : ¬ Family.upperHalf virt → LeafRights root (e :: history) s' virt) :
    RightsInv root (e :: history) s' := by
  have odd : ∀ u, IsFrame u → (u + tf) % 8 = tf ∧ u + tf < 2 ^ 52 ∧ (u + tf) % 256 < 128 := by
    rintro u ⟨aligned, small⟩
    dsimp only [pageSize] at aligned
    omega
  refine ⟨edit.paging, ?_, ?_⟩
  · -- an upper entry is as before, or refers to a new table
    intro p i w short lower after present
    rcases edit.upper (i := i) short with same | ⟨_, _, u, frame, new⟩ | ⟨_, new⟩
    · exact inv.upper p i w short lower (same.symm.trans after) present
    · obtain rfl := Option.some.inj (after.symm.trans new)
      obtain ⟨low, small, page⟩ := odd u frame
      exact ⟨small, page, by omega⟩
    · obtain rfl := Option.some.inj (after.symm.trans new)
      cases present
  · intro virt' lower w after present
    by_cases same : pageOf virt = pageOf virt'
    · -- the page of the call, at another of its addresses
      obtain ⟨paths, index⟩ := (pageOf_eq_iff virt virt').mp same
      rw [← Family.upper_path, ← paths, Family.upper_path] at lower
      rw [← paths, ← index] at after
      have result := own lower w after present
      rwa [same, paths] at result
    · have elsewhere : ¬ (path virt' = path virt ∧ ptIdx virt' = ptIdx virt) := by
        rintro ⟨paths, index⟩
        exact same ((pageOf_eq_iff virt virt').mpr ⟨paths.symm, index.symm⟩)
      -- another page: its last-level entry stays
      rcases edit.entries _ _ path_short elsewhere with kept | ⟨onWay, _⟩ | ⟨_, new⟩
      · have before := kept.symm.trans after
        obtain ⟨flags, last, rights, user⟩ := inv.leaf virt' lower w before present
        refine ⟨flags, (others _ same).trans last, rights, ?_⟩
        intro granted p i rest u split here
        -- the upper entries on the way were present, and stay
        obtain ⟨t, reached, _⟩ := entryAt_eq_some.mp before
        obtain ⟨v, old, present'⟩ := way_present reached split
        obtain rfl := Option.some.inj ((edit.stays (way_short split) old present').symm.trans here)
        exact user granted p i rest v split old
      · exact absurd onWay.length_le (by simp [path])
      · obtain rfl := Option.some.inj (after.symm.trans new)
        cases present

theorem RightsInv.map {phys : Nat} (inv : RightsInv root history s)
    (allowed : (MapEvent.map virt phys flags).Allowed)
    (finds : FindsUser root s (.map virt phys flags)) :
    ∃ s', vmmMap s (physToVirt s.hhdm root) virt phys flags = some s' ∧
      RightsInv root (.map virt phys flags :: history) s' := by
  obtain ⟨aligned, small, granted⟩ := allowed
  obtain ⟨clean, user⟩ := finds
  have low : flags < 8 := by
    have bound : flags ≤ flags ||| (vmmWrite ||| vmmUser) := Nat.left_le_or
    rw [granted] at bound
    exact Nat.lt_of_le_of_lt bound (by decide)
  have sum : phys ||| flags = phys + flags := frame_or aligned (Nat.lt_trans low (by decide))
  have word : phys ||| flags < 2 ^ 64 := Nat.or_lt_two_pow small (Nat.lt_trans low (by decide))
  have lowBits : (phys ||| flags) % 8 = flags := by
    rw [sum]
    dsimp only [pageSize] at aligned
    omega
  -- the last table has the flags of the call, or the frames ran out
  obtain ⟨s', done, edit, leaf⟩ := vmmMap_hard inv.paging clean word
  refine ⟨s', done, inv.edit edit (tableFlags_cases flags) (fun page other => if_neg other) ?_⟩
  intro lower w after present
  rcases leaf with leaf | ⟨_, gone⟩
  swap
  · rw [entryAt, gone] at after
    cases after
  obtain rfl := Option.some.inj (leaf.symm.trans after)
  refine ⟨flags, if_pos rfl, ?_, ?_⟩
  · rw [and_rights, lowBits]
  intro granted p i rest u split here
  -- `USER` was asked for, so a new table has the flags 7
  have bit : flags &&& vmmUser ≠ 0 := by
    rw [ne_eq, and_user]
    omega
  have tf : tableFlags flags = 7 := if_pos bit
  obtain ⟨t, reached, _⟩ := entryAt_eq_some.mp after
  obtain ⟨v, here', present'⟩ := way_present reached split
  obtain rfl := Option.some.inj (here.symm.trans here')
  rcases edit.upper (i := i) (way_short split) with kept | ⟨_, _, f, frame, new⟩ | ⟨_, new⟩
  · -- an entry that was there before
    obtain ⟨t, reached, same⟩ := entryAt_eq_some.mp (kept.symm.trans here)
    have found := user lower bit u ⟨p, i, rest, t, split, reached, same.symm⟩ ((and_present u).mpr present')
    rw [ne_eq, and_user] at found
    omega
  · -- a new table, with USER in its entry
    obtain rfl := Option.some.inj (here.symm.trans new)
    have aligned := frame.1
    dsimp only [pageSize] at aligned
    omega
  · obtain rfl := Option.some.inj (here.symm.trans new)
    cases present'

theorem RightsInv.unmap (inv : RightsInv root history s) (clean : s.UpperClean root virt) :
    RightsInv root (.unmap virt :: history) (vmmUnmap s (physToVirt s.hhdm root) virt) := by
  obtain ⟨edit, absent⟩ := vmmUnmap_hard inv.paging clean 3
  refine inv.edit edit (.inl rfl) (fun page other => if_neg other) ?_
  intro _ w after present
  have even := absent w after
  omega

theorem RightsInv.served (inv : RightsInv root history s) (allowed : e.Allowed)
    (finds : FindsUser root s e) :
    ∃ s', MapEvent.step root s e = some s' ∧ RightsInv root (e :: history) s' := by
  rw [MapEvent.step, if_pos allowed]
  cases e with
  | map virt phys flags => exact inv.map allowed finds
  | unmap virt => exact ⟨_, rfl, inv.unmap finds⟩

theorem RightsInv.step (inv : RightsInv root history s) (finds : FindsUser root s e)
    (taken : MapEvent.step root s e = some s') : RightsInv root (e :: history) s' := by
  by_cases allowed : e.Allowed
  · obtain ⟨t, called, after⟩ := inv.served allowed finds
    obtain rfl := Option.some.inj (called.symm.trans taken)
    exact after
  · rw [MapEvent.step, if_neg allowed] at taken
    cases taken

/-- Nothing is mapped in the lower half. -/
def LowerEmpty (root : Nat) (s : Vm) : Prop := ∀ i : Fin 512, (i : Nat) < 256 → s.slot root i % 2 = 0

theorem LowerEmpty.inv (empty : LowerEmpty root s) (paging : HardPaging root s) : RightsInv root [] s := by
  have absent : ∀ p i w, ¬ Upper (p ++ [i]) → s.entryAt root p i = some w → w % 2 = 0 := by
    intro p i w lower here
    obtain ⟨t, reached, rfl⟩ := entryAt_eq_some.mp here
    cases p with
    | nil =>
      obtain rfl := Option.some.inj reached
      exact empty i (Nat.lt_of_not_le (mt upper_cons.mpr lower))
    | cons j p =>
      -- the way ends at the top entry
      have gone := tableOf_absent (empty j (Nat.lt_of_not_le (mt upper_cons.mpr lower)))
      rw [hardTable, walk_cons, gone] at reached
      cases reached
  refine ⟨paging, ?_, ?_⟩
  · intro p i w _ lower here present
    have even := absent p i w lower here
    omega
  · intro virt lower w here present
    have low : ¬ Upper (path virt ++ [ptIdx virt]) := by
      rw [← Family.upper_path] at lower
      rwa [← Upper.of_prefix ⟨[ptIdx virt], rfl⟩ (by simp [path])]
    have even := absent _ _ w low here
    omega

/-- Through every run of calls in which USER pages of the lower half find USER in the entries on
their way, every page of the lower half has the rights that it was last mapped with, and the
calls return. -/
theorem rights_follow {s₀ : Vm} {h : List (Entry Vm MapEvent)} (paging : HardPaging root s₀)
    (empty : LowerEmpty root s₀) (run : Run (MapEvent.step root) (· = s₀) h s)
    (finds : ∀ e ∈ h, FindsUser root e.pre e.event) :
    (∀ virt f, ¬ Family.upperHalf virt → s.processorWalk root virt = some f →
      ∃ flags, lastFlags (pageOf virt) (h.map Entry.event) = some flags ∧
        s.rights root virt = flags &&& (vmmWrite ||| vmmUser)) ∧
    (∀ e : MapEvent, e.Allowed → FindsUser root s e → (MapEvent.step root s e).isSome) := by
  have inv : RightsInv root (h.map Entry.event) s := by
    induction run with
    | start same =>
      subst same
      exact empty.inv paging
    | step _ taken ih =>
      obtain ⟨now, before⟩ := List.forall_mem_cons.mp finds
      exact (ih before).step now taken
  constructor
  · exact fun virt f lower mapped => inv.rights lower mapped
  · intro e allowed finds
    obtain ⟨s', taken, _⟩ := inv.served allowed finds
    rw [taken]
    rfl

/-! ### Rights lost -/

/-- An upper entry without USER denies it to every page behind it. -/
theorem user_denied {f : Nat} (clean : s.UpperClean root virt)
    (mapped : s.processorWalk root virt = some f) (onWay : s.OnWay root virt u)
    (kernel : u &&& vmmUser = 0) : s.rights root virt &&& vmmUser = 0 := by
  rw [processorWalk_read, Option.map_eq_some_iff] at mapped
  obtain ⟨l, read, _⟩ := mapped
  obtain ⟨us, t, rfl, _, _, _, each⟩ := readFrom_clean (fun _ _ _ _ => clean.small) read
  obtain ⟨p, i, after, t', split, reached, rfl⟩ := onWay
  rw [Vm.rights, read, Option.getD_some, List.foldr_append]
  exact foldr_and_clear (each p i after t' split reached) kernel

theorem emptyPagemap_lower : LowerEmpty 0x1000 emptyPagemap := by
  intro i _
  simp [slot, entry, emptyPagemap, load]

theorem emptyPagemap_finds (virt phys flags : Nat) :
    FindsUser 0x1000 emptyPagemap (.map virt phys flags) := by
  refine ⟨emptyPagemap_paging.upperClean virt, ?_⟩
  rintro _ _ w ⟨p, i, rest, t, split, reached, rfl⟩ present
  have zero : ∀ f j, emptyPagemap.slot f j = 0 := by
    intro f j
    simp [slot, entry, emptyPagemap, load]
  rw [zero] at present
  exact absurd (Nat.zero_and _) present

/-- A USER page in an empty 2 MiB region. -/
theorem rights_follow_empty : ∃ (h : List (Entry Vm MapEvent)) (s : Vm),
    Run (MapEvent.step 0x1000) (· = emptyPagemap) h s ∧
    h.map Entry.event = [.map 0x400000 0x5000 7] ∧
    ∀ virt f, ¬ Family.upperHalf virt → s.processorWalk 0x1000 virt = some f →
      ∃ flags, lastFlags (pageOf virt) (h.map Entry.event) = some flags ∧
        s.rights 0x1000 virt = flags &&& (vmmWrite ||| vmmUser) := by
  have start : Run (MapEvent.step 0x1000) (· = emptyPagemap) [] emptyPagemap := .start rfl
  have allowed : (MapEvent.map 0x400000 0x5000 7).Allowed := by decide
  have finds := emptyPagemap_finds 0x400000 0x5000 7
  obtain ⟨s, taken⟩ := Option.isSome_iff_exists.mp ((rights_follow emptyPagemap_paging.hard
    emptyPagemap_lower start (by simp)).2 _ allowed finds)
  have run := start.step taken
  exact ⟨_, s, run, rfl, (rights_follow emptyPagemap_paging.hard emptyPagemap_lower run (by
    simpa using finds)).1⟩

/-- A kernel page, then a USER page in the same 2 MiB region, which does not get USER. -/
theorem rights_lost : ∃ (h : List (Entry Vm MapEvent)) (s : Vm),
    Run (MapEvent.step 0x1000) (· = emptyPagemap) h s ∧
    h.map Entry.event = [.map 0x401000 0x6000 7, .map 0x400000 0x5000 3] ∧
    HardPaging 0x1000 emptyPagemap ∧ LowerEmpty 0x1000 emptyPagemap ∧
    ¬ Family.upperHalf 0x401000 ∧ s.processorWalk 0x1000 0x401000 = some 0x6000 ∧
    lastFlags (pageOf 0x401000) (h.map Entry.event) = some 7 ∧
    s.rights 0x1000 0x401000 ≠ 7 &&& (vmmWrite ||| vmmUser) := by
  obtain ⟨s₁, done₁, paging₁, edit₁, entry₁⟩ := map_emptyPagemap_hard 3 (by decide)
  obtain ⟨t₁, here₁, _⟩ := entryAt_eq_some.mp entry₁
  have samePath : path 0x401000 = path 0x400000 := by decide
  -- the second mapping finds all its tables
  have word : 0x6000 ||| 7 < 2 ^ 64 := by decide
  obtain ⟨s₂, done₂, edit₂, entry₂⟩ := vmmMap_hard edit₁.paging (paging₁.upperClean 0x401000) word
  have last : s₂.entryAt 0x1000 (path 0x401000) (ptIdx 0x401000) = some (0x6000 ||| 7) := by
    rcases entry₂ with last | ⟨gone, _⟩
    · exact last
    · rw [samePath, here₁] at gone
      cases gone
  have clean₂ : s₂.UpperClean 0x1000 0x401000 :=
    edit₂.upperClean (tableFlags_cases 7) (paging₁.upperClean _)
  -- the top entry comes from the kernel mapping
  have split : path 0x400000 = [] ++ pml4Idx 0x400000 :: [pdptIdx 0x400000, pdIdx 0x400000] := rfl
  obtain ⟨v, top₁, present⟩ := way_present here₁ split
  have kernel : v % 8 = 3 := by
    rcases edit₁.upper (i := pml4Idx 0x400000) (way_short split) with
      kept | ⟨_, _, u, frame, new⟩ | ⟨_, new⟩
    · obtain ⟨t, reached, same⟩ := entryAt_eq_some.mp (kept.symm.trans top₁)
      obtain rfl := Option.some.inj reached
      have even := emptyPagemap_lower (pml4Idx 0x400000) (by decide)
      omega
    · obtain rfl := Option.some.inj (top₁.symm.trans new)
      have flags : tableFlags 3 = 3 := by decide
      have aligned := frame.1
      dsimp only [pageSize] at aligned
      omega
    · obtain rfl := Option.some.inj (top₁.symm.trans new)
      cases present
  have top₂ := edit₂.stays (way_short split) top₁ present
  obtain ⟨t, reached, same⟩ := entryAt_eq_some.mp top₂
  have onWay : s₂.OnWay 0x1000 0x401000 v :=
    ⟨[], pml4Idx 0x400000, _, t, samePath.trans split, reached, same.symm⟩
  have mapped : s₂.processorWalk 0x1000 0x401000 = some 0x6000 :=
    processorWalk_leaf clean₂ last (by decide)
  have taken₁ : MapEvent.step 0x1000 emptyPagemap (.map 0x400000 0x5000 3) = some s₁ :=
    (if_pos (by decide)).trans done₁
  have taken₂ : MapEvent.step 0x1000 s₁ (.map 0x401000 0x6000 7) = some s₂ :=
    (if_pos (by decide)).trans done₂
  have start : Run (MapEvent.step 0x1000) (· = emptyPagemap) [] emptyPagemap := .start rfl
  refine ⟨_, s₂, (start.step taken₁).step taken₂, rfl, emptyPagemap_paging.hard, emptyPagemap_lower,
    by decide +kernel, mapped, if_pos rfl, ?_⟩
  · have low : v &&& vmmUser = 0 := (and_user v).mpr (by omega)
    have denied := user_denied clean₂ mapped onWay low
    intro all
    rw [all] at denied
    exact absurd denied (by decide)

end Vm

end DedOS
