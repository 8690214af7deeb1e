import DedOS.Lib.Trace
import DedOS.Mm.Paging

/-!
# Runs over one pagemap

`pages_are_a_map`: through every run of `vmm_map` and `vmm_unmap`, interleaved with other
users of the frame allocator and of their own frames, the tables stay a tree and
`vmm_get_phys` answers what the last call on the page says.
-/

namespace DedOS

open Lib

/-- A pagemap's memory and allocator, and the frames that others hold. -/
structure PageState where
  vm : Vm
  held : List Nat

inductive PageEvent where
  | map (virt phys flags : Nat)
  | unmap (virt : Nat)
  /-- somebody else takes a frame -/
  | alloc
  /-- … gives it back -/
  | free (ptr : Nat)
  /-- … or writes a byte of it -/
  | write (address : Nat) (value : UInt8)
  deriving DecidableEq

namespace PageState

/-- What the callers promise: well-formed arguments with enough free frames for `vmm_map`, and
that others touch only the frames they hold. -/
def Allowed (root : Nat) (s : PageState) : PageEvent → Prop
  | .map virt phys flags => (phys % pageSize = 0 ∧ phys < 2 ^ 52) ∧
      (flags % 2 = vmmPresent ∧ flags ≤ vmmPresent + vmmWrite + vmmUser) ∧
      (s.vm.missing root virt).length ≤ s.vm.pmm.freePages
  | .unmap _ => True
  | .alloc => True
  | .free ptr => ptr ∈ s.held
  | .write address _ => ∃ f ∈ s.held, physToVirt s.vm.hhdm f ≤ address ∧
      address < physToVirt s.vm.hhdm f + pageSize

instance (root : Nat) (s : PageState) (e : PageEvent) : Decidable (s.Allowed root e) :=
  match e with
  | .map _ _ _ => inferInstanceAs (Decidable (_ ∧ _ ∧ _))
  | .unmap _ => instDecidableTrue
  | .alloc => instDecidableTrue
  | .free ptr => inferInstanceAs (Decidable (ptr ∈ s.held))
  | .write address _ => inferInstanceAs (Decidable (∃ f ∈ s.held,
      physToVirt s.vm.hhdm f ≤ address ∧ address < physToVirt s.vm.hhdm f + pageSize))

def call (root : Nat) (s : PageState) : PageEvent → Option PageState
  | .map virt phys flags => do
    let vm ← vmmMap s.vm (physToVirt s.vm.hhdm root) virt phys flags
    some { s with vm := vm }
  | .unmap virt => some { s with vm := vmmUnmap s.vm (physToVirt s.vm.hhdm root) virt }
  | .alloc => do
    let (ptr, pmm) ← pmmAlloc s.vm.pmm
    some { vm := { s.vm with pmm := pmm }, held := if ptr = 0 then s.held else ptr :: s.held }
  | .free ptr => do
    let pmm ← pmmFree ptr s.vm.pmm
    some { vm := { s.vm with pmm := pmm }, held := s.held.erase ptr }
  | .write address value =>
    some { s with vm := { s.vm with mem := Function.update s.vm.mem address value } }

def step (root : Nat) (s : PageState) (e : PageEvent) : Option PageState :=
  if s.Allowed root e then s.call root e else none

/-- What the calls, most recent first, say about a page. -/
def translation (initial page : Nat) : List PageEvent → Nat
  | [] => initial
  | .map virt phys _ :: before =>
    if Vm.pageOf virt = page then phys else translation initial page before
  | .unmap virt :: before =>
    if Vm.pageOf virt = page then 0 else translation initial page before
  | _ :: before => translation initial page before

/-- A frame somebody else holds. -/
structure HeldFrame (root : Nat) (vm : Vm) (f : Nat) : Prop where
  frame : IsFrame f
  nonzero : f ≠ 0
  nonnull : physToVirt vm.hhdm f ≠ 0
  held : vm.pmm.Held f
  other : ¬ vm.IsTable root f

structure Inv (root : Nat) (s : PageState) : Prop where
  paging : s.vm.Paging root
  distinct : s.held.Nodup
  held : ∀ f ∈ s.held, HeldFrame root s.vm f

variable {root f t w : Nat} {s s' : PageState} {vm vm' : Vm} {e : PageEvent}

theorem translation_cons (initial page : Nat) (e : PageEvent) (before : List PageEvent) :
    translation initial page (e :: before) =
      translation (translation initial page before) page [e] := by
  cases e <;> rfl

/-- Frames that others hold are left alone while tables are created. -/
theorem HeldFrame.grown {new : List (List (Fin 512))} (held : HeldFrame root vm f)
    (grown : Vm.Grown root vm vm' new) : HeldFrame root vm' f := by
  have used := held.held.not_free
  refine ⟨held.frame, held.nonzero, ?_, held.held.mono grown.same fun free =>
    used (grown.free f free), ?_⟩
  · rw [grown.hhdm]
    exact held.nonnull
  · rintro ⟨q, short, reached⟩
    rcases grown.added q f short reached with old | ⟨_, free⟩
    · exact held.other ⟨q, short, old⟩
    · exact used free

/-- … and while tables stay where they are. -/
theorem HeldFrame.of_tables (held : HeldFrame root vm f) (same : Pmm.SameMap vm.pmm vm'.pmm)
    (used : ¬ vm'.pmm.Free f)
    (tables : ∀ q, q.length ≤ 3 → vm'.tableAt root q = vm.tableAt root q) :
    HeldFrame root vm' f := by
  have sameHhdm : vm'.hhdm = vm.hhdm := same.hhdmOffset
  refine ⟨held.frame, held.nonzero, ?_, held.held.mono same used, ?_⟩
  · rw [sameHhdm]
    exact held.nonnull
  · rintro ⟨q, short, reached⟩
    rw [tables q short] at reached
    exact held.other ⟨q, short, reached⟩

theorem leaf_of_tables (tables : ∀ q, q.length ≤ 3 → vm'.tableAt root q = vm.tableAt root q)
    (slots : ∀ q t j, q.length ≤ 3 → vm.tableAt root q = some t → vm'.slot t j = vm.slot t j)
    (virt : Nat) : vm'.leaf root virt = vm.leaf root virt := by
  rw [Vm.leaf, Vm.leaf, tables _ Vm.path_short]
  cases reached : vm.tableAt root (Vm.path virt) with
  | none => rw [Option.elim_none, Option.elim_none]
  | some t => exact slots _ t _ Vm.path_short reached

/-- The invariant after a call, and what the call changes in the translation. -/
def Served (root : Nat) (s : PageState) (e : PageEvent) : Prop :=
  ∃ s', s.call root e = some s' ∧ Inv root s' ∧ ∀ virt,
    s'.vm.leaf root virt &&& frameMask =
      translation (s.vm.leaf root virt &&& frameMask) (Vm.pageOf virt) [e]

theorem Inv.map {virt phys flags : Nat} (inv : Inv root s)
    (allowed : s.Allowed root (.map virt phys flags)) : Served root s (.map virt phys flags) := by
  obtain ⟨⟨aligned, bound⟩, ⟨_, small⟩, enough⟩ := allowed
  have below : flags < pageSize := Nat.lt_of_le_of_lt small (by decide)
  have entry : phys ||| flags = phys + flags := frame_or aligned below
  have word : phys ||| flags < 2 ^ 64 := by
    rw [entry]
    dsimp only [pageSize] at below
    omega
  have mapped : (phys ||| flags) &&& frameMask = phys := by
    rw [and_frameMask word, entry]
    dsimp only [pageSize] at *
    omega
  obtain ⟨vm, new, grown, ⟨_, _, t, here, done⟩ | ⟨few, _⟩⟩ :=
    Vm.vmmMap_spec inv.paging virt phys flags
  swap
  · exact absurd enough (by omega)
  obtain ⟨tables, paging⟩ := Vm.paging_setLeaf grown.paging here word
  refine ⟨{ s with vm := vm.setEntry (physToVirt vm.hhdm t) (ptIdx virt) (phys ||| flags) },
    by simp [call, done], ⟨paging, inv.distinct, ?_⟩, ?_⟩
  · intro f member
    have held := (inv.held f member).grown grown
    exact held.of_tables grown.paging.ready.wf.refl held.held.not_free tables
  · intro virt'
    rw [Vm.leaf_setLeaf grown.paging here word, grown.leaf, translation, translation]
    split
    · exact mapped
    · rfl

theorem Inv.unmap {virt : Nat} (inv : Inv root s) : Served root s (.unmap virt) := by
  refine ⟨_, rfl, ?_⟩
  rw [Vm.vmmUnmap_eq]
  cases here : s.vm.tableAt root (Vm.path virt) with
  | none =>
    dsimp only
    refine ⟨inv, fun virt' => ?_⟩
    rw [translation, translation]
    split
    next same =>
      -- without a last-level table the page was not mapped
      rw [Vm.leaf, ← ((Vm.pageOf_eq_iff virt virt').mp same).1, here]
      exact Nat.zero_and _
    · rfl
  | some t =>
    have word : 0 < 2 ^ 64 := by decide
    obtain ⟨tables, paging⟩ := Vm.paging_setLeaf inv.paging here word
    refine ⟨⟨paging, inv.distinct, ?_⟩, ?_⟩
    · intro f member
      have held := inv.held f member
      exact held.of_tables inv.paging.ready.wf.refl held.held.not_free tables
    · intro virt'
      rw [Vm.leaf_setLeaf inv.paging here word, translation, translation]
      split
      · exact Nat.zero_and _
      · rfl

/-- A call that keeps the entries of all tables and frees none of their frames. -/
theorem Inv.of_slots (inv : Inv root s) (vm : Vm) (ready : vm.pmm.Ready)
    (hhdm : vm.hhdm = s.vm.hhdm)
    (slots : ∀ q t j, q.length ≤ 3 → s.vm.tableAt root q = some t → vm.slot t j = s.vm.slot t j)
    (free : ∀ f, vm.pmm.Free f → ¬ s.vm.IsTable root f ∧ physToVirt s.vm.hhdm f ≠ 0) :
    (∀ q, q.length ≤ 3 → vm.tableAt root q = s.vm.tableAt root q) ∧ vm.Paging root ∧
      ∀ virt, vm.leaf root virt = s.vm.leaf root virt := by
  obtain ⟨tables, paging⟩ := inv.paging.of_agree vm ready hhdm
    (fun q t j short => slots q t j (by omega)) free
  exact ⟨tables, paging, leaf_of_tables tables slots⟩

theorem slot_pmm {pmm : Pmm} (same : pmm.hhdmOffset = vm.hhdm) (j : Fin 512) :
    ({ vm with pmm := pmm } : Vm).slot f j = vm.slot f j := by
  have sameHhdm : Vm.hhdm { vm with pmm := pmm } = vm.hhdm := same
  rw [Vm.slot, Vm.slot, sameHhdm]
  rfl

theorem Inv.alloc (inv : Inv root s) : Served root s .alloc := by
  rcases inv.paging.ready.alloc with ⟨_, none⟩ | ⟨ptr, pmm, found, taken⟩
  · exact ⟨s, by simp [call, none], inv, fun _ => rfl⟩
  · have newFrame := inv.paging.ready.isFrame taken.free
    have hhdm : Vm.hhdm { s.vm with pmm := pmm } = s.vm.hhdm := taken.hhdm
    obtain ⟨tables, paging, leaves⟩ := inv.of_slots { s.vm with pmm := pmm } taken.ready taken.hhdm
      (fun _ _ j _ _ => slot_pmm taken.hhdm j) fun f free =>
        ⟨inv.paging.free_not_table ((taken.others f).mp free).1,
          inv.paging.free f ((taken.others f).mp free).1⟩
    refine ⟨_, by simp [call, found, taken.nonzero]; rfl, ⟨paging, ?_, ?_⟩, ?_⟩
    · refine List.nodup_cons.mpr ⟨fun member => ?_, inv.distinct⟩
      exact (inv.held ptr member).held.not_free taken.free
    · intro f member
      rcases List.mem_cons.mp member with rfl | old
      · refine ⟨newFrame, taken.nonzero, ?_, taken.held, ?_⟩
        · rw [hhdm]
          exact inv.paging.free f taken.free
        · rintro ⟨q, short, reached⟩
          rw [tables q short] at reached
          exact inv.paging.free_not_table taken.free ⟨q, short, reached⟩
      · have held := inv.held f old
        apply held.of_tables taken.same _ tables
        intro free
        exact held.held.not_free ((taken.others f).mp free).1
    · intro virt
      rw [leaves]
      rfl

theorem Inv.free {ptr : Nat} (inv : Inv root s) (member : ptr ∈ s.held) :
    Served root s (.free ptr) := by
  have owned := inv.held ptr member
  obtain ⟨pmm, freed, given⟩ := inv.paging.ready.free owned.held owned.nonzero
  have hhdm : pmm.hhdmOffset = s.vm.hhdm := given.same.hhdmOffset
  obtain ⟨tables, paging, leaves⟩ := inv.of_slots { s.vm with pmm := pmm } given.ready hhdm
    (fun _ _ j _ _ => slot_pmm hhdm j) (by
      intro f free
      rcases (given.others f).mp free with old | rfl
      · exact ⟨inv.paging.free_not_table old, inv.paging.free f old⟩
      · exact ⟨owned.other, owned.nonnull⟩)
  refine ⟨{ vm := { s.vm with pmm := pmm }, held := s.held.erase ptr }, by simp [call, freed],
    ⟨paging, inv.distinct.erase _, ?_⟩, ?_⟩
  · intro f kept
    obtain ⟨differ, old⟩ := (inv.distinct.mem_erase_iff).mp kept
    have held := inv.held f old
    apply held.of_tables given.same _ tables
    intro free
    rcases (given.others f).mp free with before | same
    · exact held.held.not_free before
    · exact differ same
  · intro virt
    rw [leaves]
    rfl

theorem Inv.write {address : Nat} {value : UInt8} (inv : Inv root s)
    (allowed : s.Allowed root (.write address value)) : Served root s (.write address value) := by
  obtain ⟨g, member, low, high⟩ := allowed
  have owned := inv.held g member
  obtain ⟨tables, paging, leaves⟩ := inv.of_slots
    { s.vm with mem := Function.update s.vm.mem address value } inv.paging.ready rfl (by
      intro q t j short reached
      -- the byte lies in a frame that is not the table's
      have table := inv.paging.table q t short reached
      have differ : t ≠ g := by
        rintro rfl
        exact owned.other ⟨q, short, reached⟩
      have apart := physToVirt_apart inv.paging.hhdm table.frame owned.frame differ
      have index := j.isLt
      apply load_congr
      intro x above below
      apply Function.update_of_ne
      change physToVirt s.vm.hhdm t + 8 * (j : Nat) ≤ x at above
      change x < physToVirt s.vm.hhdm t + 8 * (j : Nat) + 8 at below
      dsimp only [pageSize] at *
      omega) fun f free => ⟨inv.paging.free_not_table free, inv.paging.free f free⟩
  refine ⟨_, rfl, ⟨paging, inv.distinct, fun f held => ?_⟩, ?_⟩
  · have held := inv.held f held
    exact held.of_tables inv.paging.ready.wf.refl held.held.not_free tables
  · intro virt
    rw [leaves]
    rfl

theorem Inv.served (inv : Inv root s) (allowed : s.Allowed root e) : Served root s e := by
  cases e with
  | map virt phys flags => exact inv.map allowed
  | unmap virt => exact inv.unmap
  | alloc => exact inv.alloc
  | free ptr => exact inv.free allowed
  | write address value => exact inv.write allowed

theorem Inv.step (inv : Inv root s) (taken : s.step root e = some s') : Inv root s' ∧
    ∀ virt, s'.vm.leaf root virt &&& frameMask =
      translation (s.vm.leaf root virt &&& frameMask) (Vm.pageOf virt) [e] := by
  unfold PageState.step at taken
  split at taken
  next allowed =>
    obtain ⟨t, called, inv', leaves⟩ := inv.served allowed
    obtain rfl := Option.some.inj (called.symm.trans taken)
    exact ⟨inv', leaves⟩
  · cases taken

/-- What a run of calls on a pagemap promises. -/
structure PagesAreMap (root : Nat) (s₀ : PageState) (h : List (Entry PageState PageEvent))
    (s : PageState) : Prop where
  tree : s.vm.Paging root
  translated : ∀ virt, vmmGetPhys s.vm (physToVirt s.vm.hhdm root) virt =
    translation (vmmGetPhys s₀.vm (physToVirt s₀.vm.hhdm root) virt) (Vm.pageOf virt)
      (h.map Entry.event)
  /-- no call is stuck -/
  served : ∀ e, s.Allowed root e → (s.step root e).isSome

theorem pages_are_a_map {root : Nat} {s₀ s : PageState} {h : List (Entry PageState PageEvent)}
    (paging : s₀.vm.Paging root) (alone : s₀.held = [])
    (run : Run (step root) (· = s₀) h s) : PagesAreMap root s₀ h s := by
  have both : Inv root s ∧ ∀ virt, s.vm.leaf root virt &&& frameMask =
      translation (s₀.vm.leaf root virt &&& frameMask) (Vm.pageOf virt) (h.map Entry.event) := by
    induction run with
    | start same =>
      subst same
      exact ⟨⟨paging, by simp [alone], by simp [alone]⟩, fun _ => rfl⟩
    | step _ taken ih =>
      obtain ⟨inv, leaves⟩ := ih
      obtain ⟨inv', leaves'⟩ := inv.step taken
      refine ⟨inv', fun virt => ?_⟩
      rw [leaves' virt, leaves virt, List.map_cons, ← translation_cons]
  obtain ⟨inv, leaves⟩ := both
  refine ⟨inv.paging, fun virt => ?_, fun e allowed => ?_⟩
  · rw [Vm.vmmGetPhys_eq, Vm.vmmGetPhys_eq]
    exact leaves virt
  · obtain ⟨s', called, _⟩ := inv.served allowed
    rw [step, if_pos allowed, called]
    rfl

end PageState

/-- A pagemap without entries. -/
theorem Vm.paging_empty {root : Nat} {vm : Vm} (ready : vm.pmm.Ready)
    (hhdm : vm.hhdm % pageSize = 0) (frame : vm.TableFrame root) (empty : ∀ i, vm.slot root i = 0)
    (free : ∀ f, vm.pmm.Free f → physToVirt vm.hhdm f ≠ 0) : vm.Paging root := by
  have only : ∀ q t, vm.tableAt root q = some t → q = [] ∧ t = root := by
    intro q t reached
    cases q with
    | nil => exact ⟨rfl, (Option.some.inj reached).symm⟩
    | cons i q =>
      rw [tableAt, walk_cons, empty] at reached
      cases reached
  refine ⟨ready, hhdm, ?_, ?_, ?_, free⟩
  · intro p q t _ _ reached reached'
    rw [(only p t reached).1, (only q t reached').1]
  · intro q t _ reached
    rw [(only q t reached).2]
    exact frame
  · intro q t i _ reached present
    rw [(only q t reached).2, empty] at present
    cases present

/-- Sixteen pages; page 0 and the empty pagemap in page 1 are taken. -/
def emptyPagemap : Vm :=
  { mem := fun _ => 0, pmm := ⟨0xffff800000100000, [0x03, 0x00], 16, 14, 0xffff800000000000⟩ }

theorem emptyPagemap_paging : emptyPagemap.Paging 0x1000 := by
  have hhdm : emptyPagemap.hhdm = 0xffff800000000000 := rfl
  have taken : ∀ page < 16, emptyPagemap.pmm.taken page = false → 2 ≤ page := by decide
  have high : ∀ f, emptyPagemap.pmm.Free f → 2 * pageSize ≤ f ∧ f < 16 * pageSize := by
    rintro f ⟨page, below, rfl, clear⟩
    exact ⟨Nat.mul_le_mul_right pageSize (taken page below clear),
      Nat.mul_lt_mul_of_pos_right below (by decide)⟩
  have ready : emptyPagemap.pmm.Ready :=
    ⟨⟨by decide, by decide, by decide, by decide⟩, fun free => absurd (high 0 free).1 (by decide)⟩
  apply Vm.paging_empty ready (by decide)
  · exact ⟨⟨by decide, by decide⟩, by decide, fun free => absurd (high _ free).1 (by decide)⟩
  · intro i
    simp [Vm.slot, Vm.entry, emptyPagemap, load]
  · intro f free
    have small := (high f free).2
    rw [hhdm]
    unfold physToVirt wrap64
    dsimp only [pageSize] at small
    omega

open PageState in
/-- A page is mapped, another one unmapped. -/
theorem pages_are_a_map_empty : ∃ h s, Run (step 0x1000) (· = ⟨emptyPagemap, []⟩) h s ∧
    h.map Entry.event = [.unmap 0x600000, .map 0x400000 0x5000 7] ∧
    PagesAreMap 0x1000 ⟨emptyPagemap, []⟩ h s := by
  have start : Run (step 0x1000) (· = ⟨emptyPagemap, []⟩) [] ⟨emptyPagemap, []⟩ := .start rfl
  have allowed : Allowed 0x1000 ⟨emptyPagemap, []⟩ (.map 0x400000 0x5000 7) := by decide +kernel
  obtain ⟨s₁, mapped⟩ := Option.isSome_iff_exists.mp
    ((pages_are_a_map emptyPagemap_paging rfl start).served _ allowed)
  have first := start.step mapped
  obtain ⟨s₂, unmapped⟩ := Option.isSome_iff_exists.mp
    ((pages_are_a_map emptyPagemap_paging rfl first).served (.unmap 0x600000) trivial)
  have run := first.step unmapped
  exact ⟨_, s₂, run, rfl, pages_are_a_map emptyPagemap_paging rfl run⟩

end DedOS
