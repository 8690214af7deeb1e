import DedOS.Mm.Paging
import Mathlib.Data.List.Infix

/-!
# Pagemaps

`vmm_new_pagemap` and `vmm_switch`, and what `vmm_map` and `vmm_unmap` may touch: an `Edit` of
the page at `virt` writes only the tables on the way to the page and frames that were free
(`vmmMap_edit`, `vmmUnmap_edit`).
-/

namespace DedOS

open Lib

/-- `vmm_get_current`, with the value of `cr3` -/
def vmmGetCurrent (s : Vm) (cr3 : Nat) : Nat := physToVirt s.hhdm (cr3 &&& frameMask)

/-- `vmm_switch`: the new value of `cr3` -/
def vmmSwitch (s : Vm) (pml4 : Nat) : Nat := virtToPhys s.hhdm pml4

/-- The first `n` rounds of the loop of `vmm_new_pagemap`. -/
def copyUpper (pml4 current : Nat) : Nat → Memory → Memory
  | 0, m => m
  | n + 1, m =>
    let m := copyUpper pml4 current n m
    store 8 m (pml4 + 8 * n) (if n ≥ 256 then load 8 m (current + 8 * n) else 0)

def vmmNewPagemap (s : Vm) (cr3 : Nat) : Option (Nat × Vm) := do
  let (phys, pmm) ← pmmAlloc s.pmm
  -- a failure of `pmm_alloc` is not tested for
  let s := { s with pmm := pmm }
  let pml4 := physToVirt s.hhdm phys
  let current := vmmGetCurrent s cr3
  some (pml4, { s with mem := copyUpper pml4 current 512 s.mem })

theorem virtToPhys_physToVirt {hhdm f : Nat} (frame : IsFrame f) :
    virtToPhys hhdm (physToVirt hhdm f) = f := by
  have small := frame.2
  unfold virtToPhys physToVirt wrap64
  omega

theorem frame_and_mask {f : Nat} (frame : IsFrame f) : f &&& frameMask = f := by
  obtain ⟨aligned, small⟩ := frame
  rw [and_frameMask (by omega)]
  dsimp only [pageSize] at *
  omega

/-! ### The copying loop -/

section Copy

variable {pml4 current n k a : Nat} {m : Memory}

theorem copyUpper_outside (outside : a < pml4 ∨ pml4 + 8 * n ≤ a) :
    copyUpper pml4 current n m a = m a := by
  induction n with
  | zero => rfl
  | succ n ih =>
    rw [copyUpper, store_outside (by omega)]
    apply ih
    omega

theorem load_copyUpper (apart : pml4 + pageSize ≤ current ∨ current + pageSize ≤ pml4)
    (bound : n ≤ 512) (below : k < n) :
    load 8 (copyUpper pml4 current n m) (pml4 + 8 * k) =
      if 256 ≤ k then load 8 m (current + 8 * k) else 0 := by
  dsimp only [pageSize] at apart
  induction n with
  | zero => omega
  | succ n ih =>
    rw [copyUpper]
    by_cases last : k = n
    · subst last
      -- the source page has not been written
      have source : load 8 (copyUpper pml4 current k m) (current + 8 * k) =
          load 8 m (current + 8 * k) := by
        apply load_congr
        intro x low high
        apply copyUpper_outside
        omega
      rw [source]
      apply load_store_same
      split
      · exact load_lt 8 _ _
      · decide
    · rw [load_store_disjoint (by omega)]
      apply ih
      · omega
      · omega

end Copy

namespace Vm

variable {root f t u v a flags virt : Nat} {s s' s₀ : Vm} {i j : Fin 512} {p q way : List (Fin 512)}

/-! ### What a mapping touches -/

/-- The byte is in no free frame and in no table on the way. -/
def OffWay (s : Vm) (root : Nat) (way : List (Fin 512)) (a : Nat) : Prop :=
  ∀ f, s.pmm.Free f ∨ (∃ p, p <+: way ∧ s.tableAt root p = some f) →
    a < physToVirt s.hhdm f ∨ physToVirt s.hhdm f + pageSize ≤ a

/-- `get_or_create` writes the table it is given and a frame that was free. -/
theorem getOrCreate_touches (ready : s.pmm.Ready)
    (done : getOrCreate s t i flags = some (v, s')) (off : a < t ∨ t + pageSize ≤ a)
    (offFree : ∀ f, s.pmm.Free f →
      a < physToVirt s.hhdm f ∨ physToVirt s.hhdm f + pageSize ≤ a) : s'.mem a = s.mem a := by
  by_cases present : s.entry t i &&& vmmPresent ≠ 0
  · rw [getOrCreate, if_pos present] at done
    obtain ⟨_, rfl⟩ := Prod.mk.inj (Option.some.inj done)
    rfl
  rcases ready.alloc with ⟨_, failed⟩ | ⟨u, pmm, found, taken⟩
  · rw [getOrCreate, if_neg present, failed] at done
    obtain ⟨_, rfl⟩ := Prod.mk.inj (Option.some.inj done)
    rfl
  · have sameHhdm : Vm.hhdm { s with pmm := pmm } = s.hhdm := taken.hhdm
    rw [getOrCreate, if_neg present, found] at done
    simp only [Option.bind_eq_bind, Option.bind_some, if_neg taken.nonzero, sameHhdm] at done
    obtain ⟨_, rfl⟩ := Prod.mk.inj (Option.some.inj done)
    have offNew := offFree u taken.free
    have index := i.isLt
    dsimp only [pageSize] at off offNew
    have entry : ((clearTable { s with pmm := pmm } (physToVirt s.hhdm u)).setEntry t i
        (u ||| flags)).mem a = (clearTable { s with pmm := pmm } (physToVirt s.hhdm u)).mem a :=
      store_outside (by omega)
    rw [entry]
    exact zeroTable_outside (by omega)

/-- A descent from the state `s₀` has come to the table `t`. -/
structure Descent (s₀ : Vm) (root : Nat) (way p : List (Fin 512)) (t : Nat) (s : Vm) : Prop where
  grown : ∃ new, Grown root s₀ s new
  here : s.tableAt root p = some t
  onWay : p <+: way
  bytes : ∀ a, s₀.OffWay root way a → s.mem a = s₀.mem a

theorem Descent.hhdm (descent : Descent s₀ root way p t s) : s.hhdm = s₀.hhdm := by
  obtain ⟨new, grown⟩ := descent.grown
  exact grown.hhdm

theorem Descent.off (descent : Descent s₀ root way p t s) (short : p.length ≤ 3)
    (off : s₀.OffWay root way a) :
    (a < physToVirt s.hhdm t ∨ physToVirt s.hhdm t + pageSize ≤ a) ∧
      ∀ f, s.pmm.Free f → a < physToVirt s.hhdm f ∨ physToVirt s.hhdm f + pageSize ≤ a := by
  rw [descent.hhdm]
  obtain ⟨new, grown⟩ := descent.grown
  refine ⟨?_, fun f free => off f (.inl (grown.free f free))⟩
  apply off
  rcases grown.added p t short descent.here with old | ⟨_, free⟩
  · exact .inr ⟨p, descent.onWay, old⟩
  · exact .inl free

/-- One level further, or no further. -/
theorem Descent.next (descent : Descent s₀ root way p t s) (room : p.length ≤ 2)
    (onWay : p ++ [i] <+: way) (writable : flags = 3 ∨ flags = 7) :
    getOrCreate s (physToVirt s.hhdm t) i flags = some (0, s) ∨
    ∃ u s', getOrCreate s (physToVirt s.hhdm t) i flags = some (physToVirt s'.hhdm u, s') ∧
      Descent s₀ root way (p ++ [i]) u s' ∧ physToVirt s'.hhdm u ≠ 0 := by
  obtain ⟨new, grown⟩ := descent.grown
  rcases getOrCreate_spec (i := i) grown.paging descent.here room writable with
    ⟨_, _, failed⟩ | ⟨u, s', created, here, grown'⟩
  · exact .inl failed
  · right
    have length : (p ++ [i]).length ≤ 3 := by
      rw [List.length_append]
      exact Nat.succ_le_succ room
    refine ⟨u, s', grown'.hhdm.symm ▸ created, ⟨⟨_, grown.trans grown'⟩, here, onWay, ?_⟩,
      (grown'.paging.table _ u length here).nonnull⟩
    intro a off
    obtain ⟨offTable, offFree⟩ := descent.off (Nat.le_succ_of_le room) off
    rw [getOrCreate_touches grown.paging.ready created offTable offFree]
    exact descent.bytes a off

/-- `vmm_map` writes the tables on the way to the page and frames that were free. -/
theorem vmmMap_touches {phys : Nat} (paging : Paging root s)
    (done : vmmMap s (physToVirt s.hhdm root) virt phys flags = some s')
    (off : s.OffWay root (path virt) a) : s'.mem a = s.mem a := by
  have writable := tableFlags_cases flags
  have start : Descent s root (path virt) [] root s :=
    ⟨⟨[], .refl paging⟩, rfl, List.nil_prefix, fun _ _ => rfl⟩
  have way : path virt = [pml4Idx virt, pdptIdx virt, pdIdx virt] := rfl
  rcases start.next (i := pml4Idx virt) (by simp) (by simp [way]) writable with
    fail₁ | ⟨u₁, s₁, create₁, descent₁, null₁⟩
  · rw [vmmMap, fail₁] at done
    obtain rfl := Option.some.inj done
    rfl
  rw [vmmMap, create₁] at done
  simp only [Option.bind_eq_bind, Option.bind_some, if_neg null₁] at done
  rcases descent₁.next (i := pdptIdx virt) (by simp) (by simp [way]) writable with
    fail₂ | ⟨u₂, s₂, create₂, descent₂, null₂⟩
  · rw [fail₂] at done
    obtain rfl := Option.some.inj done
    exact descent₁.bytes a off
  rw [create₂] at done
  simp only [Option.bind_some, if_neg null₂] at done
  rcases descent₂.next (i := pdIdx virt) (by simp) (by simp [way]) writable with
    fail₃ | ⟨u₃, s₃, create₃, descent₃, null₃⟩
  · rw [fail₃] at done
    obtain rfl := Option.some.inj done
    exact descent₂.bytes a off
  rw [create₃] at done
  simp only [Option.bind_some, if_neg null₃] at done
  obtain rfl := Option.some.inj done
  rw [mem_setEntry (descent₃.off (by simp) off).1]
  exact descent₃.bytes a off

/-! ### Edits -/

/-- What mapping or unmapping the page at `virt` does to the pagemap at `root`, and to all
frames that were in use. -/
structure Edit (root virt : Nat) (s s' : Vm) : Prop where
  paging : Paging root s'
  same : Pmm.SameMap s.pmm s'.pmm
  free : ∀ f, s'.pmm.Free f → s.pmm.Free f
  kept : ∀ q t, q.length ≤ 3 → s.tableAt root q = some t → s'.tableAt root q = some t
  added : ∀ q t, q.length ≤ 3 → s'.tableAt root q = some t → s.tableAt root q = some t ∨
    q <+: path virt ∧ q ≠ [] ∧ s.tableAt root q = none ∧ s.pmm.Free t
  slots : ∀ f j, IsFrame f → ¬ s.pmm.Free f →
    (∀ p, p <+: path virt → s.tableAt root p ≠ some f) → s'.slot f j = s.slot f j
  leaf : ∀ virt', pageOf virt ≠ pageOf virt' → s'.leaf root virt' = s.leaf root virt'

theorem Edit.hhdm (edit : Edit root virt s s') : s'.hhdm = s.hhdm := edit.same.hhdmOffset

/-- Entries of a table depend on the bytes of its page. -/
theorem slot_congr (hhdm : s'.hhdm = s.hhdm) (bytes : ∀ a, physToVirt s.hhdm f ≤ a →
    a < physToVirt s.hhdm f + pageSize → s'.mem a = s.mem a) : s'.slot f j = s.slot f j := by
  have index := j.isLt
  rw [slot, slot, entry, entry, hhdm]
  apply load_congr
  intro a low high
  apply bytes a (by omega)
  dsimp only [pageSize]
  omega

/-- The page of a frame that is neither free nor a table on the way is off the way. -/
theorem offWay_of_page (paging : Paging root s) (frame : IsFrame f) (used : ¬ s.pmm.Free f)
    (short : way.length ≤ 3) (other : ∀ p, p <+: way → s.tableAt root p ≠ some f)
    (low : physToVirt s.hhdm f ≤ a) (high : a < physToVirt s.hhdm f + pageSize) :
    s.OffWay root way a := by
  intro g reached
  have differ : f ≠ g ∧ IsFrame g := by
    rcases reached with free | ⟨p, onWay, here⟩
    · refine ⟨?_, paging.ready.isFrame free⟩
      rintro rfl
      exact used free
    · refine ⟨?_, (paging.table p g (Nat.le_trans onWay.length_le short) here).frame⟩
      rintro rfl
      exact other p onWay here
  have apart := physToVirt_apart paging.hhdm frame differ.2 differ.1
  omega

theorem mem_missing (member : q ∈ s.missing root virt) :
    q <+: path virt ∧ q ≠ [] ∧ s.tableAt root q = none := by
  have absent : ∀ p, q ∈ s.absent root p → q = p ∧ s.tableAt root q = none := by
    intro p member
    unfold Vm.absent at member
    split at member
    · cases member
    next gone =>
      obtain rfl := List.mem_singleton.mp member
      exact ⟨rfl, by simpa using gone⟩
  rcases List.mem_append.mp member with upper | last
  · rcases List.mem_append.mp upper with first | second
    · obtain ⟨rfl, gone⟩ := absent _ first
      exact ⟨by simp [path], by simp, gone⟩
    · obtain ⟨rfl, gone⟩ := absent _ second
      exact ⟨by simp [path], by simp, gone⟩
  · obtain ⟨rfl, gone⟩ := absent _ last
    exact ⟨List.prefix_rfl, by simp [path], gone⟩

/-- Replacing a last-level entry. -/
theorem edit_setLeaf {w : Nat} (paging : Paging root s) (here : s.tableAt root (path virt) = some t)
    (word : w < 2 ^ 64) : Edit root virt s (s.setEntry (physToVirt s.hhdm t) (ptIdx virt) w) := by
  obtain ⟨tables, after⟩ := paging_setLeaf paging here word
  have table := paging.table (path virt) t path_short here
  constructor
  case paging => exact after
  case same => exact paging.ready.wf.refl
  case free => exact fun f free => free
  case kept =>
    intro q t' short old
    rw [tables q short]
    exact old
  case added =>
    intro q t' short new
    rw [tables q short] at new
    exact .inl new
  case slots =>
    intro f j frame _ other
    rw [slot_setEntry paging.hhdm table.frame frame word, if_neg]
    rintro ⟨rfl, _⟩
    exact other (path virt) List.prefix_rfl here
  case leaf =>
    intro virt' differ
    rw [leaf_setLeaf paging here word, if_neg differ]

theorem vmmMap_edit {phys : Nat} (paging : Paging root s) (word : phys ||| flags < 2 ^ 64)
    (enough : (s.missing root virt).length ≤ s.pmm.freePages) :
    ∃ s', vmmMap s (physToVirt s.hhdm root) virt phys flags = some s' ∧ Edit root virt s s' ∧
      s'.leaf root virt = phys ||| flags := by
  obtain ⟨s₁, new, grown, ⟨_, isNew, t, here, done⟩ | ⟨few, _⟩⟩ := vmmMap_spec paging virt phys flags
  swap
  · exact absurd enough (by omega)
  have last := edit_setLeaf grown.paging here word
  obtain ⟨tables, _⟩ := paging_setLeaf grown.paging here word
  refine ⟨_, done, ⟨last.paging, grown.same.trans last.same, ?_, ?_, ?_, ?_, ?_⟩, ?_⟩
  · exact fun f free => grown.free f (last.free f free)
  · exact fun q t' short old => last.kept q t' short (grown.kept q t' short old)
  · intro q t' short after
    rw [tables q short] at after
    rcases grown.added q t' short after with old | ⟨member, free⟩
    · exact .inl old
    · rw [isNew] at member
      obtain ⟨onWay, nonempty, gone⟩ := mem_missing member
      exact .inr ⟨onWay, nonempty, gone, free⟩
  · intro f j frame used other
    apply slot_congr (last.hhdm.trans grown.hhdm)
    intro a low high
    apply vmmMap_touches paging done
    exact offWay_of_page paging frame used path_short other low high
  · intro virt' differ
    rw [last.leaf virt' differ, grown.leaf]
  · rw [leaf_setLeaf grown.paging here word, if_pos rfl]

theorem vmmUnmap_edit (paging : Paging root s) (virt : Nat) :
    Edit root virt s (vmmUnmap s (physToVirt s.hhdm root) virt) := by
  rw [vmmUnmap_eq]
  cases here : s.tableAt root (path virt) with
  | none =>
    exact ⟨paging, paging.ready.wf.refl, fun _ free => free, fun _ _ _ old => old,
      fun _ _ _ new => .inl new, fun _ _ _ _ _ => rfl, fun _ _ => rfl⟩
  | some t => exact edit_setLeaf paging here (by decide)

end Vm

end DedOS
