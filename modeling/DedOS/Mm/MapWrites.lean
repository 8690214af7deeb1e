import DedOS.Mm.Processor

/-!
# What a mapping writes

For any structure that the bootloader may leave in `cr3`: along a way of clean entries `vmm_map`
and `vmm_unmap` write page tables and frames fresh from `pmm_alloc`, and nothing else
(`mapping_writes_tables`). An entry of a large page is followed as if it held a table, and the
page is written (`large_page_overwritten`).
-/

namespace DedOS

open Lib

namespace Vm

/-- The processor comes to a table in the frame. -/
def IsHardTable (s : Vm) (root f : Nat) : Prop := ∃ q, q.length ≤ 3 ∧ s.hardTable root q = some f

/-- `pmm_alloc` has given the frame out between `s` and `s'`. -/
def Fresh (s s' : Vm) (f : Nat) : Prop := s.pmm.Free f ∧ ¬ s'.pmm.Free f

/-- From `s` to `s'` only tables under `root` and fresh frames are written. -/
def WritesTables (root : Nat) (s s' : Vm) : Prop :=
  ∀ a, (∀ f, s.IsHardTable root f ∨ Fresh s s' f →
    a < physToVirt s.hhdm f ∨ physToVirt s.hhdm f + pageSize ≤ a) → s'.mem a = s.mem a

variable {s s' s₀ : Vm} {root virt t u v a f flags phys : Nat} {i j : Fin 512}
  {p q : List (Fin 512)}

theorem WritesTables.refl : WritesTables root s s := fun _ _ => rfl

/-! ### Frames -/

theorem wf_isFrame (wf : s.pmm.WF) (free : s.pmm.Free f) : IsFrame f := by
  obtain ⟨page, below, rfl, _⟩ := free
  have bounded := wf.bounded
  constructor
  · exact Nat.mul_mod_left page pageSize
  · dsimp only [pageSize]
    omega

theorem hardTable_isFrame (frame : IsFrame root) (here : s.hardTable root p = some t) : IsFrame t := by
  rcases List.eq_nil_or_concat p with rfl | ⟨before, i, rfl⟩
  · obtain rfl := Option.some.inj here
    exact frame
  · have low := hardTable_lt (by simp) here
    rw [List.concat_eq_append, hardTable, walk_append, Option.bind_eq_some_iff] at here
    obtain ⟨u, _, last⟩ := here
    rw [walk_cons, Option.bind_eq_some_iff] at last
    obtain ⟨v, next, rest⟩ := last
    obtain rfl := Option.some.inj rest
    unfold tableOf at next
    split at next
    · obtain rfl := Option.some.inj next
      refine ⟨?_, low⟩
      rw [and_addressMask slot_lt]
      dsimp only [pageSize]
      omega
    · cases next

/-- `pmm_alloc` fails or takes a free frame, which is frame 0 or can hold a table. -/
theorem alloc_cases (wf : s.pmm.WF) : ∃ u pmm, pmmAlloc s.pmm = some (u, pmm) ∧
    Pmm.SameMap s.pmm pmm ∧ (∀ f, pmm.Free f → s.pmm.Free f) ∧
    (u ≠ 0 → s.pmm.Free u ∧ ∀ f, pmm.Free f ↔ s.pmm.Free f ∧ f ≠ u) := by
  rcases pmmAlloc_spec wf with ⟨_, failed⟩ | ⟨j, pmm, below, clear, found, same, after, _⟩
  · exact ⟨0, s.pmm, failed, wf.refl, fun _ free => free, fun nonzero => absurd rfl nonzero⟩
  · have others := Pmm.free_of_taken same after
    exact ⟨j * pageSize, pmm, found, same, fun f left => ((others f).mp left).1,
      fun _ => ⟨Pmm.free_page.mpr ⟨below, clear⟩, others⟩⟩

/-! ### The descent -/

/-- A descent from `s₀` has come to the table `t`: nothing has been written yet, or `t` is fresh
and the entries of the fresh frames refer to fresh frames. -/
structure Reached (s₀ : Vm) (root : Nat) (p : List (Fin 512)) (t : Nat) (s : Vm) : Prop where
  same : Pmm.SameMap s₀.pmm s.pmm
  free : ∀ f, s.pmm.Free f → s₀.pmm.Free f
  frame : IsFrame t
  writes : WritesTables root s₀ s
  here : s = s₀ ∧ s₀.hardTable root p = some t ∨
    Fresh s₀ s t ∧ ∀ f j, Fresh s₀ s f → s.slot f j = 0 ∨
      ∃ u, Fresh s₀ s u ∧ child (s.slot f j) = some u

theorem Reached.hhdm (reached : Reached s₀ root p t s) : s.hhdm = s₀.hhdm := reached.same.hhdmOffset

/-- The frame of the table may be written. -/
theorem Reached.allowed (reached : Reached s₀ root p t s) (short : p.length ≤ 3) :
    s₀.IsHardTable root t ∨ Fresh s₀ s t := by
  rcases reached.here with ⟨_, here⟩ | ⟨fresh, _⟩
  · exact .inl ⟨p, short, here⟩
  · exact .inr fresh

/-- Fewer free frames, more that may be written. -/
theorem WritesTables.mono {pmm : Pmm} (writes : WritesTables root s₀ s)
    (fewer : ∀ f, pmm.Free f → s.pmm.Free f) : WritesTables root s₀ { s with pmm := pmm } := by
  intro a off
  apply writes
  rintro f (table | ⟨free, taken⟩)
  · exact off f (.inl table)
  · exact off f (.inr ⟨free, fun left => taken (fewer f left)⟩)

/-- A store into a table that may be written. -/
theorem WritesTables.setEntry {w : Nat} (writes : WritesTables root s₀ s)
    (allowed : s₀.IsHardTable root t ∨ Fresh s₀ s t) :
    WritesTables root s₀ (s.setEntry (physToVirt s₀.hhdm t) i w) := by
  intro a off
  have away := off t allowed
  have low := i.isLt
  have kept : (s.setEntry (physToVirt s₀.hhdm t) i w).mem a = s.mem a := by
    apply store_outside
    dsimp only [pageSize] at away
    omega
  rw [kept]
  exact writes a off

/-- … and the clearing of a fresh one. -/
theorem WritesTables.clearTable (writes : WritesTables root s₀ s) (fresh : Fresh s₀ s u) :
    WritesTables root s₀ (s.clearTable (physToVirt s₀.hhdm u)) := by
  intro a off
  have away := off u (.inr fresh)
  have cleared : (s.clearTable (physToVirt s₀.hhdm u)).mem a = s.mem a := by
    apply zeroTable_outside
    dsimp only [pageSize] at away
    omega
  rw [cleared]
  exact writes a off

/-- The entries after a new table has been cleared and hung into an entry. -/
theorem slot_created {pmm : Pmm} (hhdm : s.hhdm % pageSize = 0) (same : Pmm.SameMap s.pmm pmm)
    (table : IsFrame t) (frame : IsFrame u) (isFrame : IsFrame f) (small : flags < pageSize) :
    ((clearTable { s with pmm := pmm } (physToVirt s.hhdm u)).setEntry (physToVirt s.hhdm t) i
      (u ||| flags)).slot f j =
        if f = t ∧ j = i then u + flags else if f = u then 0 else s.slot f j := by
  obtain ⟨mid, isMid⟩ : ∃ mid, mid = clearTable { s with pmm := pmm } (physToVirt s.hhdm u) := ⟨_, rfl⟩
  have midHhdm : mid.hhdm = s.hhdm := by
    rw [isMid]
    exact same.hhdmOffset
  have midMem : mid.mem = zeroTable (physToVirt s.hhdm u) 512 s.mem := by
    rw [isMid]
    rfl
  -- clearing the new table leaves all other frames alone
  have midSlot : mid.slot f j = if f = u then 0 else s.slot f j := by
    split
    next here =>
      rw [here, slot, entry, midHhdm, midMem]
      exact load_zeroTable j.isLt
    next other =>
      have apart := physToVirt_apart hhdm isFrame frame other
      have low := j.isLt
      rw [slot, slot, entry, entry, midHhdm, midMem]
      apply load_congr
      intro x above below
      apply zeroTable_outside
      dsimp only [pageSize] at apart
      omega
  have word : u + flags < 2 ^ 64 := by
    have bound := frame.2
    dsimp only [pageSize] at small
    omega
  have aligned : mid.hhdm % pageSize = 0 := by rw [midHhdm, hhdm]
  rw [← isMid, ← midHhdm, frame_or frame.1 small, slot_setEntry aligned table isFrame word, midSlot]

/-- An entry that is present is followed. -/
theorem Reached.follow (reached : Reached s₀ root p t s) (wf : s₀.pmm.WF) (frame : IsFrame root)
    (clean : s₀.UpperClean root virt) (onWay : p ++ [i] <+: path virt)
    (present : s.slot t i &&& vmmPresent ≠ 0) :
    Reached s₀ root (p ++ [i]) (s.slot t i &&& frameMask) s := by
  rcases reached.here with ⟨rfl, here⟩ | ⟨fresh, content⟩
  · -- still in the tables of the structure
    obtain ⟨rest, whole⟩ := onWay
    have split : path virt = p ++ i :: rest := by
      rw [← whole, List.append_assoc, List.singleton_append]
    obtain ⟨low, small⟩ := clean _ ⟨p, i, rest, t, split, here, rfl⟩ present
    have next : s.hardTable root (p ++ [i]) = some (s.slot t i &&& frameMask) := by
      rw [hardTable, walk_concat here, tableOf, if_pos ⟨present, small⟩,
        (masks_agree slot_lt).mpr low]
    exact ⟨reached.same, reached.free, hardTable_isFrame frame next, reached.writes,
      .inl ⟨rfl, next⟩⟩
  · -- among the fresh frames
    have refers : child (s.slot t i) = some (s.slot t i &&& frameMask) := if_pos present
    rcases content t i fresh with zero | ⟨u, fresh', next⟩
    · rw [zero] at present
      exact absurd (Nat.zero_and _) present
    · -- the entries of fresh frames refer to fresh frames
      obtain rfl := Option.some.inj (refers.symm.trans next)
      exact ⟨reached.same, reached.free, wf_isFrame wf fresh'.1, reached.writes,
        .inr ⟨fresh', content⟩⟩

/-- An entry that is absent gets a fresh table. -/
theorem Reached.create {pmm : Pmm} (reached : Reached s₀ root p t s) (wf : s₀.pmm.WF)
    (hhdm : s₀.hhdm % pageSize = 0) (room : p.length ≤ 2) (writable : flags = 3 ∨ flags = 7)
    (same : Pmm.SameMap s.pmm pmm) (free : s.pmm.Free u)
    (others : ∀ f, pmm.Free f ↔ s.pmm.Free f ∧ f ≠ u) :
    Reached s₀ root (p ++ [i]) u ((clearTable { s with pmm := pmm } (physToVirt s.hhdm u)).setEntry
      (physToVirt s.hhdm t) i (u ||| flags)) := by
  have sameHhdm := reached.hhdm
  have frame := wf_isFrame reached.same.wf free
  have freshU : Fresh s₀ { s with pmm := pmm } u :=
    ⟨reached.free u free, fun left => ((others u).mp left).2 rfl⟩
  have grows : ∀ f, Fresh s₀ s f → Fresh s₀ { s with pmm := pmm } f := fun f fresh =>
    ⟨fresh.1, fun left => fresh.2 ((others f).mp left).1⟩
  have cleared := (reached.writes.mono fun f left => ((others f).mp left).1).clearTable freshU
  have small : flags < pageSize := by
    dsimp only [pageSize]
    omega
  have slots := fun {f j} (isFrame : IsFrame f) =>
    slot_created (i := i) (j := j) (sameHhdm ▸ hhdm) same reached.frame frame isFrame small
  have allowed : s₀.IsHardTable root t ∨ Fresh s₀ { s with pmm := pmm } t :=
    (reached.allowed (Nat.le_succ_of_le room)).imp_right (grows t)
  refine ⟨reached.same.trans same, fun f left => reached.free f ((others f).mp left).1, frame, ?_,
    .inr ⟨freshU, ?_⟩⟩
  · rw [sameHhdm]
    exact cleared.setEntry allowed
  · intro f j fresh
    have isFrame := wf_isFrame wf fresh.1
    rw [slots isFrame]
    split
    · -- the entry that was absent
      right
      refine ⟨u, freshU, (child_eq_some ?_).mpr ?_⟩
      · have bound := frame.2
        omega
      · have aligned := frame.1
        dsimp only [pageSize] at *
        omega
    · split
      · exact .inl rfl
      next other =>
        -- an entry of an older fresh table
        have old : Fresh s₀ s f := by
          refine ⟨fresh.1, fun left => fresh.2 ((others f).mpr ⟨left, other⟩)⟩
        rcases reached.here with ⟨rfl, _⟩ | ⟨_, content⟩
        · exact absurd old.1 old.2
        · rcases content f j old with zero | ⟨v, fresh', next⟩
          · exact .inl zero
          · exact .inr ⟨v, grows v fresh', next⟩

/-- One level further, or no further. -/
theorem Reached.next (reached : Reached s₀ root p t s) (wf : s₀.pmm.WF) (hhdm : s₀.hhdm % pageSize = 0)
    (frame : IsFrame root) (clean : s₀.UpperClean root virt) (room : p.length ≤ 2)
    (onWay : p ++ [i] <+: path virt) (writable : flags = 3 ∨ flags = 7) :
    ∃ v s', getOrCreate s (physToVirt s.hhdm t) i flags = some (v, s') ∧
      WritesTables root s₀ s' ∧
      (v ≠ 0 → ∃ u, v = physToVirt s'.hhdm u ∧ Reached s₀ root (p ++ [i]) u s') := by
  by_cases present : s.entry (physToVirt s.hhdm t) i &&& vmmPresent ≠ 0
  · refine ⟨_, s, ?_, reached.writes, fun _ => ⟨_, rfl, reached.follow wf frame clean onWay present⟩⟩
    rw [getOrCreate, if_pos present]
    rfl
  obtain ⟨u, pmm, found, same, fewer, taken⟩ := alloc_cases reached.same.wf
  by_cases failed : u = 0
  · -- `get_or_create` returns NULL
    refine ⟨0, { s with pmm := pmm }, ?_, reached.writes.mono fewer, fun some => absurd rfl some⟩
    rw [getOrCreate, if_neg present, found]
    simp only [Option.bind_eq_bind, Option.bind_some, if_pos failed]
  · obtain ⟨free, others⟩ := taken failed
    have sameHhdm : Vm.hhdm { s with pmm := pmm } = s.hhdm := same.hhdmOffset
    have created := reached.create (i := i) wf hhdm room writable same free others
    refine ⟨physToVirt s.hhdm u, _, ?_, created.writes, fun _ => ⟨u, ?_, created⟩⟩
    · rw [getOrCreate, if_neg present, found]
      simp only [Option.bind_eq_bind, Option.bind_some, if_neg failed, sameHhdm]
    · rw [created.hhdm, reached.hhdm]

/-! ### Whole calls -/

/-- Along a way of clean entries `vmm_map` writes tables and fresh frames. -/
theorem vmmMap_writes (wf : s.pmm.WF) (hhdm : s.hhdm % pageSize = 0) (frame : IsFrame root)
    (clean : s.UpperClean root virt) (phys flags : Nat) : ∃ s',
      vmmMap s (physToVirt s.hhdm root) virt phys flags = some s' ∧ WritesTables root s s' := by
  have writable := tableFlags_cases flags
  have way : path virt = [pml4Idx virt, pdptIdx virt, pdIdx virt] := rfl
  have start : Reached s root [] root s :=
    ⟨wf.refl, fun _ free => free, frame, .refl, .inl ⟨rfl, rfl⟩⟩
  obtain ⟨v₁, s₁, done₁, writes₁, next₁⟩ := start.next (i := pml4Idx virt) wf hhdm frame clean
    (by simp) (by simp [way]) writable
  rw [vmmMap, done₁]
  -- `vmm_map` returns at the first NULL
  by_cases null₁ : v₁ = 0
  · exact ⟨s₁, by simp [null₁], writes₁⟩
  obtain ⟨u₁, rfl, reached₁⟩ := next₁ null₁
  obtain ⟨v₂, s₂, done₂, writes₂, next₂⟩ := reached₁.next (i := pdptIdx virt) wf hhdm frame clean
    (by simp) (by simp [way]) writable
  simp only [Option.bind_eq_bind, Option.bind_some, if_neg null₁, done₂]
  by_cases null₂ : v₂ = 0
  · exact ⟨s₂, by simp [null₂], writes₂⟩
  obtain ⟨u₂, rfl, reached₂⟩ := next₂ null₂
  obtain ⟨v₃, s₃, done₃, writes₃, next₃⟩ := reached₂.next (i := pdIdx virt) wf hhdm frame clean
    (by simp) (by simp [way]) writable
  simp only [if_neg null₂, done₃, Option.bind_some]
  by_cases null₃ : v₃ = 0
  · exact ⟨s₃, by simp [null₃], writes₃⟩
  obtain ⟨u₃, rfl, reached₃⟩ := next₃ null₃
  refine ⟨_, by rw [if_neg null₃]; rfl, ?_⟩
  rw [reached₃.hhdm]
  exact writes₃.setEntry (reached₃.allowed (by simp))

/-- … and `vmm_unmap` the last table on the way. -/
theorem vmmUnmap_writes (clean : s.UpperClean root virt) :
    WritesTables root s (vmmUnmap s (physToVirt s.hhdm root) virt) := by
  rw [vmmUnmap_eq]
  cases here : s.tableAt root (path virt) with
  | none => exact .refl
  | some t =>
    rw [tableAt_eq clean List.prefix_rfl] at here
    exact WritesTables.refl.setEntry (.inl ⟨path virt, path_short, here⟩)

/-- Where the code has come to a page that is no table, it writes the page. -/
theorem setEntry_writes_iff {w : Nat} (hhdm : s.hhdm % pageSize = 0) (frame : IsFrame root)
    (isFrame : IsFrame t) (stray : ¬ s.IsHardTable root t) (word : w < 2 ^ 64) :
    WritesTables root s (s.setEntry (physToVirt s.hhdm t) i w) ↔ s.slot t i = w := by
  have low := i.isLt
  constructor
  · intro writes
    -- the entry lies in no table, so its bytes have been kept
    have kept : (s.setEntry (physToVirt s.hhdm t) i w).slot t i = s.slot t i := by
      have hhdm' : (s.setEntry (physToVirt s.hhdm t) i w).hhdm = s.hhdm := rfl
      refine slot_congr hhdm' fun a below above => writes a ?_
      rintro f (⟨q, short, here⟩ | ⟨free, taken⟩)
      · have differ : t ≠ f := by
          rintro rfl
          exact stray ⟨q, short, here⟩
        have apart := physToVirt_apart hhdm isFrame (hardTable_isFrame frame here) differ
        omega
      · exact absurd free taken
    rw [slot_setEntry hhdm isFrame isFrame word, if_pos ⟨rfl, rfl⟩] at kept
    exact kept.symm
  · -- the same word again
    rintro rfl
    have same : (s.setEntry (physToVirt s.hhdm t) i (s.slot t i)).mem = s.mem :=
      store_load 8 s.mem (physToVirt s.hhdm t + 8 * i)
    intro a _
    rw [same]

/-- The pointers to the tables on the way are not null. -/
def NonNullWay (s : Vm) (root virt : Nat) : Prop :=
  ∀ p t, p <+: path virt → p ≠ [] → s.tableAt root p = some t → physToVirt s.hhdm t ≠ 0

theorem getOrCreate_present (present : child (s.slot t i) = some u) :
    getOrCreate s (physToVirt s.hhdm t) i flags = some (physToVirt s.hhdm u, s) := by
  unfold child at present
  split at present
  next set =>
    obtain rfl := Option.some.inj present
    exact if_pos set
  · cases present

/-- Where the code finds all tables, `vmm_map` is one store. -/
theorem vmmMap_present (here : s.tableAt root (path virt) = some t) (nonnull : s.NonNullWay root virt) :
    vmmMap s (physToVirt s.hhdm root) virt phys flags =
      some (s.setEntry (physToVirt s.hhdm t) (ptIdx virt) (phys ||| flags)) := by
  have way : path virt = [pml4Idx virt, pdptIdx virt, pdIdx virt] := rfl
  have steps := here
  -- the walk gives the three present entries that `get_or_create` finds
  rw [tableAt, way, walk_cons, Option.bind_eq_some_iff] at steps
  obtain ⟨u, first, steps⟩ := steps
  rw [walk_cons, Option.bind_eq_some_iff] at steps
  obtain ⟨v, second, steps⟩ := steps
  rw [walk_cons, Option.bind_eq_some_iff] at steps
  obtain ⟨t, third, last⟩ := steps
  obtain rfl := Option.some.inj last
  have at₁ : s.tableAt root [pml4Idx virt] = some u := (walk_concat (p := []) rfl).trans first
  have at₂ : s.tableAt root [pml4Idx virt, pdptIdx virt] = some v := (walk_concat at₁).trans second
  have null₁ := nonnull _ u (by simp [way]) (by simp) at₁
  have null₂ := nonnull _ v (by simp [way]) (by simp) at₂
  have null₃ := nonnull _ _ List.prefix_rfl (by simp [way]) here
  rw [vmmMap, getOrCreate_present first]
  simp only [Option.bind_eq_bind, Option.bind_some, if_neg null₁]
  rw [getOrCreate_present second]
  simp only [Option.bind_some, if_neg null₂]
  rw [getOrCreate_present third]
  simp only [Option.bind_some, if_neg null₃]
  rfl

/-- … unless its entry holds the very word already. -/
theorem stray_writes (hhdm : s.hhdm % pageSize = 0) (frame : IsFrame root)
    (here : s.tableAt root (path virt) = some t) (isFrame : IsFrame t)
    (stray : ¬ s.IsHardTable root t) :
    (WritesTables root s (vmmUnmap s (physToVirt s.hhdm root) virt) ↔ s.slot t (ptIdx virt) = 0) ∧
    (s.NonNullWay root virt → ∀ phys flags, phys ||| flags < 2 ^ 64 →
      ∃ s', vmmMap s (physToVirt s.hhdm root) virt phys flags = some s' ∧
        (WritesTables root s s' ↔ s.slot t (ptIdx virt) = phys ||| flags)) := by
  constructor
  · rw [vmmUnmap_eq, here]
    exact setEntry_writes_iff hhdm frame isFrame stray (by decide)
  · intro nonnull phys flags word
    exact ⟨_, vmmMap_present here nonnull, setEntry_writes_iff hhdm frame isFrame stray word⟩

/-- In every structure that the processor can walk and every state of the allocator, mapping and
unmapping a page with clean entries on its way modifies no frame but tables of the structure
and frames that `pmm_alloc` gave out during the call. A way that ends at a frame which is no
table, as it does behind a large page, has its entry of that frame modified. -/
theorem mapping_writes_tables (wf : s.pmm.WF) (hhdm : s.hhdm % pageSize = 0) (frame : IsFrame root) :
    (s.UpperClean root virt →
      (∀ phys flags, ∃ s', vmmMap s (physToVirt s.hhdm root) virt phys flags = some s' ∧
        WritesTables root s s') ∧
      WritesTables root s (vmmUnmap s (physToVirt s.hhdm root) virt)) ∧
    (∀ t, s.tableAt root (path virt) = some t → IsFrame t → ¬ s.IsHardTable root t →
      (WritesTables root s (vmmUnmap s (physToVirt s.hhdm root) virt) ↔
        s.slot t (ptIdx virt) = 0) ∧
      (s.NonNullWay root virt → ∀ phys flags, phys ||| flags < 2 ^ 64 →
        ∃ s', vmmMap s (physToVirt s.hhdm root) virt phys flags = some s' ∧
          (WritesTables root s s' ↔ s.slot t (ptIdx virt) = phys ||| flags))) :=
  ⟨fun clean => ⟨vmmMap_writes wf hhdm frame clean, vmmUnmap_writes clean⟩,
    fun _ here isFrame stray => stray_writes hhdm frame here isFrame stray⟩

theorem mapping_writes_tables_empty : ∃ s',
    vmmMap emptyPagemap (physToVirt emptyPagemap.hhdm 0x1000) 0x400000 0x5000 3 = some s' ∧
      WritesTables 0x1000 emptyPagemap s' :=
  ((mapping_writes_tables emptyPagemap_paging.ready.wf emptyPagemap_paging.hhdm
    emptyPagemap_paging.root_frame.frame).1 (emptyPagemap_paging.upperClean 0x400000)).1 0x5000 3

/-- A 2 MiB page at 0, with data in it. -/
def largePagemap : Vm :=
  emptyPagemap |>.setEntry (physToVirt emptyPagemap.hhdm 0x1000) 0 0x10003
    |>.setEntry (physToVirt emptyPagemap.hhdm 0x10000) 0 0x11003
    |>.setEntry (physToVirt emptyPagemap.hhdm 0x11000) 0 0x200083
    |>.setEntry (physToVirt emptyPagemap.hhdm 0x200000) 0 42

theorem largePagemap_slot (isFrame : IsFrame f) : largePagemap.slot f j =
    if f = 0x200000 ∧ j = 0 then 42 else if f = 0x11000 ∧ j = 0 then 0x200083
    else if f = 0x10000 ∧ j = 0 then 0x11003 else if f = 0x1000 ∧ j = 0 then 0x10003 else 0 := by
  have empty : emptyPagemap.slot f j = 0 := by simp [Vm.slot, Vm.entry, emptyPagemap, load]
  have aligned : emptyPagemap.hhdm % pageSize = 0 := emptyPagemap_paging.hhdm
  have tables : IsFrame 0x1000 ∧ IsFrame 0x10000 ∧ IsFrame 0x11000 ∧ IsFrame 0x200000 := by
    unfold IsFrame
    decide
  obtain ⟨pml4, pdpt, pd, page⟩ := tables
  have step : ∀ (s : Vm) (t : Nat) (i : Fin 512) (w : Nat), s.hhdm = emptyPagemap.hhdm → IsFrame t →
      w < 2 ^ 64 → (s.setEntry (physToVirt emptyPagemap.hhdm t) i w).slot f j =
        if f = t ∧ j = i then w else s.slot f j := by
    intro s t i w same table word
    rw [← same]
    exact slot_setEntry (by rw [same, aligned]) table isFrame word
  -- the last store is looked up first
  unfold largePagemap
  rw [step, step, step, step, empty]
  any_goals rfl
  any_goals decide
  all_goals assumption

/-- The three tables are all that the processor comes to. -/
theorem largePagemap_tables (table : t = 0x1000 ∨ t = 0x10000 ∨ t = 0x11000)
    (reached : walk largePagemap.slot tableOf t q = some f) :
    f = 0x1000 ∨ f = 0x10000 ∨ f = 0x11000 := by
  induction q generalizing t with
  | nil =>
    obtain rfl := Option.some.inj reached
    exact table
  | cons i q ih =>
    rw [walk_cons, Option.bind_eq_some_iff] at reached
    obtain ⟨u, next, rest⟩ := reached
    have isFrame : IsFrame t := by
      unfold IsFrame
      rcases table with rfl | rfl | rfl <;> decide
    rw [largePagemap_slot isFrame] at next
    by_cases first : i = 0
    · rcases table with rfl | rfl | rfl
      · simp [first, tableOf, vmmPresent, largePage, addressMask] at next
        exact ih (.inr (.inl next.symm)) rest
      · simp [first, tableOf, vmmPresent, largePage, addressMask] at next
        exact ih (.inr (.inr next.symm)) rest
      · -- the entry of the large page
        simp [first, tableOf, vmmPresent, largePage] at next
    · simp [first, tableOf] at next

theorem largePagemap_page : ¬ largePagemap.IsHardTable 0x1000 0x200000 := by
  rintro ⟨q, _, here⟩
  have table := largePagemap_tables (.inl rfl) here
  omega

/-- Mapping and unmapping the first 4 KiB of a 2 MiB page write into the page. -/
theorem large_page_overwritten : largePagemap.processorWalk 0x1000 0 = some 0x200000 ∧
    (∃ s', vmmMap largePagemap (physToVirt largePagemap.hhdm 0x1000) 0 0xFEE00000 3 = some s' ∧
      ¬ WritesTables 0x1000 largePagemap s') ∧
    ¬ WritesTables 0x1000 largePagemap
      (vmmUnmap largePagemap (physToVirt largePagemap.hhdm 0x1000) 0) := by
  have slots := fun f frame => largePagemap_slot (f := f) (j := 0) frame
  have root := slots 0x1000 (by unfold IsFrame; decide)
  have pdpt := slots 0x10000 (by unfold IsFrame; decide)
  have pd := slots 0x11000 (by unfold IsFrame; decide)
  have page := slots 0x200000 (by unfold IsFrame; decide)
  simp at root pdpt pd page
  have way : path 0 = [0, 0, 0] := by decide
  have table₁ : largePagemap.tableAt 0x1000 [0] = some 0x10000 :=
    (walk_concat (p := []) rfl).trans (by rw [root]; decide)
  have table₂ : largePagemap.tableAt 0x1000 [0, 0] = some 0x11000 :=
    (walk_concat (p := [0]) table₁).trans (by rw [pdpt]; decide)
  have here : largePagemap.tableAt 0x1000 (path 0) = some 0x200000 :=
    way ▸ (walk_concat (p := [0, 0]) table₂).trans (by rw [pd]; decide)
  have nonnull : largePagemap.NonNullWay 0x1000 0 := by
    intro p t onWay some reached
    rw [way, ← List.mem_inits] at onWay
    have hhdm : largePagemap.hhdm = 0xffff800000000000 := rfl
    rw [hhdm]
    simp only [List.inits, List.map_cons, List.map_nil, List.mem_cons, List.not_mem_nil, or_false]
      at onWay
    rcases onWay with rfl | rfl | rfl | rfl
    · exact absurd rfl some
    · obtain rfl := Option.some.inj (table₁.symm.trans reached)
      decide
    · obtain rfl := Option.some.inj (table₂.symm.trans reached)
      decide
    · rw [way] at here
      obtain rfl := Option.some.inj (here.symm.trans reached)
      decide
  obtain ⟨unmapped, mapped⟩ := stray_writes (s := largePagemap) emptyPagemap_paging.hhdm
    emptyPagemap_paging.root_frame.frame here (by unfold IsFrame; decide) largePagemap_page
  -- the word at the page's start is 42: neither the new entry nor 0
  have index : ptIdx 0 = 0 := by decide
  rw [index, page] at unmapped mapped
  obtain ⟨s', done, writes⟩ := mapped nonnull 0xFEE00000 3 (by decide)
  refine ⟨?_, ⟨s', done, fun only => ?_⟩, fun only => ?_⟩
  · have indices : pml4Idx 0 = 0 ∧ pdptIdx 0 = 0 ∧ pdIdx 0 = 0 := by decide
    obtain ⟨first, second, third⟩ := indices
    rw [processorWalk, first, second, third, root]
    simp [vmmPresent, largePage, addressMask, pdpt, pd, largeFrame]
  · exact absurd (writes.mp only) (by decide)
  · exact absurd (unmapped.mp only) (by decide)

end Vm

end DedOS
