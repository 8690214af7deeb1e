import DedOS.Mm.Vmm

/-!
# A tree of page tables

`Paging root s`: the tables reached from the frame `root` form a tree, in frames the
allocator holds back. `get_or_create` descends one level and hangs a cleared table into an
empty entry when it must (`getOrCreate_spec`); `Grown` collects what such steps change, and
`vmm_map` is three of them followed by one store into the last table (`vmmMap_spec`). With
frames taken for other things besides, the steps compose along `Extends`.
-/

namespace DedOS

open Lib

namespace Vm

/-- Entry `i` of the table in frame `f`. -/
def slot (s : Vm) (f : Nat) (i : Fin 512) : Nat := s.entry (physToVirt s.hhdm f) i

/-- The frame of the table that a path of indices leads to. -/
def tableAt (s : Vm) (root : Nat) (path : List (Fin 512)) : Option Nat := walk s.slot child root path

/-- A frame that can hold a table: direct-mapped at a non-null page, and not free. -/
structure TableFrame (s : Vm) (f : Nat) : Prop where
  frame : IsFrame f
  nonnull : physToVirt s.hhdm f ≠ 0
  used : ¬ s.pmm.Free f

/-- The tables under `root` form a tree of 4 KiB mappings. -/
structure Paging (root : Nat) (s : Vm) : Prop where
  ready : s.pmm.Ready
  hhdm : s.hhdm % pageSize = 0
  tree : TreeTables s.slot child root 3
  table : ∀ q t, q.length ≤ 3 → s.tableAt root q = some t → s.TableFrame t
  /-- an upper entry that is present holds a frame and low flag bits, and no large page -/
  upper : ∀ q t i, q.length ≤ 2 → s.tableAt root q = some t → s.slot t i % 2 = 1 →
    s.slot t i < 2 ^ 52 ∧ s.slot t i % 256 < 128
  free : ∀ f, s.pmm.Free f → physToVirt s.hhdm f ≠ 0

variable {root f t u v w a flags : Nat} {s s' : Vm} {i j : Fin 512} {p q : List (Fin 512)}

theorem slot_lt : s.slot f i < 2 ^ 64 := load_lt 8 _ _

@[simp] theorem tableAt_nil : s.tableAt root [] = some root := rfl

theorem Paging.root_frame (paging : Paging root s) : s.TableFrame root :=
  paging.table [] root (by simp) rfl

/-! ### Stores into tables -/

theorem slot_setEntry (hhdm : s.hhdm % pageSize = 0) (table : IsFrame t) (frame : IsFrame f)
    (word : w < 2 ^ 64) : (s.setEntry (physToVirt s.hhdm t) i w).slot f j =
      if f = t ∧ j = i then w else s.slot f j := by
  have low := i.isLt
  have low' := j.isLt
  have address : (s.setEntry (physToVirt s.hhdm t) i w).slot f j =
      load 8 (store 8 s.mem (physToVirt s.hhdm t + 8 * i) w) (physToVirt s.hhdm f + 8 * j) := rfl
  rw [address]
  by_cases same : f = t
  · subst same
    by_cases here : j = i
    · subst here
      rw [if_pos ⟨rfl, rfl⟩]
      exact load_store_same word
    · rw [if_neg fun both => here both.2]
      have differ : (i : Nat) ≠ j := fun equal => here (Fin.ext equal.symm)
      apply load_store_disjoint
      omega
  · rw [if_neg fun both => same both.1]
    have apart := physToVirt_apart hhdm frame table same
    dsimp only [pageSize] at apart
    apply load_store_disjoint
    omega

/-- A store into a table leaves the bytes outside the table's page alone. -/
theorem mem_setEntry (outside : a < physToVirt s.hhdm t ∨ physToVirt s.hhdm t + pageSize ≤ a) :
    (s.setEntry (physToVirt s.hhdm t) i w).mem a = s.mem a := by
  have low := i.isLt
  apply store_outside
  dsimp only [pageSize] at outside
  omega

theorem zeroTable_outside {m : Memory} {n x : Nat} (outside : a < x ∨ x + 8 * n ≤ a) :
    zeroTable x n m a = m a := by
  induction n with
  | zero => rfl
  | succ n ih =>
    rw [zeroTable, store_outside (by omega)]
    apply ih
    omega

theorem load_zeroTable {m : Memory} {n x k : Nat} (below : k < n) :
    load 8 (zeroTable x n m) (x + 8 * k) = 0 := by
  induction n with
  | zero => omega
  | succ n ih =>
    rw [zeroTable]
    by_cases last : k = n
    · subst last
      exact load_store_same (by decide)
    · rw [load_store_disjoint (by omega)]
      apply ih
      omega

/-- What hanging the new table `u` into entry `i` of `t` does. -/
structure Hung (s s' : Vm) (t : Nat) (i : Fin 512) (u flags : Nat) : Prop where
  taken : s.pmm.Taken u s'.pmm
  hung : s'.slot t i = u + flags
  zeroed : ∀ j, s'.slot u j = 0
  others : ∀ f j, IsFrame f → f ≠ u → (f, j) ≠ (t, i) → s'.slot f j = s.slot f j
  bytes : ∀ a, (a < physToVirt s.hhdm t ∨ physToVirt s.hhdm t + pageSize ≤ a) →
    (a < physToVirt s.hhdm u ∨ physToVirt s.hhdm u + pageSize ≤ a) → s'.mem a = s.mem a

theorem hung_of_taken {pmm : Pmm} (ready : s.pmm.Ready) (hhdm : s.hhdm % pageSize = 0)
    (table : s.TableFrame t) (taken : s.pmm.Taken u pmm) (small : flags < pageSize) :
    Hung s ((clearTable { s with pmm := pmm } (physToVirt s.hhdm u)).setEntry
      (physToVirt s.hhdm t) i (u ||| flags)) t i u flags := by
  have frame := ready.isFrame taken.free
  have differ : t ≠ u := fun equal => table.used (equal ▸ taken.free)
  have word : u + flags < 2 ^ 64 := by
    have bound := frame.2
    dsimp only [pageSize] at small
    omega
  -- the state between the clearing loop and the store into the parent
  obtain ⟨mid, isMid⟩ : ∃ mid, mid = clearTable { s with pmm := pmm } (physToVirt s.hhdm u) := ⟨_, rfl⟩
  have midMem : mid.mem = zeroTable (physToVirt s.hhdm u) 512 s.mem := by rw [isMid]; rfl
  have midHhdm : mid.hhdm = s.hhdm := by rw [isMid]; exact taken.hhdm
  have midPmm : mid.pmm = pmm := by rw [isMid]; rfl
  have cleared : ∀ j, mid.slot u j = 0 := by
    intro j
    rw [slot, entry, midHhdm, midMem]
    exact load_zeroTable j.isLt
  have untouched : ∀ f j, IsFrame f → f ≠ u → mid.slot f j = s.slot f j := by
    intro f j isFrame other
    have apart := physToVirt_apart hhdm isFrame frame other
    have low := j.isLt
    rw [slot, slot, entry, entry, midHhdm, midMem]
    apply load_congr
    intro x above below
    apply zeroTable_outside
    dsimp only [pageSize] at apart
    omega
  rw [← isMid, ← midHhdm, frame_or frame.1 small]
  have write := fun {f j} (isFrame : IsFrame f) =>
    slot_setEntry (s := mid) (i := i) (j := j) (midHhdm ▸ hhdm) table.frame isFrame word
  constructor
  case taken =>
    rw [show (mid.setEntry _ i (u + flags)).pmm = mid.pmm from rfl, midPmm]
    exact taken
  case hung => rw [write table.frame, if_pos ⟨rfl, rfl⟩]
  case zeroed =>
    intro j
    rw [write frame, if_neg fun both => differ both.1.symm, cleared]
  case others =>
    intro f j isFrame other elsewhere
    have miss : ¬ (f = t ∧ j = i) := fun both => elsewhere (Prod.ext both.1 both.2)
    rw [write isFrame, if_neg miss, untouched f j isFrame other]
  case bytes =>
    intro a offTable offNew
    rw [← midHhdm] at offTable
    rw [mem_setEntry offTable, midMem]
    apply zeroTable_outside
    dsimp only [pageSize] at offNew
    omega

theorem Hung.hhdm (hung : Hung s s' t i u flags) : s'.hhdm = s.hhdm := hung.taken.hhdm

/-! ### Growing the tree -/

/-- The indices of the three upper levels. -/
def path (virt : Nat) : List (Fin 512) := [pml4Idx virt, pdptIdx virt, pdIdx virt]

/-- The last-level entry of a page, 0 where its table is missing. -/
def leaf (s : Vm) (root virt : Nat) : Nat :=
  (s.tableAt root (path virt)).elim 0 fun t => s.slot t (ptIdx virt)

/-- The frame holds one of the tables. -/
def IsTable (s : Vm) (root f : Nat) : Prop := ∃ q, q.length ≤ 3 ∧ s.tableAt root q = some f

theorem path_short {virt : Nat} : (path virt).length ≤ 3 := Nat.le_refl 3

/-- Three tables are on the way to a last-level table. -/
theorem way_short {virt : Nat} {before after : List (Fin 512)} {i : Fin 512}
    (split : path virt = before ++ i :: after) : before.length ≤ 2 := by
  have length := congrArg List.length split
  simp only [path, List.length_append, List.length_cons, List.length_nil] at length
  omega

/-- `s'` has the tables at the paths `new` more than `s`, and `frames` taken besides. -/
structure Extends (root : Nat) (s s' : Vm) (new : List (List (Fin 512))) (frames : List Nat) :
    Prop where
  paging : Paging root s'
  same : Pmm.SameMap s.pmm s'.pmm
  kept : ∀ q t, q.length ≤ 3 → s.tableAt root q = some t → s'.tableAt root q = some t
  added : ∀ q t, q.length ≤ 3 → s'.tableAt root q = some t →
    s.tableAt root q = some t ∨ q ∈ new ∧ s.pmm.Free t
  created : ∀ q ∈ new, q.length ≤ 3 ∧ (s'.tableAt root q).isSome
  count : s'.pmm.freePages + new.length + frames.length = s.pmm.freePages
  free : ∀ f, s'.pmm.Free f → s.pmm.Free f
  upper : ∀ q t i, q.length ≤ 2 → s'.tableAt root q = some t → s'.slot t i % 2 = 1 →
    s.tableAt root q = some t ∧ s'.slot t i = s.slot t i ∨ s'.slot t i % 4 = 3
  bytes : ∀ a, (∀ f, s.pmm.Free f ∨ s.IsTable root f →
    a < physToVirt s.hhdm f ∨ physToVirt s.hhdm f + pageSize ≤ a) → s'.mem a = s.mem a
  taken : ∀ f ∈ frames, s.pmm.Free f ∧ ¬ s'.pmm.Free f ∧ ¬ s'.IsTable root f
  distinct : frames.Nodup
  spent : ∀ f, s.pmm.Free f → s'.pmm.Free f ∨ s'.IsTable root f ∨ f ∈ frames

variable {s₁ s₂ s₃ : Vm} {new new' : List (List (Fin 512))} {frames frames' : List Nat}

theorem Extends.hhdm (extended : Extends root s s' new frames) : s'.hhdm = s.hhdm :=
  extended.same.hhdmOffset

/-- A table after the call is one from before or was free. -/
theorem Extends.table (extended : Extends root s s' new frames) (table : s'.IsTable root t) :
    s.IsTable root t ∨ s.pmm.Free t := by
  obtain ⟨q, short, reached⟩ := table
  rcases extended.added q t short reached with old | ⟨_, free⟩
  · exact .inl ⟨q, short, old⟩
  · exact .inr free

theorem Extends.trans (first : Extends root s₁ s₂ new frames)
    (second : Extends root s₂ s₃ new' frames') :
    Extends root s₁ s₃ (new ++ new') (frames ++ frames') where
  paging := second.paging
  same := first.same.trans second.same
  kept q t short here := second.kept q t short (first.kept q t short here)
  added q t short here := by
    rcases second.added q t short here with old | ⟨member, free⟩
    · rcases first.added q t short old with older | ⟨member, free⟩
      · exact .inl older
      · exact .inr ⟨List.mem_append_left _ member, free⟩
    · exact .inr ⟨List.mem_append_right _ member, first.free t free⟩
  created q member := by
    rcases List.mem_append.mp member with early | late
    · obtain ⟨short, here⟩ := first.created q early
      obtain ⟨t, here⟩ := Option.isSome_iff_exists.mp here
      rw [second.kept q t short here]
      exact ⟨short, rfl⟩
    · exact second.created q late
  count := by
    have one := first.count
    have two := second.count
    simp only [List.length_append]
    omega
  free f free := first.free f (second.free f free)
  upper q t i short here present := by
    rcases second.upper q t i short here present with ⟨old, same⟩ | new
    · rw [same] at present ⊢
      exact first.upper q t i short old present
    · exact .inr new
  bytes a outside := by
    rw [second.bytes a, first.bytes a outside]
    intro f reached
    rw [first.hhdm]
    apply outside
    rcases reached with free | table
    · exact .inl (first.free f free)
    · exact (first.table table).symm
  taken f member := by
    rcases List.mem_append.mp member with early | late
    · -- a frame that was taken is not free for a later table
      obtain ⟨free, used, noTable⟩ := first.taken f early
      refine ⟨free, fun later => used (second.free f later), fun table => ?_⟩
      rcases second.table table with old | later
      · exact noTable old
      · exact used later
    · obtain ⟨free, used, noTable⟩ := second.taken f late
      exact ⟨first.free f free, used, noTable⟩
  distinct := by
    refine List.nodup_append.mpr ⟨first.distinct, second.distinct, ?_⟩
    rintro f early _ late rfl
    -- what the second step takes was free after the first
    exact (first.taken f early).2.1 (second.taken f late).1
  spent f free := by
    rcases first.spent f free with left | ⟨q, short, here⟩ | early
    · rcases second.spent f left with left | table | late
      · exact .inl left
      · exact .inr (.inl table)
      · exact .inr (.inr (List.mem_append_right _ late))
    · exact .inr (.inl ⟨q, short, second.kept q f short here⟩)
    · exact .inr (.inr (List.mem_append_left _ early))

/-- `s'` has the tables at the paths `new` more than `s`, and translates as `s` does. -/
structure Grown (root : Nat) (s s' : Vm) (new : List (List (Fin 512))) : Prop where
  paging : Paging root s'
  same : Pmm.SameMap s.pmm s'.pmm
  kept : ∀ q t, q.length ≤ 3 → s.tableAt root q = some t → s'.tableAt root q = some t
  added : ∀ q t, q.length ≤ 3 → s'.tableAt root q = some t →
    s.tableAt root q = some t ∨ q ∈ new ∧ s.pmm.Free t
  created : ∀ q ∈ new, q.length ≤ 3 ∧ (s'.tableAt root q).isSome
  leaf : ∀ virt, s'.leaf root virt = s.leaf root virt
  count : s'.pmm.freePages + new.length = s.pmm.freePages
  free : ∀ f, s'.pmm.Free f → s.pmm.Free f
  upper : ∀ q t i, q.length ≤ 2 → s'.tableAt root q = some t → s'.slot t i % 2 = 1 →
    s.tableAt root q = some t ∧ s'.slot t i = s.slot t i ∨ s'.slot t i % 4 = 3
  bytes : ∀ a, (∀ f, s.pmm.Free f ∨ s.IsTable root f →
    a < physToVirt s.hhdm f ∨ physToVirt s.hhdm f + pageSize ≤ a) → s'.mem a = s.mem a
  spent : ∀ f, s.pmm.Free f → s'.pmm.Free f ∨ s'.IsTable root f

theorem Grown.extends (grown : Grown root s s' new) : Extends root s s' new [] where
  paging := grown.paging
  same := grown.same
  kept := grown.kept
  added := grown.added
  created := grown.created
  count := grown.count
  free := grown.free
  upper := grown.upper
  bytes := grown.bytes
  taken _ member := absurd member List.not_mem_nil
  distinct := List.nodup_nil
  spent f free := (grown.spent f free).imp_right .inl

theorem Extends.grown (extended : Extends root s s' new [])
    (leaf : ∀ virt, s'.leaf root virt = s.leaf root virt) : Grown root s s' new where
  paging := extended.paging
  same := extended.same
  kept := extended.kept
  added := extended.added
  created := extended.created
  leaf := leaf
  count := extended.count
  free := extended.free
  upper := extended.upper
  bytes := extended.bytes
  spent f free := by
    rcases extended.spent f free with left | table | taken
    · exact .inl left
    · exact .inr table
    · cases taken

theorem Grown.refl (paging : Paging root s) : Grown root s s [] where
  paging := paging
  same := paging.ready.wf.refl
  kept _ _ _ here := here
  added _ _ _ here := .inl here
  created _ member := absurd member List.not_mem_nil
  leaf _ := rfl
  count := rfl
  free _ free := free
  upper _ _ _ _ here _ := .inl ⟨here, rfl⟩
  bytes _ _ := rfl
  spent _ free := .inl free

theorem Grown.trans (first : Grown root s₁ s₂ new) (second : Grown root s₂ s₃ new') :
    Grown root s₁ s₃ (new ++ new') :=
  (first.extends.trans second.extends).grown fun virt =>
    (second.leaf virt).trans (first.leaf virt)

theorem Hung.child_eq (paging : Paging root s) (hung : Hung s s' t i u flags)
    (writable : flags = 3 ∨ flags = 7) : child (s'.slot t i) = some u := by
  obtain ⟨aligned, bound⟩ := paging.ready.isFrame hung.taken.free
  rw [child_eq_some slot_lt, hung.hung]
  dsimp only [pageSize] at *
  omega

theorem Hung.kept (paging : Paging root s) (hung : Hung s s' t i u flags)
    (reached : s.tableAt root q = some f) (short : q.length ≤ 3)
    (elsewhere : (f, j) ≠ (t, i)) : s'.slot f j = s.slot f j := by
  have used := paging.table q f short reached
  apply hung.others f j used.frame _ elsewhere
  rintro rfl
  exact used.used hung.taken.free

section Hang

variable (paging : Paging root s) (here : s.tableAt root p = some t) (room : p.length ≤ 2)
  (empty : child (s.slot t i) = none) (hung : Hung s s' t i u flags)
  (writable : flags = 3 ∨ flags = 7)

include paging here room empty hung writable

/-- Exactly one path is added. -/
theorem Hung.tableAt (short : q.length ≤ 3) : s'.tableAt root q =
    if q = p ++ [i] then some u else s.tableAt root q := by
  apply walk_grow paging.tree here (by omega) empty
    (hung.child_eq paging writable)
  · intro j
    rw [hung.zeroed]
    rfl
  · intro q f j short reached elsewhere
    rw [hung.kept paging reached short elsewhere]
  · exact short

theorem Hung.keeps_paging : Paging root s' := by
  have walks := fun {q} => hung.tableAt (q := q) paging here room empty writable
  have frame := paging.ready.isFrame hung.taken.free
  have sameHhdm := hung.hhdm
  refine ⟨hung.taken.ready, by rw [sameHhdm]; exact paging.hhdm, ?_, ?_, ?_, ?_⟩
  · -- the new table is reached by one path
    apply tree_grow paging.tree _ fun q short => walks short
    intro q short reached
    exact (paging.table q u short reached).used hung.taken.free
  · intro q f short reached
    rw [walks short] at reached
    split at reached
    · obtain rfl := Option.some.inj reached
      exact ⟨frame, sameHhdm ▸ paging.free u hung.taken.free, fun free =>
        ((hung.taken.others u).mp free).2 rfl⟩
    · -- the frames of the older tables are not free either
      have old := paging.table q f short reached
      exact ⟨old.frame, sameHhdm ▸ old.nonnull, fun free =>
        old.used ((hung.taken.others f).mp free).1⟩
  · intro q f j short reached present
    rw [walks (by omega)] at reached
    split at reached
    · -- the new table has no present entry
      obtain rfl := Option.some.inj reached
      rw [hung.zeroed] at present
      cases present
    · by_cases at_i : (f, j) = (t, i)
      · -- the entry of the new table
        obtain ⟨rfl, rfl⟩ := Prod.mk.inj at_i
        rw [hung.hung]
        have bound := frame.2
        have aligned := frame.1
        dsimp only [pageSize] at aligned
        omega
      · have same := hung.kept paging reached (by omega) at_i
        rw [same] at present ⊢
        exact paging.upper q f j short reached present
  · intro f free
    rw [sameHhdm]
    exact paging.free f ((hung.taken.others f).mp free).1

theorem Hung.grown : Grown root s s' [p ++ [i]] := by
  have walks := fun {q} => hung.tableAt (q := q) paging here room empty writable
  have sameHhdm := hung.hhdm
  have missing : s.tableAt root (p ++ [i]) = none := by
    rw [Vm.tableAt, walk_concat here, empty]
  have length : (p ++ [i]).length ≤ 3 := by
    rw [List.length_append]
    exact Nat.succ_le_succ room
  constructor
  case paging => exact hung.keeps_paging paging here room empty writable
  case same => exact hung.taken.same
  case kept =>
    intro q f short reached
    have other : q ≠ p ++ [i] := by
      rintro rfl
      rw [missing] at reached
      cases reached
    rw [walks short, if_neg other, reached]
  case added =>
    intro q f short reached
    rw [walks short] at reached
    split at reached
    next new =>
      obtain rfl := Option.some.inj reached
      exact .inr ⟨by rw [new]; exact List.mem_singleton_self _, hung.taken.free⟩
    · exact .inl reached
  case created =>
    intro q member
    obtain rfl := List.mem_singleton.mp member
    rw [walks length, if_pos rfl]
    exact ⟨length, rfl⟩
  case leaf =>
    intro virt
    rw [leaf, leaf, walks path_short]
    split
    next new =>
      -- the new last-level table is clear where no table was before
      rw [new, missing, Option.elim_some, Option.elim_none]
      exact hung.zeroed _
    · cases reached : s.tableAt root (path virt) with
      | none => rw [Option.elim_none, Option.elim_none]
      | some f =>
        apply hung.kept paging reached path_short
        intro equal
        obtain ⟨rfl, _⟩ := Prod.mk.inj equal
        -- a last-level table is not the upper table `t`
        have same := paging.tree (path virt) p f path_short (by omega) reached here
        rw [← same] at room
        exact absurd room (by simp [path])
  case count => exact hung.taken.count
  case free =>
    intro f free
    exact ((hung.taken.others f).mp free).1
  case upper =>
    intro q f j short reached present
    rw [walks (by omega)] at reached
    split at reached
    · obtain rfl := Option.some.inj reached
      rw [hung.zeroed] at present
      cases present
    · by_cases at_i : (f, j) = (t, i)
      · obtain ⟨rfl, rfl⟩ := Prod.mk.inj at_i
        have value := hung.hung
        have aligned := (paging.ready.isFrame hung.taken.free).1
        dsimp only [pageSize] at aligned
        omega
      · exact .inl ⟨reached, hung.kept paging reached (by omega) at_i⟩
  case bytes =>
    intro a outside
    exact hung.bytes a (outside t (.inr ⟨p, by omega, here⟩)) (outside u (.inl hung.taken.free))
  case spent =>
    intro f free
    by_cases new : f = u
    · right
      refine ⟨p ++ [i], length, ?_⟩
      rw [walks length, if_pos rfl, new]
    · exact .inl ((hung.taken.others f).mpr ⟨free, new⟩)

end Hang

/-! ### One level -/

/-- The table that is to be created at `q`, if any. -/
def absent (s : Vm) (root : Nat) (q : List (Fin 512)) : List (List (Fin 512)) :=
  if (s.tableAt root q).isSome then [] else [q]

/-- `get_or_create` returns the next table, which it creates where it is missing and a frame
is left. -/
theorem getOrCreate_spec (paging : Paging root s) (here : s.tableAt root p = some t)
    (room : p.length ≤ 2) (writable : flags = 3 ∨ flags = 7) :
    (s.tableAt root (p ++ [i]) = none ∧ s.pmm.freePages = 0 ∧
      getOrCreate s (physToVirt s.hhdm t) i flags = some (0, s)) ∨
    ∃ u s', getOrCreate s (physToVirt s.hhdm t) i flags = some (physToVirt s.hhdm u, s') ∧
      s'.tableAt root (p ++ [i]) = some u ∧
      Grown root s s' (s.absent root (p ++ [i])) := by
  have next : s.tableAt root (p ++ [i]) = child (s.slot t i) := walk_concat here
  rw [absent, next]
  by_cases present : s.entry (physToVirt s.hhdm t) i &&& vmmPresent ≠ 0
  · right
    -- the table is there
    have refers : child (s.slot t i) = some (s.slot t i &&& frameMask) := if_pos present
    rw [refers]
    refine ⟨s.slot t i &&& frameMask, s, ?_, ?_, ?_⟩
    · rw [getOrCreate, if_pos present]
      rfl
    · rw [next, refers]
    · exact .refl paging
  · have empty : child (s.slot t i) = none := if_neg present
    rw [empty]
    rcases paging.ready.alloc with ⟨none, failed⟩ | ⟨u, pmm, found, taken⟩
    · left
      refine ⟨rfl, none, ?_⟩
      rw [getOrCreate, if_neg present, failed]
      rfl
    · right
      -- a new table is hung into the entry
      have table := paging.table p t (by omega) here
      have sameHhdm : Vm.hhdm { s with pmm := pmm } = s.hhdm := taken.hhdm
      have small : flags < pageSize := by
        dsimp only [pageSize]
        omega
      have hung := hung_of_taken (i := i) paging.ready paging.hhdm table taken small
      refine ⟨u, _, ?_, ?_, hung.grown paging here room empty writable⟩
      · rw [getOrCreate, if_neg present, found]
        simp only [Option.bind_eq_bind, Option.bind_some, if_neg taken.nonzero, sameHhdm]
      · have length : (p ++ [i]).length ≤ 3 := by
          rw [List.length_append]
          exact Nat.succ_le_succ room
        rw [hung.tableAt paging here room empty writable length, if_pos rfl]

/-! ### A whole mapping -/

theorem Grown.isSome_iff {new : List (List (Fin 512))} (grown : Grown root s s' new)
    (short : q.length ≤ 3) :
    (s'.tableAt root q).isSome ↔ (s.tableAt root q).isSome ∨ q ∈ new := by
  constructor
  · intro reached
    obtain ⟨t, here⟩ := Option.isSome_iff_exists.mp reached
    rcases grown.added q t short here with old | ⟨member, _⟩
    · exact .inl (by rw [old]; rfl)
    · exact .inr member
  · rintro (reached | member)
    · obtain ⟨t, here⟩ := Option.isSome_iff_exists.mp reached
      rw [grown.kept q t short here]
      rfl
    · exact (grown.created q member).2

theorem absent_of_none (none : s.tableAt root q = none) : s.absent root q = [q] := by
  rw [absent, none]
  rfl

/-- Creating one table leaves the other absences as they are. -/
theorem Grown.absent_eq (grown : Grown root s s' (s.absent root p)) (short : q.length ≤ 3)
    (differ : q ≠ p) : s'.absent root q = s.absent root q := by
  have same : (s'.tableAt root q).isSome ↔ (s.tableAt root q).isSome := by
    rw [grown.isSome_iff short, absent]
    split <;> simp [differ]
  rw [absent, absent]
  simp only [same]

theorem Grown.hhdm {new : List (List (Fin 512))} (grown : Grown root s s' new) :
    s'.hhdm = s.hhdm := grown.same.hhdmOffset

/-- The tables that a mapping of the page at `virt` finds missing. -/
def missing (s : Vm) (root virt : Nat) : List (List (Fin 512)) :=
  s.absent root [pml4Idx virt] ++ s.absent root [pml4Idx virt, pdptIdx virt] ++
    s.absent root (path virt)

/-- `vmm_map` creates the missing tables and writes the last-level entry; when the frames do
not suffice it stops after the tables it could create. -/
theorem vmmMap_spec (paging : Paging root s) (virt phys flags : Nat) :
    ∃ s₁ new, Grown root s s₁ new ∧
      (((s.missing root virt).length ≤ s.pmm.freePages ∧ new = s.missing root virt ∧
        ∃ t, s₁.tableAt root (path virt) = some t ∧
          vmmMap s (physToVirt s.hhdm root) virt phys flags =
            some (s₁.setEntry (physToVirt s₁.hhdm t) (ptIdx virt) (phys ||| flags))) ∨
      (s.pmm.freePages < (s.missing root virt).length ∧ s₁.pmm.freePages = 0 ∧
        vmmMap s (physToVirt s.hhdm root) virt phys flags = some s₁ ∧
        ∀ q ∈ new, q ∈ s.missing root virt)) := by
  -- three calls of `get_or_create`; each leaves what the next one counts on
  have writable := tableFlags_cases flags
  let a := pml4Idx virt
  let b := pdptIdx virt
  let c := pdIdx virt
  have isMissing : s.missing root virt =
    s.absent root [a] ++ s.absent root [a, b] ++ s.absent root [a, b, c] := rfl
  rcases getOrCreate_spec (i := a) paging tableAt_nil (by simp) writable with
    ⟨none₁, empty, fail⟩ | ⟨u₁, s₁, create₁, here₁, grown₁⟩
  · refine ⟨s, [], .refl paging, .inr ⟨?_, empty, ?_, by simp⟩⟩
    · have none₁ : s.tableAt root [a] = none := none₁
      simp [isMissing, absent_of_none none₁, empty]
    · simp [vmmMap, a, fail]
  have null₁ := (grown₁.paging.table [a] u₁ (by simp) here₁).nonnull
  rw [grown₁.hhdm] at null₁
  have count₁ := grown₁.count
  have second : s₁.absent root [a, b] = s.absent root [a, b] :=
    grown₁.absent_eq (by simp) (by simp)
  rcases getOrCreate_spec (i := b) grown₁.paging here₁ (by simp) writable with
    ⟨none₂, empty, fail⟩ | ⟨u₂, s₂, create₂, here₂, grown₂⟩
  · refine ⟨s₁, _, grown₁, .inr ⟨?_, empty, ?_, ?_⟩⟩
    · have none₂ : s₁.tableAt root [a, b] = none := none₂
      rw [isMissing, ← second, absent_of_none none₂]
      simp only [List.length_append, List.length_singleton, List.nil_append] at count₁ ⊢
      omega
    · rw [grown₁.hhdm] at fail
      simp [vmmMap, a, b, create₁, null₁, fail]
    · intro q first
      rw [isMissing, List.append_assoc]
      exact List.mem_append_left _ first
  have null₂ := (grown₂.paging.table [a, b] u₂ (by simp) here₂).nonnull
  rw [grown₂.hhdm, grown₁.hhdm] at null₂
  have count₂ := grown₂.count
  have third : s₂.absent root [a, b, c] = s.absent root [a, b, c] :=
    (grown₂.absent_eq (by simp) (by simp)).trans (grown₁.absent_eq (by simp) (by simp))
  rcases getOrCreate_spec (i := c) grown₂.paging here₂ (by simp) writable with
    ⟨none₃, empty, fail⟩ | ⟨u₃, s₃, create₃, here₃, grown₃⟩
  · refine ⟨s₂, _, grown₁.trans grown₂, .inr ⟨?_, empty, ?_, ?_⟩⟩
    · have none₃ : s₂.tableAt root [a, b, c] = none := none₃
      rw [isMissing, ← second, ← third, absent_of_none none₃]
      simp only [List.length_append, List.length_singleton, List.nil_append, List.singleton_append]
        at count₁ count₂ ⊢
      omega
    · rw [grown₂.hhdm, grown₁.hhdm] at fail
      rw [grown₁.hhdm] at create₂
      simp [vmmMap, a, b, c, create₁, null₁, create₂, null₂, fail]
    · intro q upper
      have both : q ∈ s.absent root [a] ++ s.absent root [a, b] := second ▸ upper
      rw [isMissing]
      exact List.mem_append_left _ both
  have null₃ := (grown₃.paging.table [a, b, c] u₃ (by simp) here₃).nonnull
  have count₃ := grown₃.count
  have new : s.absent root ([] ++ [a]) ++ s₁.absent root ([a] ++ [b]) ++
      s₂.absent root ([a, b] ++ [c]) = s.missing root virt := by
    rw [isMissing, ← second, ← third]
    rfl
  have grown := (grown₁.trans grown₂).trans grown₃
  have count := grown.count
  refine ⟨s₃, _, grown, .inl ⟨?_, new, u₃, here₃, ?_⟩⟩
  · have all := congrArg List.length new
    simp only [List.nil_append, List.singleton_append] at all count
    omega
  · rw [grown₃.hhdm, grown₂.hhdm, grown₁.hhdm] at null₃
    rw [grown₂.hhdm, grown₁.hhdm] at create₃
    rw [grown₁.hhdm] at create₂
    rw [grown₃.hhdm, grown₂.hhdm, grown₁.hhdm]
    simp [vmmMap, a, b, c, create₁, null₁, create₂, null₂, create₃, null₃]

/-! ### The last level -/

theorem child_eq (w : Nat) : child w = if w &&& vmmPresent = 0 then none else some (w &&& frameMask) := by
  simp only [child, ne_eq, ite_not]

theorem vmmGetPhys_eq (s : Vm) (root virt : Nat) :
    vmmGetPhys s (physToVirt s.hhdm root) virt = s.leaf root virt &&& frameMask := by
  simp only [vmmGetPhys, leaf, tableAt, path, walk, child_eq, slot]
  by_cases first : s.entry (physToVirt s.hhdm root) (pml4Idx virt) &&& vmmPresent = 0
  · simp [first]
  simp only [first, if_false]
  by_cases second : s.entry (physToVirt s.hhdm (s.entry (physToVirt s.hhdm root) (pml4Idx virt) &&&
      frameMask)) (pdptIdx virt) &&& vmmPresent = 0
  · simp [second]
  simp only [second, if_false]
  split
  · simp
  · rfl

theorem vmmUnmap_eq (s : Vm) (root virt : Nat) :
    vmmUnmap s (physToVirt s.hhdm root) virt = match s.tableAt root (path virt) with
      | none => s
      | some t => s.setEntry (physToVirt s.hhdm t) (ptIdx virt) 0 := by
  simp only [vmmUnmap, tableAt, path, walk, child_eq, slot]
  by_cases first : s.entry (physToVirt s.hhdm root) (pml4Idx virt) &&& vmmPresent = 0
  · simp [first]
  simp only [first, if_false]
  by_cases second : s.entry (physToVirt s.hhdm (s.entry (physToVirt s.hhdm root) (pml4Idx virt) &&&
      frameMask)) (pdptIdx virt) &&& vmmPresent = 0
  · simp [second]
  simp only [second, if_false]
  split <;> rfl

/-- Bits 12 to 47 of an address. -/
def pageOf (virt : Nat) : Nat := virt / pageSize % 2 ^ 36

/-- The four indices are the page. -/
theorem pageOf_eq_iff (virt virt' : Nat) :
    pageOf virt = pageOf virt' ↔ path virt = path virt' ∧ ptIdx virt = ptIdx virt' := by
  simp only [path, List.cons.injEq, Fin.ext_iff, and_true, pml4Idx, pdptIdx, pdIdx, ptIdx,
    tableIdx_val, pageOf, pageSize]
  omega

/-- The tree depends on the upper entries of its tables, and on their frames not being free. -/
theorem Paging.of_agree (paging : Paging root s) (s' : Vm) (ready : s'.pmm.Ready)
    (hhdm : s'.hhdm = s.hhdm)
    (slots : ∀ q t j, q.length ≤ 2 → s.tableAt root q = some t → s'.slot t j = s.slot t j)
    (free : ∀ f, s'.pmm.Free f → ¬ s.IsTable root f ∧ physToVirt s.hhdm f ≠ 0) :
    (∀ q, q.length ≤ 3 → s'.tableAt root q = s.tableAt root q) ∧ Paging root s' := by
  have walks : ∀ q, q.length ≤ 3 → s'.tableAt root q = s.tableAt root q := by
    intro q short
    apply walk_congr
    intro before i after t split reached
    have upper : before.length ≤ 2 := by
      rw [split, List.length_append, List.length_cons] at short
      omega
    rw [slots before t i upper reached]
  refine ⟨walks, ready, by rw [hhdm]; exact paging.hhdm, ?_, ?_, ?_, ?_⟩
  · intro p q f short short' reached reached'
    rw [← tableAt, walks p short] at reached
    rw [← tableAt, walks q short'] at reached'
    exact paging.tree p q f short short' reached reached'
  · intro q f short reached
    rw [walks q short] at reached
    have table := paging.table q f short reached
    exact ⟨table.frame, hhdm ▸ table.nonnull, fun isFree => (free f isFree).1 ⟨q, short, reached⟩⟩
  · intro q f j short reached present
    rw [walks q (by omega)] at reached
    rw [slots q f j short reached] at present ⊢
    exact paging.upper q f j short reached present
  · intro f isFree
    rw [hhdm]
    exact (free f isFree).2

theorem Paging.free_not_table (paging : Paging root s) (free : s.pmm.Free f) :
    ¬ s.IsTable root f := by
  rintro ⟨q, short, reached⟩
  exact (paging.table q f short reached).used free

section LastLevel

variable {virt : Nat} (paging : Paging root s) (here : s.tableAt root (path virt) = some t)
  (word : w < 2 ^ 64)

include paging here word

/-- Upper entries are not written. -/
theorem slot_setLeaf (short : q.length ≤ 2) (reached : s.tableAt root q = some f) :
    (s.setEntry (physToVirt s.hhdm t) (ptIdx virt) w).slot f j = s.slot f j := by
  rw [slot_setEntry paging.hhdm (paging.table (path virt) t path_short here).frame
    (paging.table q f (by omega) reached).frame word, if_neg]
  rintro ⟨rfl, _⟩
  have same := paging.tree (path virt) q f path_short (by omega) here reached
  rw [← same] at short
  exact absurd short (by simp [path])

theorem paging_setLeaf :
    (∀ q, q.length ≤ 3 → (s.setEntry (physToVirt s.hhdm t) (ptIdx virt) w).tableAt root q =
      s.tableAt root q) ∧ Paging root (s.setEntry (physToVirt s.hhdm t) (ptIdx virt) w) := by
  apply paging.of_agree (s.setEntry (physToVirt s.hhdm t) (ptIdx virt) w) paging.ready rfl
  · intro q f j short reached
    exact slot_setLeaf paging here word short reached
  · intro f free
    exact ⟨paging.free_not_table free, paging.free f free⟩

theorem leaf_setLeaf (virt' : Nat) :
    (s.setEntry (physToVirt s.hhdm t) (ptIdx virt) w).leaf root virt' =
      if pageOf virt = pageOf virt' then w else s.leaf root virt' := by
  rw [leaf, leaf, (paging_setLeaf paging here word).1 _ path_short]
  cases reached : s.tableAt root (path virt') with
  | none =>
    have differ : pageOf virt ≠ pageOf virt' := by
      intro same
      rw [((pageOf_eq_iff virt virt').mp same).1, reached] at here
      cases here
    rw [if_neg differ, Option.elim_none, Option.elim_none]
  | some f =>
    have tables := paging.table (path virt') f path_short reached
    rw [Option.elim_some, Option.elim_some, slot_setEntry paging.hhdm
      (paging.table (path virt) t path_short here).frame tables.frame word]
    have same : f = t ∧ ptIdx virt' = ptIdx virt ↔ pageOf virt = pageOf virt' := by
      rw [pageOf_eq_iff]
      constructor
      · rintro ⟨rfl, index⟩
        exact ⟨paging.tree (path virt) (path virt') f path_short path_short here reached, index.symm⟩
      · rintro ⟨paths, index⟩
        rw [paths, reached] at here
        exact ⟨Option.some.inj here, index.symm⟩
    simp only [same]

end LastLevel

end Vm

end DedOS
