import DedOS.Mm.Heap
import DedOS.Mm.Pagemap
import DedOS.Mm.PagingRun
import Mathlib.Algebra.Order.BigOperators.Group.Finset
import Mathlib.Data.Finset.Union

/-!
# The page loops of the heap

`mapPages_spec`: the loop of `kmalloc` maps fresh frames page by page, with the tables that
are missing, and fails exactly when no frame is left for a page. When the frames run out in
the tables of its last page it does not notice. `unmapPages_spec`: the loop of `kfree` gives
the frames behind the pages back.
-/

namespace DedOS

open Lib

namespace Vm

variable {root f t virt base : Nat} {s s' s₁ s₂ s₃ : Vm} {j : Fin 512} {q : List (Fin 512)}
  {new new' : List (List (Fin 512))} {frames frames' : List Nat}

/-! ### What the loops change -/

theorem Extends.refl (paging : Paging root s) : Extends root s s [] [] := (Grown.refl paging).extends

/-- Free frames are left, become tables or are taken. -/
theorem Extends.free_or_taken (extended : Extends root s s' new frames) :
    s'.pmm.Free f ∨ f ∈ frames ↔ s.pmm.Free f ∧ ¬ s'.IsTable root f := by
  constructor
  · rintro (isFree | inFrames)
    · exact ⟨extended.free f isFree, extended.paging.free_not_table isFree⟩
    · obtain ⟨wasFree, _, noTable⟩ := extended.taken f inFrames
      exact ⟨wasFree, noTable⟩
  · rintro ⟨wasFree, noTable⟩
    rcases extended.spent f wasFree with isFree | table | inFrames
    · exact .inl isFree
    · exact absurd table noTable
    · exact .inr inFrames

/-- Taking a frame leaves the tables alone. -/
theorem extends_of_taken {pmm : Pmm} (paging : Paging root s) (taken : s.pmm.Taken f pmm) :
    (∀ q, ({ s with pmm := pmm } : Vm).tableAt root q = s.tableAt root q) ∧
      Extends root s { s with pmm := pmm } [] [f] := by
  have hhdm : pmm.hhdmOffset = s.hhdm := taken.hhdm
  have slots : ∀ t j, ({ s with pmm := pmm } : Vm).slot t j = s.slot t j := fun t j =>
    PageState.slot_pmm hhdm j
  have tables : ∀ q, ({ s with pmm := pmm } : Vm).tableAt root q = s.tableAt root q := by
    intro q
    apply walk_congr
    intro before i after t _ _
    rw [slots]
  have free : ∀ g, pmm.Free g → s.pmm.Free g := fun g isFree => ((taken.others g).mp isFree).1
  obtain ⟨_, paging'⟩ := paging.of_agree { s with pmm := pmm } taken.ready hhdm
    (fun _ t j _ _ => slots t j) fun g isFree =>
      ⟨paging.free_not_table (free g isFree), paging.free g (free g isFree)⟩
  refine ⟨tables, paging', taken.same, ?_, ?_, ?_, ?_, free, ?_, fun _ _ => rfl, ?_, ?_, ?_⟩
  · intro q t _ here
    rw [tables, here]
  · intro q t _ here
    rw [tables] at here
    exact .inl here
  · intro q member
    exact absurd member List.not_mem_nil
  · exact taken.count
  · intro q t i _ here _
    rw [tables] at here
    exact .inl ⟨here, slots t i⟩
  · intro g member
    obtain rfl := List.mem_singleton.mp member
    refine ⟨taken.free, fun isFree => ((taken.others g).mp isFree).2 rfl, ?_⟩
    -- a table is no free frame
    rintro ⟨q, short, reached⟩
    rw [tables] at reached
    exact paging.free_not_table taken.free ⟨q, short, reached⟩
  · exact List.nodup_singleton f
  · intro g isFree
    by_cases equal : g = f
    · exact .inr (.inr (List.mem_singleton.mpr equal))
    · exact .inl ((taken.others g).mpr ⟨isFree, equal⟩)

/-- Writing a last-level entry takes nothing. -/
theorem extends_setLeaf {w : Nat} (paging : Paging root s)
    (here : s.tableAt root (path virt) = some t) (word : w < 2 ^ 64) :
    Extends root s (s.setEntry (physToVirt s.hhdm t) (ptIdx virt) w) [] [] := by
  obtain ⟨tables, after⟩ := paging_setLeaf paging here word
  refine ⟨after, paging.ready.wf.refl, ?_, ?_, ?_, rfl, fun _ free => free, ?_, ?_, ?_, List.nodup_nil,
    fun _ free => .inl free⟩
  · intro q t' short old
    rw [tables q short, old]
  · intro q t' short reached
    rw [tables q short] at reached
    exact .inl reached
  · intro q member
    exact absurd member List.not_mem_nil
  · intro q t' i short reached _
    rw [tables q (by omega)] at reached
    exact .inl ⟨reached, slot_setLeaf paging here word short reached⟩
  · intro a outside
    exact mem_setEntry (outside t (.inr ⟨path virt, path_short, here⟩))
  · intro f member
    exact absurd member List.not_mem_nil

/-! ### Missing tables -/

/-- The address of page `i` behind `base`. -/
def pageAddr (base i : Nat) : Nat := wrap64 (base + i * pageSize)

/-- The tables that `n` pages from page `i` on find missing. -/
def needed (s : Vm) (root base i n : Nat) : Finset (List (Fin 512)) :=
  (Finset.range n).biUnion fun k => (s.missing root (pageAddr base (i + k))).toFinset

variable {i n k : Nat}

theorem mem_absent {p : List (Fin 512)} :
    q ∈ s.absent root p ↔ q = p ∧ s.tableAt root q = none := by
  unfold absent
  split
  next here =>
    constructor
    · intro member
      exact absurd member List.not_mem_nil
    · rintro ⟨rfl, gone⟩
      rw [gone] at here
      cases here
  next gone =>
    rw [List.mem_singleton]
    constructor
    · rintro rfl
      exact ⟨rfl, by simpa using gone⟩
    · exact And.left

/-- The paths of the tables over a page. -/
def ways (virt : Nat) : List (List (Fin 512)) :=
  [[pml4Idx virt], [pml4Idx virt, pdptIdx virt], path virt]

theorem mem_missing_iff : q ∈ s.missing root virt ↔ q ∈ ways virt ∧ s.tableAt root q = none := by
  simp only [missing, ways, List.mem_append, mem_absent, List.mem_cons, List.not_mem_nil, or_false]
  tauto

theorem ways_short (way : q ∈ ways virt) : q.length ≤ 3 := by
  simp only [ways, List.mem_cons, List.not_mem_nil, or_false] at way
  rcases way with rfl | rfl | rfl <;> simp [path]

theorem missing_nodup : (s.missing root virt).Nodup := by
  have single : ∀ p, (s.absent root p).Nodup := by
    intro p
    unfold absent
    split
    · exact List.nodup_nil
    · exact List.nodup_singleton p
  -- paths of different lengths
  rw [missing, List.nodup_append, List.nodup_append]
  refine ⟨⟨single _, single _, ?_⟩, single _, ?_⟩
  · intro p first p' second
    rw [(mem_absent.mp first).1, (mem_absent.mp second).1]
    simp
  · intro p upper p' last
    rw [(mem_absent.mp last).1]
    rcases List.mem_append.mp upper with first | second
    · rw [(mem_absent.mp first).1]
      simp [path]
    · rw [(mem_absent.mp second).1]
      simp [path]

theorem mem_needed : q ∈ s.needed root base i n ↔
    ∃ k < n, q ∈ s.missing root (pageAddr base (i + k)) := by
  simp [needed]

@[simp] theorem needed_zero : s.needed root base i 0 = ∅ := rfl

theorem needed_succ : s.needed root base i (n + 1) =
    (s.missing root (pageAddr base i)).toFinset ∪ s.needed root base (i + 1) n := by
  ext q
  rw [Finset.mem_union, List.mem_toFinset, mem_needed, mem_needed]
  constructor
  · rintro ⟨k, below, member⟩
    cases k with
    | zero => exact .inl member
    | succ k => exact .inr ⟨k, by omega, by rwa [Nat.add_right_comm, Nat.add_assoc]⟩
  · rintro (member | ⟨k, below, member⟩)
    · exact ⟨0, by omega, member⟩
    · exact ⟨k + 1, by omega, by rwa [Nat.add_right_comm, Nat.add_assoc] at member⟩

theorem Extends.isSome_iff (extended : Extends root s s' new frames) (short : q.length ≤ 3) :
    (s'.tableAt root q).isSome ↔ (s.tableAt root q).isSome ∨ q ∈ new := by
  constructor
  · intro reached
    obtain ⟨t, here⟩ := Option.isSome_iff_exists.mp reached
    rcases extended.added q t short here with old | ⟨member, _⟩
    · exact .inl (by rw [old]; rfl)
    · exact .inr member
  · rintro (reached | member)
    · obtain ⟨t, here⟩ := Option.isSome_iff_exists.mp reached
      rw [extended.kept q t short here]
      rfl
    · exact (extended.created q member).2

/-- What later pages still need once tables were created. -/
theorem Extends.needed (extended : Extends root s s' new frames) :
    s'.needed root base i n = s.needed root base i n \ new.toFinset := by
  ext q
  rw [Finset.mem_sdiff, List.mem_toFinset, mem_needed, mem_needed]
  have after : ∀ virt, q ∈ s'.missing root virt ↔ q ∈ s.missing root virt ∧ q ∉ new := by
    intro virt
    rw [mem_missing_iff, mem_missing_iff, and_assoc]
    apply and_congr_right
    intro way
    have some := extended.isSome_iff (ways_short way)
    rw [← Option.not_isSome_iff_eq_none, some, not_or, Option.not_isSome_iff_eq_none]
  constructor
  · rintro ⟨k, below, member⟩
    exact ⟨⟨k, below, ((after _).mp member).1⟩, ((after _).mp member).2⟩
  · rintro ⟨⟨k, below, member⟩, other⟩
    exact ⟨k, below, (after _).mpr ⟨member, other⟩⟩

/-- The first page and the pages behind it. -/
theorem card_needed (extended : Extends root s s' (s.missing root (pageAddr base i)) frames) :
    (s.needed root base i (n + 1)).card =
      (s.missing root (pageAddr base i)).length + (s'.needed root base (i + 1) n).card := by
  rw [needed_succ, extended.needed, ← Finset.union_sdiff_self_eq_union,
    Finset.card_union_of_disjoint Finset.disjoint_sdiff, List.toFinset_card_of_nodup missing_nodup]

/-- More pages need more tables. -/
theorem needed_mono {m : Nat} (fewer : m ≤ n) :
    (s.needed root base i m).card ≤ (s.needed root base i n).card := by
  apply Finset.card_le_card
  intro q member
  obtain ⟨k, below, missing⟩ := mem_needed.mp member
  exact mem_needed.mpr ⟨k, by omega, missing⟩

/-- A page needs at most three tables. -/
theorem needed_le (s : Vm) (root base i n : Nat) : (s.needed root base i n).card ≤ n * 3 := by
  have each : ∀ k ∈ Finset.range n, (s.missing root (pageAddr base (i + k))).toFinset.card ≤ 3 := by
    intro k _
    have inWays : (s.missing root (pageAddr base (i + k))).toFinset ⊆
        (ways (pageAddr base (i + k))).toFinset := by
      intro q member
      exact List.mem_toFinset.mpr (mem_missing_iff.mp (List.mem_toFinset.mp member)).1
    exact Nat.le_trans (Finset.card_le_card inWays) (List.toFinset_card_le _)
  have total := Finset.card_biUnion_le_card_mul _ _ 3 each
  rwa [Finset.card_range] at total

theorem missing_le_needed (s : Vm) (root base i n : Nat) :
    (s.missing root (pageAddr base i)).length ≤ (s.needed root base i (n + 1)).card := by
  rw [← List.toFinset_card_of_nodup missing_nodup, needed_succ]
  exact Finset.card_le_card Finset.subset_union_left

/-! ### The loop of kmalloc -/

theorem frame_flags (frame : IsFrame f) : f ||| (vmmPresent ||| vmmWrite) = f + 3 :=
  frame_or frame.1 (by decide)

/-- A table that is there needs the tables above it. -/
theorem isSome_of_way (way : q ∈ ways virt) (here : (s.tableAt root (path virt)).isSome) :
    (s.tableAt root q).isSome := by
  have onWay : ∃ rest, path virt = q ++ rest := by
    simp only [ways, List.mem_cons, List.not_mem_nil, or_false] at way
    rcases way with rfl | rfl | rfl
    · exact ⟨_, rfl⟩
    · exact ⟨[pdIdx virt], rfl⟩
    · exact ⟨[], by simp⟩
  obtain ⟨rest, split⟩ := onWay
  cases reached : s.tableAt root q with
  | some t => rfl
  | none =>
    rw [split, tableAt, walk_append, ← tableAt, reached] at here
    cases here

/-- One round of the loop, once it has a frame: the page is mapped, or the frames run out in
its tables. -/
theorem mapPage_spec {pmm : Pmm} (paging : Paging root s) (taken : s.pmm.Taken f pmm) (virt : Nat) :
    ∃ s' new, vmmMap { s with pmm := pmm } (physToVirt s.hhdm root) virt f
        (vmmPresent ||| vmmWrite) = some s' ∧ Extends root s s' new [f] ∧
      (new = s.missing root virt ∧
          (∀ virt', s'.leaf root virt' = if pageOf virt = pageOf virt' then f + 3
            else s.leaf root virt') ∨
        s.pmm.freePages ≤ (s.missing root virt).length ∧ s'.pmm.freePages = 0 ∧
          s'.tableAt root (path virt) = none ∧ ∀ virt', s'.leaf root virt' = s.leaf root virt') := by
  obtain ⟨tables, first⟩ := extends_of_taken paging taken
  have count := taken.count
  obtain ⟨mid, isMid⟩ : ∃ mid : Vm, mid = { s with pmm := pmm } := ⟨_, rfl⟩
  rw [← isMid] at tables first ⊢
  have midPmm : mid.pmm = pmm := by rw [isMid]
  have midHhdm : mid.hhdm = s.hhdm := first.hhdm
  -- taking the frame changes no table
  have midLeaf : ∀ virt', mid.leaf root virt' = s.leaf root virt' := by
    apply PageState.leaf_of_tables (fun q _ => tables q)
    intro q t j _ _
    rw [isMid]
    exact PageState.slot_pmm taken.hhdm j
  have sameMissing : mid.missing root virt = s.missing root virt := by
    simp only [missing, absent, tables]
  have word : f ||| (vmmPresent ||| vmmWrite) < 2 ^ 64 := by
    have frame := paging.ready.isFrame taken.free
    have small := frame.2
    rw [frame_flags frame]
    omega
  rw [← midHhdm]
  obtain ⟨s₁, new, grown, ⟨_, all, t, here, done⟩ | ⟨few, none, done, _⟩⟩ :=
    vmmMap_spec first.paging virt f (vmmPresent ||| vmmWrite)
  · have last := extends_setLeaf grown.paging here word
    have whole := (first.trans grown.extends).trans last
    simp only [List.nil_append, List.append_nil] at whole
    refine ⟨_, new, done, whole, .inl ⟨all.trans sameMissing, fun virt' => ?_⟩⟩
    rw [leaf_setLeaf grown.paging here word, grown.leaf, midLeaf,
      frame_flags (paging.ready.isFrame taken.free)]
  · have whole := first.trans grown.extends
    simp only [List.nil_append, List.append_nil] at whole
    refine ⟨s₁, new, done, whole, .inr ⟨?_, none, ?_, fun virt' => ?_⟩⟩
    · rw [sameMissing, midPmm] at few
      omega
    · -- a complete way would have taken more tables than there were frames
      rw [← Option.not_isSome_iff_eq_none]
      intro some
      have created : mid.missing root virt ⊆ new := by
        intro q member
        obtain ⟨way, gone⟩ := mem_missing_iff.mp member
        have reached := (grown.isSome_iff (ways_short way)).mp (isSome_of_way way some)
        rw [gone] at reached
        simpa using reached
      have fewer := (List.subperm_of_subset missing_nodup created).length_le
      have grownCount := grown.count
      omega
    · rw [grown.leaf, midLeaf]

/-- The pages from page `i` on have got the frames `mapped`, the others are as before. -/
structure Filled (root base i : Nat) (s s' : Vm) (mapped : List Nat) : Prop where
  here : i + mapped.length ≤ 2 ^ 36 → ∀ k (below : k < mapped.length),
    s'.leaf root (pageAddr base (i + k)) = mapped[k] + 3
  others : ∀ virt, (∀ k < mapped.length, pageOf (pageAddr base (i + k)) ≠ pageOf virt) →
    s'.leaf root virt = s.leaf root virt

theorem Filled.nil (same : ∀ virt, s'.leaf root virt = s.leaf root virt) :
    Filled root base i s s' [] where
  here _ k below := absurd below (Nat.not_lt_zero k)
  others virt _ := same virt

/-- Fewer than `2 ^ 36` pages behind one base are different pages. -/
theorem pageOf_pageAddr_ne (differ : i ≠ k) (low : i < 2 ^ 36) (low' : k < 2 ^ 36) :
    pageOf (pageAddr base i) ≠ pageOf (pageAddr base k) := by
  unfold pageOf pageAddr wrap64
  dsimp only [pageSize]
  omega

theorem Filled.cons {mapped : List Nat} (first : ∀ virt', s₁.leaf root virt' =
      if pageOf (pageAddr base i) = pageOf virt' then f + 3 else s.leaf root virt')
    (rest : Filled root base (i + 1) s₁ s' mapped) : Filled root base i s s' (f :: mapped) where
  here bound k below := by
    rw [List.length_cons] at bound below
    cases k with
    | zero =>
      have base : i + 0 = i := rfl
      rw [base, rest.others, first, if_pos rfl]
      · rfl
      · intro k below
        apply pageOf_pageAddr_ne
        · omega
        · omega
        · omega
    | succ k =>
      have there := rest.here (by omega) k (by omega)
      rw [Nat.add_right_comm] at there
      exact there
  others virt away := by
    rw [rest.others, first, if_neg]
    · exact away 0 (by simp)
    · intro k below
      have there := away (k + 1) (by simpa using below)
      rwa [Nat.add_comm k 1, ← Nat.add_assoc] at there

/-- What the loop over `n` pages from page `i` on comes to. -/
structure Outcome (root base i n : Nat) (s : Vm) (complete : Bool) (s' : Vm)
    (new : List (List (Fin 512))) (frames mapped : List Nat) : Prop where
  grown : Extends root s s' new frames
  filled : Filled root base i s s' mapped
  front : mapped <+: frames
  short : mapped.length ≤ n
  complete_iff : complete = true ↔
    n = 0 ∨ n + (s.needed root base i (n - 1)).card ≤ s.pmm.freePages
  full_iff : mapped.length = n ↔ n + (s.needed root base i n).card ≤ s.pmm.freePages
  /-- a failure of `vmm_map` shows as a failure of `pmm_alloc` unless it is in the last round -/
  hole : complete = true → mapped.length ≠ n → mapped.length + 1 = n ∧
    s'.tableAt root (path (pageAddr base (i + mapped.length))) = none
  few : frames.length ≤ n

theorem mapPages_spec (paging : Paging root s) (base i n : Nat) : ∃ complete s' new frames mapped,
    mapPages (physToVirt s.hhdm root) base i n s = some (complete, s') ∧
      Outcome root base i n s complete s' new frames mapped := by
  induction n generalizing i s with
  | zero =>
    refine ⟨true, s, [], [], [], rfl, .refl paging, .nil fun _ => rfl, List.nil_prefix, ?_, ?_, ?_,
      ?_, ?_⟩ <;> simp
  | succ n ih =>
    rcases paging.ready.alloc with ⟨empty, failed⟩ | ⟨f, pmm, found, taken⟩
    · -- no frame for the page itself: the loop returns
      refine ⟨false, s, [], [], [], ?_, .refl paging, .nil fun _ => rfl, List.nil_prefix, ?_, ?_,
        ?_, ?_, ?_⟩
      · rw [mapPages, failed]
        rfl
      · simp
      · simp [empty]
      · simp [empty]
      · simp
      · simp
    have count := taken.count
    obtain ⟨s₁, new, done, grown, ⟨rfl, leaf⟩ | ⟨few, empty, noTable, leaf⟩⟩ :=
      mapPage_spec paging taken (pageAddr base i)
    · -- the page is mapped, the loop goes on
      obtain ⟨complete, s', new', frames, mapped, rest, outcome⟩ := ih grown.paging (i + 1)
      have card := fun n => card_needed (n := n) grown
      have used := grown.count
      rw [List.length_singleton] at used
      refine ⟨complete, s', _, f :: frames, f :: mapped, ?_, grown.trans outcome.grown,
        outcome.filled.cons leaf, ?_, ?_, ?_, ?_, ?_, Nat.succ_le_succ outcome.few⟩
      · rw [grown.hhdm] at rest
        rw [mapPages, found]
        simp only [Option.bind_eq_bind, Option.bind_some, if_neg taken.nonzero]
        rw [← pageAddr, done]
        exact rest
      · exact List.cons_prefix_cons.mpr ⟨rfl, outcome.front⟩
      · exact Nat.succ_le_succ outcome.short
      · rw [outcome.complete_iff]
        cases n with
        | zero =>
          simp
          omega
        | succ n =>
          have split := card n
          simp only [Nat.add_sub_cancel]
          omega
      · have split := card n
        have full := outcome.full_iff
        rw [List.length_cons]
        omega
      · intro isComplete unfull
        rw [List.length_cons] at unfull ⊢
        obtain ⟨last, gone⟩ := outcome.hole isComplete (by omega)
        refine ⟨by omega, ?_⟩
        rwa [Nat.add_right_comm, Nat.add_assoc] at gone
    · -- the page stays unmapped, and no frame is left for another one
      have more := missing_le_needed s root base i n
      have notFull : ¬ n + 1 + (s.needed root base i (n + 1)).card ≤ s.pmm.freePages := by omega
      cases n with
      | zero =>
        -- the last round: the failure of `vmm_map` does not show
        refine ⟨true, s₁, new, [f], [], ?_, grown, .nil leaf, List.nil_prefix, ?_, ?_, ?_, ?_, ?_⟩
        · rw [mapPages, found]
          simp only [Option.bind_eq_bind, Option.bind_some, if_neg taken.nonzero]
          rw [← pageAddr, done]
          rfl
        · simp
        · simp
          omega
        · simpa using notFull
        · intro _ _
          exact ⟨rfl, noTable⟩
        · exact Nat.le_refl 1
      | succ n =>
        -- the next round gets no frame
        refine ⟨false, s₁, new, [f], [], ?_, grown, .nil leaf, List.nil_prefix, ?_, ?_, ?_, ?_, ?_⟩
        · rcases grown.paging.ready.alloc with ⟨_, failed⟩ | ⟨g, pmm', found', taken'⟩
          · rw [mapPages, found]
            simp only [Option.bind_eq_bind, Option.bind_some, if_neg taken.nonzero]
            rw [← pageAddr, done, Option.bind_some, mapPages, failed]
            rfl
          · have more := taken'.count
            omega
        · simp
        · have earlier := missing_le_needed s root base i n
          simp
          omega
        · simpa using notFull
        · simp
        · exact Nat.succ_le_succ (Nat.zero_le _)

/-! ### The loop of kfree -/

/-- Every page is unmapped or mapped to a frame of its own. -/
structure Owns (root base i n : Nat) (s : Vm) : Prop where
  frame : ∀ k < n, s.leaf root (pageAddr base (i + k)) = 0 ∨
    ∃ f, s.leaf root (pageAddr base (i + k)) = f + 3 ∧ PageState.HeldFrame root s f
  distinct : ∀ k < n, ∀ l < n, s.leaf root (pageAddr base (i + k)) ≠ 0 →
    s.leaf root (pageAddr base (i + k)) = s.leaf root (pageAddr base (i + l)) → k = l

/-- The pages are unmapped and the frames behind them are free. -/
structure Released (root base i n : Nat) (s s' : Vm) : Prop where
  paging : Paging root s'
  same : Pmm.SameMap s.pmm s'.pmm
  tables : ∀ q, q.length ≤ 3 → s'.tableAt root q = s.tableAt root q
  upper : ∀ q t j, q.length ≤ 2 → s.tableAt root q = some t → s'.slot t j = s.slot t j
  here : ∀ virt, (∃ k < n, pageOf (pageAddr base (i + k)) = pageOf virt) → s'.leaf root virt = 0
  others : ∀ virt, (∀ k < n, pageOf (pageAddr base (i + k)) ≠ pageOf virt) →
    s'.leaf root virt = s.leaf root virt
  free : ∀ f, s'.pmm.Free f ↔
    s.pmm.Free f ∨ ∃ k < n, s.leaf root (pageAddr base (i + k)) = f + 3
  bytes : ∀ a, (∀ t, s.IsTable root t →
    a < physToVirt s.hhdm t ∨ physToVirt s.hhdm t + pageSize ≤ a) → s'.mem a = s.mem a

theorem Released.hhdm (released : Released root base i n s s') : s'.hhdm = s.hhdm :=
  released.same.hhdmOffset

theorem Released.isTable (released : Released root base i n s s') :
    s'.IsTable root t ↔ s.IsTable root t := by
  constructor
  · rintro ⟨q, short, reached⟩
    exact ⟨q, short, by rwa [← released.tables q short]⟩
  · rintro ⟨q, short, reached⟩
    exact ⟨q, short, by rwa [released.tables q short]⟩

theorem Released.nil (paging : Paging root s) : Released root base i 0 s s where
  paging := paging
  same := paging.ready.wf.refl
  tables _ _ := rfl
  upper _ _ _ _ _ := rfl
  here virt page := by
    obtain ⟨k, below, _⟩ := page
    exact absurd below (Nat.not_lt_zero k)
  others _ _ := rfl
  free f := by simp
  bytes _ _ := rfl

/-- The entry of the page is cleared. -/
theorem vmmUnmap_spec (paging : Paging root s) (virt : Nat) :
    ∃ s', vmmUnmap s (physToVirt s.hhdm root) virt = s' ∧ Paging root s' ∧ s'.pmm = s.pmm ∧
      (∀ q, q.length ≤ 3 → s'.tableAt root q = s.tableAt root q) ∧
      (∀ q t j, q.length ≤ 2 → s.tableAt root q = some t → s'.slot t j = s.slot t j) ∧
      (∀ virt', s'.leaf root virt' = if pageOf virt = pageOf virt' then 0 else s.leaf root virt') ∧
      ∀ a, (∀ t, s.IsTable root t →
        a < physToVirt s.hhdm t ∨ physToVirt s.hhdm t + pageSize ≤ a) → s'.mem a = s.mem a := by
  rw [vmmUnmap_eq]
  cases here : s.tableAt root (path virt) with
  | none =>
    refine ⟨s, rfl, paging, rfl, fun _ _ => rfl, fun _ _ _ _ _ => rfl, fun virt' => ?_, fun _ _ => rfl⟩
    split
    next same =>
      rw [leaf, ← ((pageOf_eq_iff virt virt').mp same).1, here]
      rfl
    · rfl
  | some t =>
    have word : 0 < 2 ^ 64 := by decide
    obtain ⟨tables, after⟩ := paging_setLeaf paging here word
    refine ⟨_, rfl, after, rfl, tables, ?_, leaf_setLeaf paging here word, ?_⟩
    · intro q t' j short reached
      exact slot_setLeaf paging here word short reached
    · intro a outside
      exact mem_setEntry (outside t ⟨path virt, path_short, here⟩)

theorem frame_of_leaf (frame : IsFrame f) : (f + 3) &&& frameMask = f := by
  obtain ⟨aligned, small⟩ := frame
  rw [and_frameMask (by omega)]
  dsimp only [pageSize] at *
  omega

/-- A round of the loop. -/
def unmapPage (pml4 virt : Nat) (s : Vm) : Option Vm :=
  let phys := vmmGetPhys s pml4 virt
  let s := vmmUnmap s pml4 virt
  if phys ≠ 0 then (pmmFree phys s.pmm).map fun pmm => { s with pmm := pmm } else some s

theorem unmapPages_succ {pml4 : Nat} : unmapPages pml4 base i (n + 1) s =
    (unmapPage pml4 (pageAddr base i) s).bind (unmapPages pml4 base (i + 1) n) := by
  rw [unmapPages, unmapPage, pageAddr]
  dsimp only
  split
  · cases pmmFree (vmmGetPhys s pml4 (wrap64 (base + i * pageSize)))
      (vmmUnmap s pml4 (wrap64 (base + i * pageSize))).pmm <;> rfl
  · rfl

theorem unmapPage_spec (paging : Paging root s) (virt : Nat)
    (owned : s.leaf root virt = 0 ∨
      ∃ f, s.leaf root virt = f + 3 ∧ PageState.HeldFrame root s f) :
    ∃ s', unmapPage (physToVirt s.hhdm root) virt s = some s' ∧
      Paging root s' ∧ Pmm.SameMap s.pmm s'.pmm ∧
      (∀ q, q.length ≤ 3 → s'.tableAt root q = s.tableAt root q) ∧
      (∀ q t j, q.length ≤ 2 → s.tableAt root q = some t → s'.slot t j = s.slot t j) ∧
      (∀ virt', s'.leaf root virt' = if pageOf virt = pageOf virt' then 0 else s.leaf root virt') ∧
      (∀ f, s'.pmm.Free f ↔ s.pmm.Free f ∨ s.leaf root virt = f + 3) ∧
      ∀ a, (∀ t, s.IsTable root t →
        a < physToVirt s.hhdm t ∨ physToVirt s.hhdm t + pageSize ≤ a) → s'.mem a = s.mem a := by
  obtain ⟨s₁, done, paging₁, pmm₁, tables, upper, leaf, bytes⟩ := vmmUnmap_spec paging virt
  rw [unmapPage, done, vmmGetPhys_eq]
  rcases owned with unmapped | ⟨f, mapped, held⟩
  · rw [unmapped, Nat.zero_and, if_neg (fun some => some rfl)]
    refine ⟨s₁, rfl, paging₁, by rw [pmm₁]; exact paging.ready.wf.refl, tables, upper, leaf, ?_,
      bytes⟩
    intro f
    rw [pmm₁]
    simp
  · rw [mapped, frame_of_leaf held.frame, if_pos held.nonzero, pmm₁]
    obtain ⟨pmm, freed, given⟩ := paging.ready.free held.held held.nonzero
    rw [freed]
    have hhdm₁ : s₁.hhdm = s.hhdm := by rw [Vm.hhdm, pmm₁, Vm.hhdm]
    have hhdm : pmm.hhdmOffset = s₁.hhdm := given.same.hhdmOffset.trans hhdm₁.symm
    have slots : ∀ t j, ({ s₁ with pmm := pmm } : Vm).slot t j = s₁.slot t j := fun t j =>
      PageState.slot_pmm hhdm j
    obtain ⟨tables', paging'⟩ := paging₁.of_agree { s₁ with pmm := pmm } given.ready hhdm
      (fun q t j _ _ => slots t j) (by
        -- the frame given back is no table
        intro g isFree
        rw [hhdm₁]
        have noTable : ∀ g, ¬ s.IsTable root g → ¬ s₁.IsTable root g := by
          rintro g other ⟨q, short, reached⟩
          rw [tables q short] at reached
          exact other ⟨q, short, reached⟩
        rcases (given.others g).mp isFree with old | rfl
        · exact ⟨noTable g (paging.free_not_table old), paging.free g old⟩
        · exact ⟨noTable g held.other, held.nonnull⟩)
    refine ⟨{ s₁ with pmm := pmm }, rfl, paging', given.same, ?_, ?_, ?_, ?_, bytes⟩
    · intro q short
      rw [tables' q short, tables q short]
    · intro q t j short reached
      rw [slots, upper q t j short reached]
    · intro virt'
      rw [PageState.leaf_of_tables tables' fun q t j _ _ => slots t j, leaf]
    · intro g
      rw [given.others]
      apply or_congr Iff.rfl
      constructor
      · rintro rfl
        rfl
      · omega

theorem unmapPages_spec (paging : Paging root s) (owns : Owns root base i n s)
    (bound : i + n ≤ 2 ^ 36) : ∃ s', unmapPages (physToVirt s.hhdm root) base i n s = some s' ∧
      Released root base i n s s' := by
  induction n generalizing i s with
  | zero => exact ⟨s, rfl, .nil paging⟩
  | succ n ih =>
    obtain ⟨s₁, done, paging₁, same, tables, upper, leaf, free, bytes⟩ :=
      unmapPage_spec paging (pageAddr base i) (owns.frame 0 (Nat.succ_pos n))
    have hhdm : s₁.hhdm = s.hhdm := same.hhdmOffset
    have shift : ∀ k, i + 1 + k = i + (k + 1) := fun k => by omega
    have later : ∀ k < n, s₁.leaf root (pageAddr base (i + 1 + k)) =
        s.leaf root (pageAddr base (i + (k + 1))) := by
      intro k below
      rw [leaf, if_neg, shift]
      apply pageOf_pageAddr_ne
      · omega
      · omega
      · omega
    have rest : Owns root base (i + 1) n s₁ := by
      constructor
      · intro k below
        rw [later k below]
        rcases owns.frame (k + 1) (by omega) with unmapped | ⟨f, mapped, held⟩
        · exact .inl unmapped
        · refine .inr ⟨f, mapped, held.of_tables same ?_ tables⟩
          -- the frame given back is behind another page
          intro isFree
          rcases (free f).mp isFree with old | equal
          · exact held.held.not_free old
          · have first := owns.distinct 0 (by omega) (k + 1) (by omega)
              (by rw [Nat.add_zero, equal]; omega) (by rw [Nat.add_zero, equal, mapped])
            omega
      · intro k below l below' nonzero equal
        rw [later k below, later l below'] at equal
        rw [later k below] at nonzero
        have indices := owns.distinct (k + 1) (by omega) (l + 1) (by omega) nonzero equal
        omega
    obtain ⟨s', finished, released⟩ := ih paging₁ rest (by omega)
    refine ⟨s', ?_, released.paging, same.trans released.same, ?_, ?_, ?_, ?_, ?_, ?_⟩
    · rw [hhdm] at finished
      rw [unmapPages_succ, done]
      exact finished
    · intro q short
      rw [released.tables q short, tables q short]
    · intro q t j short reached
      rw [released.upper q t j short (by rwa [tables q (by omega)]), upper q t j short reached]
    · rintro virt ⟨k, below, page⟩
      by_cases behind : ∃ k < n, pageOf (pageAddr base (i + 1 + k)) = pageOf virt
      · exact released.here virt behind
      · rw [released.others virt fun k below same => behind ⟨k, below, same⟩, leaf]
        cases k with
        | zero => exact if_pos page
        | succ k => exact absurd ⟨k, by omega, by rwa [shift]⟩ behind
    · intro virt away
      rw [released.others, leaf, if_neg]
      · exact away 0 (Nat.succ_pos n)
      · intro k below
        rw [shift]
        exact away (k + 1) (by omega)
    · intro f
      rw [released.free, free, or_assoc]
      apply or_congr Iff.rfl
      constructor
      · rintro (first | ⟨k, below, equal⟩)
        · exact ⟨0, Nat.succ_pos n, first⟩
        · exact ⟨k + 1, by omega, by rwa [later k below] at equal⟩
      · rintro ⟨k, below, equal⟩
        cases k with
        | zero => exact .inl equal
        | succ k => exact .inr ⟨k, by omega, by rwa [later k (by omega)]⟩
    · intro a outside
      rw [released.bytes a, bytes a outside]
      rintro t ⟨q, short, reached⟩
      rw [hhdm]
      rw [tables q short] at reached
      exact outside t ⟨q, short, reached⟩

end Vm

end DedOS
