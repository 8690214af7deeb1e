import DedOS.Fs.LoaderStep
import DedOS.Lib.Orbit

/-!
# The walk of the initrd loader

The headers that the loop comes to are those of the archive as it was loaded: the slashes that
it overwrites are in no size and no magic. With every visit of a header its name is a slash
shorter, if it still ends in one (`Worn`). So `Passes` says of the archive alone which visits
go on, and the loop makes as many rounds as there are such visits in a row (`inRound`,
`exists_rounds`).
-/

namespace DedOS

open Lib Logged

namespace Tmpfs

variable {mem M : Memory} {s : Tmpfs} {t : Names} {text left : CString}
  {a c e i k o fuel val archiveSize : Nat} {l l' : Loader}

/-- The offset of the header in round `k`. -/
def headerAt (mem : Memory) (k : Nat) : Nat := (follow mem)^[k] 0

/-- The rounds before round `k` that were at the header. -/
def visitsTo (mem : Memory) (k header : Nat) : Nat := visits (follow mem) 0 k header

/-- After `c` visits the next visit of a header goes on: there is something left of its name,
unless that is `"./"`, and `tmpfs_add_entry` can take it without one more slash. -/
structure Passes (archiveSize : Nat) (mem : Memory) (c header : Nat) : Prop where
  head : Header archiveSize mem header
  text : ∃ text, HasString mem (nameIn mem header) text ∧
    (nameIn mem header = header → (CString.trim^[c] text).bytes ≠ []) ∧
    Fits (CString.trim^[c + 1] text)

theorem headerAt_succ (mem : Memory) (k : Nat) :
    headerAt mem (k + 1) = follow mem (headerAt mem k) := Function.iterate_succ_apply' ..

/-- Records are rounded up to whole blocks, also where the size wraps. -/
theorem recordSize_aligned (size : Nat) : 512 ∣ recordSize size := by
  -- the mask clears nine bits
  have mask : (0xFFFFFFFFFFFFFE00 : Nat) = (2 ^ (64 - 9) - 1) <<< 9 := by decide
  have word : wrap64 (size + 511) < 2 ^ 64 := Nat.mod_lt _ (by decide)
  rw [recordSize, mask, and_mask word (by decide), wrap64]
  omega

theorem headerAt_aligned (mem : Memory) (k : Nat) : 512 ∣ headerAt mem k := by
  induction k with
  | zero => exact Nat.dvd_zero 512
  | succ k ih =>
    have size := recordSize_aligned (sizeIn mem (headerAt mem k))
    rw [headerAt_succ, follow, wrap64]
    omega

theorem le_nameIn (mem : Memory) (o : Nat) : o ≤ nameIn mem o ∧ nameIn mem o ≤ o + 2 := by
  unfold nameIn
  split <;> omega

/-! ### The archive after some rounds -/

/-- After `k` rounds some slashes of the archive are overwritten, each in a name that was
visited and that ends behind it. -/
structure Worn (mem : Memory) (k : Nat) (M : Memory) : Prop where
  kept : ∀ a, M a = mem a ∨ mem a = slash ∧ M a = 0
  cut : ∀ a, M a ≠ mem a → ∃ i < k, ∃ text, HasString mem (nameIn mem (headerAt mem i)) text ∧
    nameIn mem (headerAt mem i) ≤ a ∧ a < nameIn mem (headerAt mem i) + text.length
  visited : ∀ i < k, ∃ text, HasString mem (nameIn mem (headerAt mem i)) text ∧ text.length ≤ 256
  text : ∀ o text, 512 ∣ o → text.length ≤ 256 → HasString mem (nameIn mem o) text →
    HasString M (nameIn mem o) (CString.trim^[visitsTo mem k o] text)

theorem Worn.start (mem : Memory) : Worn mem 0 mem where
  kept a := .inl rfl
  cut a differ := absurd rfl differ
  visited := nofun
  text o text _ _ here := by
    rw [visitsTo, visits_zero]
    exact here

theorem Worn.zero (worn : Worn mem k M) (zero : mem a = 0) : M a = 0 := by
  rcases worn.kept a with same | ⟨_, gone⟩
  · rw [same, zero]
  · exact gone

theorem Worn.eq_of_ne (worn : Worn mem k M) (other : mem a ≠ slash) : M a = mem a :=
  (worn.kept a).resolve_right fun gone => other gone.1

/-- A byte that was there before the rounds is there after them, if it is no slash. -/
theorem Worn.eq_iff {b : UInt8} (worn : Worn mem k M) (nonzero : b ≠ 0) (other : b ≠ slash) :
    M a = b ↔ mem a = b := by
  rcases worn.kept a with same | ⟨before, gone⟩
  · rw [same]
  · rw [before, gone]
    exact ⟨fun same => absurd same.symm nonzero, fun same => absurd same.symm other⟩

/-- The letters of the magic are never overwritten. -/
theorem Worn.letter (worn : Worn mem k M) (inside : i < 5) :
    M a = ustar.getD i 0 ↔ mem a = ustar.getD i 0 := by
  have letter : ∀ i < 5, ustar.getD i 0 ≠ 0 ∧ ustar.getD i 0 ≠ slash := by decide
  exact worn.eq_iff (letter i inside).1 (letter i inside).2

/-- An overwritten byte in a block lies in the name of its header. -/
theorem Worn.cut_block (worn : Worn mem k M) (aligned : 512 ∣ o) (low : o ≤ a)
    (high : a < o + 512) (differ : M a ≠ mem a) : ∃ i < k, headerAt mem i = o ∧
      ∃ text, HasString mem (nameIn mem o) text ∧ text.length ≤ 256 ∧
        nameIn mem o ≤ a ∧ a < nameIn mem o + text.length := by
  obtain ⟨i, before, text, here, behind, inside⟩ := worn.cut a differ
  obtain ⟨text', here', short⟩ := worn.visited i before
  obtain rfl := here.unique here'
  -- both offsets are aligned, and the name is shorter than a block
  have same : headerAt mem i = o := by
    have start := le_nameIn mem (headerAt mem i)
    have aligned' := headerAt_aligned mem i
    omega
  subst same
  exact ⟨i, before, rfl, text, here, short, behind, inside⟩

theorem Worn.nameIn (worn : Worn mem k M) (aligned : 512 ∣ o) : nameIn M o = nameIn mem o := by
  have first : M o = dot ↔ mem o = dot := worn.eq_iff (by decide) (by decide)
  unfold Tmpfs.nameIn
  by_cases dotted : mem o = dot ∧ mem (o + 1) = slash
  · -- the slash behind the dot is in front of the name
    have second : M (o + 1) = mem (o + 1) := by
      by_contra differ
      obtain ⟨i, _, _, text, _, _, behind, _⟩ :=
        worn.cut_block aligned (Nat.le_succ o) (by omega) differ
      rw [Tmpfs.nameIn, if_pos dotted] at behind
      omega
    rw [if_pos dotted, if_pos ⟨first.mpr dotted.1, second.trans dotted.2⟩]
  · rw [if_neg dotted, if_neg]
    rintro ⟨at_dot, at_slash⟩
    refine dotted ⟨first.mp at_dot, ?_⟩
    rcases worn.kept (o + 1) with same | ⟨before, _⟩
    · rw [← same, at_slash]
    · exact before

theorem Worn.isUstar (worn : Worn mem k M) (o : Nat) : isUstar M o = isUstar mem o := by
  rw [Bool.eq_iff_iff, Tmpfs.isUstar, Tmpfs.isUstar, List.all_eq_true, List.all_eq_true]
  refine forall₂_congr fun i member => ?_
  rw [decide_eq_true_iff, decide_eq_true_iff]
  exact worn.letter (List.mem_range.mp member)

theorem Worn.octalToInt (worn : Worn mem k M) :
    octalToInt M fuel a val = octalToInt mem fuel a val := by
  -- neither a slash nor the zero in its place is a digit
  have digit : ∀ a, Digit (mem a) → M a = mem a := by
    intro a inside
    apply worn.eq_of_ne
    intro sep
    rw [sep] at inside
    revert inside
    decide
  have other : ∀ a, ¬ Digit (mem a) → ¬ Digit (M a) := by
    intro a outside
    rcases worn.kept a with same | ⟨_, gone⟩
    · rwa [same]
    · rw [gone]
      decide
  induction fuel generalizing a val with
  | zero => rfl
  | succ fuel ih =>
    rw [DedOS.octalToInt, DedOS.octalToInt]
    by_cases inside : Digit (mem a)
    · rw [digit a inside, if_pos inside, if_pos inside, ih]
    · rw [if_neg inside, if_neg (other a inside)]

theorem Worn.sizeIn (worn : Worn mem k M) (o : Nat) : sizeIn M o = sizeIn mem o := by
  rw [Tmpfs.sizeIn, Tmpfs.sizeIn, worn.octalToInt]

theorem Worn.follow (worn : Worn mem k M) (o : Nat) : follow M o = follow mem o := by
  rw [Tmpfs.follow, Tmpfs.follow, worn.sizeIn]

/-- A name that is short now is what its visits have left of it. -/
theorem Worn.text_iff (worn : Worn mem k M) (aligned : 512 ∣ o) (short : left.length ≤ 256) :
    HasString M (Tmpfs.nameIn mem o) left ↔ ∃ text, HasString mem (Tmpfs.nameIn mem o) text ∧
      text.length ≤ 256 ∧ left = CString.trim^[visitsTo mem k o] text := by
  constructor
  · intro here
    have start := le_nameIn mem o
    obtain ⟨text, there, size⟩ : ∃ text, HasString mem (Tmpfs.nameIn mem o) text ∧
        text.length ≤ 256 := by
      -- the terminator was there, or it has replaced a slash of the name
      by_cases same : M (Tmpfs.nameIn mem o + left.length) = mem (Tmpfs.nameIn mem o + left.length)
      · obtain ⟨text, there, inside⟩ := exists_string (same ▸ here.stop) (Nat.le_add_right _ _)
        exact ⟨text, there, by omega⟩
      · obtain ⟨i, _, _, text, there, size, _⟩ :=
          worn.cut_block aligned (by omega) (by omega) same
        exact ⟨text, there, size⟩
    exact ⟨text, there, size, here.unique (worn.text o text aligned size there)⟩
  · rintro ⟨text, there, size, rfl⟩
    exact worn.text o text aligned size there

theorem Worn.header (worn : Worn mem k M) (head : Header archiveSize M o) :
    Header archiveSize mem o :=
  ⟨head.inside, fun zero => head.some (worn.zero zero), worn.isUstar o ▸ head.known⟩

/-- An end behind a name is there before the rounds and after them. -/
theorem Worn.end_iff (worn : Worn mem k M) : (∃ e ≥ a, M e = 0) ↔ ∃ e ≥ a, mem e = 0 := by
  constructor
  · rintro ⟨e, behind, stop⟩
    by_cases same : M e = mem e
    · exact ⟨e, behind, same ▸ stop⟩
    · -- the name that was cut has its own terminator behind
      obtain ⟨i, _, text, here, _, inside⟩ := worn.cut e same
      exact ⟨_, by omega, here.stop⟩
  · rintro ⟨e, behind, stop⟩
    exact ⟨e, behind, worn.zero stop⟩

/-- The loop has a header before it, unless the visits have left nothing of its name. -/
theorem Worn.header_iff (worn : Worn mem k M) (aligned : 512 ∣ o)
    (here : HasString M (Tmpfs.nameIn mem o) left) : Header archiveSize M o ↔
      Header archiveSize mem o ∧ (Tmpfs.nameIn mem o = o → left.bytes ≠ []) := by
  constructor
  · intro head
    refine ⟨worn.header head, fun start empty => ?_⟩
    rw [start] at here
    exact head.some (here.empty_iff.mpr empty)
  · rintro ⟨head, some⟩
    refine ⟨head.inside, fun zero => ?_, (worn.isUstar o).trans head.known⟩
    obtain ⟨i, _, _, text, _, _, behind, _⟩ := worn.cut_block aligned le_rfl (by omega)
      (show M o ≠ mem o by rw [zero]; exact head.some.symm)
    -- the first byte was overwritten, so the name starts there
    have start : Tmpfs.nameIn mem o = o := Nat.le_antisymm behind (le_nameIn mem o).1
    rw [start] at here some
    exact some rfl (here.empty_iff.mp zero)

/-- A round cuts the name of its header. -/
theorem Worn.next (worn : Worn mem k M) (short : left.length ≤ 256)
    (here : HasString M (Tmpfs.nameIn mem (headerAt mem k)) left) :
    Worn mem (k + 1) (trimSlash (Tmpfs.nameIn mem (headerAt mem k)) left.length M) := by
  have aligned := headerAt_aligned mem k
  have start := le_nameIn mem (headerAt mem k)
  obtain ⟨text, there, size, rest⟩ := (worn.text_iff aligned short).mp here
  have left_le : left.length ≤ text.length := rest ▸ CString.trim_iterate_length_le _ _
  generalize cut : trimSlash (Tmpfs.nameIn mem (headerAt mem k)) left.length M = M'
  -- the only byte that may change
  have changed : ∀ a, M' a = M a ∨
      a = Tmpfs.nameIn mem (headerAt mem k) + left.length - 1 ∧ 0 < left.length ∧
        M a = slash ∧ M' a = 0 := by
    intro a
    rw [trimSlash] at cut
    split at cut
    next slashed =>
      rw [← cut]
      by_cases at_slash : a = Tmpfs.nameIn mem (headerAt mem k) + left.length - 1
      · refine .inr ⟨at_slash, slashed.1, ?_, ?_⟩
        · rw [at_slash, slashed.2]
        · rw [at_slash, Function.update_self]
      · exact .inl (Function.update_of_ne at_slash _ _)
    next => exact .inl (by rw [cut])
  constructor
  case kept =>
    intro a
    rcases changed a with same | ⟨_, _, before, gone⟩
    · rw [same]
      exact worn.kept a
    · -- the slash was not overwritten before
      rcases worn.kept a with same | ⟨_, zero⟩
      · exact .inr ⟨same ▸ before, gone⟩
      · rw [zero] at before
        exact absurd before (by decide)
  case cut =>
    intro a differ
    by_cases old : M a = mem a
    · -- the byte of this round, or of an earlier one
      rcases changed a with same | ⟨rfl, some, _⟩
      · exact absurd (same.trans old) differ
      · exact ⟨k, Nat.lt_succ_self k, text, there, by omega, by omega⟩
    · obtain ⟨i, before, name⟩ := worn.cut a old
      exact ⟨i, Nat.lt_succ_of_lt before, name⟩
  case visited =>
    intro i before
    rcases Nat.lt_succ_iff_lt_or_eq.mp before with earlier | rfl
    · exact worn.visited i earlier
    · exact ⟨text, there, size⟩
  case text =>
    intro o name aligned' small there'
    rw [visitsTo, visits_succ]
    by_cases visited : (Tmpfs.follow mem)^[k] 0 = o
    · -- the header of this round: one visit more, one slash less
      rw [if_pos visited, Function.iterate_succ_apply']
      obtain rfl : headerAt mem k = o := visited
      obtain rfl := there.unique there'
      rw [← cut]
      change HasString _ _ (CString.trim (CString.trim^[visitsTo mem k (headerAt mem k)] text))
      rw [← rest]
      exact here.trim
    · rw [if_neg visited, Nat.add_zero]
      -- the names of two headers lie in different blocks
      have apart : headerAt mem k ≠ o := visited
      have start' := le_nameIn mem o
      have length := CString.trim_iterate_length_le (visitsTo mem k o) name
      refine (worn.text o name aligned' small there').congr fun i inside => ?_
      refine (changed _).resolve_right ?_
      rintro ⟨at_slash, some, _⟩
      change i ≤ (CString.trim^[visitsTo mem k o] name).length at inside
      omega

/-! ### The rounds -/

/-- A header that was visited has a short name. -/
theorem Worn.short (worn : Worn mem k M) (visited : visitsTo mem k o ≠ 0)
    (here : HasString mem (Tmpfs.nameIn mem o) text) : text.length ≤ 256 := by
  obtain ⟨i, before, same⟩ := visits_pos_iff.mp visited
  obtain ⟨text', here', short⟩ := worn.visited i before
  obtain rfl : headerAt mem i = o := same
  rwa [here.unique here']

theorem Fits.length_le (fits : Fits text.trim) : text.length ≤ 256 :=
  (CString.length_le_trim text).trans (Nat.succ_le_of_lt fits.whole)

/-- In round `k` the loop is at header `k` of the archive. -/
structure InRound (mem : Memory) (k : Nat) (l : Loader) : Prop where
  offset : l.offset = headerAt mem k
  worn : Worn mem k l.archive
  holds : ∃ t, Holds t l.fs

theorem InRound.passes (at_k : InRound mem k l) (goes : Goes archiveSize l l') :
    Passes archiveSize mem (visitsTo mem k (headerAt mem k)) (headerAt mem k) ∧
      InRound mem (k + 1) l' := by
  obtain ⟨offset, worn, _⟩ := at_k
  obtain ⟨head, next, ⟨left, here, fits, cut⟩, holds⟩ := goes
  have aligned := headerAt_aligned mem k
  have short := fits.length_le
  rw [offset] at head next
  rw [offset, worn.nameIn aligned] at here cut
  obtain ⟨text, there, _, rest⟩ := (worn.text_iff aligned short).mp here
  -- what was read in the worn archive is so in the loaded one
  obtain ⟨head, some⟩ := (worn.header_iff aligned here).mp head
  refine ⟨⟨head, text, there, ?_, ?_⟩, ?_, ?_, holds⟩
  · rwa [← rest]
  · rwa [Function.iterate_succ_apply', ← rest]
  · rw [next, worn.follow, headerAt_succ]
  · rw [cut]
    exact worn.next short here

theorem InRound.next (at_k : InRound mem k l)
    (passes : Passes archiveSize mem (visitsTo mem k (headerAt mem k)) (headerAt mem k)) :
    ∃ l', Next (initrdRound archiveSize) l l' := by
  obtain ⟨offset, worn, t, holds⟩ := at_k
  obtain ⟨head, text, there, some, fits⟩ := passes
  have aligned := headerAt_aligned mem k
  rw [Function.iterate_succ_apply'] at fits
  -- on later visits the name is known to be short
  have short : text.length ≤ 256 := by
    by_cases first : visitsTo mem k (headerAt mem k) = 0
    · rw [first] at fits
      exact fits.length_le
    · exact worn.short first there
  have here := worn.text _ _ aligned short there
  have head' := (worn.header_iff aligned here).mpr ⟨head, some⟩
  rw [← offset] at head'
  have here' : HasString l.archive (Tmpfs.nameIn l.archive l.offset)
      (CString.trim^[visitsTo mem k (headerAt mem k)] text) := by
    rw [offset, worn.nameIn aligned]
    exact here
  exact exists_next holds head' here' fits

/-- The visits of the archive that go on, up to a round. -/
def PassesTo (archiveSize : Nat) (mem : Memory) (k : Nat) : Prop :=
  ∀ i < k, Passes archiveSize mem (visitsTo mem i (headerAt mem i)) (headerAt mem i)

theorem PassesTo.succ (passed : PassesTo archiveSize mem k)
    (passes : Passes archiveSize mem (visitsTo mem k (headerAt mem k)) (headerAt mem k)) :
    PassesTo archiveSize mem (k + 1) := by
  intro i below
  rcases Nat.lt_succ_iff_lt_or_eq.mp below with earlier | rfl
  · exact passed i earlier
  · exact passes

end Tmpfs

end DedOS
