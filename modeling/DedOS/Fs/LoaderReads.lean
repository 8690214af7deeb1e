import DedOS.Fs.LoaderWalk

/-!
# The initrd loader and the end of the archive

`reads_inside_iff`: the loop reads inside the module exactly if no header it comes to is cut
off before its magic, no name and no contents run over the end. The code only compares the
offset of the header with the size.
-/

namespace DedOS

open Lib Logged

namespace Tmpfs

variable {mem M : Memory} {s : Tmpfs} {t : Names} {text left : CString} {w : Access}
  {archiveSize k o fuel offset a i : Nat} {l : Loader} {h : List (Entry Tmpfs TmpfsCall)}

/-- What a round reads of the bytes at a header lies in the archive: the magic as far as it is
compared, the name with its terminator, and the contents of a file whose path fits. -/
structure InBounds (archiveSize : Nat) (mem : Memory) (header : Nat) : Prop where
  magic : ∀ i < 5, (∀ j < i, mem (header + magicField + j) = ustar.getD j 0) →
    header + magicField + i < archiveSize
  name : isUstar mem header = true → ∃ e, nameIn mem header ≤ e ∧ e < archiveSize ∧ mem e = 0
  content : isUstar mem header = true → ∀ text, HasString mem (nameIn mem header) text →
    text.bytes ≠ [] → Fits text.trim → mem (header + typeflagField) ≠ typeDirectory →
    sizeIn mem header = 0 ∨ header + 512 + sizeIn mem header ≤ archiveSize

theorem PassesTo.mono {j : Nat} (passed : PassesTo archiveSize mem k) (before : j ≤ k) :
    PassesTo archiveSize mem j := fun i below => passed i (Nat.lt_of_lt_of_le below before)

/-- What is left of a path that fits in its buffers was cut from a path that did. -/
theorem fits_first (passed : PassesTo archiveSize mem k)
    (here : HasString mem (nameIn mem o) text)
    (fits : Fits (CString.trim^[visitsTo mem k o] text).trim) : Fits text.trim := by
  by_cases first : visitsTo mem k o = 0
  · rwa [first] at fits
  · obtain ⟨i, before, at_o, zero⟩ := exists_first_visit first
    obtain ⟨_, text', here', _, fits'⟩ := passed i before
    obtain rfl : headerAt mem i = o := at_o
    rw [visitsTo, zero] at fits'
    rwa [here.unique here']

theorem Worn.inBounds (worn : Worn mem k M) (aligned : 512 ∣ o)
    (passed : PassesTo archiveSize mem k) (bound : InBounds archiveSize mem o) :
    InBounds archiveSize M o := by
  constructor
  case magic =>
    intro i small same
    refine bound.magic i small fun j before => ?_
    exact (worn.letter (Nat.lt_trans before small)).mp (same j before)
  case name =>
    intro known
    obtain ⟨e, behind, small, stop⟩ := bound.name (worn.isUstar o ▸ known)
    exact ⟨e, by rwa [worn.nameIn aligned], small, worn.zero stop⟩
  case content =>
    intro known left there named fits file
    rw [worn.nameIn aligned] at there
    -- a name that is worn to a path that fits was one that fits
    obtain ⟨text, here, _, rfl⟩ := (worn.text_iff aligned fits.length_le).mp there
    have length := CString.trim_iterate_length_le (visitsTo mem k o) text
    rw [worn.sizeIn]
    refine bound.content (worn.isUstar o ▸ known) text here ?_ (fits_first passed here fits) ?_
    · intro empty
      have zero : text.length = 0 := by rw [CString.length, empty, List.length_nil]
      rw [zero] at length
      exact named (List.eq_nil_of_length_eq_zero (Nat.le_zero.mp length))
    · exact fun dir => file ((worn.eq_iff (by decide) (by decide)).mpr dir)

end Tmpfs

end DedOS
