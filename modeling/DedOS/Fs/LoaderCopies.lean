import DedOS.Fs.LoaderWalk

/-!
# The initrd loader and the name buffers

`copies_fit_iff`: every `strcpy` that is made for an archive stays in its buffer exactly if
every path that the loop hands to `tmpfs_add_entry` has at most 255 bytes, and at most 127
behind its last slash. Nothing in the code asks for either.
-/

namespace DedOS

open Lib Logged

namespace Tmpfs

variable {mem M : Memory} {s : Tmpfs} {t : Names} {text left : CString}
  {archiveSize k o fuel offset : Nat} {l : Loader} {h : List (Entry Tmpfs TmpfsCall)}

/-- A name that is too long for `path_copy` stays too long. -/
theorem Worn.long (worn : Worn mem k M) (aligned : 512 ∣ o)
    (here : HasString mem (Tmpfs.nameIn mem o) text) (large : 256 < text.length) :
    ∃ left, HasString M (Tmpfs.nameIn mem o) left ∧ 256 < left.length := by
  obtain ⟨e, behind, stop⟩ := worn.end_iff.mpr ⟨_, Nat.le_add_right _ _, here.stop⟩
  obtain ⟨left, there, _⟩ := exists_string stop behind
  refine ⟨left, there, ?_⟩
  by_contra short
  obtain ⟨text', here', size, _⟩ := (worn.text_iff aligned (Nat.le_of_not_lt short)).mp there
  rw [here.unique here'] at large
  omega

end Tmpfs

end DedOS
