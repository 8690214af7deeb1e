import DedOS.Fs.ArchiveText

/-!
# A round of the initrd loader

What a round reads and copies, and where it leaves the loop. A statement about all bounds on
the loops of a round is one about `RoundRead` and about the string of its name.
-/

namespace DedOS

open Lib Logged

namespace Tmpfs

variable {mem : Memory} {s s' : Tmpfs} {t : Names} {path text : CString} {name : List UInt8}
  {flags : UInt32} {fuel a n i left parent data size offset addr val archiveSize : Nat}
  {w : Access} {l l' : Loader}

/-! ### What the scans read -/

/-- The loop takes the bytes at the offset for a header. -/
structure Header (archiveSize : Nat) (mem : Memory) (offset : Nat) : Prop where
  inside : offset < archiveSize
  some : mem offset ≠ 0
  known : isUstar mem offset = true

end Tmpfs

end DedOS
