import DedOS.Fs.LookupEnds
import DedOS.Fs.InitrdRun
import DedOS.Lib.Rounds

/-!
# The accesses of the initrd loader

`initrd_init` again, with what it does on its way: the headers it comes to, the bytes of the
archive it reads, its calls of `tmpfs_add_entry` and every `strcpy` made for it. `initrdLoop`
returns what `initrdFrom` returns. What `log_error` prints of a path has been read before.
-/

namespace DedOS

open Lib Logged

theorem CString.empty_nonzero : 0 ∉ ([] : List UInt8) := List.not_mem_nil

def CString.empty : CString where
  bytes := []
  nonzero := CString.empty_nonzero

/-- A byte in front of a string. -/
def CString.cons (c : UInt8) (nonzero : c ≠ 0) (s : CString) : CString where
  bytes := c :: s.bytes
  nonzero member := (List.mem_cons.mp member).elim (fun zero => nonzero zero.symm) s.nonzero

namespace Tmpfs

inductive Access where
  /-- The loop is at the header at this offset. -/
  | header (offset : Nat)
  | read (offset : Nat)
  /-- `tmpfs_add_entry` -/
  | add (path : CString) (content : List UInt8) (flags : UInt32)
  /-- `strcpy` of a string of that length into a buffer of `room` bytes -/
  | copy (room length : Nat)
  deriving DecidableEq

abbrev Loading := Logged Access Fault

/-! ### Reading the archive -/

def getByte (archive : Memory) (a : Nat) : Loading UInt8 := do
  record (.read a)
  return archive a

/-- `memcmp(header->magic, "ustar", 5) == 0`, from index `i` on with `left` bytes to go -/
def magicFrom (archive : Memory) (header : Nat) : Nat → Nat → Loading Bool
  | 0, _ => return true
  | left + 1, i => do
    let c ← getByte archive (header + magicField + i)
    if c = ustar.getD i 0 then magicFrom archive header left (i + 1) else return false

/-- `octal_to_int` from `str` on, with the value so far -/
def octalScan (archive : Memory) : Nat → Nat → Nat → Loading Nat
  | 0, _, _ => fail .endless
  | fuel + 1, str, val => do
    let c ← getByte archive str
    if Digit c then octalScan archive fuel (str + 1) (wrap64 (val <<< 3) ||| (c.toNat - 0x30))
    else return val

/-- `strlen`, with the string -/
def scanString (archive : Memory) : Nat → Nat → Loading CString
  | 0, _ => fail .endless
  | fuel + 1, a => do
    let c ← getByte archive a
    if h : c = 0 then return CString.empty
    else do
      let rest ← scanString archive fuel (a + 1)
      return CString.cons c h rest

/-- `memcpy` of `n` bytes -/
def copyBytes (archive : Memory) : Nat → Nat → Loading (List UInt8)
  | _, 0 => return []
  | a, n + 1 => do
    let c ← getByte archive a
    let rest ← copyBytes archive (a + 1) n
    return c :: rest

/-- `strcpy` into a buffer of `room` bytes -/
def copyString (room length : Nat) : Loading Unit := do
  record (.copy room length)
  if length < room then return () else fail .overflow

/-! ### `tmpfs_add_entry` -/

/-- `sizeof(path_copy)` -/
def pathCopySize : Nat := 256

/-- `sizeof(node->name)`, in a node and in a vnode -/
def nameSize : Nat := 128

/-- The contents are the `size` bytes of the archive at `data`. -/
def createFile (parent : Nat) (name : List UInt8) (data size : Nat) (archive : Memory)
    (s : Tmpfs) : Loading (Option Nat × Tmpfs) :=
  if (s.node parent).flags ≠ vfsDirectory then return (none, s)
  else do
    copyString nameSize name.length
    let content ← copyBytes archive data size
    lift (tmpfsCreateFile parent name content s)

def createDir (parent : Nat) (name : List UInt8) (archive : Memory) (s : Tmpfs) :
    Loading (Option Nat × Tmpfs) := do
  let (newDir, s) ← createFile parent name 0 0 archive s
  match newDir with
  | none => return (none, s)
  | some dir =>
    return (newDir, { s with
      node := Function.update s.node dir { s.node dir with flags := vfsDirectory } })

def create (parent : Nat) (name : List UInt8) (data size : Nat) (flags : UInt32)
    (archive : Memory) (s : Tmpfs) : Loading (Option Nat × Tmpfs) :=
  if flags &&& vfsDirectory ≠ 0 then createDir parent name archive s
  else createFile parent name data size archive s

/-- The names that `tmpfs_create_vnode` has copied on the way from `s` to `s'` -/
def vnodeCopies (s s' : Tmpfs) : List Access :=
  (List.range' s.vnodes (s'.vnodes - s.vnodes)).map fun v => .copy nameSize (s'.vnode v).name.length

def findPath (fuel : Nat) (path : CString) (s : Tmpfs) : Loading (Option Nat × Tmpfs) := do
  let (node, s') ← lift (vfsFindPath fuel path s)
  recordAll (vnodeCopies s s')
  return (node, s')

/-- `tmpfs_add_entry` from the split of `path_copy` on -/
def linkEntry (fuel : Nat) (pathCopy : CString) (data size : Nat) (flags : UInt32)
    (archive : Memory) (s : Tmpfs) : Loading (Option Nat × Tmpfs) :=
  match strrchr pathCopy slash with
  | none => create rootInternal pathCopy.bytes data size flags archive s
  | some lastSlash => do
    let filename := pathCopy.bytes.drop (lastSlash + 1)
    let (parentVnode, s) ← findPath fuel (pathCopy.cut lastSlash) s
    let currentParent :=
      match parentVnode with
      | none => rootInternal
      | some vnode =>
        if (s.vnode vnode).flags &&& vfsDirectory ≠ 0 then (s.vnode vnode).device
        else rootInternal
    create currentParent filename data size flags archive s

def addEntry (fuel fullPath data size : Nat) (flags : UInt32) (archive : Memory) (s : Tmpfs) :
    Loading (Option Nat × Tmpfs) := do
  let path ← scanString archive fuel fullPath
  record (.add path ((List.range size).map fun i => archive (data + i)) flags)
  copyString pathCopySize path.length
  linkEntry fuel path data size flags archive s

/-! ### The loop -/

/-- What a round takes from a header. -/
structure TarEntry where
  size : Nat
  flags : UInt32
  name : Nat

/-- The pointer behind a leading `"./"` -/
def namePointer (archive : Memory) (offset : Nat) : Loading Nat := do
  let c ← getByte archive offset
  if c = dot then
    let d ← getByte archive (offset + 1)
    return if d = slash then offset + 2 else offset
  else return offset

/-- The round up to the test of the name; there is no entry where the loop breaks. -/
def readHeader (fuel : Nat) (archive : Memory) (offset : Nat) : Loading (Option TarEntry) := do
  let first ← getByte archive offset
  if first = 0 then return none
  else do
    let known ← magicFrom archive offset 5 0
    if ¬ known then return none
    else do
      let size ← octalScan archive fuel (offset + sizeField) 0
      let typeflag ← getByte archive (offset + typeflagField)
      let flags := if typeflag = typeDirectory then vfsDirectory else vfsFile
      let name ← namePointer archive offset
      return some ⟨size, flags, name⟩

/-- The slash behind a directory's name is overwritten in the archive. -/
def cutSlash (name len : Nat) (archive : Memory) : Loading Memory :=
  if len > 0 then do
    let c ← getByte archive (name + len - 1)
    return if c = slash then Function.update archive (name + len - 1) 0 else archive
  else return archive

/-- What the loop does with a name that is not empty. -/
def loadEntry (fuel offset : Nat) (e : TarEntry) (archive : Memory) (s : Tmpfs) :
    Loading (Memory × Tmpfs) := do
  let text ← scanString archive fuel e.name
  let archive ← cutSlash e.name text.length archive
  let (_, s) ← addEntry fuel e.name (offset + 512) e.size e.flags archive s
  return (archive, s)

/-- The variables of the loop. -/
structure Loader where
  offset : Nat
  archive : Memory
  fs : Tmpfs

def initrdRound (archiveSize fuel : Nat) (l : Loader) : Loading (Option Loader) :=
  if l.offset < archiveSize then do
    record (.header l.offset)
    let entry ← readHeader fuel l.archive l.offset
    match entry with
    | none => return none
    | some e =>
      let next := wrap64 (l.offset + recordSize e.size)
      let c ← getByte l.archive e.name
      if c = 0 then return some { l with offset := next }
      else do
        let (archive, fs) ← loadEntry fuel l.offset e l.archive l.fs
        return some ⟨next, archive, fs⟩
  else return none

variable {mem archive : Memory} {s s' : Tmpfs} {path : CString} {name : List UInt8} {w : Access}
  {flags : UInt32} {fuel fuel' a n i left parent data size offset addr val archiveSize : Nat}
  {l : Loader}

/-! ### The results -/

/-- Where the loop finds the name of a header. -/
def nameIn (mem : Memory) (header : Nat) : Nat :=
  if mem header = dot ∧ mem (header + 1) = slash then header + 2 else header

def flagsIn (mem : Memory) (header : Nat) : UInt32 :=
  if mem (header + typeflagField) = typeDirectory then vfsDirectory else vfsFile

@[simp] theorem getByte_result : (getByte mem a).result = .ok (mem a) := rfl

theorem magicFrom_result : (magicFrom mem offset left i).result =
    .ok ((List.range' i left).all fun j => mem (offset + magicField + j) = ustar.getD j 0) := by
  induction left generalizing i with
  | zero => rfl
  | succ left ih =>
    rw [magicFrom, result_bind_ok getByte_result, List.range'_succ, List.all_cons]
    split
    next same => rw [ih, decide_eq_true same, Bool.true_and]
    next differ => rw [decide_eq_false differ, Bool.false_and, result_pure]

@[simp] theorem magicFrom_isUstar : (magicFrom mem offset 5 0).result = .ok (isUstar mem offset) := by
  rw [magicFrom_result, isUstar, List.range_eq_range']

@[simp] theorem octalScan_result :
    (octalScan mem fuel addr val).result = octalToInt mem fuel addr val := by
  induction fuel generalizing addr val with
  | zero => rfl
  | succ fuel ih =>
    rw [octalScan, octalToInt, result_bind_ok getByte_result]
    split
    · exact ih
    · rfl

@[simp] theorem scanString_result : (scanString mem fuel addr).result = readString mem fuel addr := by
  induction fuel generalizing addr with
  | zero => rfl
  | succ fuel ih =>
    rw [scanString, readString, result_bind_ok getByte_result]
    split
    · rfl
    · rw [result_bind, ih]
      rfl

@[simp] theorem copyBytes_result :
    (copyBytes mem a n).result = .ok ((List.range n).map fun i => mem (a + i)) := by
  induction n generalizing a with
  | zero => rfl
  | succ n ih =>
    rw [copyBytes, result_bind_ok getByte_result, result_bind_ok ih, result_pure,
      List.range_succ_eq_map, List.map_cons, List.map_map]
    congr 2
    apply List.map_congr_left
    intro i _
    simp only [Function.comp_apply]
    congr 1
    omega

theorem copyString_of_lt {room : Nat} (fits : n < room) :
    copyString room n = ⟨[.copy room n], .ok ()⟩ := by
  rw [copyString, if_pos fits]
  rfl

theorem copyString_of_le {room : Nat} (large : room ≤ n) :
    copyString room n = ⟨[.copy room n], .error .overflow⟩ := by
  rw [copyString, if_neg (by omega)]
  rfl

theorem createFile_result : (createFile parent name data size mem s).result =
    tmpfsCreateFile parent name ((List.range size).map fun i => mem (data + i)) s := by
  rw [createFile]
  split
  next file => rw [tmpfsCreateFile, if_pos file, result_pure]
  next dir =>
    rcases Nat.lt_or_ge name.length nameSize with fits | large
    · rw [copyString_of_lt fits, result_bind_ok rfl, result_bind_ok copyBytes_result, result_lift]
    · have full : name.length ≥ 128 := large
      rw [copyString_of_le large, result_bind_error rfl, tmpfsCreateFile, if_neg dir, if_pos full]

theorem createDir_result : (createDir parent name mem s).result = tmpfsCreateDir parent name s := by
  rw [createDir, tmpfsCreateDir, result_bind, createFile_result]
  congr 1
  funext r
  obtain ⟨dir, s'⟩ := r
  cases dir <;> rfl

theorem create_result : (create parent name data size flags mem s).result =
    tmpfsCreate parent name ((List.range size).map fun i => mem (data + i)) flags s := by
  rw [create, tmpfsCreate]
  split
  · exact createDir_result
  · exact createFile_result

theorem findPath_result : (findPath fuel path s).result = vfsFindPath fuel path s := by
  rw [findPath, result_bind, result_lift]
  cases vfsFindPath fuel path s <;> rfl

theorem addEntry_result : (addEntry fuel addr data size flags mem s).result = (do
    let path ← readString mem fuel addr
    tmpfsAddEntry fuel path ((List.range size).map fun i => mem (data + i)) flags s) := by
  rw [addEntry, result_bind, scanString_result]
  congr 1
  funext path
  rw [result_record_bind, tmpfsAddEntry]
  rcases Nat.lt_or_ge path.length pathCopySize with fits | large
  · have small : ¬ path.length ≥ 256 := Nat.not_le.mpr fits
    rw [copyString_of_lt fits, result_bind_ok rfl, if_neg small, linkEntry]
    cases strrchr path slash with
    | none => exact create_result
    | some last =>
      dsimp only
      rw [result_bind, findPath_result]
      congr 1
      funext r
      obtain ⟨node, s'⟩ := r
      exact create_result
  · have full : path.length ≥ 256 := large
    rw [copyString_of_le large, result_bind_error rfl, if_pos full]
    rfl

@[simp] theorem namePointer_result : (namePointer mem offset).result = .ok (nameIn mem offset) := by
  rw [namePointer, nameIn, result_bind_ok getByte_result]
  by_cases first : mem offset = dot
  · rw [if_pos first, result_bind_ok getByte_result, result_pure]
    simp [first]
  · rw [if_neg first, result_pure]
    simp [first]

@[simp] theorem cutSlash_result :
    (cutSlash addr n mem).result = .ok (trimSlash addr n mem) := by
  rw [cutSlash, trimSlash]
  by_cases some : n > 0
  · rw [if_pos some, result_bind_ok getByte_result, result_pure]
    simp [some]
  · rw [if_neg some, result_pure]
    simp [some]

theorem loadEntry_result (e : TarEntry) : (loadEntry fuel offset e mem s).result =
    initrdEntry fuel offset e.name e.size e.flags mem s := by
  rw [loadEntry, initrdEntry, result_bind, scanString_result]
  congr 1
  funext text
  rw [result_bind_ok cutSlash_result, result_bind, addEntry_result, bind_assoc]
  rfl

theorem readHeader_result : (readHeader fuel mem offset).result =
    if mem offset = 0 then .ok none
    else if ¬ isUstar mem offset then .ok none
    else do
      let size ← octalToInt mem fuel (offset + sizeField) 0
      return some ⟨size, flagsIn mem offset, nameIn mem offset⟩ := by
  rw [readHeader, result_bind_ok getByte_result]
  split
  · rfl
  rw [result_bind_ok magicFrom_isUstar]
  split
  · rfl
  rw [result_bind, octalScan_result]
  congr 1
  funext size
  rw [result_bind_ok getByte_result, result_bind_ok namePointer_result]
  rfl

theorem initrdRound_result (l : Loader) : (initrdRound archiveSize fuel l).result =
    if l.offset < archiveSize then
      if l.archive l.offset = 0 then .ok none
      else if ¬ isUstar l.archive l.offset then .ok none
      else do
        let size ← octalToInt l.archive fuel (l.offset + sizeField) 0
        let next := wrap64 (l.offset + recordSize size)
        if l.archive (nameIn l.archive l.offset) = 0 then return some { l with offset := next }
        else do
          let (archive, fs) ← initrdEntry fuel l.offset (nameIn l.archive l.offset) size
            (flagsIn l.archive l.offset) l.archive l.fs
          return some ⟨next, archive, fs⟩
    else .ok none := by
  rw [initrdRound]
  split
  swap
  · rfl
  rw [result_record_bind, result_bind, readHeader_result]
  split
  · rfl
  split
  · rfl
  rw [bind_assoc]
  congr 1
  funext size
  simp only [pure, Except.pure, ok_bind]
  rw [result_bind_ok getByte_result]
  split
  · rfl
  rw [result_bind, loadEntry_result]

end Tmpfs

end DedOS
