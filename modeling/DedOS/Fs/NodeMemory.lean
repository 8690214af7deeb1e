import DedOS.Fs.Tmpfs
import DedOS.Mm.Objects

/-!
# tmpfs and the VFS in the kernel's memory

The functions of `tmpfs.c` and `vfs.c` on the objects that they take from `kmalloc`, with the
pointers, the members and the strings as bytes in blocks. Null is address 0. The result is
`none` where an access faults, where a name or a path runs past its array, where a vnode's
function pointer leads elsewhere, and where the bound on the rounds of a loop was too small.
-/

namespace DedOS

open Lib HeapRun

/-- `sizeof(struct tmpfs_node)` -/
def tmpfsNodeSize : Nat := 168

/-- `sizeof(vfs_node_t)` -/
def vfsNodeSize : Nat := 192

/-! Offsets of the members; the names of nodes and vnodes are at 0. -/

def flagsAt : Nat := 128
def sizeAt : Nat := 136

/-- in a node -/
def dataAt : Nat := 144
def nextAt : Nat := 152
def childrenAt : Nat := 160

/-- in a vnode -/
def deviceAt : Nat := 152
def readAt : Nat := 160
def finddirAt : Nat := 176

/-- `sizeof(name)` in nodes and vnodes -/
def nodeNameSize : Nat := 128

/-- The addresses of the functions that a vnode points to. -/
structure TmpfsCode where
  tmpfsRead : UInt64
  tmpfsFinddir : UInt64
  nonnull : tmpfsRead ≠ 0

/-- `root_internal` and `vfs_root` -/
structure Roots where
  rootInternal : Nat
  vfsRoot : Nat

namespace NodeMemory

def peekFlags (s : SlabState) (a : Nat) : Option UInt32 := (peekWord s 4 a).map UInt32.ofNat

def peekPointer (s : SlabState) (a : Nat) : Option UInt64 := (peekWord s 8 a).map UInt64.ofNat

/-- `strcmp(current->name, name)` -/
def compareName (s : SlabState) : Nat → List UInt8 → Option Int
  | a, [] => do
    let c ← peek s a
    some (if c = 0 then 0 else 1)
  | a, d :: name => do
    let c ← peek s a
    if c ≠ d then some (if c < d then -1 else 1)
    else compareName s (a + 1) name

/-- `strcpy` of the string at `src` into `b`, which has `room` bytes left for it. -/
def copyName (b : Block) : Nat → Nat → Nat → SlabState → Option SlabState
  | 0, _, _, _ => none
  | room + 1, offset, src, s => do
    let c ← peek s src
    let s ← s.call (.write b offset c)
    if c = 0 then some s else copyName b room (offset + 1) (src + 1) s

/-! ### Vnodes -/

def tmpfsCreateVnode (code : TmpfsCode) (internal : Nat) (s : SlabState) :
    Option (Nat × SlabState) := do
  if internal = 0 then some (0, s)
  else
    let (node, s) ← request vfsNodeSize s
    -- the result is not tested, and `memset` faults on null
    if node = 0 then none
    else
      let b : Block := ⟨node, vfsNodeSize⟩
      let s ← fill b 0 (List.replicate vfsNodeSize 0) s
      let s ← copyName b nodeNameSize 0 internal s
      let flags ← peekBytes s 4 (internal + flagsAt)
      let s ← fill b flagsAt flags s
      let size ← peekBytes s 8 (internal + sizeAt)
      let s ← fill b sizeAt size s
      let s ← fill b deviceAt (leBytes 8 internal) s
      let s ← fill b readAt (leBytes 8 code.tmpfsRead.toNat) s
      let s ← fill b finddirAt (leBytes 8 code.tmpfsFinddir.toNat) s
      some (node, s)

def vfsClose (roots : Roots) (node : Nat) (s : SlabState) : Option SlabState :=
  if node = 0 then some s
  else if node = roots.vfsRoot then some s
  else s.call (.kfree ⟨node, vfsNodeSize⟩)

/-- The number of bytes read and the bytes copied to the buffer. -/
def tmpfsRead (s : SlabState) (node offset size : Nat) : Option (Nat × List UInt8) := do
  let internal ← peekWord s 8 (node + deviceAt)
  let length ← peekWord s 8 (internal + sizeAt)
  if offset ≥ length then some (0, [])
  else
    let size := if wrap64 (offset + size) > length then length - offset else size
    let data ← peekWord s 8 (internal + dataAt)
    let bytes ← peekBytes s size (data + offset)
    some (size, bytes)

def vfsRead (code : TmpfsCode) (s : SlabState) (node offset size : Nat) :
    Option (Nat × List UInt8) := do
  let read ← peekPointer s (node + readAt)
  if read = 0 then some (0, [])
  else if read = code.tmpfsRead then tmpfsRead s node offset size
  else none

/-! ### Lookup -/

/-- The loop of `tmpfs_finddir`. -/
def finddirFrom (code : TmpfsCode) (name : List UInt8) :
    Nat → Nat → SlabState → Option (Nat × SlabState)
  | 0, current, s => if current = 0 then some (0, s) else none
  | fuel + 1, current, s =>
    if current = 0 then some (0, s)
    else do
      let order ← compareName s current name
      if order = 0 then tmpfsCreateVnode code current s
      else
        let next ← peekWord s 8 (current + nextAt)
        finddirFrom code name fuel next s

def tmpfsFinddir (code : TmpfsCode) (fuel dir : Nat) (name : List UInt8) (s : SlabState) :
    Option (Nat × SlabState) := do
  let internal ← peekWord s 8 (dir + deviceAt)
  let flags ← peekFlags s (internal + flagsAt)
  if flags ≠ vfsDirectory then some (0, s)
  else
    let children ← peekWord s 8 (internal + childrenAt)
    finddirFrom code name fuel children s

/-- The call through `current_node->finddir`. -/
def vfsFinddir (code : TmpfsCode) (fuel dir : Nat) (name : List UInt8) (s : SlabState) :
    Option (Nat × SlabState) := do
  let finddir ← peekPointer s (dir + finddirAt)
  if finddir = code.tmpfsFinddir then tmpfsFinddir code fuel dir name s else none

/-- The outer loop of `vfs_find_path`. The path and `name` are not on the heap. -/
def findFrom (code : TmpfsCode) (roots : Roots) (path : CString) :
    Nat → UInt8 → Nat → SlabState → Option (Nat × SlabState)
  | 0, _, _, _ => none
  | fuel + 1, cursor, current, s => do
    let c ← (path.get cursor.toNat).toOption
    if c = 0 then some (current, s)
    else
      let (name, cursor) ← (Tmpfs.nextName path fuel cursor []).toOption
      if name = [] then
        let cursor ← (Tmpfs.skipSlash path cursor).toOption
        findFrom code roots path fuel cursor current s
      else
        let flags ← peekFlags s (current + flagsAt)
        if flags &&& vfsDirectory = 0 then some (0, s)
        else
          let (next, s) ← vfsFinddir code fuel current name s
          -- both ways out close the directory, unless it is the root
          let s ← vfsClose roots current s
          if next = 0 then some (0, s)
          else
            let cursor ← (Tmpfs.skipSlash path cursor).toOption
            findFrom code roots path fuel cursor next s

def vfsFindPath (code : TmpfsCode) (roots : Roots) (fuel : Nat) (path : CString) (s : SlabState) :
    Option (Nat × SlabState) := do
  let c ← (path.get 0).toOption
  if c = 0 then some (0, s)
  else if c = slash then
    let d ← (path.get 1).toOption
    if d = 0 then some (roots.vfsRoot, s)
    else findFrom code roots path fuel 1 roots.vfsRoot s
  else findFrom code roots path fuel 0 roots.vfsRoot s

/-! ### Adding an entry -/

/-- `new_node->data`, which stays null in an empty file. -/
def storeData (newNode : Nat) (data : List UInt8) (s : SlabState) : Option SlabState :=
  if data = [] then some s
  else do
    let (ptr, s) ← request data.length s
    let s ← fill ⟨newNode, tmpfsNodeSize⟩ dataAt (leBytes 8 ptr) s
    if ptr = 0 then none else fill ⟨ptr, data.length⟩ 0 data s

def tmpfsCreateFile (parent : Nat) (name data : List UInt8) (s : SlabState) :
    Option (Nat × SlabState) := do
  if parent = 0 then some (0, s)
  else
    let flags ← peekFlags s (parent + flagsAt)
    if flags ≠ vfsDirectory then some (0, s)
    else
      let (newNode, s) ← request tmpfsNodeSize s
      -- `memset` of null and `strcpy` of a long name
      if newNode = 0 ∨ nodeNameSize ≤ name.length then none
      else
        let b : Block := ⟨newNode, tmpfsNodeSize⟩
        let s ← fill b 0 (List.replicate tmpfsNodeSize 0) s
        let s ← fill b 0 (name ++ [0]) s
        let s ← fill b flagsAt (leBytes 4 vfsFile.toNat) s
        let s ← fill b sizeAt (leBytes 8 data.length) s
        let s ← storeData newNode data s
        let children ← peekBytes s 8 (parent + childrenAt)
        let s ← fill b nextAt children s
        let s ← fill ⟨parent, tmpfsNodeSize⟩ childrenAt (leBytes 8 newNode) s
        some (newNode, s)

def tmpfsCreateDir (parent : Nat) (name : List UInt8) (s : SlabState) :
    Option (Nat × SlabState) := do
  let (newDir, s) ← tmpfsCreateFile parent name [] s
  if newDir = 0 then some (0, s)
  else
    let s ← fill ⟨newDir, tmpfsNodeSize⟩ flagsAt (leBytes 4 vfsDirectory.toNat) s
    some (newDir, s)

/-- The end of `tmpfs_add_entry`. -/
def tmpfsCreate (parent : Nat) (name data : List UInt8) (flags : UInt32) (s : SlabState) :
    Option (Nat × SlabState) :=
  if flags &&& vfsDirectory ≠ 0 then tmpfsCreateDir parent name s
  else tmpfsCreateFile parent name data s

/-- `current_parent`, from the vnode that the lookup has found. -/
def currentParent (roots : Roots) (parentVnode : Nat) (s : SlabState) : Option Nat :=
  if parentVnode = 0 then some roots.rootInternal
  else do
    let flags ← peekFlags s (parentVnode + flagsAt)
    if flags &&& vfsDirectory ≠ 0 then peekWord s 8 (parentVnode + deviceAt)
    else some roots.rootInternal

def tmpfsAddEntry (code : TmpfsCode) (roots : Roots) (fuel : Nat) (fullPath : CString)
    (data : List UInt8) (flags : UInt32) (s : SlabState) : Option (Nat × SlabState) := do
  -- `strcpy` into `path_copy`
  if fullPath.length ≥ 256 then none
  else match strrchr fullPath slash with
  | none => tmpfsCreate roots.rootInternal fullPath.bytes data flags s
  | some lastSlash =>
    let filename := fullPath.bytes.drop (lastSlash + 1)
    let (parentVnode, s) ← vfsFindPath code roots fuel (fullPath.cut lastSlash) s
    let parent ← currentParent roots parentVnode s
    tmpfsCreate parent filename data flags s

def tmpfsInit (code : TmpfsCode) (s : SlabState) : Option (Roots × SlabState) := do
  let (rootInternal, s) ← request tmpfsNodeSize s
  if rootInternal = 0 then none
  else
    let b : Block := ⟨rootInternal, tmpfsNodeSize⟩
    let s ← fill b 0 (List.replicate tmpfsNodeSize 0) s
    let s ← fill b 0 [slash, 0] s
    let s ← fill b flagsAt (leBytes 4 vfsDirectory.toNat) s
    let (vfsRoot, s) ← tmpfsCreateVnode code rootInternal s
    some (⟨rootInternal, vfsRoot⟩, s)

end NodeMemory

end DedOS
