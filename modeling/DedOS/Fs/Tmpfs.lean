import DedOS.Mm.Pmm

/-!
# `vfs.c` and `tmpfs.c`

Nodes and vnodes are numbered in the order of their allocation, all allocations succeed, and
a loop is given a bound on its rounds: `endless` says that the bound was too small. The
strings that the code builds are kept as their bytes before the terminator.
-/

namespace DedOS

inductive Fault where
  | endless
  | overflow
  | outOfBounds
  deriving DecidableEq

@[simp] theorem ok_bind {α β : Type} (a : α) (f : α → Except Fault β) : (.ok a >>= f) = f a := rfl

@[simp] theorem error_bind {α β : Type} (e : Fault) (f : α → Except Fault β) :
    (.error e >>= f) = .error e := rfl

/-! ### Strings -/

/-- The bytes of a string before its terminator. -/
structure CString where
  bytes : List UInt8
  nonzero : 0 ∉ bytes
  deriving DecidableEq

namespace CString

/-- `s[i]`, the terminator included -/
def get (s : CString) (i : Nat) : Except Fault UInt8 :=
  match (s.bytes ++ [0])[i]? with
  | some c => .ok c
  | none => .error .outOfBounds

def length (s : CString) : Nat := s.bytes.length

/-- The string that ends where a terminator is written at `i`. -/
def cut (s : CString) (i : Nat) : CString where
  bytes := s.bytes.take i
  nonzero h := s.nonzero (List.mem_of_mem_take h)

end CString

def strcmp : List UInt8 → List UInt8 → Int
  | [], [] => 0
  | [], _ :: _ => -1
  | _ :: _, [] => 1
  | c₁ :: cs, c₂ :: ct => if c₁ ≠ c₂ then if c₁ < c₂ then -1 else 1 else strcmp cs ct

/-- The loop of `strrchr`, from index `i` on. -/
def strrchrFrom (c : UInt8) : List UInt8 → Nat → Option Nat → Option Nat
  | [], _, last => last
  | b :: s, i, last => strrchrFrom c s (i + 1) (if b = c then some i else last)

def strrchr (s : CString) (c : UInt8) : Option Nat := strrchrFrom c s.bytes 0 none

/-- `'/'` -/
def slash : UInt8 := 0x2F

/-! ### The data -/

def vfsFile : UInt32 := 1
def vfsDirectory : UInt32 := 2

structure TmpfsNode where
  name : List UInt8
  flags : UInt32
  size : Nat
  data : List UInt8
  next : Option Nat
  children : Option Nat
  deriving DecidableEq

/-- The fields of `vfs_node_t` in use: `read` and `finddir` are those of tmpfs in every vnode. -/
structure Vnode where
  name : List UInt8
  flags : UInt32
  size : Nat
  device : Nat
  deriving DecidableEq

/-- The nodes and vnodes allocated, with the vnodes freed since. Node 0 is `root_internal` and
vnode 0 is `vfs_root`. -/
structure Tmpfs where
  node : Nat → TmpfsNode
  nodes : Nat
  vnode : Nat → Vnode
  vnodes : Nat
  freed : List Nat

def rootInternal : Nat := 0
def vfsRoot : Nat := 0

namespace Tmpfs

/-- What `tmpfs_create_vnode` copies from a node. -/
def vnodeOf (s : Tmpfs) (internal : Nat) : Vnode where
  name := (s.node internal).name
  flags := (s.node internal).flags
  size := (s.node internal).size
  device := internal

def tmpfsCreateVnode (internal : Nat) (s : Tmpfs) : Nat × Tmpfs :=
  (s.vnodes, { s with
    vnode := Function.update s.vnode s.vnodes (s.vnodeOf internal)
    vnodes := s.vnodes + 1 })

def tmpfsInit : Tmpfs where
  node _ := ⟨[slash], vfsDirectory, 0, [], none, none⟩
  nodes := 1
  vnode _ := ⟨[slash], vfsDirectory, 0, rootInternal⟩
  vnodes := 1
  freed := []

def vfsClose (node : Nat) (s : Tmpfs) : Tmpfs :=
  if node = vfsRoot then s else { s with freed := node :: s.freed }

/-- The number of bytes read and the bytes copied to the buffer. -/
def tmpfsRead (s : Tmpfs) (node offset size : Nat) : Except Fault (Nat × List UInt8) :=
  let internal := s.node (s.vnode node).device
  if offset ≥ internal.size then .ok (0, [])
  else
    let size := if wrap64 (offset + size) > internal.size then internal.size - offset else size
    if offset + size ≤ internal.data.length then
      .ok (size, (internal.data.drop offset).take size)
    else .error .outOfBounds

def vfsRead (s : Tmpfs) (node offset size : Nat) : Except Fault (Nat × List UInt8) :=
  s.tmpfsRead node offset size

/-! ### Lookup -/

/-- The loop of `tmpfs_finddir`. -/
def finddirFrom (name : List UInt8) :
    Nat → Option Nat → Tmpfs → Except Fault (Option Nat × Tmpfs)
  | _, none, s => .ok (none, s)
  | 0, some _, _ => .error .endless
  | fuel + 1, some current, s =>
    if strcmp (s.node current).name name = 0 then
      let (node, s) := tmpfsCreateVnode current s
      .ok (some node, s)
    else finddirFrom name fuel (s.node current).next s

def tmpfsFinddir (fuel : Nat) (dir : Nat) (name : List UInt8) (s : Tmpfs) :
    Except Fault (Option Nat × Tmpfs) :=
  let internal := (s.vnode dir).device
  if (s.node internal).flags ≠ vfsDirectory then .ok (none, s)
  else finddirFrom name fuel (s.node internal).children s

/-- The inner loop of `vfs_find_path`: the first 127 bytes of the component, and the cursor. -/
def nextName (path : CString) : Nat → UInt8 → List UInt8 → Except Fault (List UInt8 × UInt8)
  | 0, _, _ => .error .endless
  | fuel + 1, cursor, name => do
    let c ← path.get cursor.toNat
    if c = slash ∨ c = 0 then return (name, cursor)
    else nextName path fuel (cursor + 1) (if name.length < 127 then name ++ [c] else name)

def skipSlash (path : CString) (cursor : UInt8) : Except Fault UInt8 := do
  let c ← path.get cursor.toNat
  return if c = slash then cursor + 1 else cursor

/-- The outer loop of `vfs_find_path`. -/
def findFrom (path : CString) :
    Nat → UInt8 → Nat → Tmpfs → Except Fault (Option Nat × Tmpfs)
  | 0, _, _, _ => .error .endless
  | fuel + 1, cursor, current, s => do
    let c ← path.get cursor.toNat
    if c = 0 then return (some current, s)
    let (name, cursor) ← nextName path fuel cursor []
    if name = [] then
      let cursor ← skipSlash path cursor
      findFrom path fuel cursor current s
    else if (s.vnode current).flags &&& vfsDirectory = 0 then
      return (none, s)
    else
      let (next, s) ← tmpfsFinddir fuel current name s
      let s := vfsClose current s
      match next with
      | none => return (none, s)
      | some next =>
        let cursor ← skipSlash path cursor
        findFrom path fuel cursor next s

def vfsFindPath (fuel : Nat) (path : CString) (s : Tmpfs) :
    Except Fault (Option Nat × Tmpfs) := do
  let c ← path.get 0
  if c = 0 then return (none, s)
  if c = slash then
    let d ← path.get 1
    if d = 0 then return (some vfsRoot, s)
    findFrom path fuel 1 vfsRoot s
  else findFrom path fuel 0 vfsRoot s

/-! ### Adding an entry -/

def tmpfsCreateFile (parent : Nat) (name data : List UInt8) (s : Tmpfs) :
    Except Fault (Option Nat × Tmpfs) :=
  if (s.node parent).flags ≠ vfsDirectory then .ok (none, s)
  -- `strcpy` into `new_node->name`
  else if name.length ≥ 128 then .error .overflow
  else
    let newNode : TmpfsNode := {
      name
      flags := vfsFile
      size := data.length
      data
      next := (s.node parent).children
      children := none }
    let node := Function.update s.node s.nodes newNode
    .ok (some s.nodes, { s with
      node := Function.update node parent { node parent with children := some s.nodes }
      nodes := s.nodes + 1 })

def tmpfsCreateDir (parent : Nat) (name : List UInt8) (s : Tmpfs) :
    Except Fault (Option Nat × Tmpfs) := do
  let (newDir, s) ← tmpfsCreateFile parent name [] s
  match newDir with
  | none => return (none, s)
  | some dir =>
    return (newDir, { s with
      node := Function.update s.node dir { s.node dir with flags := vfsDirectory } })

/-- The end of `tmpfs_add_entry`. -/
def tmpfsCreate (parent : Nat) (name data : List UInt8) (flags : UInt32) (s : Tmpfs) :
    Except Fault (Option Nat × Tmpfs) :=
  if flags &&& vfsDirectory ≠ 0 then tmpfsCreateDir parent name s
  else tmpfsCreateFile parent name data s

/-- `size` is the length of `data`. -/
def tmpfsAddEntry (fuel : Nat) (fullPath : CString) (data : List UInt8) (flags : UInt32)
    (s : Tmpfs) : Except Fault (Option Nat × Tmpfs) := do
  -- `strcpy` into `path_copy`
  if fullPath.length ≥ 256 then .error .overflow
  match strrchr fullPath slash with
  | none => tmpfsCreate rootInternal fullPath.bytes data flags s
  | some lastSlash =>
    let filename := fullPath.bytes.drop (lastSlash + 1)
    let (parentVnode, s) ← vfsFindPath fuel (fullPath.cut lastSlash) s
    let currentParent :=
      match parentVnode with
      | none => rootInternal
      | some vnode =>
        if (s.vnode vnode).flags &&& vfsDirectory ≠ 0 then (s.vnode vnode).device
        else rootInternal
    tmpfsCreate currentParent filename data flags s

end Tmpfs

end DedOS
