import DedOS.Mm.Paging

/-!
# The kernel heap of `heap.c`

Objects of at most 1024 bytes, header included, come from slabs: single pages cut into
equal slots. Larger blocks are mapped page by page at `kernel_heap_vaddr`. Slabs lie in the
direct map; a header of unknown kind is reached through `resolve`, as the processor would.
A field of the header at `p` is at `p` plus its offset: headers do not straddle the end of
the address space.
-/

namespace DedOS

open Lib

def magicSlab : Nat := 0x800051AB
def magicPage : Nat := 0x80007A63

/-- `sizeof(struct alloc_header)`: `magic` at 0, `pages` at 8, `size` at 16. -/
def allocHeaderSize : Nat := 24

/-- `sizeof(struct slab_header)`: `obj_size` at 0, `free_list` at 8, `next_slab` at 16. -/
def slabHeaderSize : Nat := 24

/-- The value that `kernel_heap_vaddr` starts with. -/
def heapBase : Nat := 0xffffffff90000000

/-- `SLAB_1024` -/
def slab1024 : Nat := 1024

structure SlabCache where
  objSize : Nat
  firstSlab : Nat
  deriving DecidableEq

/-- The statics of `heap.c`, the memory below them and the frame of the active pagemap. -/
structure Heap where
  vm : Vm
  caches : List SlabCache
  heapVaddr : Nat
  cr3 : Nat

/-! ### Addresses -/

namespace Vm

/-- The direct map covers the memory up to `total_pages`. -/
def directMapped (s : Vm) (virt : Nat) : Prop :=
  virtToPhys s.hhdm virt < s.pmm.totalPages * pageSize

instance (s : Vm) (virt : Nat) : Decidable (s.directMapped virt) :=
  inferInstanceAs (Decidable (_ < _))

/-- The upper 17 bits of an address are equal. -/
def canonical (virt : Nat) : Prop := virt < 2 ^ 47 ∨ 2 ^ 64 - 2 ^ 47 ≤ virt ∧ virt < 2 ^ 64

instance (virt : Nat) : Decidable (canonical virt) := inferInstanceAs (Decidable (_ ∨ _))

/-- The frame an entry refers to, for an access that needs the given flags. -/
def grants (flags w : Nat) : Option Nat := if w &&& flags = flags then some (w &&& frameMask) else none

/-- The frame behind an address, when every level of the tables under `root` has the flags. -/
def frameOf (s : Vm) (root flags virt : Nat) : Option Nat :=
  walk s.slot (grants flags) root (path virt ++ [ptIdx virt])

/-- Where the direct map shows the byte at an address; `none` is a page fault. -/
def resolve (s : Vm) (root flags virt : Nat) : Option Nat :=
  if s.directMapped virt then some virt
  else if canonical virt then
    (s.frameOf root flags virt).map fun f => physToVirt s.hhdm f + virt % pageSize
  else none

/-- A read of `n` bytes that do not cross a page. -/
def read (s : Vm) (root n virt : Nat) : Option Nat :=
  (s.resolve root vmmPresent virt).map fun a => load n s.mem a

/-- A write of `n` bytes that do not cross a page. -/
def write (s : Vm) (root n virt value : Nat) : Option Vm :=
  (s.resolve root (vmmPresent ||| vmmWrite) virt).map fun a =>
    { s with mem := store n s.mem a value }

end Vm

/-! ### Slabs -/

/-- The loop of `create_slab`: `n` rounds from the object `current`. -/
def linkObjs (objSize : Nat) : Nat → Nat → Memory → Nat × Memory
  | 0, current, m => (current, m)
  | n + 1, current, m =>
    let m := store 8 m current (wrap64 (current + objSize))
    linkObjs objSize n (load 8 m current) m

def createSlab (s : Vm) (objSize : Nat) : Option (Nat × Vm) := do
  let (phys, pmm) ← pmmAlloc s.pmm
  if phys = 0 then some (0, { s with pmm := pmm })
  else
    let slab := physToVirt s.hhdm phys
    let m := store 8 s.mem slab objSize
    let m := store 8 m (slab + 16) 0
    let numObjs := (pageSize - slabHeaderSize) / objSize
    let m := store 8 m (slab + 8) (wrap64 (slab + slabHeaderSize))
    let (current, m) := linkObjs objSize (numObjs - 1) (load 8 m (slab + 8)) m
    some (slab, { mem := store 8 m current 0, pmm := pmm })

/-- The loop of `heap_init` over the sizes. -/
def createCaches : List Nat → Vm → Option (List SlabCache × Vm)
  | [], s => some ([], s)
  | size :: sizes, s => do
    let (slab, s) ← createSlab s size
    let (caches, s) ← createCaches sizes s
    some (⟨size, slab⟩ :: caches, s)

def slabSizes : List Nat := [32, 64, 128, 256, 512, 1024]

def heapInit (s : Heap) : Option Heap := do
  let (caches, vm) ← createCaches slabSizes s.vm
  some { s with vm := vm, caches := caches }

/-- The end of a round of `kmalloc`'s loop: `slab->next_slab`, created where it is null. -/
def nextSlab (s : Vm) (objSize slab : Nat) : Option (Nat × Vm) := do
  if load 8 s.mem (slab + 16) = 0 then
    let (new, s) ← createSlab s objSize
    let m := store 8 s.mem (slab + 16) new
    some (load 8 m (slab + 16), { s with mem := m })
  else some (load 8 s.mem (slab + 16), s)

/-- The `while (slab)` loop of `kmalloc`, which ends with an object or with null. A chain of
more slabs than there are pages runs in a circle: `none`. -/
def findObject (objSize fuel slab : Nat) (s : Vm) : Option (Nat × Vm) :=
  if slab = 0 then some (0, s)
  else if load 8 s.mem (slab + 8) ≠ 0 then
    let object := load 8 s.mem (slab + 8)
    some (object, { s with mem := store 8 s.mem (slab + 8) (load 8 s.mem object) })
  else match fuel with
    | 0 => none
    | fuel + 1 => do
      let (slab, s) ← nextSlab s objSize slab
      findObject objSize fuel slab s

/-- `kmalloc` from a cache. -/
def kmallocSlab (s : Heap) (cache : SlabCache) (size : Nat) : Option (Nat × Heap) := do
  let (header, vm) ← findObject cache.objSize s.vm.pmm.totalPages cache.firstSlab s.vm
  if header = 0 then some (0, { s with vm := vm })
  else
    let m := store 4 vm.mem header magicSlab
    let m := store 8 m (header + 16) size
    some (wrap64 (header + allocHeaderSize), { s with vm := { vm with mem := m } })

/-! ### Page blocks -/

/-- The loop of `kmalloc` over the pages from `i`; `false` is a `pmm_alloc` that failed. -/
def mapPages (pml4 virtStart : Nat) : Nat → Nat → Vm → Option (Bool × Vm)
  | _, 0, s => some (true, s)
  | i, n + 1, s => do
    let (phys, pmm) ← pmmAlloc s.pmm
    let s := { s with pmm := pmm }
    if phys = 0 then some (false, s)
    else do
      let s ← vmmMap s pml4 (wrap64 (virtStart + i * pageSize)) phys (vmmPresent ||| vmmWrite)
      mapPages pml4 virtStart (i + 1) n s

/-- `pages_count` -/
def pagesCount (size : Nat) : Nat :=
  wrap64 (wrap64 (size + allocHeaderSize) + 4095) / pageSize

/-- `kmalloc` of whole pages. -/
def kmallocPages (s : Heap) (size : Nat) : Option (Nat × Heap) := do
  let pages := pagesCount size
  let virtStart := s.heapVaddr
  let s := { s with heapVaddr := wrap64 (s.heapVaddr + wrap64 (pages * pageSize)) }
  let (complete, vm) ← mapPages (physToVirt s.vm.hhdm s.cr3) virtStart 0 pages s.vm
  if complete then do
    let vm ← vm.write s.cr3 4 virtStart magicPage
    let vm ← vm.write s.cr3 8 (virtStart + 8) pages
    let vm ← vm.write s.cr3 8 (virtStart + 16) size
    some (wrap64 (virtStart + allocHeaderSize), { s with vm := vm })
  else some (0, { s with vm := vm })

def kmalloc (s : Heap) (size : Nat) : Option (Nat × Heap) :=
  if size = 0 then some (0, s)
  else
    let totalNeeded := wrap64 (size + allocHeaderSize)
    if size > slab1024 then kmallocPages s size
    else match s.caches.find? fun cache => totalNeeded ≤ cache.objSize with
      | none => some (0, s)
      | some cache => kmallocSlab s cache size

/-- The loop of `kfree` over the pages from `i`. -/
def unmapPages (pml4 virtBase : Nat) : Nat → Nat → Vm → Option Vm
  | _, 0, s => some s
  | i, n + 1, s => do
    let virt := wrap64 (virtBase + i * pageSize)
    let phys := vmmGetPhys s pml4 virt
    let s := vmmUnmap s pml4 virt
    let s ← if phys ≠ 0 then do
        let pmm ← pmmFree phys s.pmm
        some { s with pmm := pmm }
      else some s
    unmapPages pml4 virtBase (i + 1) n s

/-- `kfree` of an object: it becomes the head of its slab's list. -/
def kfreeSlab (s : Heap) (header : Nat) : Option Heap := do
  let slab := header &&& frameMask
  let head ← s.vm.read s.cr3 8 (slab + 8)
  let vm ← s.vm.write s.cr3 8 header head
  let vm ← vm.write s.cr3 8 (slab + 8) header
  some { s with vm := vm }

def kfree (s : Heap) (ptr : Nat) : Option Heap :=
  if ptr = 0 then some s
  else do
    let header := wrap64 (ptr + (2 ^ 64 - allocHeaderSize))
    let magic ← s.vm.read s.cr3 4 header
    if magic = magicSlab then kfreeSlab s header
    else if magic = magicPage then do
      let pagesToFree ← s.vm.read s.cr3 8 (header + 8)
      let vm ← unmapPages (physToVirt s.vm.hhdm s.cr3) header 0 pagesToFree s.vm
      some { s with vm := vm }
    else some s

/-! ### kcalloc -/

/-- `memset` from byte `i` on. -/
def memset (root p c : Nat) : Nat → Nat → Vm → Option Vm
  | _, 0, s => some s
  | i, n + 1, s => do
    let s ← s.write root 1 (wrap64 (p + i)) (c % 256)
    memset root p c (i + 1) n s

def kcalloc (s : Heap) (count size : Nat) : Option (Nat × Heap) := do
  let (ptr, s) ← kmalloc s (wrap64 (count * size))
  if ptr ≠ 0 then do
    let vm ← memset s.cr3 ptr 0 0 (wrap64 (count * size)) s.vm
    some (ptr, { s with vm := vm })
  else some (ptr, s)

end DedOS
