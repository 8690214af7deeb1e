import DedOS.Lib.Encoding
import DedOS.Mm.Clients

/-!
# C objects in blocks

The holder of a block reads and writes the members of an object in it. `Object s b fields` says
that the block is live and which bytes lie at which offsets, and `Fresh s₀ s b fields` that the
block has been allocated since `s₀` while nobody else's was touched.
-/

namespace DedOS

open Lib

namespace HeapRun

/-- A read of one byte; `none` is a page fault. -/
def peek (s : SlabState) (a : Nat) : Option UInt8 :=
  (s.heap.vm.resolve s.heap.cr3 vmmPresent a).map s.heap.vm.mem

def peekBytes (s : SlabState) : Nat → Nat → Option (List UInt8)
  | 0, _ => some []
  | n + 1, a => do
    let c ← peek s a
    let rest ← peekBytes s n (a + 1)
    some (c :: rest)

/-- A member of `n` bytes -/
def peekWord (s : SlabState) (n a : Nat) : Option Nat := (peekBytes s n a).map ofLeBytes

variable {s₀ s s' : SlabState} {b b' : Block} {own : List Block} {size p n v offset : Nat}
  {bytes more : List UInt8} {fields rest : List (Nat × List UInt8)}

/-! ### Live blocks -/

/-- A live block is not at the null page and ends inside the address space. -/
theorem Good.ptr_bounds (good : Good s) (live : b ∈ s.blocks) (nonempty : 0 < b.size) :
    b.ptr ≠ 0 ∧ b.ptr < 2 ^ 64 := by
  obtain ⟨_, _, _, top, inv⟩ := good
  rcases small_or_large live with small | large
  · have ptr := (inv.slabs.block b small).1
    obtain ⟨A, slab, low, high⟩ := inv.small_bounds small nonempty
    have aligned := inv.slabs.aligned slab
    have word := (inv.slabs.frame A slab).lt
    dsimp only [allocHeaderSize, pageSize] at *
    omega
  · have isBlock := inv.block b large
    have ptr := isBlock.ptr
    have count := isBlock.count
    have ends := isBlock.below
    have top := inv.range.2.1
    dsimp only [allocHeaderSize, pageSize] at *
    omega

/-- All bytes of a block are there unless its page count has overflowed. -/
theorem inside_of_fits (fits : b.size ≤ slab1024 ∨ b.size + allocHeaderSize + 4095 < 2 ^ 64)
    (below : offset < b.size) : Inside b offset := by
  refine ⟨below, fits.imp_right fun word => ?_⟩
  have sum : b.size + allocHeaderSize < 2 ^ 64 := by omega
  rw [pagesCount, wrap64_of_lt sum, wrap64_of_lt word]
  dsimp only [allocHeaderSize, pageSize]
  omega

/-! ### Members -/

/-- The bytes from an offset on. -/
def Stored (s : SlabState) (b : Block) (offset : Nat) (bytes : List UInt8) : Prop :=
  ∀ i < bytes.length, byteAt s.heap b (offset + i) = bytes[i]?

theorem Stored.peekBytes (stored : Stored s b offset bytes) :
    peekBytes s bytes.length (b.ptr + offset) = some bytes := by
  induction bytes generalizing offset with
  | nil => rfl
  | cons c bytes ih =>
    have here : peek s (b.ptr + offset) = some c := stored 0 (Nat.succ_pos _)
    have later : Stored s b (offset + 1) bytes := by
      intro i below
      have next := stored (i + 1) (Nat.succ_lt_succ below)
      rwa [← Nat.add_assoc, Nat.add_right_comm] at next
    simp [HeapRun.peekBytes, here, Nat.add_assoc, ih later]

theorem stored_append : Stored s b offset (bytes ++ more) ↔
    Stored s b offset bytes ∧ Stored s b (offset + bytes.length) more := by
  constructor
  · intro both
    constructor
    · intro i below
      rw [both i (by rw [List.length_append]; omega), List.getElem?_append_left below]
    · intro i below
      have here := both (bytes.length + i) (by rw [List.length_append]; omega)
      rw [List.getElem?_append_right (Nat.le_add_right _ _), Nat.add_sub_cancel_left] at here
      rwa [Nat.add_assoc]
  · rintro ⟨first, second⟩ i below
    rw [List.length_append] at below
    by_cases low : i < bytes.length
    · rw [first i low, List.getElem?_append_left low]
    · obtain ⟨j, rfl⟩ := Nat.exists_eq_add_of_le (Nat.le_of_not_lt low)
      rw [List.getElem?_append_right (Nat.le_add_right _ _), Nat.add_sub_cancel_left,
        ← second j (by omega), Nat.add_assoc]

/-- A part of a block that has been cleared is a member that is zero. -/
theorem Stored.zero (stored : Stored s b 0 (List.replicate size 0)) (room : offset + n ≤ size) :
    Stored s b offset (leBytes n 0) := by
  intro i below
  rw [length_leBytes] at below
  have here := stored (offset + i) (by rw [List.length_replicate]; omega)
  rw [Nat.zero_add, List.getElem?_replicate, if_pos (by omega)] at here
  rw [here, leBytes_zero, List.getElem?_replicate, if_pos below]

/-- A live block with the bytes of the members of an object. -/
structure Object (s : SlabState) (b : Block) (fields : List (Nat × List UInt8)) : Prop where
  live : b ∈ s.blocks
  inside : ∀ offset < b.size, Inside b offset
  stored : ∀ f ∈ fields, f.1 + f.2.length ≤ b.size ∧ Stored s b f.1 f.2

namespace Object

theorem peekBytes (object : Object s b fields) (field : (offset, bytes) ∈ fields) :
    peekBytes s bytes.length (b.ptr + offset) = some bytes :=
  (object.stored _ field).2.peekBytes

theorem peekNumber (object : Object s ⟨p, size⟩ fields) (field : (offset, leBytes n v) ∈ fields) :
    HeapRun.peekBytes s n (p + offset) = some (leBytes n v) := by
  have read := object.peekBytes field
  rwa [length_leBytes] at read

theorem peekWord (object : Object s ⟨p, size⟩ fields) (field : (offset, leBytes n v) ∈ fields)
    (fits : v < 256 ^ n) : peekWord s n (p + offset) = some v := by
  rw [HeapRun.peekWord, object.peekNumber field, Option.map_some, ofLeBytes_leBytes fits]

/-- A `size_t` or a pointer -/
theorem peekLong (object : Object s ⟨p, size⟩ fields) (field : (offset, leBytes 8 v) ∈ fields)
    (fits : v < 2 ^ 64) : HeapRun.peekWord s 8 (p + offset) = some v := by
  have bytes : 256 ^ 8 = 2 ^ 64 := by decide
  exact object.peekWord field (bytes.symm ▸ fits)

/-- The members stay while others use the heap. -/
theorem spared (object : Object s b fields) (spared : Spared b s s') : Object s' b fields where
  live := (spared object.live).1
  inside := object.inside
  stored f member := by
    obtain ⟨room, stored⟩ := object.stored f member
    refine ⟨room, fun i below => ?_⟩
    rw [(spared object.live).2 _ (object.inside _ (by omega)), stored i below]

/-- Some of the members. -/
theorem sub (object : Object s b fields) (parts : ∀ f ∈ rest, f ∈ fields) : Object s b rest :=
  ⟨object.live, object.inside, fun f member => object.stored f (parts f member)⟩

theorem filled (object : Object s b fields) (good : Good s) (room : offset + bytes.length ≤ b.size)
    (done : fill b offset bytes s = some s') : Filled b offset bytes s s' :=
  fill_spec good object.live (fun i below => object.inside _ (by omega)) done

/-- A member is written beside others. -/
theorem fill (object : Object s b fields) (good : Good s) (room : offset + bytes.length ≤ b.size)
    (done : fill b offset bytes s = some s')
    (beside : ∀ f ∈ fields, f.1 + f.2.length ≤ offset ∨ offset + bytes.length ≤ f.1) :
    Object s' b ((offset, bytes) :: fields) := by
  have filled := object.filled good room done
  refine ⟨filled.blocks ▸ object.live, object.inside, fun f member => ?_⟩
  rcases List.mem_cons.mp member with rfl | member
  · exact ⟨room, filled.written⟩
  · obtain ⟨fits, stored⟩ := object.stored f member
    have away := beside f member
    refine ⟨fits, fun i below => ?_⟩
    rw [filled.outside _ (object.inside _ (by omega)) (by omega), stored i below]

end Object

/-! ### New objects -/

/-- The block is new since `s₀`, and no other was touched. -/
structure Fresh (s₀ s : SlabState) (b : Block) (fields : List (Nat × List UInt8)) : Prop where
  untouched : Untouched [] s₀ s
  new : b ∉ s₀.blocks
  object : Object s b fields

theorem Requested.made (asked : Requested size s s' p) (nonnull : p ≠ 0)
    (fits : size ≤ slab1024 ∨ size + allocHeaderSize + 4095 < 2 ^ 64) :
    Fresh s s' ⟨p, size⟩ [] where
  untouched := asked.untouched
  new := (asked.fresh nonnull).2
  object := ⟨(asked.fresh nonnull).1, fun _ below => inside_of_fits fits below, by simp⟩

/-- Calls on other new blocks. -/
theorem Fresh.later (fresh : Fresh s₀ s b fields) (untouched : Untouched own s s') (other : b ∉ own)
    (new : ∀ b' ∈ own, b' ∉ s₀.blocks) : Fresh s₀ s' b fields where
  untouched := (fresh.untouched.trans untouched).of_new new
  new := fresh.new
  object := fresh.object.spared (untouched.spared b other)

/-- A block that is new now was not there earlier. -/
theorem Fresh.since (fresh : Fresh s s' b fields) (before : Untouched [] s₀ s) :
    Fresh s₀ s' b fields where
  untouched := before.trans fresh.untouched
  new was := fresh.new (before.all was).1
  object := fresh.object

theorem Fresh.fill (fresh : Fresh s₀ s b fields) (room : offset + bytes.length ≤ b.size)
    (done : fill b offset bytes s = some s')
    (beside : ∀ f ∈ fields, f.1 + f.2.length ≤ offset ∨ offset + bytes.length ≤ f.1) :
    Fresh s₀ s' b ((offset, bytes) :: fields) where
  untouched := by
    have filled := fresh.object.filled fresh.untouched.good room done
    refine (fresh.untouched.trans filled.untouched).of_new fun b' mine => ?_
    obtain rfl := List.mem_singleton.mp mine
    exact fresh.new
  new := fresh.new
  object := fresh.object.fill fresh.untouched.good room done beside

/-- A number is stored beside other members. -/
theorem Fresh.member (fresh : Fresh s₀ s ⟨p, size⟩ fields) (room : offset + n ≤ size)
    (done : HeapRun.fill ⟨p, size⟩ offset (leBytes n v) s = some s')
    (beside : ∀ f ∈ fields, f.1 + f.2.length ≤ offset ∨ offset + n ≤ f.1) :
    Fresh s₀ s' ⟨p, size⟩ ((offset, leBytes n v) :: fields) := by
  have length : (leBytes n v).length = n := length_leBytes n v
  exact fresh.fill (length.symm ▸ room) done (length.symm ▸ beside)

theorem Fresh.sub (fresh : Fresh s₀ s b fields) (parts : ∀ f ∈ rest, f ∈ fields) :
    Fresh s₀ s b rest :=
  { fresh with object := fresh.object.sub parts }

/-- In a new block that has been cleared every member is zero. -/
theorem Fresh.zero (fresh : Fresh s₀ s ⟨p, size⟩ [(0, List.replicate size 0)])
    (zeros : ∀ f ∈ rest, f.2 = leBytes n 0 ∧ f.1 + n ≤ size) : Fresh s₀ s ⟨p, size⟩ rest where
  untouched := fresh.untouched
  new := fresh.new
  object := by
    refine ⟨fresh.object.live, fresh.object.inside, fun f member => ?_⟩
    obtain ⟨isZero, room⟩ := zeros f member
    have clear := (fresh.object.stored _ List.mem_cons_self).2
    rw [isZero, length_leBytes]
    exact ⟨room, clear.zero room⟩

/-- Blocks that were live before are other blocks. -/
theorem Fresh.ne (fresh : Fresh s₀ s b fields) (live : b' ∈ s₀.blocks) : b ≠ b' := by
  rintro rfl
  exact fresh.new live

/-- Stores do not move `kernel_heap_vaddr`. -/
theorem fill_vaddr (done : HeapRun.fill b offset bytes s = some s') :
    s'.heap.heapVaddr = s.heap.heapVaddr := by
  induction bytes generalizing offset s with
  | nil =>
    obtain rfl := Option.some.inj done
    rfl
  | cons value bytes ih =>
    simp only [HeapRun.fill, SlabState.call, Option.bind_eq_bind, Option.bind_eq_some_iff] at done
    obtain ⟨_, ⟨_, _, wrote⟩, done⟩ := done
    obtain rfl := Option.some.inj wrote
    have rest := ih done
    exact rest

theorem request_vaddr (small : size ≤ slab1024) (done : request size s = some (p, s')) :
    s'.heap.heapVaddr = s.heap.heapVaddr := by
  simp only [request, Option.bind_eq_bind, Option.bind_eq_some_iff] at done
  obtain ⟨⟨q, heap⟩, served, both⟩ := done
  obtain ⟨vm, rfl⟩ := kmalloc_small_changes small served
  obtain ⟨rfl, rfl⟩ := Prod.mk.inj (Option.some.inj both)
  rfl

theorem kfree_vaddr (freed : s.call (.kfree b) = some s') :
    s'.heap.heapVaddr = s.heap.heapVaddr := by
  simp only [SlabState.call, Option.bind_eq_bind, Option.bind_eq_some_iff] at freed
  obtain ⟨heap, done, same⟩ := freed
  obtain ⟨vm, rfl⟩ := kfree_changes done
  obtain rfl := Option.some.inj same
  rfl

end HeapRun

end DedOS
