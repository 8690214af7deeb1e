import DedOS.Mm.Requests

/-!
# kcalloc

The product of `kcalloc` is formed modulo 2^64 (`calloc_room`): a product that overflows gets
a block that is too small, unless `kmalloc` has nothing for what is left of it. Otherwise
`memset` clears the whole block, or faults on a page that is missing.
-/

namespace DedOS

open Lib

/-! ### memset -/

section Memset

variable {s s' : Vm} {root p c i k n total : Nat} {addr : Nat → Nat}

theorem memset_add {m : Nat} : memset root p c i (m + n) s =
    (memset root p c i m s).bind (memset root p c (i + m) n) := by
  induction m generalizing i s with
  | zero =>
    rw [Nat.zero_add]
    rfl
  | succ m ih =>
    rw [Nat.succ_add, memset, memset]
    cases s.write root 1 (wrap64 (p + i)) (c % 256) with
    | none => rfl
    | some s' =>
      have shift : i + 1 + m = i + (m + 1) := by omega
      simp only [Option.bind_eq_bind, Option.bind_some]
      rw [ih, shift]

/-- An address that no access to can succeed stops the loop. -/
theorem memset_fault (reached : i ≤ k ∧ k < i + n)
    (fault : ∀ m, ({ s with mem := m } : Vm).resolve root (vmmPresent ||| vmmWrite)
      (wrap64 (p + k)) = none) : memset root p c i n s = none := by
  induction n generalizing i s with
  | zero => omega
  | succ n ih =>
    rw [memset]
    cases written : s.write root 1 (wrap64 (p + i)) (c % 256) with
    | none => rfl
    | some s' =>
      obtain ⟨a, resolved, rfl⟩ := Option.map_eq_some_iff.mp written
      by_cases here : k = i
      · have none := fault s.mem
        rw [here] at none
        cases none.symm.trans resolved
      · exact ih (by omega) fault

/-- Neither the direct map nor the bytes that are left out reach all of three addresses that no
table can translate. -/
theorem far_address (s : Vm) (p : Nat) (bounded : s.pmm.totalPages ≤ 2 ^ 40) (word : p < 2 ^ 64) :
    ∃ x < 2 ^ 64, ¬ Vm.canonical x ∧ ¬ s.directMapped x ∧ wrap64 (x + (2 ^ 64 - p)) < 2 ^ 64 - 4119 := by
  have outside : ∀ x, x = 2 ^ 60 ∨ x = 2 ^ 61 ∨ x = 2 ^ 62 → ¬ Vm.canonical x := by
    rintro x (rfl | rfl | rfl) <;> decide
  by_contra everywhere
  have each : ∀ x, x = 2 ^ 60 ∨ x = 2 ^ 61 ∨ x = 2 ^ 62 →
      s.directMapped x ∨ 2 ^ 64 - 4119 ≤ wrap64 (x + (2 ^ 64 - p)) := by
    intro x isOne
    by_contra neither
    obtain ⟨notDirect, near⟩ := not_or.mp neither
    exact everywhere ⟨x, by omega, outside x isOne, notDirect, by omega⟩
  have first := each _ (.inl rfl)
  have second := each _ (.inr (.inl rfl))
  have third := each _ (.inr (.inr rfl))
  unfold Vm.directMapped virtToPhys at first second third
  unfold wrap64 at first second third
  dsimp only [pageSize] at first second third
  omega

/-- A `memset` over almost all addresses meets one without translation. -/
theorem memset_far (bounded : s.pmm.totalPages ≤ 2 ^ 40) (word : p < 2 ^ 64)
    (far : 2 ^ 64 ≤ n + allocHeaderSize + 4095) : memset root p c 0 n s = none := by
  obtain ⟨x, wordX, notCanonical, notDirect, near⟩ := far_address s p bounded word
  have address : wrap64 (p + wrap64 (x + (2 ^ 64 - p))) = x := by
    unfold wrap64
    omega
  have reached : 0 ≤ wrap64 (x + (2 ^ 64 - p)) ∧ wrap64 (x + (2 ^ 64 - p)) < 0 + n := by
    dsimp only [allocHeaderSize] at far
    omega
  apply memset_fault reached
  intro m
  have still : ¬ ({ s with mem := m } : Vm).directMapped x := notDirect
  rw [address, Vm.resolve, if_neg still, if_neg notCanonical]

/-- Bytes that are not among the addresses are as before. -/
def OffBytes (s : Vm) (addr : Nat → Nat) (total : Nat) (m : Memory) : Prop :=
  ∀ a, (∀ k < total, a ≠ addr k) → m a = s.mem a

/-- Where every byte keeps its address while the others are written, all are cleared. -/
theorem memset_clears (stable : ∀ m, OffBytes s addr total m → ∀ k < total,
      ({ s with mem := m } : Vm).resolve root (vmmPresent ||| vmmWrite) (wrap64 (p + k)) =
        some (addr k)) (ends : i + n ≤ total) {m₀ : Memory} (off : OffBytes s addr total m₀)
    (clear : ∀ k < i, m₀ (addr k) = 0) :
    ∃ m, memset root p 0 i n { s with mem := m₀ } = some { s with mem := m } ∧
      OffBytes s addr total m ∧ ∀ k < i + n, m (addr k) = 0 := by
  induction n generalizing i m₀ with
  | zero => exact ⟨m₀, rfl, off, clear⟩
  | succ n ih =>
    have here := stable m₀ off i (by omega)
    have written : ({ s with mem := m₀ } : Vm).write root 1 (wrap64 (p + i)) (0 % 256) =
        some { s with mem := store 1 m₀ (addr i) 0 } := by
      rw [Vm.write, here, Option.map_some]
    have zero : ∀ a, store 1 m₀ (addr i) 0 a = if a = addr i then 0 else m₀ a := by
      intro a
      split
      next same =>
        rw [same]
        simp [store]
      next differ =>
        apply store_outside
        omega
    -- the store stays within the bytes of the block
    have off₁ : OffBytes s addr total (store 1 m₀ (addr i) 0) := by
      intro a outside
      rw [zero, if_neg (outside i (by omega)), off a outside]
    have clear₁ : ∀ k < i + 1, store 1 m₀ (addr i) 0 (addr k) = 0 := by
      intro k below
      rw [zero]
      split
      · rfl
      next differ =>
        apply clear k
        have other : k ≠ i := by
          rintro rfl
          exact differ rfl
        omega
    obtain ⟨m, done, off', clear'⟩ := ih (by omega) off₁ clear₁
    refine ⟨m, ?_, off', ?_⟩
    · rw [memset, written]
      exact done
    · intro k below
      exact clear' k (by omega)

theorem memset_cleared (s : Vm) (root p n : Nat) (addr : Nat → Nat)
    (stable : ∀ m, OffBytes s addr n m → ∀ k < n,
      ({ s with mem := m } : Vm).resolve root (vmmPresent ||| vmmWrite) (wrap64 (p + k)) =
        some (addr k)) : ∃ m, memset root p 0 0 n s = some { s with mem := m } ∧
      OffBytes s addr n m ∧ ∀ k < n, m (addr k) = 0 := by
  have start : OffBytes s addr n s.mem := fun _ _ => rfl
  obtain ⟨m, done, off, clear⟩ := memset_clears stable (Nat.le_of_eq (Nat.zero_add n)) start
    fun k below => absurd below (Nat.not_lt_zero k)
  exact ⟨m, done, off, fun k below => clear k (by omega)⟩

end Memset

/-! ### Small requests -/

/-- The cache for the size has a slab with a free object, or slabs and a frame for another. -/
def Available (s : Heap) (size : Nat) : Prop :=
  size ≠ 0 ∧ ∃ c, (s.caches.find? fun cache => size + allocHeaderSize ≤ cache.objSize) = some c ∧
    c.firstSlab ≠ 0 ∧ (0 < s.vm.pmm.freePages ∨ ∃ slabs,
      Chain (link s.vm.mem 16) (toPtr c.firstSlab) slabs ∧ ∃ A ∈ slabs, load 8 s.vm.mem (A + 8) ≠ 0)

/-- `kmalloc` has no object, a page count that overflows, or not all frames. -/
def Refused (s : Heap) (size : Nat) : Prop :=
  if size ≤ slab1024 then ¬ Available s size
  else 2 ^ 64 ≤ size + allocHeaderSize + 4095 ∨ ¬ Enough s size

/-- A block from `kcalloc` has room for the whole array and is clear. -/
def CallocRoom (s : Heap) (count size : Nat) : Prop :=
  ∀ p heap, kcalloc s count size = some (p, heap) → p ≠ 0 →
    count * size + allocHeaderSize ≤ Block.extent ⟨p, wrap64 (count * size)⟩ ∧
    ∀ i < count * size, heap.vm.read heap.cr3 1 (p + i) = some 0

section Search

variable {s : Heap} {blocks : List Block} {chains free : Nat → List Nat} {c : SlabCache}
  {A fuel size : Nat} {before after : List Nat}

/-- Without frames the chain is not extended. -/
theorem nextSlab_empty {s : Vm} {o : Nat} (ready : s.pmm.Ready) (empty : s.pmm.freePages = 0)
    (last : load 8 s.mem (A + 16) = 0) : nextSlab s o A = some (0, s) := by
  rcases ready.alloc with ⟨_, failed⟩ | ⟨f, pmm, _, taken⟩
  · have created : createSlab s o = some (0, s) := by
      rw [createSlab, failed]
      rfl
    have same : store 8 s.mem (A + 16) 0 = s.mem := by
      have back := store_load 8 s.mem (A + 16)
      rwa [last] at back
    rw [nextSlab, if_pos last, created]
    simp only [Option.bind_eq_bind, Option.bind_some, same, last]
  · have count := taken.count
    omega

/-- The step behind a full slab that is not the last one. -/
theorem SlabHeap.onward (heap : SlabHeap s blocks chains free) (member : c ∈ s.caches) {B : Nat}
    (split : chains c.objSize = before ++ A :: B :: after)
    (full : load 8 s.vm.mem (A + 8) = 0) :
    findObject c.objSize (fuel + 1) A s.vm = findObject c.objSize fuel B s.vm := by
  have slab : A ∈ chains c.objSize := by
    rw [split]
    exact List.mem_append_right before List.mem_cons_self
  have nonnull := (heap.frame A ⟨c, member, slab⟩).nonnull
  have whole := heap.chain c member
  rw [split] at whole
  obtain ⟨_, _, chain⟩ := chain_append.mp whole
  obtain ⟨next, some⟩ := toPtr_eq_some.mp (chain_cons.mp (chain_cons.mp chain).2).1
  apply findObject_full nonnull full
  rw [nextSlab, if_neg (by rw [next]; exact some), next]

/-- A free object is not null, and its block does not wrap. -/
theorem SlabHeap.object_bounds (heap : SlabHeap s blocks chains free) (member : c ∈ s.caches)
    {x : Nat} {rest : List Nat} (split : chains c.objSize = before ++ A :: after)
    (objects : free A = x :: rest) : 0 < x ∧ x + allocHeaderSize < 2 ^ 64 := by
  have slab : A ∈ chains c.objSize := by
    rw [split]
    exact List.mem_append_right before List.mem_cons_self
  have isSlab : IsSlab s.caches chains A := ⟨c, member, slab⟩
  have page := heap.page c member A slab
  obtain ⟨first, last⟩ := slot_bounds (page.mem_free (by
    rw [objects]
    exact List.mem_cons_self))
  have word := (heap.frame A isSlab).lt
  have aligned := heap.aligned isSlab
  have sized := heap.sized c member
  dsimp only [slabHeaderSize, pageSize, allocHeaderSize] at *
  omega

/-- The search in full slabs without a frame ends with null. -/
theorem SlabHeap.search_none (heap : SlabHeap s blocks chains free) (member : c ∈ s.caches)
    (split : chains c.objSize = before ++ A :: after) (enough : (A :: after).length ≤ fuel)
    (empty : s.vm.pmm.freePages = 0) (full : ∀ B ∈ A :: after, load 8 s.vm.mem (B + 8) = 0) :
    findObject c.objSize fuel A s.vm = some (0, s.vm) := by
  induction after generalizing A before fuel with
  | nil =>
    have slab : A ∈ chains c.objSize := by
      rw [split]
      exact List.mem_append_right before List.mem_cons_self
    obtain ⟨fuel, rfl⟩ : ∃ n, fuel = n + 1 := Nat.exists_eq_add_one_of_ne_zero (by
      rw [List.length_singleton] at enough
      omega)
    have whole := heap.chain c member
    rw [split] at whole
    obtain ⟨_, _, chain⟩ := chain_append.mp whole
    have last := toPtr_eq_none.mp (chain_nil.mp (chain_cons.mp chain).2)
    rw [findObject_full (heap.frame A ⟨c, member, slab⟩).nonnull (full A List.mem_cons_self)
      (nextSlab_empty heap.ready empty last), findObject_null]
  | cons B after ih =>
    obtain ⟨fuel, rfl⟩ : ∃ n, fuel = n + 1 := Nat.exists_eq_add_one_of_ne_zero (by
      rw [List.length_cons] at enough
      omega)
    rw [heap.onward member split (full A List.mem_cons_self)]
    have split' : chains c.objSize = (before ++ [A]) ++ B :: after := by
      rw [split, List.append_assoc]
      rfl
    apply ih split'
    · simp only [List.length_cons] at enough ⊢
      omega
    · intro C later
      exact full C (List.mem_cons_of_mem _ later)

/-- The search finds an object where a slab has one. -/
theorem SlabHeap.search_some (heap : SlabHeap s blocks chains free) (member : c ∈ s.caches)
    (split : chains c.objSize = before ++ A :: after) (enough : (A :: after).length ≤ fuel)
    (serves : ∃ B ∈ A :: after, load 8 s.vm.mem (B + 8) ≠ 0) : ∃ x vm,
      findObject c.objSize fuel A s.vm = some (x, vm) ∧ 0 < x ∧ x + allocHeaderSize < 2 ^ 64 := by
  induction after generalizing A before fuel with
  | nil =>
    rcases heap.full_or_serves member split with ⟨x, rest, objects, found⟩ | ⟨full, _⟩
    · exact ⟨x, _, found fuel, heap.object_bounds member split objects⟩
    · obtain ⟨B, isA, some⟩ := serves
      obtain rfl := List.mem_singleton.mp isA
      exact absurd full some
  | cons B after ih =>
    rcases heap.full_or_serves member split with ⟨x, rest, objects, found⟩ | ⟨full, _⟩
    · exact ⟨x, _, found fuel, heap.object_bounds member split objects⟩
    · obtain ⟨fuel, rfl⟩ : ∃ n, fuel = n + 1 := Nat.exists_eq_add_one_of_ne_zero (by
        rw [List.length_cons] at enough
        omega)
      rw [heap.onward member split full]
      have split' : chains c.objSize = (before ++ [A]) ++ B :: after := by
        rw [split, List.append_assoc]
        rfl
      apply ih split'
      · simp only [List.length_cons] at enough ⊢
        omega
      · obtain ⟨C, later, some⟩ := serves
        rcases List.mem_cons.mp later with rfl | later
        · exact absurd full some
        · exact ⟨C, later, some⟩

end Search

namespace HeapRun

variable {s : SlabState} {chains free : Nat → List Nat} {pages : Nat → Prop} {top size p : Nat}
  {h : List (Entry SlabState HeapEvent)} {heap : Heap} {c : SlabCache}

/-- A small request seen from its cache. -/
theorem kmalloc_small_eq {s : Heap} (nonzero : size ≠ 0) (small : size ≤ slab1024) :
    kmalloc s size = (s.caches.find? fun cache => size + allocHeaderSize ≤ cache.objSize).elim
      (some (0, s)) fun cache => kmallocSlab s cache size := by
  have total : wrap64 (size + allocHeaderSize) = size + allocHeaderSize := by
    apply wrap64_of_lt
    dsimp only [slab1024, allocHeaderSize] at *
    omega
  rw [kmalloc, if_neg nonzero, if_neg (by omega), total]
  cases s.caches.find? fun cache => size + allocHeaderSize ≤ cache.objSize with
  | none => rfl
  | some cache => rfl

/-- A cache serves a request if and only if it has an object or can get one. -/
theorem Inv.serves_iff (inv : Inv s chains free pages top) (member : c ∈ s.heap.caches)
    (created : c.firstSlab ≠ 0) (room : size + allocHeaderSize ≤ c.objSize) :
    (∃ p heap, kmallocSlab s.heap c size = some (p, heap) ∧ p ≠ 0) ↔
      0 < s.heap.vm.pmm.freePages ∨ ∃ slabs,
        Chain (link s.heap.vm.mem 16) (toPtr c.firstSlab) slabs ∧
        ∃ A ∈ slabs, load 8 s.heap.vm.mem (A + 8) ≠ 0 := by
  have isCreated : c ∈ s.heap.created.caches := List.mem_filter.mpr ⟨member, by simpa using created⟩
  have chain := inv.slabs.chain c isCreated
  have pointer : toPtr c.firstSlab = some c.firstSlab := if_neg created
  have length := inv.slabs.chain_length_le isCreated
  obtain ⟨after, nodes⟩ := inv.slabs.first_node isCreated
  rw [nodes] at length
  constructor
  · -- all slabs full and no frame: the search comes back empty
    rintro ⟨p, heap, done, nonnull⟩
    by_contra neither
    obtain ⟨empty, none⟩ := not_or.mp neither
    have full : ∀ B ∈ c.firstSlab :: after, load 8 s.heap.vm.mem (B + 8) = 0 := by
      intro B inChain
      by_contra some
      rw [pointer] at none
      exact none ⟨_, chain, B, by rwa [nodes], some⟩
    have search : findObject c.objSize s.heap.vm.pmm.totalPages c.firstSlab s.heap.vm =
        some (0, s.heap.vm) := inv.slabs.search_none isCreated nodes length (by
          change s.heap.vm.pmm.freePages = 0
          omega) full
    rw [kmallocSlab, search] at done
    exact nonnull (congrArg Prod.fst (Option.some.inj done)).symm
  · rintro (left | ⟨slabs, chain', A, inChain, some⟩)
    · -- a frame is left for a new slab
      obtain ⟨p, vm, _, _, done, _, _, unserved⟩ := kmallocSlab_spec inv.slabs isCreated room
      refine ⟨p, { s.heap with vm := vm }, ?_, fun null => ?_⟩
      · rw [kmallocSlab_created, done]
        rfl
      · have none := (inv.unserved (unserved null)).1
        omega
    · -- a slab of the chain has a free object
      rw [pointer] at chain'
      rw [chain'.unique chain, nodes] at inChain
      obtain ⟨x, vm, found, pos, word⟩ :=
        inv.slabs.search_some isCreated nodes length ⟨A, inChain, some⟩
      have search : findObject c.objSize s.heap.vm.pmm.totalPages c.firstSlab s.heap.vm =
          Option.some (x, vm) := found
      obtain ⟨heap, done⟩ : ∃ heap, kmallocSlab s.heap c size =
          Option.some (x + allocHeaderSize, heap) := by
        rw [kmallocSlab, search, Option.bind_eq_bind, Option.bind_some]
        dsimp only
        rw [if_neg (Nat.ne_of_gt pos), wrap64_of_lt word]
        exact ⟨_, rfl⟩
      exact ⟨_, heap, done, Nat.succ_ne_zero _⟩

/-- A small request is served if and only if an object is available. -/
theorem Inv.available_iff (inv : Inv s chains free pages top) (small : size ≤ slab1024) :
    (∃ p heap, kmalloc s.heap size = some (p, heap) ∧ p ≠ 0) ↔ Available s.heap size := by
  by_cases nonzero : size ≠ 0
  · rw [kmalloc_small_eq nonzero small, Available]
    -- the search ends at the first cache whose objects are large enough
    cases found : s.heap.caches.find? fun cache => size + allocHeaderSize ≤ cache.objSize with
    | none =>
      constructor
      · rintro ⟨p, heap, done, nonnull⟩
        exact absurd (congrArg Prod.fst (Option.some.inj done)).symm nonnull
      · rintro ⟨_, c, none, _⟩
        cases none
    | some c =>
      have member := List.mem_of_find?_eq_some found
      have room := List.find?_some found
      rw [decide_eq_true_eq] at room
      rw [Option.elim_some]
      by_cases created : c.firstSlab ≠ 0
      · rw [inv.serves_iff member created room]
        constructor
        · intro object
          exact ⟨nonzero, c, rfl, created, object⟩
        · rintro ⟨_, c', same, _, object⟩
          obtain rfl := Option.some.inj same
          exact object
      · -- the cache has got no slab
        rw [not_not] at created
        constructor
        · rintro ⟨p, heap, done, nonnull⟩
          rw [kmallocSlab, created, findObject_null] at done
          exact absurd (congrArg Prod.fst (Option.some.inj done)).symm nonnull
        · rintro ⟨_, c', same, created', _⟩
          obtain rfl := Option.some.inj same
          exact absurd created created'
  · rw [not_not] at nonzero
    constructor
    · rintro ⟨p, heap, done, nonnull⟩
      rw [nonzero, kmalloc, if_pos rfl] at done
      exact absurd (congrArg Prod.fst (Option.some.inj done)).symm nonnull
    · exact fun object => absurd nonzero object.1

/-! ### Clearing a block -/

theorem load_zero {m : Memory} {a : Nat} (clear : m a = 0) : load 1 m a = 0 := by
  rw [load, load, clear]
  rfl

/-- `memset` clears a small block. -/
theorem Inv.clear_small {b : Block} (inv : Inv s chains free pages top)
    (member : b ∈ smallBlocks s.blocks) : ∃ m,
      memset s.heap.cr3 b.ptr 0 0 b.size s.heap.vm = some { s.heap.vm with mem := m } ∧
      ∀ i < b.size, ({ s.heap.vm with mem := m } : Vm).read s.heap.cr3 1 (b.ptr + i) = some 0 := by
  obtain ⟨c, cached, slab, slot, room⟩ := inv.slabs.owner member
  have ptr := (inv.slabs.block b member).1
  have frame := inv.slabs.frame _ ⟨c, cached, slab⟩
  have aligned := inv.slabs.aligned ⟨c, cached, slab⟩
  have word := frame.lt
  obtain ⟨first, last⟩ := slot_bounds slot
  have inSlab : ∀ i < b.size, (b.header &&& frameMask) ≤ b.ptr + i ∧
      b.ptr + i < (b.header &&& frameMask) + pageSize := by
    intro i below
    dsimp only [slabHeaderSize, allocHeaderSize] at *
    omega
  have direct : ∀ i < b.size, s.heap.vm.directMapped (b.ptr + i) := fun i below =>
    frame.direct inv.slabs.ready (inSlab i below).1 (inSlab i below).2
  have noWrap : ∀ i < b.size, wrap64 (b.ptr + i) = b.ptr + i := by
    intro i below
    have inside := inSlab i below
    apply wrap64_of_lt
    dsimp only [pageSize] at *
    omega
  obtain ⟨m, done, _, clear⟩ := memset_cleared s.heap.vm s.heap.cr3 b.ptr b.size (b.ptr + ·) (by
    intro m _ i below
    have still : ({ s.heap.vm with mem := m } : Vm).directMapped (b.ptr + i) := direct i below
    rw [noWrap i below, Vm.resolve, if_pos still])
  refine ⟨m, done, fun i below => ?_⟩
  have still : ({ s.heap.vm with mem := m } : Vm).directMapped (b.ptr + i) := direct i below
  rw [Vm.read_direct still, load_zero (clear i below)]

/-- `memset` clears the front of a block whose first pages are mapped. -/
theorem Inv.clear_pages {first n l : Nat} (inv : Inv s chains free pages top)
    (mapped : ∀ k < l, pages (first + k * pageSize) ∧
      s.heap.vm.leaf s.heap.cr3 (first + k * pageSize) ≠ 0)
    (ends : first + l * pageSize ≤ 2 ^ 64) (room : n + allocHeaderSize ≤ l * pageSize) : ∃ m,
      memset s.heap.cr3 (first + allocHeaderSize) 0 0 n s.heap.vm =
        some { s.heap.vm with mem := m } ∧
      (∀ a, (∀ g, DataFrame s.heap.cr3 s.heap.vm (slabOf s.heap chains) g →
        a < physToVirt s.heap.vm.hhdm g ∨ physToVirt s.heap.vm.hhdm g + pageSize ≤ a) →
        m a = s.heap.vm.mem a) ∧
      ∀ i < n, ({ s.heap.vm with mem := m } : Vm).read s.heap.cr3 1 (first + allocHeaderSize + i) =
        some 0 := by
  have each : ∀ k < l, ∃ f, s.heap.vm.leaf s.heap.cr3 (first + k * pageSize) = f + 3 ∧
      DataFrame s.heap.cr3 s.heap.vm (slabOf s.heap chains) f := by
    intro k below
    exact (inv.arena.data _ (mapped k below).1).resolve_left (mapped k below).2
  choose! frame leaf data using each
  -- byte `i` is at offset `i + 24` from the first page
  have split : ∀ i, first + allocHeaderSize + i = first + (i + allocHeaderSize) / pageSize * pageSize +
      (i + allocHeaderSize) % pageSize := by
    intro i
    dsimp only [pageSize]
    omega
  have inPages : ∀ i < n, (i + allocHeaderSize) / pageSize < l := by
    intro i below
    dsimp only [pageSize] at *
    omega
  have inPage : ∀ i, (i + allocHeaderSize) % pageSize < pageSize := fun i => Nat.mod_lt _ (by decide)
  have noWrap : ∀ i < n, wrap64 (first + allocHeaderSize + i) = first + allocHeaderSize + i := by
    intro i below
    have inside : first + allocHeaderSize + i < first + l * pageSize := by omega
    exact wrap64_of_lt (Nat.lt_of_lt_of_le inside ends)
  have found : ∀ {flags m}, Vm.IsAccess flags →
      (∀ a, (∀ g, DataFrame s.heap.cr3 s.heap.vm (slabOf s.heap chains) g →
        a < physToVirt s.heap.vm.hhdm g ∨ physToVirt s.heap.vm.hhdm g + pageSize ≤ a) →
        m a = s.heap.vm.mem a) → ∀ i < n,
      ({ s.heap.vm with mem := m } : Vm).resolve s.heap.cr3 flags (first + allocHeaderSize + i) =
        some (physToVirt s.heap.vm.hhdm (frame ((i + allocHeaderSize) / pageSize)) +
          (i + allocHeaderSize) % pageSize) := by
    intro flags m access agree i below
    rw [split i]
    exact (inv.arena.resolve_written (mapped _ (inPages i below)).1 agree access (inPage i)).1
      (leaf _ (inPages i below))
  have outside : ∀ m, OffBytes s.heap.vm (fun i =>
      physToVirt s.heap.vm.hhdm (frame ((i + allocHeaderSize) / pageSize)) +
        (i + allocHeaderSize) % pageSize) n m →
      ∀ a, (∀ g, DataFrame s.heap.cr3 s.heap.vm (slabOf s.heap chains) g →
        a < physToVirt s.heap.vm.hhdm g ∨ physToVirt s.heap.vm.hhdm g + pageSize ≤ a) →
        m a = s.heap.vm.mem a := by
    intro m off a away
    apply off a
    rintro i below rfl
    have notHere := away _ (data _ (inPages i below))
    have low := inPage i
    dsimp only at notHere
    omega
  obtain ⟨m, done, off, clear⟩ := memset_cleared s.heap.vm s.heap.cr3 (first + allocHeaderSize) n _
    (by
      intro m off i below
      rw [noWrap i below]
      exact found (.inr rfl) (outside m off) i below)
  refine ⟨m, done, outside m off, fun i below => ?_⟩
  rw [Vm.read, found (.inl rfl) (outside m off) i below, Option.map_some, load_zero (clear i below)]

/-! ### Room for the whole array -/

section Outcomes

variable {s : Heap} {count n : Nat}

/-- No block without a fault: nothing is promised. -/
theorem callocRoom_of (each : ∀ p heap, kmalloc s (wrap64 (count * size)) = some (p, heap) → p ≠ 0 →
    memset heap.cr3 p 0 0 (wrap64 (count * size)) heap.vm = none) : CallocRoom s count size := by
  intro p heap called nonnull
  rw [kcalloc, Option.bind_eq_bind, Option.bind_eq_some_iff] at called
  obtain ⟨⟨p', heap'⟩, done, called⟩ := called
  dsimp only at called
  split at called
  next some =>
    rw [each p' heap' done some] at called
    cases called
  · have both := congrArg Prod.fst (Option.some.inj called)
    simp_all

/-- A block that `memset` clears has room if and only if the product does not overflow. -/
theorem callocRoom_iff (nonnull : p ≠ 0)
    (done : kmalloc s (wrap64 (count * size)) = some (p, heap))
    (cleared : ∃ m, memset heap.cr3 p 0 0 (wrap64 (count * size)) heap.vm =
      some { heap.vm with mem := m } ∧ ∀ i < wrap64 (count * size),
        ({ heap.vm with mem := m } : Vm).read heap.cr3 1 (p + i) = some 0)
    (low : wrap64 (count * size) + allocHeaderSize ≤ Block.extent ⟨p, wrap64 (count * size)⟩)
    (high : Block.extent ⟨p, wrap64 (count * size)⟩ < 2 ^ 64 + allocHeaderSize) :
    CallocRoom s count size ↔ count * size < 2 ^ 64 := by
  obtain ⟨m, run, clear⟩ := cleared
  have result : kcalloc s count size = some (p, { heap with vm := { heap.vm with mem := m } }) := by
    rw [kcalloc, done, Option.bind_eq_bind, Option.bind_some]
    dsimp only
    rw [if_pos nonnull, run]
    rfl
  constructor
  · intro room
    obtain ⟨fits, _⟩ := room _ _ result nonnull
    omega
  · intro noOverflow p' heap' called _
    obtain ⟨rfl, rfl⟩ := Prod.mk.inj (Option.some.inj (result.symm.trans called))
    rw [wrap64_of_lt noOverflow] at low clear ⊢
    exact ⟨low, clear⟩

end Outcomes

variable {count n : Nat}

theorem Inv.room_small (inv : Inv s chains free pages top) (small : wrap64 (count * size) ≤ slab1024) :
    CallocRoom s.heap count size ↔
      count * size < 2 ^ 64 ∨ ¬ Available s.heap (wrap64 (count * size)) := by
  obtain ⟨p, vm, done, _, chains', free', inv', _⟩ := inv.kmalloc_small small
  by_cases null : p = 0
  · -- nothing is available
    have unavailable : ¬ Available s.heap (wrap64 (count * size)) := by
      rw [← inv.available_iff small]
      rintro ⟨p', heap', done', some⟩
      exact some ((congrArg Prod.fst (Option.some.inj (done.symm.trans done'))).symm.trans null)
    apply iff_of_true _ (.inr unavailable)
    apply callocRoom_of
    intro p' heap' done' some
    exact absurd ((congrArg Prod.fst (Option.some.inj (done.symm.trans done'))).symm.trans null) some
  · have available : Available s.heap (wrap64 (count * size)) :=
      (inv.available_iff small).mp ⟨p, _, done, null⟩
    rw [if_neg null] at inv'
    have member : (⟨p, wrap64 (count * size)⟩ : Block) ∈
        smallBlocks (⟨p, wrap64 (count * size)⟩ :: s.blocks) :=
      mem_smallBlocks.mpr ⟨List.mem_cons_self, small⟩
    have extent : Block.extent ⟨p, wrap64 (count * size)⟩ = wrap64 (count * size) + allocHeaderSize :=
      if_pos small
    have only := callocRoom_iff null done (inv'.clear_small member) (Nat.le_of_eq extent.symm) (by
      rw [extent]
      dsimp only [slab1024] at small
      omega)
    rw [only]
    simp [available]

/-- A size whose page count overflows: `memset` faults. -/
theorem Inv.room_far (inv : Inv s chains free pages top)
    (far : 2 ^ 64 ≤ wrap64 (count * size) + allocHeaderSize + 4095) :
    CallocRoom s.heap count size := by
  have large : slab1024 < wrap64 (count * size) := by
    dsimp only [slab1024, allocHeaderSize] at *
    omega
  apply callocRoom_of
  intro p heap done some
  have pointer : p < 2 ^ 64 := by
    obtain ⟨_, _, null | address⟩ := kmalloc_large_changes large done
    · exact absurd null some
    · rw [address]
      exact Nat.mod_lt _ (by decide)
  apply memset_far _ pointer far
  -- the writes of the header and of the tables keep `total_pages`
  obtain ⟨complete, vm, new, frames, mapped, mappedPages, outcome⟩ :=
    Vm.mapPages_spec inv.arena.paging s.heap.heapVaddr 0 (pagesCount (wrap64 (count * size)))
  have result := kmallocPages_eq mappedPages
  rw [← HeapRun.kmalloc_large large, done] at result
  have bounded : vm.pmm.totalPages ≤ 2 ^ 40 := outcome.grown.same.wf.bounded
  cases complete with
  | false =>
    have same : heap = _ := congrArg Prod.snd (Option.some.inj result)
    rw [same]
    exact bounded
  | true =>
    rw [if_pos rfl] at result
    obtain ⟨vm', written, same⟩ := Option.map_eq_some_iff.mp result.symm
    have isHeap : heap.vm = vm' := congrArg (fun r => r.2.vm) same.symm
    rw [isHeap]
    have kept : vm'.pmm = vm.pmm := by
      simp only [writeHeader, Vm.write, Option.bind_eq_bind, Option.bind_eq_some_iff,
        Option.map_eq_some_iff] at written
      obtain ⟨_, ⟨_, _, rfl⟩, _, ⟨_, _, rfl⟩, _, _, rfl⟩ := written
      rfl
    rw [kept]
    exact bounded

/-- With enough frames the block is cleared. -/
theorem Inv.room_pages (inv : Inv s chains free pages top) (large : slab1024 < wrap64 (count * size))
    (near : wrap64 (count * size) + allocHeaderSize + 4095 < 2 ^ 64)
    (fits : Fits s.heap (wrap64 (count * size))) (enough : Enough s.heap (wrap64 (count * size))) :
    CallocRoom s.heap count size ↔ count * size < 2 ^ 64 := by
  obtain ⟨vm, vm', new, frames, mapped, outcome, full, leaf, inv', done⟩ :=
    inv.kmalloc_enough large fits enough
  obtain ⟨covers, tight⟩ := pagesCount_bounds near
  have topEnd := inv'.range.2.1
  have extent : Block.extent ⟨top + allocHeaderSize, wrap64 (count * size)⟩ =
      pagesCount (wrap64 (count * size)) * pageSize := if_neg (by dsimp only; omega)
  have isMapped : ∀ k < pagesCount (wrap64 (count * size)),
      withPages pages top (pagesCount (wrap64 (count * size))) (top + k * pageSize) ∧
        vm'.leaf s.heap.cr3 (top + k * pageSize) ≠ 0 := by
    intro k below
    refine ⟨.inr ⟨k, below, rfl⟩, ?_⟩
    rw [leaf, leaf_mapped outcome inv.range.1 topEnd (full ▸ below)]
    exact Nat.succ_ne_zero _
  obtain ⟨m, run, _, clear⟩ := inv'.clear_pages isMapped topEnd covers
  have nonnull : top + allocHeaderSize ≠ 0 := Nat.succ_ne_zero _
  apply callocRoom_iff nonnull done ⟨m, run, clear⟩
  · rw [extent]
    exact covers
  · rw [extent]
    dsimp only [allocHeaderSize, pageSize] at *
    omega

/-- Where the last page has no table, `memset` clears the others and faults. -/
theorem Inv.room_hole (inv : Inv s chains free pages top) (large : slab1024 < wrap64 (count * size))
    (near : wrap64 (count * size) + allocHeaderSize + 4095 < 2 ^ 64)
    (fits : Fits s.heap (wrap64 (count * size)))
    (notEnough : ¬ Enough s.heap (wrap64 (count * size))) : CallocRoom s.heap count size := by
  obtain ⟨covers, tight⟩ := pagesCount_bounds near
  apply callocRoom_of
  intro p heap called some
  obtain ⟨vm, new, frames, mapped, f, outcome, length, _, leaf, inv', rfl, rfl⟩ :=
    inv.kmalloc_block large fits called some
  rw [Enough, inv.vaddr_top fits.2.1, ← outcome.full_iff] at notEnough
  have topEnd := inv'.range.2.1
  obtain ⟨one, hole⟩ := leaf_hole outcome topEnd notEnough
  -- the byte at the start of the last page
  obtain ⟨k, isK⟩ : ∃ k, k + allocHeaderSize = mapped.length * pageSize :=
    ⟨mapped.length * pageSize - allocHeaderSize, by
      dsimp only [allocHeaderSize, pageSize]
      omega⟩
  obtain ⟨j, isJ⟩ : ∃ j, wrap64 (count * size) = k + (j + 1) :=
    ⟨wrap64 (count * size) - k - 1, by
      dsimp only [allocHeaderSize, pageSize] at *
      omega⟩
  have front : ∀ l < mapped.length,
      withPages pages top (pagesCount (wrap64 (count * size))) (top + l * pageSize) ∧
        (withHeader vm f (wrap64 (count * size))).leaf s.heap.cr3 (top + l * pageSize) ≠ 0 := by
    intro l below
    refine ⟨.inr ⟨l, by omega, rfl⟩, ?_⟩
    rw [leaf, leaf_mapped outcome inv.range.1 topEnd below]
    exact Nat.succ_ne_zero _
  have frontEnd : top + (mapped.length + 1) * pageSize ≤ 2 ^ 64 := one ▸ topEnd
  rw [Nat.succ_mul] at frontEnd
  obtain ⟨m, cleared, agree, _⟩ := inv'.clear_pages front (by omega) (Nat.le_of_eq isK)
  have last : withPages pages top (pagesCount (wrap64 (count * size)))
      (top + mapped.length * pageSize) := .inr ⟨mapped.length, by omega, rfl⟩
  have unmapped : (withHeader vm f (wrap64 (count * size))).leaf s.heap.cr3
      (top + mapped.length * pageSize) = 0 := by
    rw [leaf, hole]
  have fault := (inv'.arena.resolve_written (f := 0) last agree (.inr rfl)
    (by decide : 0 < pageSize)).2 unmapped
  have here : wrap64 (top + allocHeaderSize + (0 + k)) = top + mapped.length * pageSize + 0 := by
    have byte : top + allocHeaderSize + (0 + k) = top + mapped.length * pageSize + 0 := by omega
    rw [byte]
    apply wrap64_of_lt
    dsimp only [pageSize] at frontEnd ⊢
    omega
  have halves : memset s.heap.cr3 (top + allocHeaderSize) 0 0 (k + (j + 1))
    (withHeader vm f (wrap64 (count * size))) = _ := memset_add
  dsimp only [advanced] at cleared fault ⊢
  rw [← isJ, cleared, Option.bind_some, memset, Vm.write, here, fault] at halves
  exact halves

/-- In every run in which `kernel_heap_vaddr` has not wrapped, the block that `kcalloc` returns
has room for the whole array and is clear if and only if the product does not overflow, or
there is no block. -/
theorem calloc_room (run : Run step Started h s) (fits : AllFit h)
    (window : slab1024 < wrap64 (count * size) →
      wrap64 (count * size) + allocHeaderSize + 4095 < 2 ^ 64 →
      TooFew s.heap (wrap64 (count * size)) ∨ Fits s.heap (wrap64 (count * size))) :
    CallocRoom s.heap count size ↔
      count * size < 2 ^ 64 ∨ Refused s.heap (wrap64 (count * size)) := by
  obtain ⟨chains, free, pages, top, inv⟩ := run_good run fits
  unfold Refused
  by_cases small : wrap64 (count * size) ≤ slab1024
  · rw [if_pos small]
    exact inv.room_small small
  rw [if_neg small]
  by_cases far : 2 ^ 64 ≤ wrap64 (count * size) + allocHeaderSize + 4095
  · -- `memset` runs over almost all addresses, and faults
    exact iff_of_true (inv.room_far far) (.inr (.inl far))
  have large : slab1024 < wrap64 (count * size) := by omega
  rcases window large (by omega) with few | fitsHere
  · -- null, whatever the product is
    have notEnough : ¬ Enough s.heap (wrap64 (count * size)) := by
      have fewer : (s.heap.vm.needed s.heap.cr3 s.heap.heapVaddr 0
            (pagesCount (wrap64 (count * size)) - 1)).card ≤
          (s.heap.vm.needed s.heap.cr3 s.heap.heapVaddr 0 (pagesCount (wrap64 (count * size)))).card :=
        Vm.needed_mono (Nat.sub_le _ 1)
      rw [Enough]
      rw [TooFew] at few
      omega
    apply iff_of_true _ (.inr (.inr notEnough))
    obtain ⟨vm, null⟩ := inv.tooFew large few
    apply callocRoom_of
    intro p heap done some
    have pointer : (0 : Nat) = p := congrArg Prod.fst (Option.some.inj (null.symm.trans done))
    exact absurd pointer.symm some
  · by_cases enough : Enough s.heap (wrap64 (count * size))
    · rw [inv.room_pages large (by omega) fitsHere enough]
      exact (or_iff_left (not_or.mpr ⟨far, not_not.mpr enough⟩)).symm
    · exact iff_of_true (inv.room_hole large (by omega) fitsHere enough) (.inr (.inr enough))

/-- Ten times ten bytes on the small machine. -/
theorem calloc_room_bareHeap : ∃ s, Started s ∧ CallocRoom s.heap 10 10 := by
  obtain ⟨s, started, _⟩ := started_bareHeap
  refine ⟨s, started, ?_⟩
  exact (calloc_room (.start started) (fun x member => absurd member List.not_mem_nil)
    (fun large => absurd large (by decide))).mpr (.inl (by decide))

/-- (2^60 + 1) times 16 bytes get a block of 16. -/
theorem calloc_overflow : ∃ s, Started s ∧ ¬ CallocRoom s.heap (2 ^ 60 + 1) 16 := by
  obtain ⟨s, started, _, frames, _, created⟩ := started_bareHeap
  obtain ⟨chains, free, inv⟩ := started.inv
  refine ⟨s, started, fun room => ?_⟩
  have product : wrap64 ((2 ^ 60 + 1) * 16) = 16 := by decide
  rcases (inv.room_small (by rw [product]; decide)).mp room with noOverflow | unavailable
  · exact absurd noOverflow (by decide)
  · apply unavailable
    rw [product]
    have size64 : 64 ∈ s.heap.caches.map SlabCache.objSize := by
      rw [inv.sizes]
      decide
    obtain ⟨c, member, objSize⟩ := List.mem_map.mp size64
    have some : (s.heap.caches.find? fun cache => 16 + allocHeaderSize ≤ cache.objSize).isSome := by
      rw [List.find?_isSome]
      exact ⟨c, member, by simp [objSize, allocHeaderSize]⟩
    obtain ⟨c', found⟩ := Option.isSome_iff_exists.mp some
    exact ⟨by decide, c', found, created c' (List.mem_of_find?_eq_some found), .inl (by omega)⟩

end HeapRun

end DedOS
