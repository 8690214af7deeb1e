import DedOS.Lib.Chain
import DedOS.Mm.Heap

/-!
# One slab

`SlabPage m o A free live`: the page at `A` is a slab of objects of `o` bytes whose free list
visits `free` and whose other slots carry the headers `live`. Taking the head of the list
(`SlabPage.pop`), putting a header back (`SlabPage.push`) and `create_slab` are the only
things that happen to a slab page; everything else leaves its bookkeeping bytes alone
(`SlabPage.congr`).
-/

namespace DedOS

open Lib

/-- A pointer of the source. -/
def toPtr (p : Nat) : Option Nat := if p = 0 then none else some p

@[simp] theorem toPtr_zero : toPtr 0 = none := rfl

theorem toPtr_of_ne {p : Nat} (nonnull : p ≠ 0) : toPtr p = some p := if_neg nonnull

theorem toPtr_eq_some {p a : Nat} : toPtr p = some a ↔ p = a ∧ a ≠ 0 := by
  unfold toPtr
  split <;> grind

theorem toPtr_eq_none {p : Nat} : toPtr p = none ↔ p = 0 := by
  unfold toPtr
  split <;> grind

/-- The pointer at `offset` in the structure at `a`. -/
def link (m : Memory) (offset a : Nat) : Option Nat := toPtr (load 8 m (a + offset))

/-- The first bytes of the object slots of a slab. -/
def slots (A o : Nat) : List Nat :=
  (List.range ((pageSize - slabHeaderSize) / o)).map fun k => A + slabHeaderSize + k * o

structure SlabPage (m : Memory) (o A : Nat) (free live : List Nat) : Prop where
  objSize : load 8 m A = o
  chain : Chain (link m 0) (link m 8 A) free
  /-- every slot is free or live, once -/
  slots : (free ++ live).Perm (slots A o)
  magic : ∀ h ∈ live, load 4 m h = magicSlab

variable {m m' : Memory} {o A x y h a : Nat} {free live live' rest : List Nat}

theorem link_zero (m : Memory) (a : Nat) : link m 0 a = toPtr (load 8 m a) := rfl

theorem link_congr {offset : Nat}
    (agree : ∀ a, x + offset ≤ a → a < x + offset + 8 → m' a = m a) :
    link m' offset x = link m offset x := by
  rw [link, link, load_congr agree]

/-! ### Slots -/

theorem mem_slots : x ∈ slots A o ↔
    ∃ k < (pageSize - slabHeaderSize) / o, x = A + slabHeaderSize + k * o := by
  simp only [slots, List.mem_map, List.mem_range, eq_comm]

/-- A slot lies between the slab header and the end of the page. -/
theorem slot_bounds (slot : x ∈ slots A o) : A + slabHeaderSize ≤ x ∧ x + o ≤ A + pageSize := by
  obtain ⟨k, below, rfl⟩ := mem_slots.mp slot
  have fits : (k + 1) * o ≤ pageSize - slabHeaderSize := by
    apply Nat.le_trans (Nat.mul_le_mul_right o below)
    exact Nat.div_mul_le_self _ o
  rw [Nat.succ_mul] at fits
  dsimp only [pageSize, slabHeaderSize] at *
  omega

theorem slot_apart (slot : x ∈ slots A o) (slot' : y ∈ slots A o) (differ : x ≠ y) :
    x + o ≤ y ∨ y + o ≤ x := by
  obtain ⟨k, _, rfl⟩ := mem_slots.mp slot
  obtain ⟨l, _, rfl⟩ := mem_slots.mp slot'
  rcases Nat.lt_trichotomy k l with less | same | more
  · have step : (k + 1) * o ≤ l * o := Nat.mul_le_mul_right o less
    rw [Nat.succ_mul] at step
    omega
  · exact absurd (by rw [same]) differ
  · have step : (l + 1) * o ≤ k * o := Nat.mul_le_mul_right o more
    rw [Nat.succ_mul] at step
    omega

theorem slots_nodup (size : 0 < o) : (slots A o).Nodup := by
  apply List.Nodup.map _ List.nodup_range
  intro k l same
  have products : k * o = l * o := Nat.add_left_cancel same
  exact Nat.eq_of_mul_eq_mul_right size products

/-- Every object size of the caches leaves room for an object. -/
theorem slots_ne_nil (size : 32 ≤ o ∧ o ≤ slab1024) : ∃ x xs, slots A o = x :: xs := by
  apply List.exists_cons_of_ne_nil
  have room : 0 < (pageSize - slabHeaderSize) / o :=
    Nat.div_pos (Nat.le_trans size.2 (by decide)) (by omega)
  intro none
  have first : A + slabHeaderSize + 0 * o ∈ slots A o := mem_slots.mpr ⟨0, room, rfl⟩
  rw [none] at first
  exact List.not_mem_nil first

/-- The mask of `kfree` finds the slab of a slot. -/
theorem slot_mask (aligned : A % pageSize = 0) (word : A < 2 ^ 64) (size : 0 < o)
    (slot : x ∈ slots A o) : x &&& frameMask = A := by
  obtain ⟨low, high⟩ := slot_bounds slot
  dsimp only [pageSize, slabHeaderSize] at low high aligned
  have small : x < 2 ^ 64 := by omega
  rw [and_frameMask small]
  dsimp only [pageSize]
  omega

/-! ### What a slab depends on -/

theorem SlabPage.mem_free (slab : SlabPage m o A free live) (member : x ∈ free) :
    x ∈ DedOS.slots A o := slab.slots.mem_iff.mp (List.mem_append_left live member)

theorem SlabPage.mem_live (slab : SlabPage m o A free live) (member : x ∈ live) :
    x ∈ DedOS.slots A o := slab.slots.mem_iff.mp (List.mem_append_right free member)

theorem SlabPage.nodup (slab : SlabPage m o A free live) (size : 0 < o) :
    (free ++ live).Nodup := slab.slots.nodup_iff.mpr (slots_nodup size)

/-- The bookkeeping of a slab: its header up to `next_slab`, the links of the free objects
and the magic numbers of the live ones. -/
theorem SlabPage.congr (slab : SlabPage m o A free live)
    (header : ∀ a, A ≤ a → a < A + 16 → m' a = m a)
    (links : ∀ x ∈ free, ∀ a, x ≤ a → a < x + 8 → m' a = m a)
    (magics : ∀ x ∈ live, ∀ a, x ≤ a → a < x + 4 → m' a = m a) :
    SlabPage m' o A free live where
  objSize := by
    rw [← slab.objSize]
    apply load_congr
    intro a low high
    exact header a low (by omega)
  chain := by
    have head : link m' 8 A = link m 8 A :=
      link_congr fun a low high => header a (by omega) (by omega)
    rw [head]
    apply slab.chain.congr
    intro x member
    apply link_congr
    intro a low high
    exact links x member a low (by omega)
  slots := slab.slots
  magic x member := by
    rw [← slab.magic x member]
    apply load_congr
    exact magics x member

theorem SlabPage.perm (slab : SlabPage m o A free live) (same : live.Perm live') :
    SlabPage m o A free live' where
  objSize := slab.objSize
  chain := slab.chain
  slots := (List.Perm.append_left free same.symm).trans slab.slots
  magic x member := slab.magic x (same.mem_iff.mpr member)

/-! ### Taking and giving objects -/

/-- The head of the free list becomes a live header. -/
theorem SlabPage.pop (slab : SlabPage m o A (h :: rest) live) (size : 8 ≤ o)
    (objSize : load 8 m' A = o) (head : load 8 m' (A + 8) = load 8 m h)
    (magic : load 4 m' h = magicSlab)
    (elsewhere : ∀ x ∈ DedOS.slots A o, x ≠ h → ∀ a, x ≤ a → a < x + 8 → m' a = m a) :
    SlabPage m' o A rest (h :: live) where
  objSize := objSize
  chain := by
    have tail := (chain_cons.mp slab.chain).2
    have fresh : h ∉ rest := (List.nodup_cons.mp slab.chain.nodup).1
    have next : link m' 8 A = link m 0 h := by
      rw [link, link_zero, head]
    rw [next]
    apply tail.congr
    intro x member
    have differ : x ≠ h := fun same => fresh (same ▸ member)
    have slot := slab.mem_free (List.mem_cons_of_mem h member)
    apply link_congr
    intro a low high
    exact elsewhere x slot differ a low (by omega)
  slots := List.perm_middle.trans slab.slots
  magic x member := by
    rcases List.mem_cons.mp member with rfl | old
    · exact magic
    · have nodup := slab.nodup (by omega)
      have differ : x ≠ h := by
        rintro rfl
        exact (List.nodup_cons.mp nodup).1 (List.mem_append_right rest old)
      rw [← slab.magic x old]
      apply load_congr
      intro a low high
      exact elsewhere x (slab.mem_live old) differ a low (by omega)

/-- A live header becomes the head of the free list. -/
theorem SlabPage.push (slab : SlabPage m o A free (h :: live)) (size : 8 ≤ o) (nonnull : h ≠ 0)
    (objSize : load 8 m' A = o) (head : load 8 m' (A + 8) = h)
    (next : load 8 m' h = load 8 m (A + 8))
    (elsewhere : ∀ x ∈ DedOS.slots A o, x ≠ h → ∀ a, x ≤ a → a < x + 8 → m' a = m a) :
    SlabPage m' o A (h :: free) live where
  objSize := objSize
  chain := by
    have nodup := slab.nodup (by omega)
    have apart := (List.nodup_append.mp nodup).2.2
    refine chain_cons.mpr ⟨?_, ?_⟩
    · rw [link, head, toPtr_of_ne nonnull]
    · have behind : link m' 0 h = link m 8 A := by
        rw [link_zero, link, next]
      rw [behind]
      apply slab.chain.congr
      intro x member
      have differ : x ≠ h := apart x member h List.mem_cons_self
      apply link_congr
      intro a low high
      exact elsewhere x (slab.mem_free member) differ a low (by omega)
  slots := List.perm_middle.symm.trans slab.slots
  magic x member := by
    have nodup := (List.nodup_append.mp (slab.nodup (by omega))).2.1
    have differ : x ≠ h := by
      rintro rfl
      exact (List.nodup_cons.mp nodup).1 member
    have slot := slab.mem_live (List.mem_cons_of_mem h member)
    rw [← slab.magic x (List.mem_cons_of_mem h member)]
    apply load_congr
    intro a low high
    exact elsewhere x slot differ a low (by omega)

/-! ### A new slab -/

/-- The loop links each object to the next one and stays below the last. -/
theorem linkObjs_spec {n current : Nat} (size : 8 ≤ o) (bound : current + n * o < 2 ^ 64) :
    (linkObjs o n current m).1 = current + n * o ∧
    (∀ a, a < current ∨ current + n * o ≤ a → (linkObjs o n current m).2 a = m a) ∧
    ∀ k < n, load 8 (linkObjs o n current m).2 (current + k * o) = current + (k + 1) * o := by
  induction n generalizing current m with
  | zero =>
    refine ⟨by simp [linkObjs], fun a _ => rfl, fun k below => absurd below (Nat.not_lt_zero k)⟩
  | succ n ih =>
    rw [Nat.succ_mul] at bound
    have word : current + o < 2 ^ 64 := by omega
    have stored : load 8 (store 8 m current (current + o)) current = current + o :=
      load_store_same word
    have unfolded : linkObjs o (n + 1) current m =
        linkObjs o n (current + o) (store 8 m current (current + o)) := by
      rw [linkObjs, wrap64_of_lt word, stored]
    have bound' : current + o + n * o < 2 ^ 64 := by omega
    obtain ⟨last, outside, links⟩ := ih (m := store 8 m current (current + o)) bound'
    rw [unfolded]
    refine ⟨?_, ?_, ?_⟩
    · rw [last, Nat.succ_mul]
      omega
    · intro a away
      rw [Nat.succ_mul] at away
      rw [outside a (by omega)]
      apply store_outside
      omega
    · intro k below
      cases k with
      | zero =>
        -- the first link was stored before the rest of the loop, which starts behind it
        rw [Nat.zero_mul, Nat.add_zero, Nat.zero_add, Nat.one_mul]
        rw [← stored]
        apply load_congr
        intro a low high
        rw [stored]
        exact outside a (by omega)
      | succ k =>
        have next := links k (by omega)
        have once : (k + 1) * o = k * o + o := Nat.succ_mul k o
        have twice : (k + 1 + 1) * o = (k + 1) * o + o := Nat.succ_mul (k + 1) o
        have place : current + (k + 1) * o = current + o + k * o := by omega
        rw [place, next]
        omega

/-- Nodes in equal steps, each linked to the next one. -/
theorem chain_steps {next : Nat → Option Nat} {n c : Nat}
    (links : ∀ k < n, next (c + k * o) = some (c + (k + 1) * o)) (last : next (c + n * o) = none) :
    Chain next (some c) ((List.range (n + 1)).map fun k => c + k * o) := by
  induction n generalizing c with
  | zero => simpa using last
  | succ n ih =>
    have first := links 0 (by omega)
    simp only [Nat.zero_mul, Nat.add_zero, Nat.zero_add, Nat.one_mul] at first
    -- the first object, and the chain from the second one on
    have shift : (List.range (n + 2)).map (fun k => c + k * o) =
        c :: (List.range (n + 1)).map fun k => c + o + k * o := by
      rw [List.range_succ_eq_map, List.map_cons, List.map_map, Nat.zero_mul, Nat.add_zero]
      congr 1
      apply List.map_congr_left
      intro k _
      simp only [Function.comp_apply, Nat.succ_mul]
      omega
    rw [shift, chain_cons]
    refine ⟨rfl, ?_⟩
    rw [first]
    apply ih
    · intro k below
      have next := links (k + 1) (by omega)
      rw [Nat.succ_mul, Nat.succ_mul (k + 1)] at next
      rw [Nat.succ_mul]
      have place : c + o + k * o = c + (k * o + o) := by omega
      rw [place, next]
      congr 1
      rw [Nat.succ_mul]
      omega
    · rw [Nat.succ_mul] at last
      have place : c + o + n * o = c + (n * o + o) := by omega
      rw [place]
      exact last

/-- What `create_slab` leaves in the page of its frame. -/
structure NewSlab (s : Vm) (o f : Nat) (s' : Vm) : Prop where
  taken : s.pmm.Taken f s'.pmm
  page : SlabPage s'.mem o (physToVirt s.hhdm f) (slots (physToVirt s.hhdm f) o) []
  next : load 8 s'.mem (physToVirt s.hhdm f + 16) = 0
  bytes : ∀ a, a < physToVirt s.hhdm f ∨ physToVirt s.hhdm f + pageSize ≤ a → s'.mem a = s.mem a

/-- The memory with the links of the loop in it, and the null behind the last object. -/
def linkedPage (o n A : Nat) (m : Memory) : Memory :=
  store 8 (linkObjs o n (A + 24) m).2 (A + 24 + n * o) 0

/-- Linking leaves the header and everything outside the page as it is. -/
theorem linkedPage_outside {n : Nat} (size : 8 ≤ o) (room : 24 + (n + 1) * o ≤ pageSize)
    (word : A + pageSize ≤ 2 ^ 64) (outside : a < A + 24 ∨ A + pageSize ≤ a) :
    linkedPage o n A m a = m a := by
  rw [Nat.succ_mul] at room
  dsimp only [pageSize] at *
  have bound : A + 24 + n * o < 2 ^ 64 := by omega
  have kept := (linkObjs_spec (m := m) size bound).2.1
  rw [linkedPage, store_outside (by omega), kept a (by omega)]

/-- All slots of the page are in its free list, in order. -/
theorem linkedPage_page {n : Nat} (size : 8 ≤ o) (isN : (pageSize - slabHeaderSize) / o = n + 1)
    (room : 24 + (n + 1) * o ≤ pageSize) (word : A + pageSize ≤ 2 ^ 64) (objSize : load 8 m A = o)
    (first : load 8 m (A + 8) = A + 24) : SlabPage (linkedPage o n A m) o A (slots A o) [] := by
  have header : ∀ b, b + 8 ≤ A + 24 → load 8 (linkedPage o n A m) b = load 8 m b := by
    intro b low
    apply load_congr
    intro a _ high
    exact linkedPage_outside size room word (by omega)
  rw [Nat.succ_mul] at room
  dsimp only [pageSize] at room word
  have bound : A + 24 + n * o < 2 ^ 64 := by omega
  have links := (linkObjs_spec (m := m) size bound).2.2
  have linked : ∀ k < n, link (linkedPage o n A m) 0 (A + 24 + k * o) =
      some (A + 24 + (k + 1) * o) := by
    intro k below
    have step : (k + 1) * o ≤ n * o := Nat.mul_le_mul_right o below
    have once : (k + 1) * o = k * o + o := Nat.succ_mul k o
    rw [link_zero, linkedPage, load_store_disjoint (by omega), links k below, toPtr_of_ne (by omega)]
  have ended : link (linkedPage o n A m) 0 (A + 24 + n * o) = none := by
    rw [link_zero, linkedPage, load_store_same (by decide), toPtr_zero]
  constructor
  case objSize => rw [header A (by omega), objSize]
  case chain =>
    have head : link (linkedPage o n A m) 8 A = some (A + 24) := by
      rw [link, header (A + 8) (by omega), first, toPtr_of_ne (by omega)]
    have all : slots A o = (List.range (n + 1)).map fun k => A + 24 + k * o := by
      rw [slots, isN]
      rfl
    rw [head, all]
    exact chain_steps linked ended
  case slots => rw [List.append_nil]
  case magic =>
    intro x member
    exact absurd member List.not_mem_nil

theorem createSlab_spec {s : Vm} (ready : s.pmm.Ready) (hhdm : s.hhdm % pageSize = 0)
    (size : 8 ≤ o) (fits : o ≤ pageSize - slabHeaderSize) :
    (s.pmm.freePages = 0 ∧ createSlab s o = some (0, s)) ∨
    ∃ f s', createSlab s o = some (physToVirt s.hhdm f, s') ∧ NewSlab s o f s' := by
  rcases ready.alloc with ⟨empty, failed⟩ | ⟨f, pmm, found, taken⟩
  · left
    exact ⟨empty, by simp [createSlab, failed]⟩
  right
  obtain ⟨A, isA⟩ : ∃ A, A = physToVirt s.hhdm f := ⟨_, rfl⟩
  have aligned : A % pageSize = 0 := by
    rw [isA]
    exact physToVirt_aligned hhdm (ready.isFrame taken.free)
  have small : A < 2 ^ 64 := by
    rw [isA]
    exact physToVirt_lt
  have word : A + pageSize ≤ 2 ^ 64 := by
    dsimp only [pageSize] at aligned ⊢
    omega
  obtain ⟨n, isN⟩ : ∃ n, (pageSize - slabHeaderSize) / o = n + 1 := by
    apply Nat.exists_eq_add_one_of_ne_zero
    exact Nat.ne_of_gt (Nat.div_pos fits (by omega))
  have room : 24 + (n + 1) * o ≤ pageSize := by
    have whole := Nat.div_mul_le_self (pageSize - slabHeaderSize) o
    rw [isN] at whole
    dsimp only [pageSize, slabHeaderSize] at whole ⊢
    omega
  -- the memory before the loop
  obtain ⟨m, isM⟩ : ∃ m, m = store 8 (store 8 (store 8 s.mem A o) (A + 16) 0) (A + 8) (A + 24) :=
    ⟨_, rfl⟩
  have low : A + 24 < 2 ^ 64 := by
    dsimp only [pageSize] at word
    omega
  have first : load 8 m (A + 8) = A + 24 := by
    rw [isM]
    exact load_store_same low
  have objSize : load 8 m A = o := by
    rw [isM, load_store_disjoint (by omega), load_store_disjoint (by omega)]
    apply load_store_same
    dsimp only [pageSize] at fits
    omega
  have nextSlab : load 8 m (A + 16) = 0 := by
    rw [isM, load_store_disjoint (by omega)]
    exact load_store_same (by decide)
  have result : createSlab s o = some (A, ⟨linkedPage o n A m, pmm⟩) := by
    have wrapped : wrap64 (A + slabHeaderSize) = A + 24 := wrap64_of_lt low
    have bound : A + 24 + n * o < 2 ^ 64 := by
      rw [Nat.succ_mul] at room
      dsimp only [pageSize] at room word
      omega
    have last := (linkObjs_spec (m := m) size bound).1
    simp [createSlab, found, taken.nonzero, ← isA, isN, wrapped, ← isM, first, last, linkedPage]
  refine ⟨f, _, by rw [← isA]; exact result, ?_⟩
  constructor
  case taken => exact taken
  case page =>
    rw [← isA]
    exact linkedPage_page size isN room word objSize first
  case next =>
    rw [← isA, ← nextSlab]
    apply load_congr
    intro a _ high
    exact linkedPage_outside size room word (by omega)
  case bytes =>
    intro a away
    rw [← isA] at away
    dsimp only [pageSize] at away
    have outside : a < A + 24 ∨ A + pageSize ≤ a := by
      dsimp only [pageSize]
      omega
    have kept : linkedPage o n A m a = m a := linkedPage_outside size room word outside
    have before : m a = s.mem a := by
      rw [isM, store_outside (by omega), store_outside (by omega), store_outside (by omega)]
    exact kept.trans before

end DedOS
