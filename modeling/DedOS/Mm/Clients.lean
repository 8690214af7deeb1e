import DedOS.Mm.BlockContents

/-!
# Code that uses the heap

What a row of calls of `kmalloc`, `kfree` and stores to one's own blocks comes to: everybody
else's blocks stay live with their bytes (`Untouched`), a new block is nobody else's, and what
was stored is there.
-/

namespace DedOS

open Lib

/-! ### Calls on the heap, one after the other -/

namespace HeapRun

/-- `kmalloc`, with the pointer it returns. -/
def request (size : Nat) (s : SlabState) : Option (Nat × SlabState) := do
  let (ptr, heap) ← kmalloc s.heap size
  some (ptr, { s with heap := heap, blocks := if ptr = 0 then s.blocks else ⟨ptr, size⟩ :: s.blocks })

/-- Stores to the bytes of a block, one after the other from an offset on. -/
def fill (b : Block) : Nat → List UInt8 → SlabState → Option SlabState
  | _, [], s => some s
  | offset, value :: bytes, s => do
    let s ← s.call (.write b offset value)
    fill b (offset + 1) bytes s

variable {s s' s'' : SlabState} {b b' : Block} {e : HeapEvent} {n p size offset : Nat}
  {value : UInt8} {bytes : List UInt8}

/-- The block is live before and after, with the same bytes. -/
def Spared (b : Block) (s s' : SlabState) : Prop :=
  b ∈ s.blocks → b ∈ s'.blocks ∧
    ∀ offset, Inside b offset → byteAt s'.heap b offset = byteAt s.heap b offset

theorem Spared.trans (first : Spared b s s') (second : Spared b s' s'') : Spared b s s'' := by
  intro live
  obtain ⟨live', same⟩ := first live
  obtain ⟨live'', same'⟩ := second live'
  exact ⟨live'', fun offset inside => (same' offset inside).trans (same offset inside)⟩

/-- `kernel_heap_vaddr` has come to `n`, or to the end of the address space. -/
def Above (n : Nat) (s : Heap) : Prop := n ≤ 2 ^ 64 ∧ (s.heapVaddr = 0 ∨ n ≤ s.heapVaddr)

theorem Good.step (good : Good s) (fits : FitsEvent s e) (taken : HeapRun.step s e = some s') :
    Good s' := by
  obtain ⟨_, _, _, _, inv⟩ := good
  obtain ⟨_, _, _, _, inv', _⟩ := inv.step fits taken
  exact ⟨_, _, _, _, inv'⟩

theorem step_kmalloc (taken : HeapRun.step s (.call (.kmalloc size)) = some s') :
    ∃ p heap, kmalloc s.heap size = some (p, heap) ∧ s'.heap = heap ∧
      s'.blocks = if p = 0 then s.blocks else ⟨p, size⟩ :: s.blocks := by
  unfold HeapRun.step at taken
  split at taken
  · simp only [HeapRun.call, SlabState.call, Option.bind_eq_bind, Option.bind_eq_some_iff,
      Option.some.injEq] at taken
    obtain ⟨⟨p, heap⟩, done, rfl⟩ := taken
    exact ⟨p, heap, done, rfl, rfl⟩
  · cases taken

/-- No block is listed twice. -/
theorem Good.nodup (good : Good s) : s.blocks.Nodup := by
  obtain ⟨_, _, _, _, inv⟩ := good
  rw [List.nodup_iff_pairwise_ne, List.pairwise_iff_forall_sublist]
  rintro b _ two rfl
  have member : b ∈ s.blocks := two.subset List.mem_cons_self
  have twice : ∀ P : Block → Bool, P b = true → [b, b].Sublist (s.blocks.filter P) := by
    intro P holds
    simpa [holds] using two.filter P
  rcases small_or_large member with small | large
  · have pair := twice (fun b => b.size ≤ slab1024) (by simpa using (mem_smallBlocks.mp small).2)
    -- the second `b` is left when the first is erased
    have left : b ∈ (smallBlocks s.blocks).erase b := by
      have short := pair.erase b
      rw [List.erase_cons_head] at short
      exact short.subset List.mem_cons_self
    exact inv.slabs.header_erase small left rfl
  · have pair := twice (fun b => slab1024 < b.size) (by simpa using (mem_largeBlocks.mp large).2)
    have apart : Apart b b := by
      have pairwise := inv.apart.sublist pair
      simpa using pairwise
    have count := (inv.block b large).count
    dsimp only [Apart, pageSize] at apart
    omega

/-- The blocks after a call that frees none of them but its own. -/
theorem step_stays (taken : HeapRun.step s e = some s') (other : e ≠ .call (.kfree b))
    (live : b ∈ s.blocks) : b ∈ s'.blocks := by
  unfold HeapRun.step at taken
  split at taken
  · cases e with
    | call e =>
      cases e with
      | kmalloc size =>
        simp only [HeapRun.call, SlabState.call, Option.bind_eq_bind, Option.bind_eq_some_iff,
          Option.some.injEq] at taken
        obtain ⟨_, _, rfl⟩ := taken
        dsimp only
        split
        · exact live
        · exact List.mem_cons_of_mem _ live
      | kfree b' =>
        simp only [HeapRun.call, SlabState.call, Option.bind_eq_bind, Option.bind_eq_some_iff,
          Option.some.injEq] at taken
        obtain ⟨_, _, rfl⟩ := taken
        have differ : b ≠ b' := by
          rintro rfl
          exact other rfl
        exact (List.mem_erase_of_ne differ).mpr live
      | write b' offset value =>
        simp only [HeapRun.call, SlabState.call, Option.bind_eq_bind, Option.bind_eq_some_iff,
          Option.some.injEq] at taken
        obtain ⟨_, _, rfl⟩ := taken
        exact live
      | alloc =>
        simp only [HeapRun.call, SlabState.call, Option.bind_eq_bind, Option.bind_eq_some_iff,
          Option.some.injEq] at taken
        obtain ⟨_, _, rfl⟩ := taken
        exact live
      | free ptr =>
        simp only [HeapRun.call, SlabState.call, Option.bind_eq_bind, Option.bind_eq_some_iff,
          Option.some.injEq] at taken
        obtain ⟨_, _, rfl⟩ := taken
        exact live
      | poke address value =>
        obtain rfl := Option.some.inj taken
        exact live
    | map virt phys flags =>
      simp only [HeapRun.call, Option.bind_eq_bind, Option.bind_eq_some_iff,
        Option.some.injEq] at taken
      obtain ⟨_, _, rfl⟩ := taken
      exact live
    | unmap virt =>
      obtain rfl := Option.some.inj taken
      exact live
  · cases taken

theorem writtenTo_none (silent : ∀ offset value, e ≠ .call (.write b offset value)) (offset : Nat) :
    writtenTo b offset e = none := by
  unfold writtenTo
  split
  next b' offset' value =>
    apply if_neg
    rintro ⟨rfl, rfl⟩
    exact silent _ _ rfl
  · rfl

/-- Calls that do not name a block spare it. -/
theorem Good.spared (good : Good s) (fits : FitsEvent s e) (taken : HeapRun.step s e = some s')
    (other : e ≠ .call (.kfree b)) (silent : ∀ offset value, e ≠ .call (.write b offset value)) :
    Spared b s s' := by
  obtain ⟨_, _, _, _, inv⟩ := good
  intro live
  have stays := step_stays taken other live
  refine ⟨stays, fun offset inside => ?_⟩
  rw [(inv.step_kept fits taken live stays inside).byteAt, writtenTo_none silent]
  rfl

/-- No call moves `kernel_heap_vaddr` back. -/
theorem Above.step (above : Above n s.heap) (fits : FitsEvent s e)
    (taken : HeapRun.step s e = some s') : Above n s'.heap := by
  obtain ⟨vm, vaddr, heap, same, _⟩ := step_changes taken
  by_cases large : ∃ size, slab1024 < size ∧ e = .call (.kmalloc size)
  · obtain ⟨size, large, rfl⟩ := large
    have fits : Fits s.heap size := fits.resolve_left (by omega)
    obtain ⟨p, heap', done, isHeap, _⟩ := step_kmalloc taken
    obtain ⟨_, advanced, _⟩ := kmalloc_large_changes large done
    refine ⟨above.1, ?_⟩
    rw [isHeap, advanced]
    -- the sum is below the end of the address space, or the end itself
    obtain ⟨_, low, high⟩ := fits
    have past := above.2
    unfold wrap64
    dsimp only [heapBase, pageSize] at *
    omega
  · have kept : vaddr = s.heap.heapVaddr := by
      apply same
      rintro size isLarge rfl
      exact large ⟨size, isLarge, rfl⟩
    rw [heap, kept]
    exact above

/-! ### A row of calls -/

/-- From `s` to `s'` only the blocks in `own` were written or freed. -/
structure Untouched (own : List Block) (s s' : SlabState) : Prop where
  good : Good s'
  spared : ∀ b, b ∉ own → Spared b s s'
  above : ∀ n, Above n s.heap → Above n s'.heap

variable {own own' : List Block}

theorem Untouched.refl (good : Good s) : Untouched own s s :=
  ⟨good, fun _ _ live => ⟨live, fun _ _ => rfl⟩, fun _ past => past⟩

theorem Untouched.all (untouched : Untouched [] s s') : Spared b s s' :=
  untouched.spared b List.not_mem_nil

theorem Untouched.trans (first : Untouched own s s') (second : Untouched own' s' s'') :
    Untouched (own ++ own') s s'' where
  good := second.good
  spared b other := by
    rw [List.mem_append, not_or] at other
    exact (first.spared b other.1).trans (second.spared b other.2)
  above n past := second.above n (first.above n past)

theorem Untouched.step (good : Good s) (fits : FitsEvent s e)
    (taken : HeapRun.step s e = some s')
    (others : ∀ b, b ∉ own → e ≠ .call (.kfree b) ∧
      ∀ offset value, e ≠ .call (.write b offset value)) : Untouched own s s' where
  good := good.step fits taken
  spared b other := good.spared fits taken (others b other).1 (others b other).2
  above _ past := past.step fits taken

/-- What `kmalloc` comes to for its caller. -/
structure Requested (size : Nat) (s s' : SlabState) (p : Nat) : Prop where
  untouched : Untouched [] s s'
  fresh : p ≠ 0 → (⟨p, size⟩ : Block) ∈ s'.blocks ∧ (⟨p, size⟩ : Block) ∉ s.blocks
  served : ∃ heap, kmalloc s.heap size = some (p, heap) ∧ s'.heap = heap

theorem request_spec (good : Good s) (word : size < 2 ^ 64)
    (fits : size ≤ slab1024 ∨ Fits s.heap size) (done : request size s = some (p, s')) :
    Requested size s s' p := by
  have taken : HeapRun.step s (.call (.kmalloc size)) = some s' := by
    have allowed : Allowed s (.call (.kmalloc size)) := word
    rw [HeapRun.step, if_pos allowed]
    simp only [request, Option.bind_eq_bind, Option.bind_eq_some_iff] at done
    obtain ⟨⟨q, heap⟩, served, both⟩ := done
    obtain ⟨rfl, rfl⟩ := Prod.mk.inj (Option.some.inj both)
    simp [HeapRun.call, SlabState.call, served]
  have fits : FitsEvent s (.call (.kmalloc size)) := fits
  obtain ⟨q, heap, served, isHeap, blocks⟩ := step_kmalloc taken
  obtain rfl : q = p := by
    simp only [request, served, Option.bind_eq_bind, Option.bind_some,
      Option.some.injEq, Prod.mk.injEq] at done
    exact done.1
  refine ⟨.step good fits taken fun b _ => ⟨by simp, by simp⟩, ?_, heap, served, isHeap⟩
  intro nonnull
  rw [if_neg nonnull] at blocks
  have nodup := (good.step fits taken).nodup
  rw [blocks, List.nodup_cons] at nodup
  rw [blocks]
  exact ⟨List.mem_cons_self, nodup.1⟩

/-- What stores to a block come to. -/
structure Filled (b : Block) (offset : Nat) (bytes : List UInt8) (s s' : SlabState) : Prop where
  untouched : Untouched [b] s s'
  blocks : s'.blocks = s.blocks
  vaddr : s'.heap.heapVaddr = s.heap.heapVaddr
  pmm : s'.heap.vm.pmm = s.heap.vm.pmm
  outside : ∀ i, Inside b i → i < offset ∨ offset + bytes.length ≤ i →
    byteAt s'.heap b i = byteAt s.heap b i
  written : ∀ i < bytes.length, byteAt s'.heap b (offset + i) = bytes[i]?

theorem fill_spec (good : Good s) (live : b ∈ s.blocks)
    (inside : ∀ i < bytes.length, Inside b (offset + i))
    (done : fill b offset bytes s = some s') : Filled b offset bytes s s' := by
  induction bytes generalizing offset s with
  | nil =>
    obtain rfl := Option.some.inj done
    exact ⟨.refl good, rfl, rfl, rfl, fun _ _ _ => rfl, by simp⟩
  | cons value bytes ih =>
    simp only [fill, Option.bind_eq_bind, Option.bind_eq_some_iff] at done
    obtain ⟨s₁, called, done⟩ := done
    have here : Inside b offset := inside 0 (Nat.succ_pos _)
    have taken : HeapRun.step s (.call (.write b offset value)) = some s₁ := by
      have allowed : Allowed s (.call (.write b offset value)) := ⟨live, here.1⟩
      rw [HeapRun.step, if_pos allowed]
      exact called
    have fits : FitsEvent s (.call (.write b offset value)) := here.2
    have stored : ∀ i, Inside b i →
        byteAt s₁.heap b i = if offset = i then some value else byteAt s.heap b i := by
      obtain ⟨_, _, _, _, inv⟩ := good
      intro i at_i
      rw [(inv.step_kept fits taken live (step_stays taken (by simp) live) at_i).byteAt]
      simp only [writtenTo, true_and]
      split <;> rfl
    have first : Untouched [b] s s₁ := by
      refine .step good fits taken fun b' other => ⟨by simp, ?_⟩
      rintro _ _ same
      injection same with same
      injection same with same
      exact other (List.mem_singleton.mpr same.symm)
    simp only [SlabState.call, Option.bind_eq_bind, Option.bind_eq_some_iff,
      Option.some.injEq] at called
    obtain ⟨vm, wrote, rfl⟩ := called
    have pmm : vm.pmm = s.heap.vm.pmm := by
      obtain ⟨_, _, rfl⟩ := Option.map_eq_some_iff.mp wrote
      rfl
    have rest := ih first.good live (fun i below => by
      have later := inside (i + 1) (Nat.succ_lt_succ below)
      rwa [← Nat.add_assoc, Nat.add_right_comm] at later) done
    refine ⟨?_, rest.blocks, rest.vaddr, rest.pmm.trans pmm, ?_, ?_⟩
    · have both := first.trans rest.untouched
      exact ⟨both.good, fun b' other => both.spared b' (by simpa using other), both.above⟩
    · intro i at_i away
      rw [List.length_cons] at away
      rw [rest.outside i at_i (by omega), stored i at_i, if_neg (by omega)]
    · intro i below
      cases i with
      | zero =>
        -- the later stores are above the first one
        rw [Nat.add_zero, rest.outside offset here (.inl (Nat.lt_succ_self _)), stored offset here,
          if_pos rfl]
        rfl
      | succ i =>
        have later := rest.written i (Nat.lt_of_succ_lt_succ below)
        rwa [Nat.add_right_comm] at later

theorem Untouched.kfree (good : Good s) (live : b ∈ s.blocks)
    (freed : s.call (.kfree b) = some s') : Untouched [b] s s' := by
  have taken : HeapRun.step s (.call (.kfree b)) = some s' := by
    have allowed : Allowed s (.call (.kfree b)) := live
    rw [HeapRun.step, if_pos allowed]
    exact freed
  have fits : FitsEvent s (.call (.kfree b)) := trivial
  refine .step good fits taken fun b' other => ⟨?_, by simp⟩
  intro same
  injection same with same
  injection same with same
  exact other (List.mem_singleton.mpr same.symm)

/-- Blocks that were not live before are no loss. -/
theorem Untouched.of_new (untouched : Untouched own s s') (new : ∀ b ∈ own, b ∉ s.blocks) :
    Untouched [] s s' :=
  ⟨untouched.good, fun b _ live => untouched.spared b (fun mine => new b mine live) live,
    untouched.above⟩

/-- Where a large block lies. -/
structure BlockPlaced (size : Nat) (s s' : SlabState) (p : Nat) : Prop where
  ptr : p = s.heap.heapVaddr + allocHeaderSize
  aligned : s.heap.heapVaddr % pageSize = 0
  high : s.heap.heapVaddr + pagesCount size * pageSize ≤ 2 ^ 64
  vaddr : s'.heap.heapVaddr = wrap64 (s.heap.heapVaddr + pagesCount size * pageSize)

theorem Requested.blockPlaced (asked : Requested size s s' p) (good : Good s) (large : slab1024 < size)
    (fits : Fits s.heap size) (nonnull : p ≠ 0) : BlockPlaced size s s' p := by
  obtain ⟨_, _, _, top, inv⟩ := good
  obtain ⟨heap, served, isHeap⟩ := asked.served
  have vaddr := inv.vaddr_top fits.2.1
  obtain ⟨vm, _, _, _, f, _, _, _, _, _, ptr, advanced⟩ :=
    inv.kmalloc_block large fits served nonnull
  rw [← vaddr] at ptr advanced
  exact ⟨ptr, vaddr ▸ inv.range.2.2, fits.2.2, by rw [isHeap, advanced]; rfl⟩

theorem Above.placed (past : Above n s.heap) (placed : BlockPlaced size s s' p)
    (low : heapBase ≤ s.heap.heapVaddr) :
    Above (n + pagesCount size * pageSize) s'.heap := by
  have high := placed.high
  have vaddr := placed.vaddr
  unfold Above wrap64 at *
  dsimp only [heapBase] at low
  omega

/-- Stores to bytes that can be reached do not fault. -/
theorem fill_served {b : Block} {bytes : List UInt8} {offset : Nat} (good : Good s)
    (live : b ∈ s.blocks) (inside : ∀ i < bytes.length, Inside b (offset + i))
    (mapped : ∀ i < bytes.length, cell s.heap b (offset + i) ≠ none) :
    ∃ s', fill b offset bytes s = some s' := by
  induction bytes generalizing offset s with
  | nil => exact ⟨s, rfl⟩
  | cons value bytes ih =>
    have first : 0 < (value :: bytes).length := Nat.succ_pos _
    have here : Inside b offset := inside 0 first
    have fits : FitsEvent s (.call (.write b offset value)) := here.2
    obtain ⟨_, _, _, _, inv⟩ := good
    obtain ⟨s₁, taken, blocks⟩ := inv.write_served live here (mapped 0 first) value
    have live₁ : b ∈ s₁.blocks := blocks ▸ live
    have called : s.call (.write b offset value) = some s₁ := by
      rw [HeapRun.step, if_pos ⟨live, here.1⟩] at taken
      exact taken
    have next : ∀ i, i < bytes.length → offset + 1 + i = offset + (i + 1) ∧
        i + 1 < (value :: bytes).length := fun i below => ⟨by omega, Nat.succ_lt_succ below⟩
    -- the other bytes stay where they are
    obtain ⟨s', done⟩ := ih (Good.step ⟨_, _, _, _, inv⟩ fits taken) live₁
      (fun i below => by
        rw [(next i below).1]
        exact inside _ (next i below).2)
      (fun i below => by
        have later := inside _ (next i below).2
        rw [(next i below).1, (inv.step_kept fits taken live live₁ later).place]
        exact mapped _ (next i below).2)
    exact ⟨s', by simp [fill, called, done]⟩

end HeapRun

end DedOS
