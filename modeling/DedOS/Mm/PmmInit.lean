import DedOS.Mm.PmmRun

/-!
# pmm_init on any memory map

`pmmInit_exact`: where an entry has room for the bitmap, the free frames are the usable ones
outside the bitmap. `alloc_safe_iff`: where no entry has room, `pmm_alloc` goes through the
null pointer unless there are no pages at all.
-/

namespace DedOS

open Lib

/-- The entry that the bitmap goes to. -/
def bitmapHome (memmap : List MemmapEntry) : Option MemmapEntry :=
  memmap.find? fun entry => entry.usable ∧ bitmapSizeFor memmap ≤ entry.length

/-- The free frames are those in usable entries outside the bitmap, which lies in one of the
entries, and `free_pages` counts them. -/
structure BitmapExact (memmap : List MemmapEntry) (hhdm : Nat) (p : Pmm) : Prop where
  free : ∀ i < p.totalPages, p.taken i = false ↔ UsablePage memmap i ∧ ¬ p.bitmapPage i
  home : ∃ entry ∈ memmap, entry.usable ∧ p.bitmap = wrap64 (entry.base + hhdm) ∧
    entry.base = p.bitmapBase * pageSize ∧ p.bitmapSize ≤ entry.length
  counted : p.freePages = countClear p.taken p.totalPages
  /-- `free_pages` was counted up to all usable pages and down from there -/
  noUnderflow : p.freePages + p.bitmapPages = usablePages memmap

/-- `n` calls of `pmm_alloc`, with what they return. -/
def allocs : Nat → Pmm → Option (List Nat × Pmm)
  | 0, p => some ([], p)
  | n + 1, p => do
    let (frame, p) ← pmmAlloc p
    let (frames, p) ← allocs n p
    some (frame :: frames, p)

/-- When `pmm_init` has found no place for the bitmap, `pmm_alloc` never accesses it and
returns 0. -/
def AllocSafe (memmap : List MemmapEntry) (hhdm : Nat) : Prop :=
  ∀ p, pmmInit memmap hhdm = some p → p.bitmap = 0 →
    ∀ n, ∃ frames p', allocs n p = some (frames, p') ∧ ∀ frame ∈ frames, frame = 0

variable {memmap : List MemmapEntry} {hhdm size highest page n : Nat} {p p' p'' : Pmm}
  {entry : MemmapEntry}

/-! ### The place of the bitmap -/

/-- The first usable entry that is long enough. -/
theorem placeBitmap_eq : placeBitmap size hhdm memmap =
    (memmap.find? fun entry => entry.usable ∧ size ≤ entry.length).elim 0
      fun entry => wrap64 (entry.base + hhdm) := by
  induction memmap with
  | nil => rfl
  | cons entry rest ih =>
    rw [placeBitmap, List.find?_cons]
    by_cases fits : entry.usable ∧ size ≤ entry.length
    · simp [fits]
    · rw [if_neg fits, ih]
      simp [fits]

/-- `pmm_init` places its bitmap unless its address comes out null. -/
theorem bitmap_home_iff : placeBitmap (bitmapSizeFor memmap) hhdm memmap ≠ 0 ↔
    ∃ entry, bitmapHome memmap = some entry ∧ wrap64 (entry.base + hhdm) ≠ 0 := by
  rw [placeBitmap_eq]
  change ((bitmapHome memmap).elim 0 fun entry => wrap64 (entry.base + hhdm)) ≠ 0 ↔ _
  cases bitmapHome memmap with
  | none => simp
  | some entry => simp

theorem bitmapHome_isSome : (bitmapHome memmap).isSome ↔
    ∃ entry ∈ memmap, entry.usable ∧ bitmapSizeFor memmap ≤ entry.length := by
  simp [bitmapHome, List.find?_isSome]

/-- A null address means that the sum of base and offset is 2^64. -/
theorem home_nonnull (map : UsableMemmap memmap) (higherHalf : 2 ^ 63 ≤ hhdm ∧ hhdm < 2 ^ 64)
    (found : bitmapHome memmap = some entry) (nonnull : entry.base + hhdm ≠ 2 ^ 64) :
    wrap64 (entry.base + hhdm) ≠ 0 := by
  have member : entry ∈ memmap := List.mem_of_find?_eq_some found
  have fits := List.find?_some found
  rw [decide_eq_true_eq] at fits
  have below := map.below entry member fits.1
  unfold wrap64
  omega

/-! ### Exactness -/

/-- Where the bitmap is placed, its entry is given back by the inverse of the direct map. -/
theorem Initialised.exact (map : UsableMemmap memmap) (ready : Initialised memmap hhdm p)
    (word : hhdm < 2 ^ 64) (place : p.bitmap = placeBitmap (bitmapSizeFor memmap) hhdm memmap)
    (size : p.bitmapSize = bitmapSizeFor memmap) : BitmapExact memmap hhdm p := by
  have placed := ready.wf.placed
  rw [place] at placed
  obtain ⟨entry, member, usable, room, address⟩ := placeBitmap_spec placed
  obtain ⟨aligned, _⟩ := map.aligned entry member usable
  have below := map.below entry member usable
  refine ⟨fun i _ => ready.free i, ⟨entry, member, usable, place.trans address, ?_, ?_⟩,
    ready.wf.counted, ready.counted⟩
  · rw [Pmm.bitmapBase, place, address, ready.hhdm]
    unfold wrap64
    dsimp only [pageSize] at *
    omega
  · rw [size]
    exact room

/-- For every memory map with room for the bitmap, unless the direct map shows that room at the
null pointer, every bitmap access of `pmm_init` is in bounds and its result is exact. -/
theorem pmmInit_exact (map : UsableMemmap memmap) (higherHalf : 2 ^ 63 ≤ hhdm ∧ hhdm < 2 ^ 64)
    (room : ∃ entry ∈ memmap, entry.usable ∧ bitmapSizeFor memmap ≤ entry.length)
    (nonnull : ∀ entry, bitmapHome memmap = some entry → entry.base + hhdm ≠ 2 ^ 64) :
    ∃ p, pmmInit memmap hhdm = some p ∧ BitmapExact memmap hhdm p := by
  obtain ⟨entry, found⟩ := Option.isSome_iff_exists.mp (bitmapHome_isSome.mpr room)
  have placed : placeBitmap (bitmapSizeFor memmap) hhdm memmap ≠ 0 :=
    bitmap_home_iff.mpr ⟨entry, found, home_nonnull map higherHalf found (nonnull entry found)⟩
  obtain ⟨p, init, place, size, ready⟩ := pmmInit_spec map higherHalf.2
  rw [← place] at placed
  exact ⟨p, init, (ready placed).exact map higherHalf.2 place size⟩

theorem pmmInit_exact_holed : ∃ p, pmmInit holedMemmap 0xffff800000000000 = some p ∧
    BitmapExact holedMemmap 0xffff800000000000 p :=
  pmmInit_exact holedMemmap_limine.apart holedMemmap_limine.higherHalf (by decide)
    fun entry found => by
      have first : bitmapHome holedMemmap = some ⟨0x1000, 0x3000, 0⟩ := by decide
      obtain rfl := Option.some.inj (first.symm.trans found)
      decide

/-- 8 GiB at 2^47, which the direct map at 0xffff800000000000 shows from address 0 on. -/
def nullMemmap : List MemmapEntry := [⟨2 ^ 47, 2 ^ 33, 0⟩]

/-- `pmm_init` takes the null address of the bitmap for a failure and frees nothing. -/
theorem pmmInit_inexact : UsableMemmap nullMemmap ∧
    (2 ^ 63 ≤ 0xffff800000000000 ∧ 0xffff800000000000 < 2 ^ 64) ∧
    (∃ entry ∈ nullMemmap, entry.usable ∧ bitmapSizeFor nullMemmap ≤ entry.length) ∧
    ¬ ∃ p, pmmInit nullMemmap 0xffff800000000000 = some p ∧
      BitmapExact nullMemmap 0xffff800000000000 p := by
  refine ⟨⟨by decide, by simp [nullMemmap], by decide⟩, by decide, by decide, ?_⟩
  rintro ⟨p, init, isExact⟩
  have null : placeBitmap (bitmapSizeFor nullMemmap) 0xffff800000000000 nullMemmap = 0 := by decide
  obtain ⟨bytes, isBytes⟩ : ∃ bytes, bytes = List.replicate (bitmapSizeFor nullMemmap) (0xFF : UInt8) :=
    ⟨_, rfl⟩
  rw [pmmInit_unplaced null, ← isBytes] at init
  obtain rfl := Option.some.inj init
  have pages : bytes.length = 2 ^ 32 + 2 ^ 18 := by
    rw [isBytes, List.length_replicate]
    decide
  -- the last page of the entry is marked like all others
  have usable : UsablePage nullMemmap (2 ^ 35 + 2 ^ 21 - 1) :=
    ⟨⟨2 ^ 47, 2 ^ 33, 0⟩, List.mem_singleton.mpr rfl, rfl, by decide, by decide⟩
  have outside : ¬ (wrap64 (0 + (2 ^ 64 - 0xffff800000000000)) / pageSize ≤ 2 ^ 35 + 2 ^ 21 - 1 ∧
      2 ^ 35 + 2 ^ 21 - 1 < wrap64 (0 + (2 ^ 64 - 0xffff800000000000)) / pageSize +
        (bytes.length + pageSize - 1) / pageSize) := by
    rw [pages]
    decide
  have below : 2 ^ 35 + 2 ^ 21 - 1 < highestAddress 0 nullMemmap / pageSize := by decide
  have here := (isExact.free (2 ^ 35 + 2 ^ 21 - 1) below).mpr ⟨usable, outside⟩
  rw [Pmm.taken, isBytes, bits_full] at here
  cases here

/-! ### Without a bitmap -/

/-- No usable entry ends at page 1 or above. -/
theorem highestAddress_lt : highestAddress highest memmap < pageSize ↔
    highest < pageSize ∧
      ∀ entry ∈ memmap, entry.usable → wrap64 (entry.base + entry.length) < pageSize := by
  induction memmap generalizing highest with
  | nil => simp [highestAddress]
  | cons entry rest ih =>
    rw [highestAddress, ih, List.forall_mem_cons]
    split <;> grind

/-- `pmm_init` decides on these two before it looks at any bit. -/
def SameFields (p p' : Pmm) : Prop := p'.bitmap = p.bitmap ∧ p'.totalPages = p.totalPages

theorem SameFields.trans (first : SameFields p p') (second : SameFields p' p'') : SameFields p p'' :=
  ⟨second.1.trans first.1, second.2.trans first.2⟩

theorem give_fields (done : p.give page = some p') : SameFields p p' := by
  rw [Pmm.give] at done
  split at done
  · cases done
  · obtain ⟨bytes, _, rfl⟩ := Option.map_eq_some_iff.mp done
    exact ⟨rfl, rfl⟩

theorem take_fields (done : p.take page = some p') : SameFields p p' := by
  rw [Pmm.take] at done
  split at done
  · cases done
  · obtain ⟨bytes, _, rfl⟩ := Option.map_eq_some_iff.mp done
    exact ⟨rfl, rfl⟩

theorem giveRange_fields (done : Pmm.giveRange page n p = some p') : SameFields p p' := by
  induction n generalizing p page with
  | zero =>
    obtain rfl := Option.some.inj done
    exact ⟨rfl, rfl⟩
  | succ n ih =>
    rw [Pmm.giveRange, Option.bind_eq_bind, Option.bind_eq_some_iff] at done
    obtain ⟨p₁, gave, rest⟩ := done
    exact (give_fields gave).trans (ih rest)

theorem takeRange_fields (done : Pmm.takeRange page n p = some p') : SameFields p p' := by
  induction n generalizing p page with
  | zero =>
    obtain rfl := Option.some.inj done
    exact ⟨rfl, rfl⟩
  | succ n ih =>
    rw [Pmm.takeRange, Option.bind_eq_bind, Option.bind_eq_some_iff] at done
    obtain ⟨p₁, took, rest⟩ := done
    exact (take_fields took).trans (ih rest)

theorem giveEntries_fields (done : giveEntries memmap p = some p') : SameFields p p' := by
  induction memmap generalizing p with
  | nil =>
    obtain rfl := Option.some.inj done
    exact ⟨rfl, rfl⟩
  | cons entry rest ih =>
    rw [giveEntries] at done
    split at done
    · rw [Option.bind_eq_bind, Option.bind_eq_some_iff] at done
      obtain ⟨p₁, gave, done⟩ := done
      exact (giveRange_fields gave).trans (ih done)
    · exact ih done

theorem pmmInit_fields (init : pmmInit memmap hhdm = some p) :
    p.bitmap = placeBitmap (bitmapSizeFor memmap) hhdm memmap ∧
      p.totalPages = highestAddress 0 memmap / pageSize := by
  by_cases null : placeBitmap (bitmapSizeFor memmap) hhdm memmap = 0
  · rw [pmmInit_unplaced null] at init
    obtain rfl := Option.some.inj init
    exact ⟨null.symm, rfl⟩
  · have placed : placeBitmap ((highestAddress 0 memmap / pageSize + 7) / 8) hhdm memmap ≠ 0 := null
    simp only [pmmInit, if_neg placed, Option.bind_eq_bind, Option.bind_eq_some_iff] at init
    obtain ⟨p₁, gave, took⟩ := init
    exact (giveEntries_fields gave).trans (takeRange_fields took)

/-- A `pmm_alloc` over pages without a bitmap reads through the null pointer. -/
theorem pmmAlloc_null (null : p.bitmap = 0) (pages : p.totalPages ≠ 0) : pmmAlloc p = none := by
  obtain ⟨n, total⟩ := Nat.exists_eq_succ_of_ne_zero pages
  simp [pmmAlloc, total, allocLoop, Pmm.test, null]

theorem allocs_empty (none : p.totalPages = 0) (n : Nat) :
    allocs n p = some (List.replicate n 0, p) := by
  have failed : pmmAlloc p = some (0, p) := by rw [pmmAlloc, none, allocLoop]
  induction n with
  | zero => rfl
  | succ n ih =>
    simp only [allocs, failed, ih, Option.bind_eq_bind, Option.bind_some]
    rfl

/-- Whatever the memory map, `pmm_alloc` is safe if and only if the bitmap is placed or no
usable memory ends above page 0. -/
theorem alloc_safe_iff : AllocSafe memmap hhdm ↔
    (∃ entry, bitmapHome memmap = some entry ∧ wrap64 (entry.base + hhdm) ≠ 0) ∨
      ∀ entry ∈ memmap, entry.usable → wrap64 (entry.base + entry.length) < pageSize := by
  rw [← bitmap_home_iff]
  have empty : highestAddress 0 memmap / pageSize = 0 ↔
      ∀ entry ∈ memmap, entry.usable → wrap64 (entry.base + entry.length) < pageSize := by
    rw [Nat.div_eq_zero_iff_lt (by decide), highestAddress_lt]
    simp [pageSize]
  rw [← empty]
  constructor
  · intro safe
    by_contra neither
    obtain ⟨null, pages⟩ := not_or.mp neither
    -- already the first call fails
    obtain ⟨frames, p', done, _⟩ := safe _ (pmmInit_unplaced (not_not.mp null)) rfl 1
    rw [allocs, pmmAlloc_null rfl pages] at done
    cases done
  · rintro (placed | none) p init null
    · exact absurd ((pmmInit_fields init).1.symm.trans null) placed
    · have empty := (pmmInit_fields init).2.trans none
      intro n
      refine ⟨_, p, allocs_empty empty n, fun frame member => ?_⟩
      exact List.eq_of_mem_replicate member

/-- One page at 128 MiB has no room for a bitmap of 4097 bytes. -/
theorem alloc_unsafe_sparse : ¬ AllocSafe [⟨0x8000000, 0x1000, 0⟩] 0xffff800000000000 := by
  rw [alloc_safe_iff]
  rintro (⟨entry, found, _⟩ | none)
  · have nowhere : bitmapHome [⟨0x8000000, 0x1000, 0⟩] = Option.none := by decide
    cases nowhere.symm.trans found
  · exact absurd (none _ List.mem_cons_self rfl) (by decide)

end DedOS
