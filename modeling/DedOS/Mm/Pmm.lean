import DedOS.Lib.Bitmap
import DedOS.Lib.Trace

/-!
# The physical frame allocator of `pmm.c`

One bit for each page of physical memory, set when the page is taken. Counters and
addresses are 64-bit words: `wrap64` stands where a C expression can leave the range. An
access to the bitmap beyond `bitmap_size`, or through a null `bitmap`, is `none`.
-/

namespace DedOS

open Lib

/-- Arithmetic on `uint64_t`, `size_t` and `uintptr_t`. -/
def wrap64 (n : Nat) : Nat := n % 2 ^ 64

theorem wrap64_of_lt {n : Nat} (small : n < 2 ^ 64) : wrap64 n = n := Nat.mod_eq_of_lt small

theorem wrap64_lt (n : Nat) : wrap64 n < 2 ^ 64 := Nat.mod_lt _ (by decide)

/-- A mask that clears the lowest `k` bits of a word. -/
theorem and_mask {w k : Nat} (word : w < 2 ^ 64) (small : k ≤ 64) :
    w &&& (2 ^ (64 - k) - 1) <<< k = w / 2 ^ k * 2 ^ k := by
  have cut : w / 2 ^ k * 2 ^ k = (w >>> k) <<< k := by
    rw [Nat.shiftRight_eq_div_pow, Nat.shiftLeft_eq]
  rw [cut]
  apply Nat.eq_of_testBit_eq
  intro i
  rw [Nat.testBit_and, Nat.testBit_shiftLeft, Nat.testBit_two_pow_sub_one,
    Nat.testBit_shiftLeft, Nat.testBit_shiftRight]
  by_cases high : k ≤ i
  swap
  · simp [high]
  · have back : k + (i - k) = i := by omega
    by_cases inside : i < 64
    · have short : i - k < 64 - k := by omega
      simp [high, back, short]
    · have off : w.testBit i = false := by
        apply Nat.testBit_lt_two_pow
        exact Nat.lt_of_lt_of_le word (Nat.pow_le_pow_right (by decide) (by omega))
      simp [off, back]

def pageSize : Nat := 4096

/-- `struct limine_memmap_entry` -/
structure MemmapEntry where
  base : Nat
  length : Nat
  type : Nat
  deriving DecidableEq

def limineMemmapUsable : Nat := 0

def MemmapEntry.usable (entry : MemmapEntry) : Prop := entry.type = limineMemmapUsable

instance (entry : MemmapEntry) : Decidable entry.usable :=
  inferInstanceAs (Decidable (_ = _))

/-- The statics of `pmm.c`. -/
structure Pmm where
  /-- `bitmap`, a virtual address or null -/
  bitmap : Nat
  /-- the `bitmap_size` bytes at `bitmap` -/
  bytes : List UInt8
  totalPages : Nat
  freePages : Nat
  hhdmOffset : Nat
  deriving DecidableEq

namespace Pmm

def bitmapSize (p : Pmm) : Nat := p.bytes.length

/-- `BITMAP_TEST` -/
def test (p : Pmm) (bit : Nat) : Option Bool :=
  if p.bitmap = 0 then none else bitTest p.bytes bit

/-- `BITMAP_SET` followed by `free_pages--` -/
def take (p : Pmm) (bit : Nat) : Option Pmm :=
  if p.bitmap = 0 then none
  else (bitSet p.bytes bit).map fun bytes =>
    { p with bytes := bytes, freePages := wrap64 (p.freePages + (2 ^ 64 - 1)) }

/-- `BITMAP_CLEAR` followed by `free_pages++` -/
def give (p : Pmm) (bit : Nat) : Option Pmm :=
  if p.bitmap = 0 then none
  else (bitClear p.bytes bit).map fun bytes =>
    { p with bytes := bytes, freePages := wrap64 (p.freePages + 1) }

/-- `give` on the pages `page`, `page + 1`, …: the inner loop over one usable entry. -/
def giveRange : Nat → Nat → Pmm → Option Pmm
  | _, 0, p => some p
  | page, n + 1, p => do
    let p ← p.give page
    giveRange (page + 1) n p

/-- `take` on the pages `page`, `page + 1`, …: the loop over the bitmap's own pages. -/
def takeRange : Nat → Nat → Pmm → Option Pmm
  | _, 0, p => some p
  | page, n + 1, p => do
    let p ← p.take page
    takeRange (page + 1) n p

end Pmm

/-- The first loop of `pmm_init` that does something. -/
def highestAddress : Nat → List MemmapEntry → Nat
  | highest, [] => highest
  | highest, entry :: rest =>
    highestAddress
      (if entry.usable ∧ wrap64 (entry.base + entry.length) > highest
        then wrap64 (entry.base + entry.length) else highest) rest

/-- Where `pmm_init` puts the bitmap. -/
def placeBitmap (bitmapSize hhdm : Nat) : List MemmapEntry → Nat
  | [] => 0
  | entry :: rest =>
    if entry.usable ∧ entry.length ≥ bitmapSize then wrap64 (entry.base + hhdm)
    else placeBitmap bitmapSize hhdm rest

/-- The loop of `pmm_init` over the usable entries. -/
def giveEntries : List MemmapEntry → Pmm → Option Pmm
  | [], p => some p
  | entry :: rest, p =>
    if entry.usable then do
      let p ← p.giveRange (entry.base / pageSize) (entry.length / pageSize)
      giveEntries rest p
    else giveEntries rest p

def pmmInit (memmap : List MemmapEntry) (hhdm : Nat) : Option Pmm :=
  let totalPages := highestAddress 0 memmap / pageSize
  let bitmapSize := (totalPages + 7) / 8
  let bitmap := placeBitmap bitmapSize hhdm memmap
  let p : Pmm :=
    { bitmap := bitmap, bytes := List.replicate bitmapSize 0xFF, totalPages := totalPages
      freePages := 0, hhdmOffset := hhdm }
  if bitmap = 0 then some p
  else do
    let p ← giveEntries memmap p
    let bitmapPages := (bitmapSize + pageSize - 1) / pageSize
    let bitmapPhys := wrap64 (p.bitmap + (2 ^ 64 - hhdm))
    p.takeRange (bitmapPhys / pageSize) bitmapPages

/-- The loop of `pmm_alloc`, with `n` pages left from page `i`. -/
def allocLoop (p : Pmm) : Nat → Nat → Option (Nat × Pmm)
  | _, 0 => some (0, p)
  | i, n + 1 => do
    if ← p.test i then allocLoop p (i + 1) n
    else
      let p ← p.take i
      some (wrap64 (i * pageSize), p)

def pmmAlloc (p : Pmm) : Option (Nat × Pmm) := allocLoop p 0 p.totalPages

def pmmFree (ptr : Nat) (p : Pmm) : Option Pmm := do
  let page := ptr / pageSize
  if ← p.test page then p.give page else some p

/-! ### One page -/

namespace Pmm

/-- The page is taken. -/
def taken (p : Pmm) : Nat → Bool := bits p.bytes

/-- The bitmap covers all pages and `free_pages` counts its clear bits. -/
structure WF (p : Pmm) : Prop where
  placed : p.bitmap ≠ 0
  covers : p.totalPages ≤ 8 * p.bitmapSize
  bounded : p.totalPages ≤ 2 ^ 40
  counted : p.freePages = countClear p.taken p.totalPages

/-- `p'` differs from `p` in pages only. -/
structure SameMap (p p' : Pmm) : Prop where
  wf : p'.WF
  totalPages : p'.totalPages = p.totalPages
  bitmap : p'.bitmap = p.bitmap
  bitmapSize : p'.bitmapSize = p.bitmapSize
  hhdmOffset : p'.hhdmOffset = p.hhdmOffset

variable {p p' : Pmm} {i n page : Nat}

theorem SameMap.trans {p'' : Pmm} (h₁ : SameMap p p') (h₂ : SameMap p' p'') : SameMap p p'' :=
  ⟨h₂.wf, h₂.totalPages.trans h₁.totalPages, h₂.bitmap.trans h₁.bitmap,
    h₂.bitmapSize.trans h₁.bitmapSize, h₂.hhdmOffset.trans h₁.hhdmOffset⟩

theorem WF.refl (wf : p.WF) : SameMap p p := ⟨wf, rfl, rfl, rfl, rfl⟩

theorem WF.freePages_le (wf : p.WF) : p.freePages ≤ 2 ^ 40 := by
  rw [wf.counted]
  exact Nat.le_trans (countClear_le _ _) wf.bounded

theorem WF.test_eq (wf : p.WF) (below : i < p.totalPages) : p.test i = some (p.taken i) := by
  have inside : i < 8 * p.bytes.length := Nat.lt_of_lt_of_le below wf.covers
  rw [test, if_neg wf.placed, bitTest_eq inside]
  rfl

theorem WF.repaged (wf : p.WF) {bytes : List UInt8} {count : Nat}
    (size : bytes.length = p.bytes.length) (counts : count = countClear (bits bytes) p.totalPages) :
    SameMap p { p with bytes := bytes, freePages := count } := by
  have covers : p.totalPages ≤ 8 * bytes.length := by
    rw [size]
    exact wf.covers
  exact ⟨⟨wf.placed, covers, wf.bounded, counts⟩, rfl, rfl, size, rfl⟩

/-- Taking a free page stays inside the bitmap and lowers the counter by one. -/
theorem WF.take_spec (wf : p.WF) (below : i < p.totalPages) (free : p.taken i = false) :
    ∃ p', p.take i = some p' ∧ SameMap p p' ∧ p'.taken = Function.update p.taken i true ∧
      p'.freePages + 1 = p.freePages := by
  have inside : i < 8 * p.bytes.length := Nat.lt_of_lt_of_le below wf.covers
  obtain ⟨bytes, set, size, after⟩ := bitSet_spec inside
  have count := countClear_set below free
  rw [← wf.counted] at count
  have small := wf.freePages_le
  -- the decrement, as the addition of 2^64 - 1, does not wrap: a page is free
  have dec : wrap64 (p.freePages + (2 ^ 64 - 1)) + 1 = p.freePages := by
    unfold wrap64
    omega
  have counts : wrap64 (p.freePages + (2 ^ 64 - 1)) = countClear (bits bytes) p.totalPages := by
    rw [after]
    unfold taken at count
    omega
  refine ⟨{ p with bytes := bytes, freePages := wrap64 (p.freePages + (2 ^ 64 - 1)) }, ?_,
    wf.repaged size counts, after, dec⟩
  rw [take, if_neg wf.placed, set, Option.map_some]

/-- Giving a taken page back stays inside the bitmap and raises the counter by one. -/
theorem WF.give_spec (wf : p.WF) (below : i < p.totalPages) (held : p.taken i = true) :
    ∃ p', p.give i = some p' ∧ SameMap p p' ∧ p'.taken = Function.update p.taken i false ∧
      p'.freePages = p.freePages + 1 := by
  have inside : i < 8 * p.bytes.length := Nat.lt_of_lt_of_le below wf.covers
  obtain ⟨bytes, clear, size, after⟩ := bitClear_spec inside
  have count := countClear_clear below held
  rw [← wf.counted] at count
  have small := wf.freePages_le
  have inc : wrap64 (p.freePages + 1) = p.freePages + 1 := by
    unfold wrap64
    omega
  have counts : wrap64 (p.freePages + 1) = countClear (bits bytes) p.totalPages := by
    rw [after, inc]
    exact count.symm
  refine ⟨{ p with bytes := bytes, freePages := wrap64 (p.freePages + 1) }, ?_,
    wf.repaged size counts, after, inc⟩
  rw [give, if_neg wf.placed, clear, Option.map_some]

end Pmm

/-! ### Allocation and release -/

open Pmm

variable {p p' : Pmm} {i n page : Nat}

/-- From page `i` on, the loop takes the first free page, or there is none. -/
theorem allocLoop_spec (wf : p.WF) (split : i + n = p.totalPages) :
    ((∀ j, i ≤ j → j < p.totalPages → p.taken j = true) ∧ allocLoop p i n = some (0, p)) ∨
    ∃ j p', i ≤ j ∧ j < p.totalPages ∧ p.taken j = false ∧
      allocLoop p i n = some (j * pageSize, p') ∧ SameMap p p' ∧
      p'.taken = Function.update p.taken j true ∧ p'.freePages + 1 = p.freePages := by
  induction n generalizing i with
  | zero =>
    left
    exact ⟨fun j low high => by omega, rfl⟩
  | succ n ih =>
    have below : i < p.totalPages := by omega
    have read := wf.test_eq below
    cases state : p.taken i with
    | true =>
      -- a taken page is passed over
      have skip : allocLoop p i (n + 1) = allocLoop p (i + 1) n := by
        simp [allocLoop, read, state]
      have rest : (i + 1) + n = p.totalPages := by omega
      rw [skip]
      rcases ih rest with ⟨none, same⟩ | ⟨j, p', low, found⟩
      · left
        refine ⟨fun j low high => ?_, same⟩
        by_cases first : j = i
        · rw [first, state]
        · exact none j (by omega) high
      · right
        exact ⟨j, p', by omega, found⟩
    | false =>
      right
      -- the first free page is taken
      obtain ⟨p', took, same, after, count⟩ := wf.take_spec below state
      have bound := wf.bounded
      have word : wrap64 (i * pageSize) = i * pageSize := by
        apply wrap64_of_lt
        unfold pageSize
        omega
      exact ⟨i, p', Nat.le_refl i, below, state, by simp [allocLoop, read, state, took, word],
        same, after, count⟩

/-- `pmm_alloc` fails only when nothing is free, and otherwise takes a free page. -/
theorem pmmAlloc_spec (wf : p.WF) :
    (p.freePages = 0 ∧ pmmAlloc p = some (0, p)) ∨
    ∃ j p', j < p.totalPages ∧ p.taken j = false ∧ pmmAlloc p = some (j * pageSize, p') ∧
      SameMap p p' ∧ p'.taken = Function.update p.taken j true ∧
      p'.freePages + 1 = p.freePages := by
  rcases allocLoop_spec wf (Nat.zero_add _) with ⟨none, same⟩ | ⟨j, p', _, found⟩
  · left
    refine ⟨?_, same⟩
    rw [wf.counted, countClear_eq_zero]
    exact fun j below => none j (Nat.zero_le j) below
  · exact Or.inr ⟨j, p', found⟩

/-- `pmm_free` of a taken page gives it back. -/
theorem pmmFree_spec (wf : p.WF) (below : i < p.totalPages) (held : p.taken i = true) :
    ∃ p', pmmFree (i * pageSize) p = some p' ∧ SameMap p p' ∧
      p'.taken = Function.update p.taken i false ∧ p'.freePages = p.freePages + 1 := by
  obtain ⟨p', gave, found⟩ := wf.give_spec below held
  have page : i * pageSize / pageSize = i := Nat.mul_div_cancel i (by decide)
  exact ⟨p', by simp [pmmFree, page, wf.test_eq below, held, gave], found⟩

/-! ### Initialisation -/

namespace MemmapEntry

/-- The entry contains the address. -/
def contains (entry : MemmapEntry) (address : Nat) : Prop :=
  entry.base ≤ address ∧ address < entry.base + entry.length

end MemmapEntry

/-- What Limine promises about its memory map and direct map. -/
structure LimineMemmap (memmap : List MemmapEntry) (hhdm : Nat) : Prop where
  aligned : ∀ entry ∈ memmap, entry.usable →
    entry.base % pageSize = 0 ∧ entry.length % pageSize = 0
  disjoint : memmap.Pairwise fun e f => e.usable → f.usable → ∀ address,
    e.contains address → ¬ f.contains address
  below : ∀ entry ∈ memmap, entry.usable → entry.base + entry.length ≤ 2 ^ 52
  frame0 : ∀ entry ∈ memmap, entry.usable → ¬ entry.contains 0
  higherHalf : 2 ^ 63 ≤ hhdm ∧ hhdm < 2 ^ 64

/-- The usable entries are whole pages, apart from each other. -/
structure UsableMemmap (memmap : List MemmapEntry) : Prop where
  aligned : ∀ entry ∈ memmap, entry.usable →
    entry.base % pageSize = 0 ∧ entry.length % pageSize = 0
  disjoint : memmap.Pairwise fun e f => e.usable → f.usable → ∀ address,
    e.contains address → ¬ f.contains address
  below : ∀ entry ∈ memmap, entry.usable → entry.base + entry.length ≤ 2 ^ 52

theorem LimineMemmap.apart {memmap : List MemmapEntry} {hhdm : Nat}
    (limine : LimineMemmap memmap hhdm) : UsableMemmap memmap :=
  ⟨limine.aligned, limine.disjoint, limine.below⟩

/-- The page is in a usable entry. -/
def UsablePage (memmap : List MemmapEntry) (page : Nat) : Prop :=
  ∃ entry ∈ memmap, entry.usable ∧ entry.contains (page * pageSize)

/-- The number of pages in usable entries. -/
def usablePages : List MemmapEntry → Nat
  | [] => 0
  | entry :: rest => (if entry.usable then entry.length / pageSize else 0) + usablePages rest

theorem usablePage_cons {entry : MemmapEntry} {rest : List MemmapEntry} :
    UsablePage (entry :: rest) page ↔
      (entry.usable ∧ entry.contains (page * pageSize)) ∨ UsablePage rest page := by
  simp [UsablePage]

/-- The pages of an aligned entry. -/
theorem contains_page {entry : MemmapEntry} (base : entry.base % pageSize = 0)
    (length : entry.length % pageSize = 0) : entry.contains (page * pageSize) ↔
      entry.base / pageSize ≤ page ∧
        page < entry.base / pageSize + entry.length / pageSize := by
  unfold MemmapEntry.contains pageSize at *
  omega

/-- Giving a run of taken pages. -/
theorem giveRange_spec (wf : p.WF) (below : page + n ≤ p.totalPages)
    (held : ∀ j, page ≤ j → j < page + n → p.taken j = true) :
    ∃ p', giveRange page n p = some p' ∧ SameMap p p' ∧ p'.freePages = p.freePages + n ∧
      ∀ j, p'.taken j = false ↔ p.taken j = false ∨ (page ≤ j ∧ j < page + n) := by
  induction n generalizing p page with
  | zero =>
    refine ⟨p, rfl, wf.refl, rfl, fun j => ?_⟩
    have none : ¬ (page ≤ j ∧ j < page + 0) := by omega
    rw [or_iff_left none]
  | succ n ih =>
    have first : page < p.totalPages := by omega
    obtain ⟨p₁, gave, same, after, count⟩ :=
      wf.give_spec first (held page (Nat.le_refl page) (by omega))
    have held₁ : ∀ j, page + 1 ≤ j → j < page + 1 + n → p₁.taken j = true := by
      intro j low high
      rw [after, Function.update_of_ne (by omega)]
      exact held j (by omega) (by omega)
    obtain ⟨p₂, rest, same', count', after'⟩ := ih same.wf (by rw [same.totalPages]; omega) held₁
    refine ⟨p₂, by simp [giveRange, gave, rest], same.trans same', by omega, fun j => ?_⟩
    rw [after', after]
    by_cases here : j = page
    · simp [here]
    · have rest : (page + 1 ≤ j ∧ j < page + 1 + n) ↔ (page ≤ j ∧ j < page + (n + 1)) := by omega
      rw [Function.update_of_ne here, rest]

/-- Taking a run of free pages. -/
theorem takeRange_spec (wf : p.WF) (below : page + n ≤ p.totalPages)
    (free : ∀ j, page ≤ j → j < page + n → p.taken j = false) :
    ∃ p', takeRange page n p = some p' ∧ SameMap p p' ∧ p'.freePages + n = p.freePages ∧
      ∀ j, p'.taken j = false ↔ p.taken j = false ∧ ¬ (page ≤ j ∧ j < page + n) := by
  induction n generalizing p page with
  | zero =>
    refine ⟨p, rfl, wf.refl, rfl, fun j => ?_⟩
    have none : ¬ (page ≤ j ∧ j < page + 0) := by omega
    rw [and_iff_left none]
  | succ n ih =>
    have first : page < p.totalPages := by omega
    obtain ⟨p₁, took, same, after, count⟩ :=
      wf.take_spec first (free page (Nat.le_refl page) (by omega))
    have free₁ : ∀ j, page + 1 ≤ j → j < page + 1 + n → p₁.taken j = false := by
      intro j low high
      rw [after, Function.update_of_ne (by omega)]
      exact free j (by omega) (by omega)
    obtain ⟨p₂, rest, same', count', after'⟩ := ih same.wf (by rw [same.totalPages]; omega) free₁
    refine ⟨p₂, by simp [takeRange, took, rest], same.trans same', by omega, fun j => ?_⟩
    rw [after', after]
    by_cases here : j = page
    · simp [here]
    · have rest : (page + 1 ≤ j ∧ j < page + 1 + n) ↔ (page ≤ j ∧ j < page + (n + 1)) := by omega
      rw [Function.update_of_ne here, rest]

/-- The loop over the usable entries frees exactly their pages, each once. -/
theorem giveEntries_spec {memmap : List MemmapEntry} (map : UsableMemmap memmap) (wf : p.WF)
    (below : ∀ entry ∈ memmap, entry.usable →
      entry.base / pageSize + entry.length / pageSize ≤ p.totalPages)
    (held : ∀ j, UsablePage memmap j → p.taken j = true) :
    ∃ p', giveEntries memmap p = some p' ∧ SameMap p p' ∧
      p'.freePages = p.freePages + usablePages memmap ∧
      ∀ j, p'.taken j = false ↔ p.taken j = false ∨ UsablePage memmap j := by
  induction memmap generalizing p with
  | nil => exact ⟨p, rfl, wf.refl, rfl, fun j => by simp [UsablePage]⟩
  | cons entry rest ih =>
    have map' : UsableMemmap rest :=
      { aligned := fun e member => map.aligned e (List.mem_cons_of_mem entry member)
        disjoint := (List.pairwise_cons.mp map.disjoint).2
        below := fun e member => map.below e (List.mem_cons_of_mem entry member) }
    by_cases usable : entry.usable
    · obtain ⟨base, length⟩ := map.aligned entry List.mem_cons_self usable
      have pages : ∀ j, entry.contains (j * pageSize) ↔ _ := fun j => contains_page base length
      have mine : ∀ j, entry.base / pageSize ≤ j →
          j < entry.base / pageSize + entry.length / pageSize → UsablePage (entry :: rest) j :=
        fun j low high => usablePage_cons.mpr (Or.inl ⟨usable, (pages j).mpr ⟨low, high⟩⟩)
      have fits := below entry List.mem_cons_self usable
      obtain ⟨p₁, gave, same, count, after⟩ :=
        giveRange_spec wf fits fun j low high => held j (mine j low high)
      -- the pages of the other entries are not those just given
      have held₁ : ∀ j, UsablePage rest j → p₁.taken j = true := by
        intro j other
        by_contra given
        rw [Bool.not_eq_true, after, held j (usablePage_cons.mpr (Or.inr other))] at given
        obtain ⟨e, member, usable', inside⟩ := other
        have apart := (List.pairwise_cons.mp map.disjoint).1 e member usable usable'
        exact apart _ ((pages j).mpr (given.resolve_left (by simp))) inside
      obtain ⟨p₂, done, same', count', after'⟩ := ih map' same.wf
        (fun e member => by rw [same.totalPages]; exact below e (List.mem_cons_of_mem entry member))
        held₁
      refine ⟨p₂, by simp [giveEntries, usable, gave, done], same.trans same', ?_, fun j => ?_⟩
      · rw [count', count, usablePages, if_pos usable]
        omega
      · rw [after', after, usablePage_cons, pages, or_assoc]
        simp [usable]
    · obtain ⟨p', done, same, count, after⟩ := ih map' wf
        (fun e member => below e (List.mem_cons_of_mem entry member))
        (fun j other => held j (usablePage_cons.mpr (Or.inr other)))
      refine ⟨p', by simp [giveEntries, usable, done], same, ?_, fun j => ?_⟩
      · rw [count, usablePages, if_neg usable]
        omega
      · rw [after, usablePage_cons]
        simp [usable]

theorem le_highestAddress (highest : Nat) (memmap : List MemmapEntry) :
    highest ≤ highestAddress highest memmap := by
  induction memmap generalizing highest with
  | nil => exact Nat.le_refl highest
  | cons entry rest ih =>
    rw [highestAddress]
    split
    next higher => exact Nat.le_trans (Nat.le_of_lt higher.2) (ih _)
    · exact ih _

/-- No usable entry ends above the highest address, and the highest is one of the ends. -/
theorem highestAddress_spec {memmap : List MemmapEntry} {bound : Nat} (highest : Nat)
    (small : highest ≤ bound) (word : bound < 2 ^ 64)
    (below : ∀ entry ∈ memmap, entry.usable → entry.base + entry.length ≤ bound) :
    highestAddress highest memmap ≤ bound ∧ ∀ entry ∈ memmap, entry.usable →
      entry.base + entry.length ≤ highestAddress highest memmap := by
  induction memmap generalizing highest with
  | nil => exact ⟨small, by simp⟩
  | cons entry rest ih =>
    have below' := fun e member => below e (List.mem_cons_of_mem entry member)
    rw [highestAddress]
    have end_le : entry.usable → wrap64 (entry.base + entry.length) = entry.base + entry.length ∧
        entry.base + entry.length ≤ bound := fun usable =>
      have inside := below entry List.mem_cons_self usable
      ⟨wrap64_of_lt (by omega), inside⟩
    split
    next higher =>
      obtain ⟨same, inside⟩ := end_le higher.1
      rw [same]
      obtain ⟨upper, others⟩ := ih _ inside below'
      refine ⟨upper, fun e member usable => ?_⟩
      rcases List.mem_cons.mp member with rfl | other
      · exact le_highestAddress _ _
      · exact others e other usable
    next lower =>
      obtain ⟨upper, others⟩ := ih _ small below'
      refine ⟨upper, fun e member usable => ?_⟩
      rcases List.mem_cons.mp member with rfl | other
      · have same := (end_le usable).1
        -- an entry that is passed over ends no higher
        have low : e.base + e.length ≤ highest := by
          by_contra high
          exact lower ⟨usable, by omega⟩
        exact Nat.le_trans low (le_highestAddress _ _)
      · exact others e other usable

theorem placeBitmap_spec {memmap : List MemmapEntry} {size hhdm : Nat}
    (placed : placeBitmap size hhdm memmap ≠ 0) : ∃ entry ∈ memmap, entry.usable ∧
      size ≤ entry.length ∧ placeBitmap size hhdm memmap = wrap64 (entry.base + hhdm) := by
  induction memmap with
  | nil => exact absurd rfl placed
  | cons entry rest ih =>
    rw [placeBitmap] at placed ⊢
    split at placed
    next fits => exact ⟨entry, List.mem_cons_self, fits.1, fits.2, by rw [if_pos fits]⟩
    next small =>
      obtain ⟨e, member, found⟩ := ih placed
      exact ⟨e, List.mem_cons_of_mem entry member, by rw [if_neg small]; exact found⟩

theorem bits_full (n i : Nat) : bits (List.replicate n 0xFF) i = true := by
  have byte : (List.replicate n (0xFF : UInt8))[i / 8]?.getD 0xFF = 0xFF := by
    rw [List.getElem?_replicate]
    split <;> rfl
  have small : i % 8 < 8 := Nat.mod_lt _ (by decide)
  rw [bits, byte, and_bitMask]
  -- eight bits to look at
  generalize i % 8 = k at small
  revert k
  decide

/-- `bitmap_base` -/
def Pmm.bitmapBase (p : Pmm) : Nat := wrap64 (p.bitmap + (2 ^ 64 - p.hhdmOffset)) / pageSize

/-- `bitmap_pages` -/
def Pmm.bitmapPages (p : Pmm) : Nat := (p.bitmapSize + pageSize - 1) / pageSize

/-- The page holds a part of the bitmap. -/
def Pmm.bitmapPage (p : Pmm) (page : Nat) : Prop :=
  p.bitmapBase ≤ page ∧ page < p.bitmapBase + p.bitmapPages

/-- The state `pmm_init` leaves when it has placed its bitmap. -/
structure Initialised (memmap : List MemmapEntry) (hhdm : Nat) (p : Pmm) : Prop where
  wf : p.WF
  hhdm : p.hhdmOffset = hhdm
  counted : p.freePages + p.bitmapPages = usablePages memmap
  free : ∀ j, p.taken j = false ↔ UsablePage memmap j ∧ ¬ p.bitmapPage j
  inside : ∀ j, UsablePage memmap j → j < p.totalPages

/-- `bitmap_size` -/
def bitmapSizeFor (memmap : List MemmapEntry) : Nat := (highestAddress 0 memmap / pageSize + 7) / 8

/-- Without a place for its bitmap `pmm_init` stops after `total_pages` and `bitmap_size`. -/
theorem pmmInit_unplaced {memmap : List MemmapEntry} {hhdm : Nat}
    (none : placeBitmap (bitmapSizeFor memmap) hhdm memmap = 0) : pmmInit memmap hhdm =
      some ⟨0, List.replicate (bitmapSizeFor memmap) 0xFF, highestAddress 0 memmap / pageSize, 0,
        hhdm⟩ := by
  rw [bitmapSizeFor] at none ⊢
  simp only [pmmInit, none, if_true]

/-- `pmm_init` accesses its bitmap within bounds and frees the usable pages but those of the
bitmap. -/
theorem pmmInit_spec {memmap : List MemmapEntry} {hhdm : Nat} (map : UsableMemmap memmap)
    (word : hhdm < 2 ^ 64) :
    ∃ p, pmmInit memmap hhdm = some p ∧
      p.bitmap = placeBitmap (bitmapSizeFor memmap) hhdm memmap ∧
      p.bitmapSize = bitmapSizeFor memmap ∧ (p.bitmap ≠ 0 → Initialised memmap hhdm p) := by
  obtain ⟨highest, ends⟩ := highestAddress_spec 0 (Nat.zero_le _) (by decide) map.below
  by_cases none : placeBitmap (bitmapSizeFor memmap) hhdm memmap = 0
  · exact ⟨_, pmmInit_unplaced none, none.symm, List.length_replicate,
      fun placed => absurd rfl placed⟩
  · rw [bitmapSizeFor] at none ⊢
    generalize high : highestAddress 0 memmap = top at *
    generalize size : (top / pageSize + 7) / 8 = bytes at *
    obtain ⟨home, member, usable, room, place⟩ := placeBitmap_spec none
    obtain ⟨base, length⟩ := map.aligned home member usable
    have below := map.below home member usable
    generalize hp : Pmm.mk (placeBitmap bytes hhdm memmap) (List.replicate bytes 0xFF)
      (top / pageSize) 0 hhdm = p₀
    have all : ∀ j, p₀.taken j = true := fun j => hp ▸ bits_full bytes j
    have wf₀ : p₀.WF := by
      refine ⟨hp ▸ none, ?_, ?_, ?_⟩
      · rw [← hp, Pmm.bitmapSize, List.length_replicate]
        dsimp only
        omega
      · rw [← hp]
        dsimp only [pageSize]
        omega
      · rw [countClear_eq_zero.mpr fun j _ => all j, ← hp]
    have inside : ∀ entry ∈ memmap, entry.usable →
        entry.base / pageSize + entry.length / pageSize ≤ p₀.totalPages := by
      intro entry member usable
      have last := ends entry member usable
      obtain ⟨base, length⟩ := map.aligned entry member usable
      rw [← hp]
      dsimp only [pageSize] at *
      omega
    obtain ⟨p₁, gave, same₁, count₁, free₁⟩ :=
      giveEntries_spec map wf₀ inside fun j _ => all j
    have bitmap₁ : p₁.bitmap = wrap64 (home.base + hhdm) := by rw [same₁.bitmap, ← hp, ← place]
    -- undoing the direct map gives back the base of the entry
    have phys : wrap64 (p₁.bitmap + (2 ^ 64 - hhdm)) = home.base := by
      rw [bitmap₁]
      unfold wrap64
      omega
    have fits : (bytes + pageSize - 1) / pageSize ≤ home.length / pageSize := by
      dsimp only [pageSize] at *
      omega
    have inner : home.base / pageSize + (bytes + pageSize - 1) / pageSize ≤ p₁.totalPages := by
      rw [same₁.totalPages]
      have last := inside home member usable
      omega
    have free₂ : ∀ j, home.base / pageSize ≤ j →
        j < home.base / pageSize + (bytes + pageSize - 1) / pageSize → p₁.taken j = false := by
      intro j low high'
      refine (free₁ j).mpr (Or.inr ⟨home, member, usable, (contains_page base length).mpr ?_⟩)
      omega
    obtain ⟨p₂, took, same₂, count₂, after₂⟩ := takeRange_spec same₁.wf inner free₂
    have same := same₁.trans same₂
    have bitmapBase : p₂.bitmapBase = home.base / pageSize := by
      rw [Pmm.bitmapBase, same₂.bitmap, same.hhdmOffset, ← hp, phys]
    have bitmapPages : p₂.bitmapPages = (bytes + pageSize - 1) / pageSize := by
      rw [Pmm.bitmapPages, same.bitmapSize, ← hp, Pmm.bitmapSize, List.length_replicate]
    refine ⟨p₂, ?_, ?_, ?_, fun _ => ⟨same₂.wf, ?_, ?_, fun j => ?_, fun j page => ?_⟩⟩
    · simp only [pmmInit, high, size, none, if_false, hp, gave, Option.bind_eq_bind,
        Option.bind_some, phys]
      exact took
    · rw [same.bitmap, ← hp]
    · rw [same.bitmapSize, ← hp, Pmm.bitmapSize, List.length_replicate]
    · rw [same.hhdmOffset, ← hp]
    · have zero : p₀.freePages = 0 := by rw [← hp]
      rw [bitmapPages]
      omega
    · rw [after₂, free₁, Pmm.bitmapPage, bitmapBase, bitmapPages, all j]
      simp
    · obtain ⟨entry, known, usable', contains⟩ := page
      obtain ⟨base', length'⟩ := map.aligned entry known usable'
      have pages := (contains_page base' length').mp contains
      have last := inside entry known usable'
      rw [same.totalPages]
      omega

end DedOS
