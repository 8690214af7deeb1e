import DedOS.Acpi.Acpi
import DedOS.Lib.Logged

/-!
# Where the search of a root table looks

The search of `acpi_find_table` with the entries it examines. The number of rounds is the
unsigned difference of the declared length and the size of the header, so a table that
declares less than its header is searched far beyond its end.
-/

namespace DedOS

open Lib

/-- A search that reports the index of every entry it looks at. -/
abbrev Search := Logged Nat Unit

/-- A read within a search; a page fault ends it. -/
def Search.read {α : Type} (r : Option α) : Search α :=
  Logged.lift (match r with
    | some a => .ok a
    | none => .error ())

/-- `scanEntries`, reporting every round. -/
def searchEntries (m : Space) (signature : Fin 4 → UInt8) (entry : Nat → Option Nat) :
    Nat → Nat → Search Nat
  | 0, _ => pure 0
  | n + 1, i => do
    Logged.record i
    let t ← Search.read (entry i)
    let found ← Search.read (signatureIs m signature t)
    if found then pure t else searchEntries m signature entry n (i + 1)

/-- `acpiFindTable`, reporting every entry it looks at. -/
def acpiSearch (m : Space) (hhdmOffset : Nat) (s : Acpi) (signature : Fin 4 → UInt8) :
    Search Nat := do
  if s.xsdt ≠ 0 then
    let length ← Search.read (m.load 4 (s.xsdt + 4))
    searchEntries m signature (rootEntry m 8 s.xsdt) (entryCount 8 length) 0
  else if s.rsdt ≠ 0 then
    let length ← Search.read (m.load 4 (s.rsdt + 4))
    searchEntries m signature (fun i => (rootEntry m 4 s.rsdt i).map (physToVirt hhdmOffset))
      (entryCount 4 length) 0
  else pure 0

section

variable {m : Space} {signature : Fin 4 → UInt8} {entry : Nat → Option Nat} {s : Acpi}
variable {n i j k v hhdm length width : Nat} {α β : Type} {x : Search α} {f : α → Search β}

/-! ### The search is the one of `acpi_find_table` -/

/-- What a search returns. -/
def Search.returned (x : Search α) : Option α := x.result.toOption

theorem Search.returned_read {r : Option α} : (Search.read r).returned = r := by
  cases r <;> rfl

/-- A read that succeeds leaves no trace. -/
theorem Search.read_some_bind {a : α} {f : α → Search β} : (Search.read (some a) >>= f) = f a := rfl

theorem Search.returned_bind : (x >>= f).returned = x.returned.bind fun a => (f a).returned := by
  unfold Search.returned
  rw [Logged.result_bind]
  cases x.result <;> rfl

theorem searchEntries_returned :
    (searchEntries m signature entry n i).returned = scanEntries m signature entry n i := by
  induction n generalizing i with
  | zero => rfl
  | succ n ih =>
    rw [searchEntries, scanEntries, Search.returned_bind]
    change ((Search.read (entry i) >>= _).returned) = _
    rw [Search.returned_bind, Search.returned_read, Option.bind_eq_bind]
    congr 1
    funext t
    rw [Search.returned_bind, Search.returned_read, Option.bind_eq_bind]
    congr 1
    funext found
    cases found with
    | true => rfl
    | false => exact ih

theorem acpiSearch_returned :
    (acpiSearch m hhdm s signature).returned = acpiFindTable m hhdm s signature := by
  unfold acpiSearch acpiFindTable
  split
  · simp [Search.returned_bind, Search.returned_read, searchEntries_returned]
  · split
    · simp [Search.returned_bind, Search.returned_read, searchEntries_returned]
    · rfl

/-! ### What the loop looks at and returns -/

/-- The table behind an entry shows another signature. -/
def Misses (m : Space) (signature : Fin 4 → UInt8) (entry : Nat → Option Nat) (i : Nat) : Prop :=
  ∃ t, entry i = some t ∧ signatureIs m signature t = some false

/-- The table behind an entry is `v` and shows the signature. -/
def Hits (m : Space) (signature : Fin 4 → UInt8) (entry : Nat → Option Nat) (i v : Nat) : Prop :=
  entry i = some v ∧ signatureIs m signature v = some true

/-- What a search of the entries from `low` up to `high` is to return: the first table with the
signature, or null if there is none. -/
def Finds (m : Space) (signature : Fin 4 → UInt8) (entry : Nat → Option Nat) (low high v : Nat) :
    Prop :=
  (∃ k, low ≤ k ∧ k < high ∧ Hits m signature entry k v ∧
    ∀ j, low ≤ j → j < k → Misses m signature entry j) ∨
  v = 0 ∧ ∀ j, low ≤ j → j < high → Misses m signature entry j

theorem finds_empty {low high : Nat} (empty : high ≤ low) :
    Finds m signature entry low high v ↔ v = 0 := by
  constructor
  · rintro (⟨k, above, below, _⟩ | ⟨null, _⟩)
    · omega
    · exact null
  · rintro rfl
    refine Or.inr ⟨rfl, ?_⟩
    intro j above below
    omega

/-- The first entry decides, or the others do. -/
theorem finds_succ {low high : Nat} (some : low < high) : Finds m signature entry low high v ↔
    Hits m signature entry low v ∨
      Misses m signature entry low ∧ Finds m signature entry (low + 1) high v := by
  have misses : ∀ limit, low < limit →
      ((∀ j, low ≤ j → j < limit → Misses m signature entry j) ↔
        Misses m signature entry low ∧
          ∀ j, low + 1 ≤ j → j < limit → Misses m signature entry j) := by
    intro limit bound
    constructor
    · intro all
      exact ⟨all low (Nat.le_refl _) bound, fun j above => all j (by omega)⟩
    · rintro ⟨first, rest⟩ j above below
      cases Nat.eq_or_lt_of_le above with
      | inl here => exact here ▸ first
      | inr later => exact rest j later below
  constructor
  · rintro (⟨k, above, below, hit, before⟩ | ⟨null, all⟩)
    · cases Nat.eq_or_lt_of_le above with
      | inl here => exact Or.inl (here ▸ hit)
      | inr later =>
        obtain ⟨first, rest⟩ := (misses k later).mp before
        exact Or.inr ⟨first, Or.inl ⟨k, later, below, hit, rest⟩⟩
    · obtain ⟨first, rest⟩ := (misses high some).mp all
      exact Or.inr ⟨first, Or.inr ⟨null, rest⟩⟩
  · rintro (hit | ⟨first, ⟨k, above, below, hit, rest⟩ | ⟨null, rest⟩⟩)
    · refine Or.inl ⟨low, Nat.le_refl _, some, hit, ?_⟩
      intro j above below
      omega
    · have before := (misses k above).mpr ⟨first, rest⟩
      exact Or.inl ⟨k, by omega, below, hit, before⟩
    · exact Or.inr ⟨null, (misses high some).mpr ⟨first, rest⟩⟩

/-- One round, then the others. -/
theorem scanEntries_succ : scanEntries m signature entry (n + 1) i = some v ↔
    Hits m signature entry i v ∨
      Misses m signature entry i ∧ scanEntries m signature entry n (i + 1) = some v := by
  rw [scanEntries, Hits, Misses]
  cases entry i with
  | none => simp
  | some t =>
    -- a fault behind the pointer, a hit and a miss
    cases shown : signatureIs m signature t with
    | none =>
      simp only [shown, Option.bind_eq_bind, Option.bind_some, Option.bind_none]
      grind
    | some found =>
      cases found with
      | true =>
        simp only [shown, Option.bind_eq_bind, Option.bind_some, if_true]
        grind
      | false =>
        simp only [shown, Option.bind_eq_bind, Option.bind_some]
        grind

/-- The loop returns what it is to return, for the entries it goes through. -/
theorem scanEntries_finds :
    scanEntries m signature entry n i = some v ↔ Finds m signature entry i (i + n) v := by
  induction n generalizing i with
  | zero => simp [scanEntries, finds_empty, eq_comm]
  | succ n ih => rw [scanEntries_succ, finds_succ (by omega), ih, Nat.add_right_comm, Nat.add_assoc]

/-- A round looks at its own entry and goes on to the next ones. -/
theorem searchEntries_log {j : Nat} (seen : j ∈ (searchEntries m signature entry n i).log) :
    i ≤ j ∧ j < i + n := by
  induction n generalizing i with
  | zero => simp [searchEntries] at seen
  | succ n ih =>
    rw [searchEntries] at seen
    rcases List.mem_cons.mp seen with rfl | later
    · omega
    · obtain later | ⟨t, _, later⟩ := Logged.mem_log_bind.mp later
      · simp [Search.read] at later
      obtain later | ⟨found, _, later⟩ := Logged.mem_log_bind.mp later
      · simp [Search.read] at later
      cases found with
      | true => simp at later
      | false =>
        have bounds := ih later
        omega

/-- A loop with a round to make looks at its first entry. -/
theorem searchEntries_first (round : 0 < n) : i ∈ (searchEntries m signature entry n i).log := by
  cases n with
  | zero => cases round
  | succ n => exact List.mem_cons_self

/-! ### The root table in use -/

/-- A root table: where it is, the width of its entries, and the pointer an entry stands for. -/
structure RootTable where
  address : Nat
  width : Nat
  pointer : Nat → Nat

/-- The table that `acpi_find_table` goes through. -/
def Acpi.rootTable (hhdm : Nat) (s : Acpi) : Option RootTable :=
  if s.xsdt ≠ 0 then some { address := s.xsdt, width := 8, pointer := id }
  else if s.rsdt ≠ 0 then some { address := s.rsdt, width := 4, pointer := physToVirt hhdm }
  else none

def RootTable.pointerAt (m : Space) (table : RootTable) (i : Nat) : Option Nat :=
  (rootEntry m table.width table.address i).map table.pointer

/-- The number of entries within a declared length: none if it is less than the header. -/
def RootTable.containedEntries (table : RootTable) (length : Nat) : Nat :=
  (length - sdtHeaderSize) / table.width

/-- The search looks at entries within the declared length only, and returns the first of them
whose table shows the signature, or null. -/
structure SearchesInside (m : Space) (hhdm : Nat) (s : Acpi) (signature : Fin 4 → UInt8)
    (table : RootTable) (length : Nat) : Prop where
  contained : ∀ i ∈ (acpiSearch m hhdm s signature).log,
    sdtHeaderSize + table.width * (i + 1) ≤ length
  returns : ∀ v, acpiFindTable m hhdm s signature = some v ↔
    Finds m signature (table.pointerAt m) 0 (table.containedEntries length) v

variable {table : RootTable}

theorem rootTable_width (present : s.rootTable hhdm = some table) :
    table.width = 8 ∨ table.width = 4 := by
  unfold Acpi.rootTable at present
  split at present
  · obtain rfl := Option.some.inj present
    exact Or.inl rfl
  split at present
  · obtain rfl := Option.some.inj present
    exact Or.inr rfl
  · cases present

/-- Both branches of `acpi_find_table` are one search. -/
theorem acpiSearch_eq (present : s.rootTable hhdm = some table)
    (declared : m.load 4 (table.address + 4) = some length) :
    acpiSearch m hhdm s signature =
      searchEntries m signature (table.pointerAt m) (entryCount table.width length) 0 := by
  unfold Acpi.rootTable at present
  unfold acpiSearch
  split at present
  next xsdt =>
    obtain rfl := Option.some.inj present
    have entries : rootEntry m 8 s.xsdt = RootTable.pointerAt m ⟨s.xsdt, 8, id⟩ := by
      funext i
      simp [RootTable.pointerAt]
    rw [if_pos xsdt, declared, Search.read_some_bind, entries]
  next noXsdt =>
    split at present
    next rsdt =>
      obtain rfl := Option.some.inj present
      rw [if_neg noXsdt, if_pos rsdt, declared, Search.read_some_bind]
      rfl
    · cases present

/-- With room for the header the unsigned difference is the true one. -/
theorem entryCount_contained (declared : m.load 4 (table.address + 4) = some length)
    (room : sdtHeaderSize ≤ length) :
    entryCount table.width length = table.containedEntries length := by
  have small := Space.load_lt declared
  have cut : wrap64 (length + (2 ^ 64 - sdtHeaderSize)) = length - sdtHeaderSize := by
    simp only [wrap64, sdtHeaderSize] at *
    omega
  rw [entryCount, cut, RootTable.containedEntries]

/-- Without it the difference wraps around to more rounds than there are entries. -/
theorem entryCount_wraps (wide : table.width = 8 ∨ table.width = 4)
    (short : length < sdtHeaderSize) : 0 < entryCount table.width length := by
  have wrapped : wrap64 (length + (2 ^ 64 - sdtHeaderSize)) = length + (2 ^ 64 - sdtHeaderSize) := by
    apply wrap64_of_lt
    simp only [sdtHeaderSize] at *
    omega
  rw [entryCount, wrapped, sdtHeaderSize]
  rcases wide with wide | wide <;> rw [wide] <;> omega

theorem contained_iff (positive : 0 < table.width) (room : sdtHeaderSize ≤ length) :
    i < table.containedEntries length ↔ sdtHeaderSize + table.width * (i + 1) ≤ length := by
  rw [RootTable.containedEntries, Nat.lt_iff_add_one_le, Nat.le_div_iff_mul_le positive, Nat.mul_comm]
  omega

end

/-- The search stays inside the root table exactly when the table declares at least the length
of its own header. -/
theorem find_table_inside_iff (m : Space) (hhdm : Nat) (s : Acpi) (signature : Fin 4 → UInt8)
    (table : RootTable) (length : Nat) (present : s.rootTable hhdm = some table)
    (declared : m.load 4 (table.address + 4) = some length) :
    SearchesInside m hhdm s signature table length ↔ sdtHeaderSize ≤ length := by
  have wide := rootTable_width present
  have search : acpiSearch m hhdm s signature =
      searchEntries m signature (table.pointerAt m) (entryCount table.width length) 0 :=
    acpiSearch_eq present declared
  constructor
  · intro inside
    by_contra short
    -- the first entry is examined and is not within the length
    have first : 0 ∈ (acpiSearch m hhdm s signature).log := by
      rw [search]
      exact searchEntries_first (entryCount_wraps wide (by omega))
    have bound := inside.contained 0 first
    omega
  · intro room
    have count := entryCount_contained declared room
    constructor
    case contained =>
      intro i seen
      rw [search, count] at seen
      have bound := (searchEntries_log seen).2
      rw [Nat.zero_add] at bound
      exact (contained_iff (by omega) room).mp bound
    case returns =>
      intro v
      rw [← acpiSearch_returned, search, searchEntries_returned, count, scanEntries_finds,
        Nat.zero_add]

/-- The firmware's XSDT declares 44 bytes and has one entry. -/
theorem find_table_inside_iff_firmware :
    SearchesInside firmware 0xffff800000000000 { rsdt := 0, xsdt := 0xffff800000001100 } apic
      { address := 0xffff800000001100, width := 8, pointer := id } 44 ↔ sdtHeaderSize ≤ 44 :=
  find_table_inside_iff firmware 0xffff800000000000 { rsdt := 0, xsdt := 0xffff800000001100 } apic
    { address := 0xffff800000001100, width := 8, pointer := id } 44 rfl firmware_xsdt.length

/-- A table of zeroes declares no length at all, and its first entry is examined. -/
theorem find_table_outside : ¬ ∀ m hhdm s signature table length,
    s.rootTable hhdm = some table → m.load 4 (table.address + 4) = some length →
      SearchesInside m hhdm s signature table length := by
  intro inside
  have declared : firmware.load 4 (0xffff800000001400 + 4) = some 0 := by decide +kernel
  have present : Acpi.rootTable 0xffff800000000000 { rsdt := 0, xsdt := 0xffff800000001400 } =
      some { address := 0xffff800000001400, width := 8, pointer := id } := rfl
  have search := inside firmware 0xffff800000000000 _ apic _ 0 present declared
  have first : 0 ∈ (acpiSearch firmware 0xffff800000000000
      { rsdt := 0, xsdt := 0xffff800000001400 } apic).log := by
    rw [acpiSearch_eq present declared]
    exact searchEntries_first (by decide)
  have bound := search.contained 0 first
  simp [sdtHeaderSize] at bound

end DedOS
