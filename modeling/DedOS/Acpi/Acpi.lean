import DedOS.Mm.Frames
import Mathlib.Data.Fin.VecNotation

/-!
# The ACPI tables of `acpi.c`

The firmware's tables are read through the address space the loader left behind, in which
any access may fault. `acpi_init` keeps one of the two root tables and `acpi_find_table`
scans its entries for a signature.
-/

namespace DedOS

/-- What a read of each virtual address gives; `none` is a page fault. A null pointer is
never read through. -/
structure Space where
  byte : Nat → Option UInt8
  null : byte 0 = none

/-- A little-endian read of `n` bytes. -/
def Space.load (m : Space) : Nat → Nat → Option Nat
  | 0, _ => some 0
  | n + 1, a => do
    let low ← m.byte (wrap64 a)
    let high ← m.load n (a + 1)
    some (low.toNat + 256 * high)

/-- The statics of `acpi.c`. -/
structure Acpi where
  rsdt : Nat
  xsdt : Nat
  deriving DecidableEq

/-- Both pointers start out as `NULL`. -/
def Acpi.bss : Acpi := { rsdt := 0, xsdt := 0 }

/-- `sizeof(acpi_sdt_header_t)`: `signature` at 0, `length` at 4. -/
def sdtHeaderSize : Nat := 36

/-- In the RSDP `revision` is at 15, `rsdt_address` at 16 and `xsdt_address` at 24. -/
def acpiInit (m : Space) (hhdmOffset rsdp : Nat) (s : Acpi) : Option Acpi := do
  let revision ← m.load 1 (rsdp + 15)
  if revision ≥ 2 then
    let address ← m.load 8 (rsdp + 24)
    some { s with xsdt := physToVirt hhdmOffset address }
  else
    let address ← m.load 4 (rsdp + 16)
    some { s with rsdt := physToVirt hhdmOffset address }

/-- The conjunction of comparisons, which stops at the first difference. -/
def sameChars (m : Space) (signature : Fin 4 → UInt8) (t : Nat) : List (Fin 4) → Option Bool
  | [] => some true
  | i :: rest => do
    let c ← m.byte (wrap64 (t + i))
    if c = signature i then sameChars m signature t rest else some false

/-- `t->signature[i] == signature[i]` for `i` from 0 to 3 -/
def signatureIs (m : Space) (signature : Fin 4 → UInt8) (t : Nat) : Option Bool :=
  sameChars m signature t [0, 1, 2, 3]

/-- The loop over the entries of a root table, with `n` rounds left from the entry `i`. -/
def scanEntries (m : Space) (signature : Fin 4 → UInt8) (entry : Nat → Option Nat) :
    Nat → Nat → Option Nat
  | 0, _ => some 0
  | n + 1, i => do
    let t ← entry i
    if ← signatureIs m signature t then some t
    else scanEntries m signature entry n (i + 1)

/-- `(header.length - sizeof(acpi_sdt_header_t)) / width`, in 64 bits -/
def entryCount (width length : Nat) : Nat := wrap64 (length + (2 ^ 64 - sdtHeaderSize)) / width

/-- `entries[i]` -/
def rootEntry (m : Space) (width root i : Nat) : Option Nat :=
  m.load width (root + sdtHeaderSize + width * i)

def acpiFindTable (m : Space) (hhdmOffset : Nat) (s : Acpi) (signature : Fin 4 → UInt8) :
    Option Nat := do
  if s.xsdt ≠ 0 then
    let length ← m.load 4 (s.xsdt + 4)
    -- an entry of the XSDT is used as a pointer as it is
    scanEntries m signature (rootEntry m 8 s.xsdt) (entryCount 8 length) 0
  else if s.rsdt ≠ 0 then
    let length ← m.load 4 (s.rsdt + 4)
    scanEntries m signature (fun i => (rootEntry m 4 s.rsdt i).map (physToVirt hhdmOffset))
      (entryCount 4 length) 0
  else some 0

/-! ### Lookup in a list of pointers -/

section Lookup

variable {m : Space} {signature : Fin 4 → UInt8} {pointers tables : List Nat} {t v hhdm root : Nat}

/-- Every pointer can be followed and shows another signature. -/
def NoneSigned (m : Space) (signature : Fin 4 → UInt8) (pointers : List Nat) : Prop :=
  ∀ t ∈ pointers, signatureIs m signature t = some false

/-- `v` is the first pointer that shows the signature. -/
def IsFirstSigned (m : Space) (signature : Fin 4 → UInt8) (pointers : List Nat) (v : Nat) : Prop :=
  ∃ before after, pointers = before ++ v :: after ∧ NoneSigned m signature before ∧
    signatureIs m signature v = some true

/-- The scan over a list of pointers. -/
def firstSigned (m : Space) (signature : Fin 4 → UInt8) : List Nat → Option Nat
  | [] => some 0
  | t :: rest => do
    if ← signatureIs m signature t then some t else firstSigned m signature rest

theorem scanEntries_eq {entry : Nat → Option Nat} {i : Nat}
    (entries : ∀ k (bound : k < pointers.length), entry (i + k) = some pointers[k]) :
    scanEntries m signature entry pointers.length i = firstSigned m signature pointers := by
  induction pointers generalizing i with
  | nil => rfl
  | cons t rest ih =>
    have first : entry i = some t := entries 0 (Nat.zero_lt_succ _)
    have others : scanEntries m signature entry rest.length (i + 1) = firstSigned m signature rest := by
      apply ih
      intro k bound
      have shifted := entries (k + 1) (Nat.succ_lt_succ bound)
      rw [Nat.add_right_comm, Nat.add_assoc]
      exact shifted
    simp only [List.length_cons, scanEntries, firstSigned, first, others, Option.bind_eq_bind,
      Option.bind_some]

theorem signed_nonnull (signed : signatureIs m signature v = some true) : v ≠ 0 := by
  rintro rfl
  -- the first character would have been read through the null pointer
  have fault : m.byte (wrap64 0) = none := m.null
  simp [signatureIs, sameChars, fault] at signed

theorem IsFirstSigned.nonnull (first : IsFirstSigned m signature pointers v) : v ≠ 0 := by
  obtain ⟨_, _, _, _, signed⟩ := first
  exact signed_nonnull signed

theorem firstSigned_cons : firstSigned m signature (t :: pointers) =
    (signatureIs m signature t).bind fun found =>
      if found then some t else firstSigned m signature pointers := rfl

theorem noneSigned_cons : NoneSigned m signature (t :: pointers) ↔
    signatureIs m signature t = some false ∧ NoneSigned m signature pointers :=
  List.forall_mem_cons

theorem isFirstSigned_cons : IsFirstSigned m signature (t :: pointers) v ↔
    signatureIs m signature t = some true ∧ v = t ∨
    signatureIs m signature t = some false ∧ IsFirstSigned m signature pointers v := by
  constructor
  · rintro ⟨before, after, split, others, signed⟩
    cases before with
    | nil =>
      obtain ⟨rfl, rfl⟩ := List.cons.inj split
      exact .inl ⟨signed, rfl⟩
    | cons u before =>
      obtain ⟨rfl, rfl⟩ := List.cons.inj split
      obtain ⟨shown, rest⟩ := noneSigned_cons.mp others
      exact .inr ⟨shown, before, after, rfl, rest, signed⟩
  · rintro (⟨signed, rfl⟩ | ⟨shown, before, after, rfl, others, signed⟩)
    · exact ⟨[], pointers, rfl, by simp [NoneSigned], signed⟩
    · exact ⟨t :: before, after, rfl, noneSigned_cons.mpr ⟨shown, others⟩, signed⟩

/-- What a scan returns. -/
theorem firstSigned_eq_some : firstSigned m signature pointers = some v ↔
    NoneSigned m signature pointers ∧ v = 0 ∨ IsFirstSigned m signature pointers v := by
  induction pointers with
  | nil => simp [firstSigned, NoneSigned, IsFirstSigned, eq_comm]
  | cons t rest ih =>
    rw [firstSigned_cons, noneSigned_cons, isFirstSigned_cons]
    -- a fault, a hit and a miss at the first pointer
    cases signatureIs m signature t with
    | none => simp
    | some found =>
      cases found with
      | true => simp [eq_comm]
      | false => simpa using ih

/-- The signature at a pointer can be read. -/
def Readable (m : Space) (t : Nat) : Prop := ∀ i : Fin 4, (m.byte (wrap64 (t + i))).isSome

theorem Readable.signatureIs (readable : Readable m t) (signature : Fin 4 → UInt8) :
    ∃ found, signatureIs m signature t = some found := by
  unfold DedOS.signatureIs
  induction ([0, 1, 2, 3] : List (Fin 4)) with
  | nil => exact ⟨true, rfl⟩
  | cons i rest ih =>
    obtain ⟨c, byte⟩ := Option.isSome_iff_exists.mp (readable i)
    simp only [sameChars, byte, Option.bind_eq_bind, Option.bind_some]
    split
    · exact ih
    · exact ⟨false, rfl⟩

theorem firstSigned_total (signature : Fin 4 → UInt8) (readable : ∀ t ∈ pointers, Readable m t) :
    ∃ v, firstSigned m signature pointers = some v := by
  induction pointers with
  | nil => exact ⟨0, rfl⟩
  | cons t rest ih =>
    obtain ⟨first, others⟩ := List.forall_mem_cons.mp readable
    obtain ⟨found, shown⟩ := first.signatureIs signature
    rw [firstSigned_cons, shown, Option.bind_some]
    cases found with
    | true => exact ⟨t, rfl⟩
    | false => exact ih others

/-! ### The two root tables -/

/-- The root table at `root` has one entry of `width` bytes for each of the listed tables. -/
structure Lists (m : Space) (width root : Nat) (tables : List Nat) : Prop where
  nonnull : root ≠ 0
  length : m.load 4 (root + 4) = some (sdtHeaderSize + width * tables.length)
  entries : ∀ i (bound : i < tables.length), rootEntry m width root i = some tables[i]

theorem Space.load_lt {n a value : Nat} (loaded : m.load n a = some value) : value < 256 ^ n := by
  induction n generalizing a value with
  | zero =>
    obtain rfl := Option.some.inj loaded
    simp
  | succ n ih =>
    simp only [Space.load, Option.bind_eq_bind, Option.bind_eq_some_iff, Option.some.injEq] at loaded
    obtain ⟨low, _, high, rest, rfl⟩ := loaded
    have byte : low.toNat < 256 := low.toNat_lt
    have bound := ih rest
    rw [Nat.pow_succ]
    omega

theorem Lists.count {width : Nat} (positive : 0 < width) (lists : Lists m width root tables) :
    entryCount width (sdtHeaderSize + width * tables.length) = tables.length := by
  have bound := Space.load_lt lists.length
  have cut : wrap64 (sdtHeaderSize + width * tables.length + (2 ^ 64 - sdtHeaderSize)) =
      width * tables.length := by
    simp only [wrap64, sdtHeaderSize] at *
    omega
  rw [entryCount, cut, Nat.mul_div_cancel_left _ positive]

theorem find_xsdt (lists : Lists m 8 root tables) :
    acpiFindTable m hhdm { rsdt := 0, xsdt := root } signature = firstSigned m signature tables := by
  have scanned : scanEntries m signature (rootEntry m 8 root) tables.length 0 =
      firstSigned m signature tables := by
    apply scanEntries_eq
    intro k bound
    rw [Nat.zero_add]
    exact lists.entries k bound
  have count := lists.count (by decide : 0 < 8)
  rw [acpiFindTable, if_pos lists.nonnull, lists.length, Option.bind_eq_bind, Option.bind_some,
    count, scanned]

theorem find_rsdt (lists : Lists m 4 root tables) :
    acpiFindTable m hhdm { rsdt := root, xsdt := 0 } signature =
      firstSigned m signature (tables.map (physToVirt hhdm)) := by
  have scanned : scanEntries m signature (fun i => (rootEntry m 4 root i).map (physToVirt hhdm))
      (tables.map (physToVirt hhdm)).length 0 =
      firstSigned m signature (tables.map (physToVirt hhdm)) := by
    apply scanEntries_eq
    intro k bound
    rw [List.length_map] at bound
    rw [Nat.zero_add, lists.entries k bound, Option.map_some, List.getElem_map]
  have count := lists.count (by decide : 0 < 4)
  rw [List.length_map] at scanned
  rw [acpiFindTable, if_neg (not_not_intro rfl), if_pos lists.nonnull, lists.length,
    Option.bind_eq_bind, Option.bind_some, count, scanned]

/-- An RSDT lists addresses below 4 GiB. -/
theorem Lists.below (lists : Lists m 4 root tables) (member : t ∈ tables) : t < 2 ^ 32 := by
  obtain ⟨i, bound, rfl⟩ := List.getElem_of_mem member
  exact Space.load_lt (lists.entries i bound)

/-- Without an offset the direct map shows a table at its physical address. -/
theorem physToVirt_zero (unshifted : wrap64 hhdm = 0) (below : t < 2 ^ 32) :
    physToVirt hhdm t = t := by
  simp only [physToVirt, wrap64] at *
  omega

theorem map_physToVirt_zero (unshifted : wrap64 hhdm = 0) (lists : Lists m 4 root tables) :
    tables.map (physToVirt hhdm) = tables :=
  calc tables.map (physToVirt hhdm) = tables.map id :=
        List.map_congr_left fun _ member => physToVirt_zero unshifted (lists.below member)
    _ = tables := List.map_id tables

/-- No listed table carries the signature, and no listed address shows it when it is read
without the offset. -/
def Unsigned (m : Space) (hhdm : Nat) (signature : Fin 4 → UInt8) (tables : List Nat) : Prop :=
  NoneSigned m signature tables ∧ NoneSigned m signature (tables.map (physToVirt hhdm))

/-- The first table that carries the signature is seen at an address that is listed too, and
no address listed before that one shows the signature. -/
def Overlaid (m : Space) (hhdm : Nat) (signature : Fin 4 → UInt8) (tables : List Nat) : Prop :=
  ∃ t before after, tables = before ++ t :: after ∧
    NoneSigned m signature (before.map (physToVirt hhdm)) ∧
    signatureIs m signature (physToVirt hhdm t) = some true ∧
    ∃ before' after', tables = before' ++ physToVirt hhdm t :: after' ∧
      NoneSigned m signature before'

theorem overlaid_iff : Overlaid m hhdm signature tables ↔
    ∃ v, IsFirstSigned m signature tables v ∧
      IsFirstSigned m signature (tables.map (physToVirt hhdm)) v := by
  constructor
  · rintro ⟨t, before, after, split, others, signed, before', after', split', others'⟩
    refine ⟨physToVirt hhdm t, ⟨before', after', split', others', signed⟩, ?_⟩
    exact ⟨before.map (physToVirt hhdm), after.map (physToVirt hhdm), by simp [split], others, signed⟩
  · rintro ⟨v, ⟨before', after', split', others', _⟩, mapped, rest, split, others, signed⟩
    obtain ⟨before, tail, rfl, rfl, shown⟩ := List.map_eq_append_iff.mp split
    obtain ⟨t, after, rfl, rfl, rfl⟩ := List.map_eq_cons_iff.mp shown
    exact ⟨t, before, after, rfl, others, signed, before', after', split', others'⟩

/-- With the direct map in the upper half no listed address is one of its own. -/
theorem not_overlaid (upper : 2 ^ 32 ≤ hhdm) (below : hhdm + 2 ^ 32 ≤ 2 ^ 64)
    (lists : Lists m 4 root tables) : ¬ Overlaid m hhdm signature tables := by
  rintro ⟨t, before, after, split, _, _, before', after', split', _⟩
  have low : t < 2 ^ 32 := lists.below (by simp [split])
  have high : physToVirt hhdm t < 2 ^ 32 := lists.below (by rw [split']; simp)
  simp only [physToVirt, wrap64] at high
  omega

end Lookup

/-- The lookup through an XSDT and the one through an RSDT of the same tables give the same
pointer. -/
theorem find_table_agrees_iff (m : Space) (hhdm xsdp rsdp xsdt rsdt : Nat) (tables : List Nat)
    (signature : Fin 4 → UInt8)
    (xsdt_selected : acpiInit m hhdm xsdp Acpi.bss = some { rsdt := 0, xsdt := xsdt })
    (rsdt_selected : acpiInit m hhdm rsdp Acpi.bss = some { rsdt := rsdt, xsdt := 0 })
    (xsdt_lists : Lists m 8 xsdt tables) (rsdt_lists : Lists m 4 rsdt tables)
    (contents : ∀ t ∈ tables, Readable m (physToVirt hhdm t)) :
    ((acpiInit m hhdm xsdp Acpi.bss).bind fun s => acpiFindTable m hhdm s signature) =
      ((acpiInit m hhdm rsdp Acpi.bss).bind fun s => acpiFindTable m hhdm s signature) ↔
    wrap64 hhdm = 0 ∨ Unsigned m hhdm signature tables ∨ Overlaid m hhdm signature tables := by
  rw [xsdt_selected, rsdt_selected, Option.bind_some, Option.bind_some, find_xsdt xsdt_lists,
    find_rsdt rsdt_lists]
  have readable : ∀ v ∈ tables.map (physToVirt hhdm), Readable m v := by
    simpa using contents
  obtain ⟨v, found⟩ := firstSigned_total signature readable
  constructor
  · intro same
    rw [found] at same
    rcases firstSigned_eq_some.mp same with ⟨none, null⟩ | first
    · rcases firstSigned_eq_some.mp found with ⟨none', _⟩ | first'
      · exact .inr (.inl ⟨none, none'⟩)
      · exact absurd null first'.nonnull
    · rcases firstSigned_eq_some.mp found with ⟨_, null⟩ | first'
      · exact absurd null first.nonnull
      · exact .inr (.inr (overlaid_iff.mpr ⟨v, first, first'⟩))
  · rintro (unshifted | ⟨none, none'⟩ | overlaid)
    · rw [map_physToVirt_zero unshifted rsdt_lists]
    · rw [firstSigned_eq_some.mpr (.inl ⟨none, rfl⟩), firstSigned_eq_some.mpr (.inl ⟨none', rfl⟩)]
    · obtain ⟨v, first, first'⟩ := overlaid_iff.mp overlaid
      rw [firstSigned_eq_some.mpr (.inr first), firstSigned_eq_some.mpr (.inr first')]

/-- A page of firmware data at 0x1000 behind a direct map at 0xffff800000000000: an RSDP of
revision 2 at 0x1000, one of revision 0 at 0x1030, the XSDT at 0x1100 and the RSDT at 0x1200,
both with one entry for the table `APIC` at 0x1300. -/
def firmwareByte : Nat → UInt8
  | 0x00F => 2
  | 0x019 => 0x11
  | 0x041 => 0x12
  | 0x104 => 44
  | 0x125 => 0x13
  | 0x204 => 40
  | 0x225 => 0x13
  | 0x300 => 0x41
  | 0x301 => 0x50
  | 0x302 => 0x49
  | 0x303 => 0x43
  | _ => 0

def firmware : Space where
  byte a := if 0xffff800000001000 ≤ a ∧ a < 0xffff800000002000 then
    some (firmwareByte (a - 0xffff800000001000)) else none
  null := rfl

def apic : Fin 4 → UInt8 := ![0x41, 0x50, 0x49, 0x43]

theorem firmware_xsdt : Lists firmware 8 0xffff800000001100 [0x1300] where
  nonnull := by decide
  length := by decide +kernel
  entries := by decide +kernel

theorem firmware_rsdt : Lists firmware 4 0xffff800000001200 [0x1300] where
  nonnull := by decide
  length := by decide +kernel
  entries := by decide +kernel

/-- The XSDT entry is followed without the offset, to an address that is not mapped. -/
theorem find_table_differs :
    acpiInit firmware 0xffff800000000000 0xffff800000001000 Acpi.bss =
      some { rsdt := 0, xsdt := 0xffff800000001100 } ∧
    acpiInit firmware 0xffff800000000000 0xffff800000001030 Acpi.bss =
      some { rsdt := 0xffff800000001200, xsdt := 0 } ∧
    Lists firmware 8 0xffff800000001100 [0x1300] ∧ Lists firmware 4 0xffff800000001200 [0x1300] ∧
    Readable firmware (physToVirt 0xffff800000000000 0x1300) ∧
    acpiFindTable firmware 0xffff800000000000 { rsdt := 0, xsdt := 0xffff800000001100 } apic =
      none ∧
    acpiFindTable firmware 0xffff800000000000 { rsdt := 0xffff800000001200, xsdt := 0 } apic =
      some 0xffff800000001300 := by
  refine ⟨by decide +kernel, by decide +kernel, firmware_xsdt, firmware_rsdt, ?_, ?_, ?_⟩
  · unfold Readable
    decide +kernel
  · decide +kernel
  · decide +kernel

theorem find_table_agrees_iff_firmware :
    ((acpiInit firmware 0xffff800000000000 0xffff800000001000 Acpi.bss).bind fun s =>
        acpiFindTable firmware 0xffff800000000000 s apic) =
      ((acpiInit firmware 0xffff800000000000 0xffff800000001030 Acpi.bss).bind fun s =>
        acpiFindTable firmware 0xffff800000000000 s apic) ↔
    wrap64 0xffff800000000000 = 0 ∨ Unsigned firmware 0xffff800000000000 apic [0x1300] ∨
      Overlaid firmware 0xffff800000000000 apic [0x1300] := by
  apply find_table_agrees_iff firmware 0xffff800000000000 0xffff800000001000 0xffff800000001030
    0xffff800000001100 0xffff800000001200 [0x1300] apic
  · decide +kernel
  · decide +kernel
  · exact firmware_xsdt
  · exact firmware_rsdt
  · unfold Readable
    decide +kernel

end DedOS
