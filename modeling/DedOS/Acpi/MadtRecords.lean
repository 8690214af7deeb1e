import DedOS.Acpi.Madt
import DedOS.Lib.Encoding
import DedOS.Lib.Table

/-!
# What a MADT encodes

Records as the firmware lays them out one after the other, each with a type, a length and the
fields of its type, and possibly more bytes than those. The walk of `madt_init` is a decoder:
it leaves the statics that the records stand for.
-/

namespace DedOS

open Lib Logged

/-! ### Records -/

/-- The members of an entry behind its type and length, in the order of the structures of
`madt.h`. -/
inductive MadtBody where
  | lapic (processorId apicId : UInt8) (flags : UInt32)
  | ioapic (ioapicId reserved : UInt8) (ioapicAddress gsiBase : UInt32)
  | iso (bus irq : UInt8) (gsi : UInt32) (flags : UInt16)
  | lapicNmi (processorId : UInt8) (flags : UInt16) (lint : UInt8)
  /-- any other type; the bytes behind the length are not the kernel's business -/
  | other (type : UInt8) (unknown : type ≠ 0 ∧ type ≠ 1 ∧ type ≠ 2 ∧ type ≠ 4)

namespace MadtBody

def type : MadtBody → UInt8
  | lapic .. => 0
  | ioapic .. => 1
  | iso .. => 2
  | lapicNmi .. => 4
  | other type _ => type

def fields : MadtBody → List UInt8
  | lapic processorId apicId flags => processorId :: apicId :: leBytes 4 flags.toNat
  | ioapic ioapicId reserved ioapicAddress gsiBase =>
    ioapicId :: reserved :: (leBytes 4 ioapicAddress.toNat ++ leBytes 4 gsiBase.toNat)
  | iso bus irq gsi flags => bus :: irq :: (leBytes 4 gsi.toNat ++ leBytes 2 flags.toNat)
  | lapicNmi processorId flags lint => processorId :: (leBytes 2 flags.toNat ++ [lint])
  | other .. => []

/-- The APIC id of an enabled CPU. -/
def enabledCpu : MadtBody → Option UInt8
  | lapic _ apicId flags => if flags &&& 1 ≠ 0 then some apicId else none
  | _ => none

/-- The address and the GSI base of an I/O APIC. -/
def ioapicData : MadtBody → Option (UInt32 × UInt32)
  | ioapic _ _ ioapicAddress gsiBase => some (ioapicAddress, gsiBase)
  | _ => none

def isIso : MadtBody → Bool
  | iso .. => true
  | _ => false

end MadtBody

/-- An entry: its members and what its length counts beyond them. -/
structure MadtRecord where
  body : MadtBody
  extra : List UInt8
  small : 2 + body.fields.length + extra.length < 256

namespace MadtRecord

/-- The value of the length byte. -/
def size (r : MadtRecord) : Nat := 2 + r.body.fields.length + r.extra.length

def encode (r : MadtRecord) : List UInt8 :=
  r.body.type :: UInt8.ofNat r.size :: (r.body.fields ++ r.extra)

theorem length_encode (r : MadtRecord) : r.encode.length = r.size := by
  simp only [encode, List.length_cons, List.length_append, size]
  omega

theorem size_toNat (r : MadtRecord) : (UInt8.ofNat r.size).toNat = r.size := by
  rw [UInt8.toNat_ofNat']
  exact Nat.mod_eq_of_lt r.small

end MadtRecord

def encodeRecords (records : List MadtRecord) : List UInt8 := records.flatMap MadtRecord.encode

/-- A MADT with these entries: they lie behind the header, which declares a length that ends
with the last of them. -/
structure EncodesMadt (table : Memory) (records : List MadtRecord) : Prop where
  length : tableLength table = madtSize + (encodeRecords records).length
  bytes : BytesAt table madtSize (encodeRecords records)

/-- Where the entries of type 2 are, the first record being at `ptr`. -/
def isoOffsets : Nat → List MadtRecord → List Nat
  | _, [] => []
  | ptr, r :: records =>
    (if r.body.isIso then [ptr] else []) ++ isoOffsets (ptr + r.size) records

def enabledCpus (records : List MadtRecord) : List UInt8 :=
  records.filterMap fun r => r.body.enabledCpu

/-- The last I/O APIC, or zeroes. -/
def lastIoapic (records : List MadtRecord) : UInt32 × UInt32 :=
  ((records.filterMap fun r => r.body.ioapicData).getLast?).getD (0, 0)

/-- The statics stand for the records: the first 16 enabled CPUs and overrides, in order, and
the last I/O APIC. -/
structure Decoded (records : List MadtRecord) (s : Madt) : Prop where
  cpus : Takes s.lapicIds s.cpuCount.toNat 0 (enabledCpus records)
  isos : Takes s.isos s.isoCount.toNat none ((isoOffsets madtSize records).map some)
  ioapicAddr : s.ioapicAddr = (lastIoapic records).1.toNat
  ioapicGsiBase : s.ioapicGsiBase = (lastIoapic records).2.toNat

variable {table : Memory} {ptr stop : Nat} {s : Madt} {r : MadtRecord} {done rest : List MadtRecord}

/-! ### One more record -/

theorem encodeRecords_cons : encodeRecords (r :: rest) = r.encode ++ encodeRecords rest := by
  simp [encodeRecords]

theorem encodeRecords_append :
    encodeRecords (done ++ rest) = encodeRecords done ++ encodeRecords rest := by
  simp [encodeRecords]

theorem isoOffsets_append : isoOffsets ptr (done ++ [r]) = isoOffsets ptr done ++
    if r.body.isIso then [ptr + (encodeRecords done).length] else [] := by
  induction done generalizing ptr with
  | nil => simp [isoOffsets, encodeRecords]
  | cons first done ih =>
    have shifted : ptr + first.size + (encodeRecords done).length =
        ptr + (encodeRecords (first :: done)).length := by
      rw [encodeRecords_cons, List.length_append, first.length_encode, Nat.add_assoc]
    rw [List.cons_append, isoOffsets, ih, shifted, isoOffsets, List.append_assoc]

theorem enabledCpus_append :
    enabledCpus (done ++ [r]) = enabledCpus done ++ r.body.enabledCpu.toList := by
  cases present : r.body.enabledCpu <;> simp [enabledCpus, present]

theorem lastIoapic_append :
    lastIoapic (done ++ [r]) = r.body.ioapicData.getD (lastIoapic done) := by
  cases present : r.body.ioapicData <;> simp [lastIoapic, present]

theorem Decoded.bss : Decoded [] Madt.bss where
  cpus := Takes.nil 0
  isos := Takes.nil none
  ioapicAddr := rfl
  ioapicGsiBase := rfl

theorem Decoded.lapicAddr (decoded : Decoded done s) (address : Nat) :
    Decoded done { s with lapicAddr := address } :=
  ⟨decoded.cpus, decoded.isos, decoded.ioapicAddr, decoded.ioapicGsiBase⟩

/-- A record that stands for nothing leaves the statics as they are. -/
theorem Decoded.skip (decoded : Decoded done s) (noCpu : r.body.enabledCpu = none)
    (noIoapic : r.body.ioapicData = none) (noIso : r.body.isIso = false) :
    Decoded (done ++ [r]) s where
  cpus := by simpa [enabledCpus_append, noCpu] using decoded.cpus
  isos := by simpa [isoOffsets_append, noIso] using decoded.isos
  ioapicAddr := by simpa [lastIoapic_append, noIoapic] using decoded.ioapicAddr
  ioapicGsiBase := by simpa [lastIoapic_append, noIoapic] using decoded.ioapicGsiBase

@[simp] theorem pushLapic_isos (s : Madt) (id : Nat) : (s.pushLapic id).isos = s.isos := by
  unfold Madt.pushLapic
  split <;> rfl

@[simp] theorem pushLapic_isoCount (s : Madt) (id : Nat) :
    (s.pushLapic id).isoCount = s.isoCount := by
  unfold Madt.pushLapic
  split <;> rfl

@[simp] theorem pushLapic_ioapicAddr (s : Madt) (id : Nat) :
    (s.pushLapic id).ioapicAddr = s.ioapicAddr := by
  unfold Madt.pushLapic
  split <;> rfl

@[simp] theorem pushLapic_ioapicGsiBase (s : Madt) (id : Nat) :
    (s.pushLapic id).ioapicGsiBase = s.ioapicGsiBase := by
  unfold Madt.pushLapic
  split <;> rfl

@[simp] theorem pushIso_lapicIds (s : Madt) (iso : Nat) : (s.pushIso iso).lapicIds = s.lapicIds := by
  unfold Madt.pushIso
  split <;> rfl

@[simp] theorem pushIso_cpuCount (s : Madt) (iso : Nat) : (s.pushIso iso).cpuCount = s.cpuCount := by
  unfold Madt.pushIso
  split <;> rfl

@[simp] theorem pushIso_ioapicAddr (s : Madt) (iso : Nat) :
    (s.pushIso iso).ioapicAddr = s.ioapicAddr := by
  unfold Madt.pushIso
  split <;> rfl

@[simp] theorem pushIso_ioapicGsiBase (s : Madt) (iso : Nat) :
    (s.pushIso iso).ioapicGsiBase = s.ioapicGsiBase := by
  unfold Madt.pushIso
  split <;> rfl

theorem pushLapic_takes {ids : List UInt8} (takes : Takes s.lapicIds s.cpuCount.toNat 0 ids)
    (id : UInt8) : Takes (s.pushLapic id.toNat).lapicIds (s.pushLapic id.toNat).cpuCount.toNat 0
      (ids ++ [id]) := by
  unfold Madt.pushLapic
  split
  next room => simpa [succ_toNat room] using takes.push room
  next full => exact takes.full full

theorem pushIso_takes {isos : List (Option Nat)}
    (takes : Takes s.isos s.isoCount.toNat none isos) (iso : Nat) :
    Takes (s.pushIso iso).isos (s.pushIso iso).isoCount.toNat none (isos ++ [some iso]) := by
  unfold Madt.pushIso
  split
  next room => simpa [succ_toNat room] using takes.push room
  next full => exact takes.full full

/-- An enabled CPU is offered to `lapic_ids`. -/
theorem Decoded.pushLapic (decoded : Decoded done s) {id : UInt8}
    (cpu : r.body.enabledCpu = some id) (noIoapic : r.body.ioapicData = none)
    (noIso : r.body.isIso = false) : Decoded (done ++ [r]) (s.pushLapic id.toNat) where
  cpus := by simpa [enabledCpus_append, cpu] using pushLapic_takes decoded.cpus id
  isos := by simpa [isoOffsets_append, noIso] using decoded.isos
  ioapicAddr := by simpa [lastIoapic_append, noIoapic] using decoded.ioapicAddr
  ioapicGsiBase := by simpa [lastIoapic_append, noIoapic] using decoded.ioapicGsiBase

/-- An override is offered to `isos`. -/
theorem Decoded.pushIso (decoded : Decoded done s) (noCpu : r.body.enabledCpu = none)
    (noIoapic : r.body.ioapicData = none) (iso : r.body.isIso = true) :
    Decoded (done ++ [r]) (s.pushIso (madtSize + (encodeRecords done).length)) where
  cpus := by simpa [enabledCpus_append, noCpu] using decoded.cpus
  isos := by simpa [isoOffsets_append, iso] using pushIso_takes decoded.isos _
  ioapicAddr := by simpa [lastIoapic_append, noIoapic] using decoded.ioapicAddr
  ioapicGsiBase := by simpa [lastIoapic_append, noIoapic] using decoded.ioapicGsiBase

/-- A later I/O APIC takes the place of an earlier one. -/
theorem Decoded.setIoapic (decoded : Decoded done s) {address gsiBase : UInt32}
    (noCpu : r.body.enabledCpu = none) (ioapic : r.body.ioapicData = some (address, gsiBase))
    (noIso : r.body.isIso = false) : Decoded (done ++ [r])
      { s with ioapicAddr := address.toNat, ioapicGsiBase := gsiBase.toNat } where
  cpus := by simpa [enabledCpus_append, noCpu] using decoded.cpus
  isos := by simpa [isoOffsets_append, noIso] using decoded.isos
  ioapicAddr := by simp [lastIoapic_append, ioapic]
  ioapicGsiBase := by simp [lastIoapic_append, ioapic]

/-! ### The `switch` on an encoded record -/

theorem madtEntry_lapic (kind : (table ptr).toNat = 0) : (madtEntry table ptr s).result =
    .ok (if load 4 table (ptr + 4) &&& 1 ≠ 0 then s.pushLapic (table (ptr + 3)).toNat else s) := by
  rw [madtEntry, result_bind_ok readBytes_result, load_one, kind]
  simp only [result_bind_ok readBytes_result]
  by_cases enabled : load 4 table (ptr + 4) &&& 1 ≠ 0
  · by_cases room : s.cpuCount.toNat < maxCpus
    · rw [if_pos ⟨enabled, room⟩, if_pos enabled, result_bind_ok readBytes_result,
        result_bind_ok readBytes_result, result_bind_ok readBytes_result, load_one]
      rfl
    · -- without room `pushLapic` does nothing either
      rw [if_neg (fun both => room both.2), if_pos enabled, Madt.pushLapic, dif_neg room]
      rfl
  · rw [if_neg (fun both => enabled both.1), if_neg enabled]
    rfl

theorem madtEntry_ioapic (kind : (table ptr).toNat = 1) : (madtEntry table ptr s).result =
    .ok { s with
      ioapicAddr := load 4 table (ptr + 4), ioapicGsiBase := load 4 table (ptr + 8) } := by
  rw [madtEntry, result_bind_ok readBytes_result, load_one, kind]
  simp only [result_bind_ok readBytes_result, result_pure]

theorem madtEntry_iso (kind : (table ptr).toNat = 2) :
    (madtEntry table ptr s).result = .ok (s.pushIso ptr) := by
  rw [madtEntry, result_bind_ok readBytes_result, load_one, kind]
  simp only [result_bind_ok readBytes_result, result_pure]

/-- The other entries are only logged. -/
theorem madtEntry_logged (lapic : (table ptr).toNat ≠ 0) (ioapic : (table ptr).toNat ≠ 1)
    (iso : (table ptr).toNat ≠ 2) : (madtEntry table ptr s).result = .ok s := by
  rw [madtEntry, result_bind_ok readBytes_result, load_one]
  split
  next zero => exact absurd zero lapic
  next one => exact absurd one ioapic
  next two => exact absurd two iso
  · rw [result_bind_ok readBytes_result, result_bind_ok readBytes_result]
    rfl
  · rw [result_bind_ok readBytes_result]
    rfl

theorem flags_and_one (flags : UInt32) : flags.toNat &&& 1 ≠ 0 ↔ flags &&& 1 ≠ 0 := by
  rw [← UInt32.toNat_inj.ne, UInt32.toNat_and]
  rfl

/-- Where the parts of an encoded record are. -/
theorem MadtRecord.parts (here : BytesAt table ptr r.encode) :
    table ptr = r.body.type ∧ (table (ptr + 1)).toNat = r.size ∧
      BytesAt table (ptr + 2) r.body.fields := by
  obtain ⟨type, length, rest⟩ := here
  exact ⟨type, by rw [length, r.size_toNat], (bytesAt_append.mp rest).1⟩

/-- The `switch` decodes one more record. -/
theorem Decoded.entry (decoded : Decoded done s)
    (here : BytesAt table (madtSize + (encodeRecords done).length) r.encode) :
    ∃ s', (madtEntry table (madtSize + (encodeRecords done).length) s).result = .ok s' ∧
      Decoded (done ++ [r]) s' := by
  obtain ⟨kind, -, fields⟩ := MadtRecord.parts here
  generalize position : madtSize + (encodeRecords done).length = ptr at *
  obtain ⟨body, extra, small⟩ := r
  cases body with
  | lapic processorId apicId flags =>
    obtain ⟨-, id, more⟩ := fields
    have flagsRead := load_leBytes more flags.toNat_lt
    rw [madtEntry_lapic (by rw [kind]; rfl), flagsRead, id]
    by_cases enabled : flags &&& 1 ≠ 0
    · rw [if_pos ((flags_and_one flags).mpr enabled)]
      refine ⟨_, rfl, decoded.pushLapic ?_ rfl rfl⟩
      simp [MadtBody.enabledCpu, enabled]
    · rw [if_neg (mt (flags_and_one flags).mp enabled)]
      refine ⟨_, rfl, decoded.skip ?_ rfl rfl⟩
      simpa [MadtBody.enabledCpu] using enabled
  | ioapic ioapicId reserved ioapicAddress gsiBase =>
    obtain ⟨-, -, more⟩ := fields
    obtain ⟨address, base⟩ := bytesAt_append.mp more
    have addressRead := load_leBytes address ioapicAddress.toNat_lt
    have baseRead := load_leBytes base gsiBase.toNat_lt
    rw [length_leBytes] at baseRead
    rw [madtEntry_ioapic (by rw [kind]; rfl), addressRead, baseRead]
    exact ⟨_, rfl, decoded.setIoapic rfl rfl rfl⟩
  | iso bus irq gsi flags =>
    rw [madtEntry_iso (by rw [kind]; rfl), ← position]
    exact ⟨_, rfl, decoded.pushIso rfl rfl rfl⟩
  | lapicNmi processorId flags lint =>
    refine ⟨s, madtEntry_logged ?_ ?_ ?_, decoded.skip rfl rfl rfl⟩
    all_goals simp [kind, MadtBody.type]
  | other type unknown =>
    obtain ⟨notLapic, notIoapic, notIso, _⟩ := unknown
    refine ⟨s, madtEntry_logged ?_ ?_ ?_, decoded.skip rfl rfl rfl⟩
    · rw [kind]
      exact fun same => notLapic (UInt8.toNat_inj.mp same)
    · rw [kind]
      exact fun same => notIoapic (UInt8.toNat_inj.mp same)
    · rw [kind]
      exact fun same => notIso (UInt8.toNat_inj.mp same)

/-! ### The walk -/

/-- The walk over the remaining records decodes them; it needs a round for each of them and
one to see the end. -/
theorem Decoded.walk (decoded : Decoded done s)
    (ends : stop = madtSize + (encodeRecords (done ++ rest)).length)
    (here : BytesAt table (madtSize + (encodeRecords done).length) (encodeRecords rest)) :
    ∃ s', (madtFrom table stop (rest.length + 1) (madtSize + (encodeRecords done).length) s).result =
      .ok s' ∧ Decoded (done ++ rest) s' := by
  induction rest generalizing done s with
  | nil =>
    rw [List.append_nil] at ends ⊢
    refine ⟨s, ?_, decoded⟩
    rw [madtFrom, if_neg (by omega), result_pure]
  | cons r rest ih =>
    rw [encodeRecords_cons] at here
    obtain ⟨first, others⟩ := bytesAt_append.mp here
    obtain ⟨s₁, result, decoded₁⟩ := decoded.entry first
    obtain ⟨-, length, -⟩ := MadtRecord.parts first
    -- the next record starts where this one ends
    have next : madtSize + (encodeRecords done).length + r.size =
        madtSize + (encodeRecords (done ++ [r])).length := by
      simp [encodeRecords, r.length_encode, Nat.add_assoc]
    rw [r.length_encode, next] at others
    have split : done ++ r :: rest = done ++ [r] ++ rest := by simp
    rw [split] at ends ⊢
    obtain ⟨s', result', decoded'⟩ := ih decoded₁ ends others
    refine ⟨s', ?_, decoded'⟩
    have more : madtSize + (encodeRecords done).length < stop := by
      have positive : 0 < r.size := by
        rw [MadtRecord.size]
        omega
      rw [ends, encodeRecords_append, List.length_append, ← Nat.add_assoc, ← next]
      omega
    rw [List.length_cons, madtFrom, if_pos more, result_bind_ok result,
      result_bind_ok readBytes_result, load_one, length, next]
    exact result'

/-- `madt_init` decodes what the table encodes. -/
theorem madt_decodes (table : Memory) (records : List MadtRecord)
    (encoded : EncodesMadt table records) : ∃ s enough,
      (∀ fuel ≥ enough, (madtInit fuel (some table) Madt.bss).result = .ok s) ∧
        Decoded records s := by
  have start := Decoded.bss.lapicAddr (load 4 table 36)
  have all : tableLength table = madtSize + (encodeRecords ([] ++ records)).length := encoded.length
  obtain ⟨s, result, decoded⟩ := start.walk all encoded.bytes
  refine ⟨s, records.length + 1, fun fuel enough => ?_, decoded⟩
  obtain ⟨header, -, init⟩ := madtInit_eq fuel table Madt.bss
  rw [init]
  exact madtFrom_mono result enough

theorem oneCpu_small :
    2 + (MadtBody.lapic 0 0 1).fields.length + ([] : List UInt8).length < 256 := by decide

/-- The entry of `oneCpuTable`. -/
def oneCpuRecord : MadtRecord where
  body := .lapic 0 0 1
  extra := []
  small := oneCpu_small

theorem madt_decodes_one_cpu : ∃ s enough,
    (∀ fuel ≥ enough, (madtInit fuel (some oneCpuTable) Madt.bss).result = .ok s) ∧
      Decoded [oneCpuRecord] s := by
  apply madt_decodes
  constructor
  · decide +kernel
  · decide +kernel

end DedOS
