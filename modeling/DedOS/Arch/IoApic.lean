import DedOS.Lib.Trace
import Mathlib.Logic.Function.Basic

/-!
# `ioapic.c`

The I/O APIC is reached through two registers: one selects an internal register, the other one
is a window onto it. Every entry of the redirection table takes two internal registers, whose
number the driver computes in eight bits.
-/

namespace DedOS

open Lib

/-- The selected register and the internal ones. -/
structure IoApic where
  regSel : UInt8
  register : UInt8 → UInt32

namespace IoApic

/-- `IOAPIC_VER` -/
def versionRegister : UInt8 := 0x01

/-- `IOAPIC_REDTBL` -/
def redTbl : UInt8 := 0x10

/-- `IOAPIC_MASKED` -/
def masked : UInt64 := (1 : UInt64) <<< 16

/-! ### The device -/

/-- The last entry of the table, as the version register gives it. -/
def maxRedir (d : IoApic) : UInt8 := (d.register versionRegister >>> 16 &&& 0xFF).toUInt8

/-- The registers of the table. -/
def InTable (d : IoApic) (reg : UInt8) : Prop :=
  redTbl.toNat ≤ reg.toNat ∧ reg.toNat < redTbl.toNat + 2 * (d.maxRedir.toNat + 1)

instance (d : IoApic) (reg : UInt8) : Decidable (d.InTable reg) := instDecidableAnd

/-- The bits of a register that software cannot write: in the low halves of the entries, whether
the interrupt is being delivered and whether its end is awaited. -/
def statusBits (reg : UInt8) : UInt32 := if reg.toNat % 2 = 0 then 0x5000 else 0

/-- A write through the window. -/
def setWindow (val : UInt32) (d : IoApic) : IoApic :=
  if d.InTable d.regSel then
    let status := statusBits d.regSel
    let val := (val &&& ~~~status) ||| (d.register d.regSel &&& status)
    { d with register := Function.update d.register d.regSel val }
  else if d.regSel = 0 then
    { d with register := Function.update d.register 0 (val &&& 0x0F000000) }
  else d

/-! ### The driver -/

def ioapicRead (reg : UInt8) (d : IoApic) : UInt32 × IoApic :=
  let d := { d with regSel := reg }
  (d.register d.regSel, d)

def ioapicWrite (reg : UInt8) (val : UInt32) (d : IoApic) : IoApic :=
  setWindow val { d with regSel := reg }

def ioapicReadRedir (entry : UInt8) (d : IoApic) : UInt64 × IoApic :=
  let (lo, d) := ioapicRead (redTbl + entry * 2) d
  let (hi, d) := ioapicRead (redTbl + entry * 2 + 1) d
  (lo.toUInt64 ||| (hi.toUInt64 <<< 32), d)

def ioapicWriteRedir (entry : UInt8) (val : UInt64) (d : IoApic) : IoApic :=
  let d := ioapicWrite (redTbl + entry * 2) (val &&& 0xFFFFFFFF).toUInt32 d
  ioapicWrite (redTbl + entry * 2 + 1) (val >>> 32).toUInt32 d

def ioapicRedirect (irq vector : UInt8) (flags : UInt32) (d : IoApic) : IoApic :=
  ioapicWriteRedir irq (vector.toUInt32 ||| flags).toUInt64 d

def ioapicMask (irq : UInt8) (d : IoApic) : IoApic :=
  let (entry, d) := ioapicReadRedir irq d
  ioapicWriteRedir irq (entry ||| masked) d

def ioapicUnmask (irq : UInt8) (d : IoApic) : IoApic :=
  let (entry, d) := ioapicReadRedir irq d
  ioapicWriteRedir irq (entry &&& ~~~masked) d

/-- The loop of `ioapic_init`; `i` is a `uint8_t`. -/
def initLoop (maxRedir : UInt8) : Nat → UInt8 → IoApic → Option IoApic
  | 0, _, _ => none
  | fuel + 1, i, d =>
    if i ≤ maxRedir then initLoop maxRedir fuel (i + 1) (ioapicWriteRedir i masked d)
    else some d

/-- `ioapic_init`, once the registers are mapped. -/
def ioapicInit (fuel : Nat) (d : IoApic) : Option IoApic :=
  let (ver, d) := ioapicRead versionRegister d
  let maxRedir := (ver >>> 16 &&& 0xFF).toUInt8
  initLoop maxRedir fuel 0 d

/-! ### The two registers of an entry -/

def lowRegister (i : UInt8) : UInt8 := redTbl + i * 2

def highRegister (i : UInt8) : UInt8 := redTbl + i * 2 + 1

variable {d : IoApic} {i target : UInt8}

theorem lowRegister_toNat (i : UInt8) :
    (lowRegister i).toNat = (16 + 2 * (i.toNat % 128)) % 256 := by
  have base : redTbl.toNat = 16 := rfl
  have two : (2 : UInt8).toNat = 2 := rfl
  rw [lowRegister, UInt8.toNat_add, UInt8.toNat_mul, base, two]
  omega

theorem highRegister_toNat (i : UInt8) :
    (highRegister i).toNat = (17 + 2 * (i.toNat % 128)) % 256 := by
  have one : (1 : UInt8).toNat = 1 := rfl
  have low := lowRegister_toNat i
  rw [lowRegister] at low
  rw [highRegister, UInt8.toNat_add, low, one]
  omega

/-- The numbers are eight bits wide: entries 128 apart have the same registers. -/
def Same (target i : UInt8) : Prop := target.toNat % 128 = i.toNat % 128

instance (target i : UInt8) : Decidable (Same target i) := Nat.decEq ..

theorem lowRegister_eq_iff : lowRegister target = lowRegister i ↔ Same target i := by
  rw [← UInt8.toNat_inj, lowRegister_toNat, lowRegister_toNat, Same]
  omega

theorem highRegister_eq_iff : highRegister target = highRegister i ↔ Same target i := by
  rw [← UInt8.toNat_inj, highRegister_toNat, highRegister_toNat, Same]
  omega

theorem low_ne_high : lowRegister i ≠ highRegister target := by
  rw [Ne, ← UInt8.toNat_inj, lowRegister_toNat, highRegister_toNat]
  omega

/-- The table has the entry. No device has more than 120, whose registers fit below 0x100. -/
def Has (d : IoApic) (i : UInt8) : Prop := i ≤ d.maxRedir ∧ i.toNat < 120

instance (d : IoApic) (i : UInt8) : Decidable (d.Has i) := instDecidableAnd

theorem Has.low (has : d.Has i) : d.InTable (lowRegister i) := by
  have small := has.2
  have inside := UInt8.le_iff_toNat_le.mp has.1
  have base : redTbl.toNat = 16 := rfl
  rw [InTable, lowRegister_toNat, base]
  omega

theorem Has.high (has : d.Has i) : d.InTable (highRegister i) := by
  have small := has.2
  have inside := UInt8.le_iff_toNat_le.mp has.1
  have base : redTbl.toNat = 16 := rfl
  rw [InTable, highRegister_toNat, base]
  omega

theorem statusBits_low : statusBits (lowRegister i) = 0x5000 := by
  rw [statusBits, if_pos (by rw [lowRegister_toNat]; omega)]

theorem statusBits_high : statusBits (highRegister i) = 0 := by
  rw [statusBits, if_neg (by rw [highRegister_toNat]; omega)]

/-! ### Writes -/

theorem ioapicWrite_eq (target : UInt8) (val : UInt32) (d : IoApic) : ioapicWrite target val d =
    if d.InTable target then
      ⟨target, Function.update d.register target
        ((val &&& ~~~statusBits target) ||| (d.register target &&& statusBits target))⟩
    else if target = 0 then ⟨target, Function.update d.register 0 (val &&& 0x0F000000)⟩
    else ⟨target, d.register⟩ := rfl

/-- What is in the register after a write to `target`. -/
theorem ioapicWrite_register (target reg : UInt8) (val : UInt32) (inside : d.InTable reg) :
    (ioapicWrite target val d).register reg = if target = reg then
      (val &&& ~~~statusBits reg) ||| (d.register reg &&& statusBits reg) else d.register reg := by
  have noId : reg ≠ 0 := by
    rintro rfl
    exact absurd inside.1 (by decide)
  rw [ioapicWrite_eq]
  by_cases here : target = reg
  · subst here
    rw [if_pos inside, if_pos rfl]
    exact Function.update_self ..
  · rw [if_neg here]
    split
    · exact Function.update_of_ne (Ne.symm here) ..
    · split
      · exact Function.update_of_ne noId ..
      · rfl

/-- The version register is not in the table and not the identification. -/
theorem ioapicWrite_version (target : UInt8) (val : UInt32) (d : IoApic) :
    (ioapicWrite target val d).register versionRegister = d.register versionRegister := by
  rw [ioapicWrite_eq]
  split
  next inside =>
    have other : versionRegister ≠ target := by
      rintro rfl
      exact absurd inside.1 (by decide)
    exact Function.update_of_ne other ..
  · split
    · have other : versionRegister ≠ 0 := by decide
      exact Function.update_of_ne other (val &&& 0x0F000000) d.register
    · rfl

@[simp] theorem ioapicWrite_maxRedir (target : UInt8) (val : UInt32) (d : IoApic) :
    (ioapicWrite target val d).maxRedir = d.maxRedir := by
  rw [maxRedir, ioapicWrite_version, maxRedir]

@[simp] theorem ioapicWriteRedir_maxRedir (target : UInt8) (val : UInt64) (d : IoApic) :
    (ioapicWriteRedir target val d).maxRedir = d.maxRedir := by
  simp [ioapicWriteRedir]

/-! ### Entries -/

def join (lo hi : UInt32) : UInt64 := lo.toUInt64 ||| (hi.toUInt64 <<< 32)

/-- The entry as the device keeps it. -/
def entry (d : IoApic) (i : UInt8) : UInt64 :=
  join (d.register (lowRegister i)) (d.register (highRegister i))

/-- The bits of an entry that software sets. -/
def setting (d : IoApic) (i : UInt8) : UInt64 := d.entry i &&& ~~~(0x5000 : UInt32).toUInt64

/-- The two halves that `ioapic_write_redir` writes. -/
theorem join_halves (val : UInt64) :
    join (val &&& 0xFFFFFFFF).toUInt32 (val >>> 32).toUInt32 = val := by
  apply UInt64.eq_of_toBitVec_eq
  apply BitVec.eq_of_getLsbD_eq
  intro i bound
  have mask : ∀ i < 32, (0xFFFFFFFF#64).getLsbD i = true := by decide
  have literal : (0xFFFFFFFF : UInt64).toBitVec = 0xFFFFFFFF#64 := rfl
  have shift : ((32 : UInt64).toBitVec % 64).toNat = 32 := rfl
  simp only [join, UInt64.toBitVec_and, UInt64.toBitVec_or, UInt64.toBitVec_shiftLeft,
    UInt64.toBitVec_shiftRight, UInt64.toBitVec_toUInt32, UInt32.toBitVec_toUInt64,
    BitVec.getLsbD_and, BitVec.getLsbD_or, BitVec.getLsbD_setWidth, BitVec.shiftLeft_eq',
    BitVec.ushiftRight_eq', BitVec.getLsbD_shiftLeft, BitVec.getLsbD_ushiftRight, shift, literal]
  by_cases low : i < 32
  · simp [mask i low, low, bound]
  · have high : i - 32 < 32 := by omega
    have inside : i - 32 < 64 := by omega
    have place : 32 + (i - 32) = i := by omega
    simp only [place]
    simp [low, high, inside, bound]

/-- Status bits are no part of a setting. -/
theorem join_status (lo hi bits status : UInt32) :
    join ((lo &&& ~~~status) ||| (bits &&& status)) hi &&& ~~~status.toUInt64 =
      join lo hi &&& ~~~status.toUInt64 := by
  apply UInt64.eq_of_toBitVec_eq
  apply BitVec.eq_of_getLsbD_eq
  intro i bound
  simp only [join, UInt64.toBitVec_and, UInt64.toBitVec_or, UInt64.toBitVec_not,
    UInt32.toBitVec_toUInt64, UInt32.toBitVec_and, UInt32.toBitVec_or, UInt32.toBitVec_not,
    BitVec.getLsbD_and, BitVec.getLsbD_or, BitVec.getLsbD_not, BitVec.getLsbD_setWidth]
  by_cases low : i < 32
  · cases status.toBitVec.getLsbD i <;> simp [low, bound]
  · have clear : status.toBitVec.getLsbD i = false := BitVec.getLsbD_of_ge _ _ (by omega)
    have absent : lo.toBitVec.getLsbD i = false := BitVec.getLsbD_of_ge _ _ (by omega)
    have none : bits.toBitVec.getLsbD i = false := BitVec.getLsbD_of_ge _ _ (by omega)
    rw [clear, absent, none]
    simp

theorem or_and (a b c : UInt64) : (a ||| b) &&& c = (a &&& c) ||| (b &&& c) := by
  apply UInt64.eq_of_toBitVec_eq
  apply BitVec.eq_of_getLsbD_eq
  intro i _
  simp only [UInt64.toBitVec_and, UInt64.toBitVec_or, BitVec.getLsbD_and, BitVec.getLsbD_or]
  exact Bool.and_or_distrib_right ..

/-- Every bit of a high half can be written. -/
theorem writable (a b : UInt32) : (a &&& ~~~0) ||| (b &&& 0) = a := by simp

/-- A written entry has the setting that was written, the other ones keep theirs. -/
theorem ioapicWriteRedir_setting (target : UInt8) (val : UInt64) (has : d.Has i) :
    (ioapicWriteRedir target val d).setting i =
      if Same target i then val &&& ~~~(0x5000 : UInt32).toUInt64 else d.setting i := by
  obtain ⟨d₁, isD₁⟩ : ∃ d₁, d₁ = ioapicWrite (lowRegister target) (val &&& 0xFFFFFFFF).toUInt32 d :=
    ⟨_, rfl⟩
  have size : d₁.maxRedir = d.maxRedir := by rw [isD₁, ioapicWrite_maxRedir]
  have has₁ : d₁.Has i := by rwa [Has, size]
  have written : ioapicWriteRedir target val d =
      ioapicWrite (highRegister target) (val >>> 32).toUInt32 d₁ := by
    rw [isD₁]
    rfl
  rw [setting, entry, written, ioapicWrite_register _ _ _ has₁.low,
    ioapicWrite_register _ _ _ has₁.high, if_neg low_ne_high.symm, isD₁,
    ioapicWrite_register _ _ _ has.low, ioapicWrite_register _ _ _ has.high, if_neg low_ne_high,
    statusBits_low, statusBits_high]
  simp only [lowRegister_eq_iff, highRegister_eq_iff]
  split
  · rw [writable, join_status, join_halves]
  · rfl

theorem ioapicReadRedir_eq (i : UInt8) (d : IoApic) :
    ioapicReadRedir i d = (d.entry i, { d with regSel := highRegister i }) := rfl

/-! ### Operations and the device, in any order -/

inductive Event where
  | redirect (irq vector : UInt8) (flags : UInt32)
  | mask (irq : UInt8)
  | unmask (irq : UInt8)
  /-- the device changes its status bits -/
  | status (bits : UInt8 → UInt32)

def setStatus (bits : UInt8 → UInt32) (d : IoApic) : IoApic where
  regSel := d.regSel
  register reg :=
    if d.InTable reg then (d.register reg &&& ~~~statusBits reg) ||| (bits reg &&& statusBits reg)
    else d.register reg

def step (d : IoApic) : Event → Option IoApic
  | .redirect irq vector flags => some (ioapicRedirect irq vector flags d)
  | .mask irq => some (ioapicMask irq d)
  | .unmask irq => some (ioapicUnmask irq d)
  | .status bits => some (d.setStatus bits)

/-- What the operation makes of the setting of entry `i`. -/
def Event.apply (i : UInt8) (setting : UInt64) : Event → UInt64
  | .redirect irq vector flags =>
    if Same irq i then (vector.toUInt32 ||| flags).toUInt64 &&& ~~~(0x5000 : UInt32).toUInt64
    else setting
  | .mask irq => if Same irq i then setting ||| masked else setting
  | .unmask irq => if Same irq i then setting &&& ~~~masked else setting
  | .status _ => setting

/-- The setting of entry `i` after a history that starts with `setting`. -/
def settingAfter (i : UInt8) (setting : UInt64) : List (Entry IoApic Event) → UInt64
  | [] => setting
  | e :: h => e.event.apply i (settingAfter i setting h)

/-- The size of the table is not changed by anything. -/
theorem step_maxRedir {d' : IoApic} {e : Event} (taken : step d e = some d') :
    d'.maxRedir = d.maxRedir := by
  cases e with
  | redirect irq vector flags =>
    cases taken
    exact ioapicWriteRedir_maxRedir ..
  | mask irq =>
    cases taken
    exact ioapicWriteRedir_maxRedir ..
  | unmask irq =>
    cases taken
    exact ioapicWriteRedir_maxRedir ..
  | status bits =>
    cases taken
    have outside : ¬ d.InTable versionRegister := fun inside => absurd inside.1 (by decide)
    simp only [maxRedir, setStatus, if_neg outside]

/-- Entries with the same registers are the same entry. -/
theorem entry_same (same : Same target i) : d.entry target = d.entry i := by
  rw [entry, entry, lowRegister_eq_iff.mpr same, highRegister_eq_iff.mpr same]

theorem setting_selected (reg : UInt8) (d : IoApic) :
    IoApic.setting { d with regSel := reg } i = d.setting i := rfl

theorem step_setting {d' : IoApic} {e : Event} (has : d.Has i) (taken : step d e = some d') :
    d'.setting i = e.apply i (d.setting i) := by
  cases e with
  | redirect irq vector flags =>
    cases taken
    exact ioapicWriteRedir_setting irq _ has
  | mask irq =>
    cases taken
    have visible : masked &&& ~~~(0x5000 : UInt32).toUInt64 = masked := by decide
    rw [ioapicMask, ioapicReadRedir_eq, Event.apply]
    dsimp only
    rw [@ioapicWriteRedir_setting { d with regSel := highRegister irq } i irq _ has,
      setting_selected]
    split
    next same => rw [setting, or_and, visible, entry_same same]
    · rfl
  | unmask irq =>
    cases taken
    rw [ioapicUnmask, ioapicReadRedir_eq, Event.apply]
    dsimp only
    rw [@ioapicWriteRedir_setting { d with regSel := highRegister irq } i irq _ has,
      setting_selected]
    split
    next same =>
      rw [setting, entry_same same, UInt64.and_assoc, UInt64.and_comm (~~~masked), ← UInt64.and_assoc]
    · rfl
  | status bits =>
    cases taken
    rw [setting, entry, setStatus]
    dsimp only
    rw [if_pos has.low, if_pos has.high, statusBits_low, statusBits_high, writable, join_status]
    rfl

theorem run_maxRedir {h : List (Entry IoApic Event)} {d' : IoApic} (run : Run step (· = d) h d') :
    d'.maxRedir = d.maxRedir :=
  Run.invariant (P := fun d' => d'.maxRedir = d.maxRedir) (fun _ same => same ▸ rfl)
    (fun _ _ _ size taken => (step_maxRedir taken).trans size) run

theorem run_setting {h : List (Entry IoApic Event)} {d' : IoApic} (has : d.Has i)
    (run : Run step (· = d) h d') :
    d'.setting i = settingAfter i (d.setting i) h := by
  induction run with
  | start same =>
    subst same
    rfl
  | step before taken ih =>
    rw [step_setting (by rwa [Has, run_maxRedir before]) taken, ih]
    rfl

/-! ### `ioapic_init` -/

/-- While the counter can get past the last entry, the loop ends with the rest of the entries
masked. -/
theorem initLoop_spec {last : UInt8} (passes : last ≠ 255) (rest fuel : Nat) (j : UInt8) (d : IoApic)
    (left : j.toNat + rest = last.toNat + 1) : ∃ d', initLoop last (rest + 1 + fuel) j d = some d' ∧
      d'.maxRedir = d.maxRedir ∧ ∀ i, d.Has i →
        ((j.toNat ≤ i.toNat ∧ i.toNat ≤ last.toNat) ∨ d.setting i = masked) →
        d'.setting i = masked := by
  have small := last.toNat_lt
  have below : last.toNat ≠ 255 := fun same => passes (UInt8.toNat_inj.mp same)
  induction rest generalizing j d with
  | zero =>
    have past : ¬ j ≤ last := by
      rw [UInt8.le_iff_toNat_le]
      omega
    refine ⟨d, ?_, rfl, ?_⟩
    · rw [Nat.zero_add, Nat.add_comm, initLoop, if_neg past]
    · rintro i _ (⟨low, high⟩ | done)
      · omega
      · exact done
  | succ rest ih =>
    have inside : j ≤ last := by
      rw [UInt8.le_iff_toNat_le]
      omega
    have next : (j + 1).toNat = j.toNat + 1 := by
      have one : (1 : UInt8).toNat = 1 := rfl
      rw [UInt8.toNat_add, one]
      omega
    obtain ⟨d', done, size, cleared⟩ := ih (j + 1) (ioapicWriteRedir j masked d) (by omega)
    rw [ioapicWriteRedir_maxRedir] at size
    refine ⟨d', ?_, size, ?_⟩
    · have count : rest + 1 + 1 + fuel = (rest + 1 + fuel) + 1 := by omega
      rw [count, initLoop, if_pos inside, done]
    · intro i has here
      apply cleared i (by rwa [Has, ioapicWriteRedir_maxRedir])
      rw [ioapicWriteRedir_setting j masked has, next]
      have visible : masked &&& ~~~(0x5000 : UInt32).toUInt64 = masked := by decide
      by_cases same : Same j i
      · rw [if_pos same]
        exact Or.inr visible
      · have other : j.toNat ≠ i.toNat := fun equal => same (congrArg (· % 128) equal)
        rw [if_neg same]
        exact here.imp (fun range => ⟨by omega, range.2⟩) id

/-- A counter of eight bits is never past the last entry of a table of 256. -/
theorem initLoop_forever (fuel : Nat) (j : UInt8) (d : IoApic) : initLoop 255 fuel j d = none := by
  induction fuel generalizing j d with
  | zero => rfl
  | succ fuel ih =>
    have inside : j ≤ 255 := by
      have bound := j.toNat_lt
      have top : (255 : UInt8).toNat = 255 := rfl
      rw [UInt8.le_iff_toNat_le, top]
      omega
    rw [initLoop, if_pos inside, ih]

theorem ioapicInit_eq (fuel : Nat) (d : IoApic) : ioapicInit fuel d =
    initLoop d.maxRedir fuel 0 { d with regSel := versionRegister } := rfl

theorem initLoop_mono {last j : UInt8} {fuel : Nat} {d d' : IoApic} (more : Nat)
    (done : initLoop last fuel j d = some d') : initLoop last (fuel + more) j d = some d' := by
  induction fuel generalizing j d with
  | zero => cases done
  | succ fuel ih =>
    rw [Nat.add_right_comm]
    rw [initLoop] at done ⊢
    split
    next inside =>
      rw [if_pos inside] at done
      exact ih done
    next past =>
      rw [if_neg past] at done
      exact done

theorem ioapicInit_ends (passes : d.maxRedir ≠ 255) : ∃ fuel d', ioapicInit fuel d = some d' ∧
    d'.maxRedir = d.maxRedir ∧ ∀ i, d.Has i → d'.setting i = masked := by
  have zero : (0 : UInt8).toNat = 0 := rfl
  obtain ⟨d', done, size, cleared⟩ := initLoop_spec passes (d.maxRedir.toNat + 1) 0 0
    { d with regSel := versionRegister } (by rw [zero, Nat.zero_add])
  refine ⟨_, d', (ioapicInit_eq ..).trans done, size, fun i has => ?_⟩
  exact cleared i has (Or.inl ⟨Nat.zero_le _, UInt8.le_iff_toNat_le.mp has.1⟩)

/-- When `ioapic_init` returns, the table is as large as before and all of it is masked. -/
theorem ioapicInit_spec {fuel : Nat} {d' : IoApic} (done : ioapicInit fuel d = some d') :
    d.maxRedir ≠ 255 ∧ d'.maxRedir = d.maxRedir ∧ ∀ i, d.Has i → d'.setting i = masked := by
  have passes : d.maxRedir ≠ 255 := by
    intro all
    rw [ioapicInit_eq, all, initLoop_forever] at done
    cases done
  obtain ⟨fuel', last, ended, size, cleared⟩ := ioapicInit_ends passes
  rw [ioapicInit_eq] at done ended
  have first := initLoop_mono fuel' done
  have second := initLoop_mono fuel ended
  rw [Nat.add_comm] at second
  obtain rfl := Option.some.inj (first.symm.trans second)
  exact ⟨passes, size, cleared⟩

end IoApic

open IoApic in
/-- `ioapic_init` ends unless the table has 256 entries. From then on the setting of every entry
is the one of the last operations on it, whatever the device does to its status bits; an entry
is shared by the numbers 128 apart. -/
theorem ioapic_follows (d₀ : IoApic) : ((∃ fuel d, ioapicInit fuel d₀ = some d) ↔ d₀.maxRedir ≠ 255) ∧
    ∀ fuel d h d', ioapicInit fuel d₀ = some d → Run step (· = d) h d' →
      ∀ i, d₀.Has i → d'.setting i = settingAfter i masked h := by
  refine ⟨⟨?_, ?_⟩, ?_⟩
  · rintro ⟨fuel, d, done⟩
    exact (ioapicInit_spec done).1
  · intro passes
    obtain ⟨fuel, d, done, _⟩ := ioapicInit_ends passes
    exact ⟨fuel, d, done⟩
  · intro fuel d h d' done run i has
    obtain ⟨_, size, cleared⟩ := ioapicInit_spec done
    have there : d.Has i := by
      rw [Has, size]
      exact has
    rw [run_setting there run, cleared i has]

namespace IoApic

/-- A device with 24 entries. -/
def chip : IoApic where
  regSel := 0
  register reg := if reg = versionRegister then 0x00170020 else 0

end IoApic

open IoApic in
theorem ioapic_follows_keyboard : ∃ d h d', ioapicInit 25 chip = some d ∧
    Run step (· = d) h d' ∧ d'.setting 1 = settingAfter 1 masked h := by
  have started : (ioapicInit 25 chip).isSome = true := by decide +kernel
  obtain ⟨d, done⟩ := Option.isSome_iff_exists.mp started
  have run : Run step (· = d) [⟨d, .redirect 1 33 0, ioapicRedirect 1 33 0 d⟩]
      (ioapicRedirect 1 33 0 d) := .step (.start rfl) rfl
  exact ⟨d, _, _, done, run, (ioapic_follows chip).2 25 d _ _ done run 1 (by decide)⟩

end DedOS
