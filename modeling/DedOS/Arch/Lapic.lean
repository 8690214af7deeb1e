import DedOS.Lib.Trace

/-!
# `lapic.c`

The local APIC keeps the requested vectors and those in service, interrupts the processor with
the highest requested one whose priority class is above what the processor works on, and takes a
vector out of service when its end is reported. `Idle` is the state in which the driver keeps it
between interrupts.
-/

namespace DedOS

/-- The registers at their offsets, and the two bitmaps of vectors. -/
structure Lapic where
  register : UInt32 → UInt32
  requested : UInt8 → Bool
  inService : UInt8 → Bool

namespace Lapic

def idRegister : UInt32 := 0x020
def tprRegister : UInt32 := 0x080
def eoiRegister : UInt32 := 0x0B0
def svrRegister : UInt32 := 0x0F0
def timerRegister : UInt32 := 0x320
def lvt0Register : UInt32 := 0x350
def lvt1Register : UInt32 := 0x360
def timerInitRegister : UInt32 := 0x380
def timerDivRegister : UInt32 := 0x3E0

/-- `LAPIC_SVR_ENABLE` -/
def svrEnable : UInt32 := (1 : UInt32) <<< 8

/-- `LAPIC_TIMER_PERIODIC` -/
def timerPeriodic : UInt32 := (1 : UInt32) <<< 17

/-- `LAPIC_TIMER_MASKED` -/
def timerMasked : UInt32 := (1 : UInt32) <<< 16

/-! ### The device -/

/-- The vectors from the highest down. -/
def vectors : List UInt8 := (List.range 256).reverse.map UInt8.ofNat

/-- The highest vector of a bitmap. -/
def highest (set : UInt8 → Bool) : Option UInt8 := vectors.find? set

def priorityClass (vector : UInt8) : Nat := vector.toNat / 16

/-- The end of the highest interrupt in service. -/
def endOfInterrupt (l : Lapic) : Lapic :=
  match highest l.inService with
  | some v => { l with inService := Function.update l.inService v false }
  | none => l

/-- The class the processor works on: of the task priority, or of an interrupt in service. -/
def processorClass (l : Lapic) : Nat :=
  max ((l.register tprRegister).toNat % 256 / 16) (((highest l.inService).map priorityClass).getD 0)

/-- A source asks for an interrupt; nothing is accepted while the APIC is disabled. -/
def request (vector : UInt8) (l : Lapic) : Lapic :=
  if l.register svrRegister &&& svrEnable ≠ 0 then
    { l with requested := Function.update l.requested vector true }
  else l

/-- The vector with which the processor is interrupted. -/
def pending (l : Lapic) : Option UInt8 :=
  match highest l.requested with
  | some v => if l.processorClass < priorityClass v then some v else none
  | none => none

/-- The processor takes the interrupt. -/
def acknowledge (vector : UInt8) (l : Lapic) : Lapic :=
  { l with
    requested := Function.update l.requested vector false
    inService := Function.update l.inService vector true }

/-! ### The driver -/

def lapicRead (reg : UInt32) (l : Lapic) : UInt32 := l.register reg

def lapicWrite (reg val : UInt32) (l : Lapic) : Lapic :=
  if reg = eoiRegister then l.endOfInterrupt
  else { l with register := Function.update l.register reg val }

/-- `lapic_init`, once the registers are mapped. -/
def lapicInit (l : Lapic) : Lapic :=
  let l := lapicWrite svrRegister (lapicRead svrRegister l ||| svrEnable ||| 0xFF) l
  let l := lapicWrite lvt0Register 0x00010000 l
  let l := lapicWrite lvt1Register 0x00010400 l
  lapicWrite tprRegister 0 l

def lapicEoi (l : Lapic) : Lapic := lapicWrite eoiRegister 0 l

def lapicId (l : Lapic) : UInt32 := lapicRead idRegister l >>> 24

def lapicTimerStart (vector : UInt8) (count : UInt32) (l : Lapic) : Lapic :=
  let l := lapicWrite timerDivRegister 0x3 l
  let l := lapicWrite timerRegister (timerPeriodic ||| vector.toUInt32) l
  lapicWrite timerInitRegister count l

def lapicTimerStop (l : Lapic) : Lapic :=
  let l := lapicWrite timerInitRegister 0 l
  lapicWrite timerRegister timerMasked l

/-! ### Between interrupts -/

variable {l : Lapic} {set : UInt8 → Bool} {v w : UInt8}

theorem mem_vectors (v : UInt8) : v ∈ vectors := by
  rw [vectors, List.mem_map]
  exact ⟨v.toNat, List.mem_reverse.mpr (List.mem_range.mpr v.toNat_lt), UInt8.ofNat_toNat⟩

theorem highest_none : highest set = none ↔ ∀ v, set v = false := by
  rw [highest, List.find?_eq_none]
  constructor
  · intro empty v
    simpa using empty v (mem_vectors v)
  · intro empty v _
    simp [empty]

theorem highest_some (found : highest set = some v) : set v = true := List.find?_some found

theorem vectors_descend : vectors.Pairwise fun v w => w.toNat < v.toNat := by
  rw [vectors, List.pairwise_map, List.pairwise_reverse]
  apply List.pairwise_lt_range.imp_of_mem
  intro i j small large below
  rw [UInt8.toNat_ofNat_of_lt' (List.mem_range.mp small),
    UInt8.toNat_ofNat_of_lt' (List.mem_range.mp large)]
  exact below

theorem highest_le (found : highest set = some v) (w : UInt8) (isSet : set w = true) :
    w.toNat ≤ v.toNat := by
  obtain ⟨_, higher, lower, split, clear⟩ := List.find?_eq_some_iff_append.mp found
  have member := mem_vectors w
  have order := vectors_descend
  rw [split] at member order
  rcases List.mem_append.mp member with above | below
  · have unset := clear w above
    simp [isSet] at unset
  · rcases List.mem_cons.mp below with rfl | below
    · exact Nat.le_refl _
    · have order := (List.pairwise_append.mp order).2.1
      exact Nat.le_of_lt ((List.pairwise_cons.mp order).1 w below)

/-- A single vector is the highest. -/
theorem highest_single (clear : ∀ w, set w = false) :
    highest (Function.update set v true) = some v := by
  cases found : highest (Function.update set v true) with
  | none =>
    have unset := highest_none.mp found v
    rw [Function.update_self] at unset
    cases unset
  | some w =>
    by_contra other
    have differ : w ≠ v := fun same => other (congrArg some same)
    have isSet := highest_some found
    rw [Function.update_of_ne differ, clear] at isSet
    cases isSet

theorem endOfInterrupt_register (l : Lapic) : l.endOfInterrupt.register = l.register := by
  unfold endOfInterrupt
  split <;> rfl

theorem lapicWrite_same {reg : UInt32} (val : UInt32) (l : Lapic) (noEoi : reg ≠ eoiRegister) :
    (lapicWrite reg val l).register reg = val := by
  rw [lapicWrite, if_neg noEoi]
  exact Function.update_self ..

theorem lapicWrite_other {reg target : UInt32} (val : UInt32) (l : Lapic) (other : reg ≠ target) :
    (lapicWrite target val l).register reg = l.register reg := by
  unfold lapicWrite
  split
  · rw [endOfInterrupt_register]
  · exact Function.update_of_ne other ..

/-- Enabled, at task priority 0, with nothing in service. -/
structure Idle (l : Lapic) : Prop where
  enabled : l.register svrRegister &&& svrEnable ≠ 0
  priority : (l.register tprRegister).toNat % 256 / 16 = 0
  nothing : ∀ v, l.inService v = false

/-- `lapic_init` leaves the APIC idle. -/
theorem lapicInit_idle (nothing : ∀ v, l.inService v = false) : (lapicInit l).Idle where
  enabled := by
    have svr : (lapicInit l).register svrRegister =
        l.register svrRegister ||| svrEnable ||| 0xFF := by
      simp [lapicInit, lapicWrite, lapicRead, svrRegister, lvt0Register, lvt1Register, tprRegister,
        eoiRegister]
    rw [svr]
    intro zero
    have bit := congrArg (fun b => b.toBitVec.getLsbD 8) zero
    simp [svrEnable] at bit
  priority := by simp [lapicInit, lapicWrite, lapicRead, tprRegister, eoiRegister]
  nothing := by
    simpa [lapicInit, lapicWrite, svrRegister, lvt0Register, lvt1Register, tprRegister,
      eoiRegister] using nothing

theorem Idle.processorClass (idle : l.Idle) : l.processorClass = 0 := by
  rw [Lapic.processorClass, idle.priority, highest_none.mpr idle.nothing]
  rfl

theorem Idle.request (idle : l.Idle) (v : UInt8) : (l.request v).Idle := by
  rw [Lapic.request, if_pos idle.enabled]
  exact ⟨idle.enabled, idle.priority, idle.nothing⟩

theorem lapicEoi_eq (l : Lapic) : lapicEoi l = l.endOfInterrupt := by
  simp [lapicEoi, lapicWrite]

/-- An end without an interrupt changes nothing. -/
theorem Idle.lapicEoi (idle : l.Idle) : lapicEoi l = l := by
  rw [lapicEoi_eq, endOfInterrupt, highest_none.mpr idle.nothing]

/-- The end of the one interrupt in service. -/
theorem Idle.acknowledge_lapicEoi (idle : l.Idle) (v : UInt8) :
    Lapic.lapicEoi (l.acknowledge v) =
      { l with requested := Function.update l.requested v false } := by
  rw [lapicEoi_eq, endOfInterrupt, acknowledge, highest_single idle.nothing]
  dsimp only
  rw [Function.update_idem, ← idle.nothing v, Function.update_eq_self]

/-- Every request for a vector from 16 on waits for nothing but the processor. -/
theorem Idle.pending (idle : l.Idle) (legal : ∀ v, l.requested v = true → 16 ≤ v.toNat) :
    l.pending = highest l.requested := by
  rw [Lapic.pending, idle.processorClass]
  cases found : highest l.requested with
  | none => rfl
  | some v =>
    have high := legal v (highest_some found)
    have above : 0 < priorityClass v := Nat.div_pos high (by decide)
    exact if_pos above

end Lapic

end DedOS
