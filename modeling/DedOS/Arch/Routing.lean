import DedOS.Arch.Idt
import DedOS.Arch.IoApic
import DedOS.Arch.LapicTimer
import DedOS.Arch.Pic

/-!
# The interrupts that `kmain` lets through

`kmain` sets up the gates, the old interrupt controllers, the local APIC with its timer and the
I/O APIC before it enables interrupts. `sources_have_gates` says which vectors the devices can
deliver from then on, and that one of them has no gate.
-/

namespace DedOS

open Isr Lib

/-- The table and the devices. -/
structure Devices where
  idt : Idt
  pics : Pic.Pics
  lapic : Lapic
  ioApic : IoApic

namespace Devices

/-- `kmain` from `idt_init` to `sti`, as far as interrupts are concerned. `none` means that a
loop has not ended. -/
def kmainDevices (image : Image) (clocks : Clocks) (fuel : Nat) (d : Devices) : Option Devices :=
  let idt := idtInit image d.idt
  let pics := Pic.picInit d.pics
  let lapic := Lapic.lapicInit d.lapic
  match IoApic.ioapicInit fuel d.ioApic with
  | none => none
  | some ioApic =>
    match clocks.lapicTimerInit fuel lapic with
    | none => none
    | some (_, lapic) =>
      let pics := Pic.picDisable pics
      let ioApic := IoApic.ioapicUnmask 1 (IoApic.ioapicRedirect 1 33 0 ioApic)
      let ioApic := IoApic.ioapicUnmask 0 (IoApic.ioapicRedirect 0 32 0 ioApic)
      some { idt, pics, lapic, ioApic }

/-- An entry of the local vector table delivers its vector unless it is masked. -/
def LocalSource (l : Lapic) (reg : UInt32) (v : UInt8) : Prop :=
  l.register reg &&& Lapic.timerMasked = 0 ∧ v = (l.register reg).toUInt8

/-- A device can make the processor take an interrupt with this vector. -/
inductive Delivers (d : Devices) (v : UInt8) : Prop
  | entry (i : UInt8) (has : d.ioApic.Has i) (open_ : d.ioApic.setting i &&& IoApic.masked = 0)
      (vector : v = (d.ioApic.setting i).toUInt8)
  | pic (n : Fin 16) (open_ : d.pics.masked n = false)
      (vector : v = (if n.val < 8 then d.pics.master.offset else d.pics.slave.offset) +
        UInt8.ofNat (n % 8))
  | timer (source : LocalSource d.lapic Lapic.timerRegister v)
  | lint0 (source : LocalSource d.lapic Lapic.lvt0Register v)
  | lint1 (source : LocalSource d.lapic Lapic.lvt1Register v)
  /-- a request that is gone when the processor asks for its vector -/
  | spurious (enabled : d.lapic.register Lapic.svrRegister &&& Lapic.svrEnable ≠ 0)
      (vector : v = (d.lapic.register Lapic.svrRegister).toUInt8)

/-- The spurious vector that `lapic_init` sets. -/
def spuriousVector : UInt8 := 0xFF

variable {image : Image} {clocks : Clocks} {fuel : Nat} {d d' : Devices} {v i : UInt8}

/-- What `kmain` has made of the devices. -/
structure SetUp (image : Image) (d d' : Devices) : Prop where
  idt : d'.idt = idtInit image d.idt
  pics : ∀ n, d'.pics.masked n = true
  size : d'.ioApic.maxRedir = d.ioApic.maxRedir
  setting : ∀ i, d.ioApic.Has i → d'.ioApic.setting i =
    if i = 0 then 32 else if i = 1 then 33 else IoApic.masked
  timer : d'.lapic.register Lapic.timerRegister = Lapic.timerPeriodic ||| 32
  lint0 : d'.lapic.register Lapic.lvt0Register = 0x00010000
  lint1 : d'.lapic.register Lapic.lvt1Register = 0x00010400
  spurious : d'.lapic.register Lapic.svrRegister =
    d.lapic.register Lapic.svrRegister ||| Lapic.svrEnable ||| 0xFF

/-- The four calls of `kmain`, the last one first. -/
theorem redirected (io : IoApic) : ∃ h, Run IoApic.step (· = io) h
    (IoApic.ioapicUnmask 0 (IoApic.ioapicRedirect 0 32 0
      (IoApic.ioapicUnmask 1 (IoApic.ioapicRedirect 1 33 0 io)))) ∧
    h.map Entry.event = [.unmask 0, .redirect 0 32 0, .unmask 1, .redirect 1 33 0] :=
  ⟨_, .step (.step (.step (.step (.start rfl) rfl) rfl) rfl) rfl, rfl⟩

theorem settingAfter_eq {setting : UInt64} {h : List (Entry IoApic IoApic.Event)} :
    IoApic.settingAfter i setting h =
      (h.map Entry.event).foldr (fun e setting => e.apply i setting) setting := by
  induction h with
  | nil => rfl
  | cons e h ih => rw [IoApic.settingAfter, ih, List.map_cons, List.foldr_cons]

theorem redirected_setting (small : i.toNat < 120) {h : List (Entry IoApic IoApic.Event)}
    (calls : h.map Entry.event = [.unmask 0, .redirect 0 32 0, .unmask 1, .redirect 1 33 0]) :
    IoApic.settingAfter i IoApic.masked h =
      if i = 0 then 32 else if i = 1 then 33 else IoApic.masked := by
  have first : IoApic.Same 0 i ↔ i = 0 := by
    have zero : (0 : UInt8).toNat = 0 := rfl
    rw [IoApic.Same, ← UInt8.toNat_inj, zero]
    omega
  have second : IoApic.Same 1 i ↔ i = 1 := by
    have one : (1 : UInt8).toNat = 1 := rfl
    rw [IoApic.Same, ← UInt8.toNat_inj, one]
    omega
  rw [settingAfter_eq, calls]
  simp only [List.foldr_cons, List.foldr_nil, IoApic.Event.apply, first, second]
  by_cases isFirst : i = 0
  · subst isFirst
    decide
  · by_cases isSecond : i = 1
    · subst isSecond
      decide
    · simp [isFirst, isSecond]

theorem kmainDevices_setUp (done : kmainDevices image clocks fuel d = some d') : SetUp image d d' := by
  rw [kmainDevices] at done
  cases started : IoApic.ioapicInit fuel d.ioApic with
  | none =>
    rw [started] at done
    cases done
  | some ioApic =>
    rw [started] at done
    cases timed : clocks.lapicTimerInit fuel (Lapic.lapicInit d.lapic) with
    | none =>
      rw [timed] at done
      cases done
    | some left =>
      obtain ⟨freq, lapic⟩ := left
      rw [timed] at done
      obtain rfl := Option.some.inj done
      obtain ⟨_, size, cleared⟩ := IoApic.ioapicInit_spec started
      obtain ⟨h, run, calls⟩ := redirected ioApic
      obtain ⟨timer, others⟩ := Clocks.lapicTimerInit_registers timed
      constructor
      case idt => rfl
      case pics => exact fun n => Pic.picDisable_masked (Pic.picInit_ready d.pics).1 n
      case size => exact (IoApic.run_maxRedir run).trans size
      case setting =>
        intro i has
        have there : ioApic.Has i := by rwa [IoApic.Has, size]
        have after := IoApic.run_setting there run
        rw [cleared i has, redirected_setting has.2 calls] at after
        exact after
      case timer => exact timer
      case lint0 =>
        rw [others _ (by decide) (by decide) (by decide)]
        rfl
      case lint1 =>
        rw [others _ (by decide) (by decide) (by decide)]
        rfl
      case spurious =>
        rw [others _ (by decide) (by decide) (by decide)]
        rfl

/-- The low byte of the register is the spurious vector, and the APIC is enabled. -/
theorem spurious_low (r : UInt32) : (r ||| Lapic.svrEnable ||| 0xFF).toUInt8 = spuriousVector := by
  apply UInt8.eq_of_toBitVec_eq
  apply BitVec.eq_of_getLsbD_eq
  intro i bound
  have ones : ∀ i < 8, (0xFF#32).getLsbD i = true := by decide
  have all : ∀ i < 8, (0xFF#8).getLsbD i = true := by decide
  have left : (0xFF : UInt32).toBitVec = 0xFF#32 := rfl
  have right : spuriousVector.toBitVec = 0xFF#8 := rfl
  simp only [UInt32.toBitVec_toUInt8, UInt32.toBitVec_or, BitVec.getLsbD_setWidth,
    BitVec.getLsbD_or, left, right, ones i bound, all i bound, bound, Bool.or_true, decide_true,
    Bool.and_true]

theorem spurious_enabled (r : UInt32) :
    (r ||| Lapic.svrEnable ||| 0xFF) &&& Lapic.svrEnable ≠ 0 := by
  intro zero
  have bit := congrArg (fun b => b.toBitVec.getLsbD 8) zero
  simp [Lapic.svrEnable] at bit

/-- What `kmain` lets through: the timer, the keyboard and the spurious vector. -/
theorem SetUp.delivers_iff (up : SetUp image d d') :
    Delivers d' v ↔ v = 32 ∨ (v = 33 ∧ d'.ioApic.Has 1) ∨ v = spuriousVector := by
  have same : ∀ i, d'.ioApic.Has i ↔ d.ioApic.Has i := fun i => by
    rw [IoApic.Has, IoApic.Has, up.size]
  constructor
  · intro delivers
    cases delivers with
    | entry i has unmasked vector =>
      rw [up.setting i ((same i).mp has)] at unmasked vector
      by_cases first : i = 0
      · rw [if_pos first] at vector
        exact Or.inl vector
      · by_cases second : i = 1
        · rw [if_neg first, if_pos second] at vector
          exact Or.inr (Or.inl ⟨vector, second ▸ has⟩)
        · rw [if_neg first, if_neg second] at unmasked
          exact absurd unmasked (by decide)
    | pic n unmasked vector =>
      rw [up.pics n] at unmasked
      cases unmasked
    | timer source =>
      obtain ⟨_, vector⟩ := source
      rw [up.timer] at vector
      exact Or.inl vector
    | lint0 source =>
      obtain ⟨unmasked, _⟩ := source
      rw [up.lint0] at unmasked
      exact absurd unmasked (by decide)
    | lint1 source =>
      obtain ⟨unmasked, _⟩ := source
      rw [up.lint1] at unmasked
      exact absurd unmasked (by decide)
    | spurious enabled vector =>
      rw [up.spurious, spurious_low] at vector
      exact Or.inr (Or.inr vector)
  · rintro (rfl | ⟨rfl, has⟩ | rfl)
    · refine .timer ⟨?_, ?_⟩ <;> rw [up.timer] <;> decide
    · refine .entry 1 has ?_ ?_ <;> rw [up.setting 1 ((same 1).mp has)] <;> decide
    · refine .spurious ?_ ?_ <;> rw [up.spurious]
      · exact spurious_enabled _
      · exact (spurious_low _).symm

end Devices

open Devices in
/-- From whatever the devices were doing before: once `kmain` has set them up, every vector that
they can deliver has the gate of its stub, but for the spurious vector of the local APIC, which
has none. -/
theorem sources_have_gates (image : Image) (clocks : Clocks) (fuel : Nat) (d d' : Devices)
    (fresh : d.idt = fun _ => ⟨0, 0, 0, 0, 0, 0, 0⟩)
    (done : kmainDevices image clocks fuel d = some d') :
    (Delivers d' spuriousVector ∧ (d'.idt spuriousVector).gate = none) ∧
    ∀ v, Delivers d' v → v ≠ spuriousVector → ∃ listed, (d'.idt v).gate =
      some { offset := image.address (stub v listed), selector := 0x08 } := by
  have up := kmainDevices_setUp done
  refine ⟨⟨up.delivers_iff.mpr (Or.inr (Or.inr rfl)), ?_⟩, ?_⟩
  · rw [up.idt, idtInit_other (by decide), fresh]
    decide
  · intro v delivers genuine
    have listed : v.toNat < 48 := by
      rcases up.delivers_iff.mp delivers with rfl | ⟨rfl, _⟩ | rfl
      · decide
      · decide
      · exact absurd rfl genuine
    rw [up.idt]
    exact ⟨listed, gate_idtInit listed⟩

namespace Devices

def powerOn : Devices where
  idt _ := ⟨0, 0, 0, 0, 0, 0, 0⟩
  pics := Pic.halfway
  lapic := ⟨fun _ => 0, fun _ => false, fun _ => false⟩
  ioApic := .chip

end Devices

open Devices in
theorem sources_have_gates_keyboard : ∃ d', kmainDevices flatImage .regular 130 powerOn = some d' ∧
    Delivers d' 33 ∧ ∃ listed, (d'.idt 33).gate =
      some { offset := flatImage.address (stub 33 listed), selector := 0x08 } := by
  have ends : (kmainDevices flatImage .regular 130 powerOn).isSome = true := by decide +kernel
  obtain ⟨d', done⟩ := Option.isSome_iff_exists.mp ends
  have up := kmainDevices_setUp done
  have has : d'.ioApic.Has 1 := by
    rw [IoApic.Has, up.size]
    decide
  have keyboard : Delivers d' 33 := up.delivers_iff.mpr (Or.inr (Or.inl ⟨rfl, has⟩))
  exact ⟨d', done, keyboard,
    (sources_have_gates flatImage .regular 130 powerOn d' rfl done).2 33 keyboard (by decide)⟩

end DedOS
