import DedOS.Arch.Lapic
import Mathlib.Algebra.Order.Group.Nat
import Mathlib.Data.Nat.Find
import Mathlib.Order.Monotone.Basic

/-!
# `lapic_timer.c`

The local APIC's timer is measured against the programmable interval timer: the kernel latches
the falling count of the PIT until a reading is above the one before, which means that the count
has passed zero. `timer_calibrated` says when the loop ends at the first latch behind that, and
what count the timer is given.
-/

namespace DedOS

/-- `PIT_FREQ` -/
def pitFreq : Nat := 1193182

/-- `pit_ticks` -/
def pitTicks : UInt16 := UInt16.ofNat (pitFreq * 10 / 1000)

/-- What the two timers do while the kernel measures. Times are in ticks of the PIT since its
count was loaded. -/
structure Clocks where
  /-- the time of the latch command number `k` -/
  latch : Nat → Nat
  /-- the time at which the APIC's count is read, if the loop ends with latch `k` -/
  read : Nat → Nat
  /-- how far the APIC's count has fallen at a time -/
  fallen : Nat → Nat

namespace Clocks

variable (clocks : Clocks)

/-- The count of channel 0, which goes on below zero. -/
def pitCount (t : Nat) : UInt16 := pitTicks - UInt16.ofNat t

/-- `LAPIC_TIMER_CURR`: a one-shot timer stays at zero. -/
def timerCurr (t : Nat) : UInt32 := 0xFFFFFFFF - UInt32.ofNat (min (clocks.fallen t) 0xFFFFFFFF)

/-- The two bytes of the latched count, put together. -/
def reading (k : Nat) : UInt16 :=
  let lo : UInt8 := (pitCount (clocks.latch k)).toUInt8
  let hi : UInt8 := (pitCount (clocks.latch k) >>> 8).toUInt8
  (hi.toUInt16 <<< 8) ||| lo.toUInt16

/-- The loop of `lapic_timer_calibrate`, and the latch that ends it. -/
def calibrateLoop : Nat → Nat → UInt16 → Option Nat
  | 0, _, _ => none
  | fuel + 1, k, last =>
    let curr := clocks.reading k
    if curr > last then some k else calibrateLoop fuel (k + 1) curr

/-- `lapic_timer_calibrate` leaves the frequency and the registers. -/
def lapicTimerCalibrate (fuel : Nat) (l : Lapic) : Option (UInt64 × Lapic) :=
  let l := Lapic.lapicWrite Lapic.timerDivRegister 0x3 l
  let l := Lapic.lapicWrite Lapic.timerRegister Lapic.timerMasked l
  let l := Lapic.lapicWrite Lapic.timerInitRegister 0xFFFFFFFF l
  match clocks.calibrateLoop fuel 0 0xFFFF with
  | none => none
  | some k =>
    let ticks := 0xFFFFFFFF - clocks.timerCurr (clocks.read k)
    let l := Lapic.lapicWrite Lapic.timerInitRegister 0 l
    some (ticks.toUInt64 * 16 * 100, l)

/-- `LAPIC_TIMER_VECTOR` -/
def timerVector : UInt8 := 32

def lapicTimerInit (fuel : Nat) (l : Lapic) : Option (UInt64 × Lapic) :=
  match clocks.lapicTimerCalibrate fuel l with
  | none => none
  | some (lapicFreq, l) =>
    let count := (lapicFreq / 16 / 1000).toUInt32
    let l := Lapic.lapicWrite Lapic.timerDivRegister 0x3 l
    let l := Lapic.lapicWrite Lapic.timerRegister
      (Lapic.timerPeriodic ||| timerVector.toUInt32) l
    some (lapicFreq, Lapic.lapicWrite Lapic.timerInitRegister count l)

/-! ### Readings -/

/-- Latches come in order, less than a turn of the PIT apart, and go on. -/
structure Steady : Prop where
  order : Monotone clocks.latch
  gap : ∀ k, clocks.latch (k + 1) < clocks.latch k + 2 ^ 16
  endless : ∀ t, ∃ k, t < clocks.latch k
  later : ∀ k, clocks.latch k ≤ clocks.read k

variable {clocks} {k : Nat}

theorem pitTicks_toNat : pitTicks.toNat = 11931 := by decide

theorem reading_eq (clocks : Clocks) (k : Nat) : clocks.reading k = pitCount (clocks.latch k) := by
  rw [reading]
  generalize pitCount (clocks.latch k) = count
  apply UInt16.eq_of_toBitVec_eq
  apply BitVec.eq_of_getLsbD_eq
  intro i bound
  have shift : ((8 : UInt16).toBitVec % 16).toNat = 8 := rfl
  simp only [UInt16.toBitVec_or, UInt16.toBitVec_shiftLeft, UInt16.toBitVec_shiftRight,
    UInt8.toBitVec_toUInt16, UInt16.toBitVec_toUInt8, BitVec.getLsbD_or, BitVec.getLsbD_setWidth,
    BitVec.shiftLeft_eq', BitVec.ushiftRight_eq', BitVec.getLsbD_shiftLeft,
    BitVec.getLsbD_ushiftRight, shift]
  by_cases low : i < 8
  · simp [low, bound]
  · have high : i - 8 < 8 := by omega
    have inside : i - 8 < 16 := by omega
    have place : 8 + (i - 8) = i := by omega
    simp only [place]
    simp [low, high, inside, bound]

theorem pitCount_before {t : Nat} (before : t ≤ pitTicks.toNat) :
    (pitCount t).toNat = pitTicks.toNat - t := by
  rw [pitTicks_toNat] at *
  rw [pitCount, UInt16.toNat_sub, UInt16.toNat_ofNat', pitTicks_toNat]
  omega

theorem pitCount_behind {t : Nat} (behind : pitTicks.toNat < t) (turn : t ≤ pitTicks.toNat + 2 ^ 16) :
    (pitCount t).toNat = pitTicks.toNat + 2 ^ 16 - t := by
  rw [pitTicks_toNat] at *
  rw [pitCount, UInt16.toNat_sub, UInt16.toNat_ofNat', pitTicks_toNat]
  omega

/-! ### The loop -/

/-- `last` at latch `k`. -/
def previous (clocks : Clocks) : Nat → UInt16
  | 0 => 0xFFFF
  | k + 1 => clocks.reading k

/-- The loop ends at latch `k` if it gets there. -/
def Rises (clocks : Clocks) (k : Nat) : Prop := clocks.previous k < clocks.reading k

/-- The loop ends at the first rise. -/
theorem calibrateLoop_eq_some {fuel n : Nat} :
    clocks.calibrateLoop fuel k (clocks.previous k) = some n ↔
      n < k + fuel ∧ k ≤ n ∧ clocks.Rises n ∧ ∀ j, k ≤ j → j < n → ¬ clocks.Rises j := by
  induction fuel generalizing k with
  | zero =>
    constructor
    · intro ended
      cases ended
    · rintro ⟨bound, start, _⟩
      omega
  | succ fuel ih =>
    rw [calibrateLoop]
    by_cases rises : clocks.Rises k
    · have ends : clocks.reading k > clocks.previous k := rises
      rw [if_pos ends, Option.some.injEq]
      constructor
      · rintro rfl
        exact ⟨by omega, Nat.le_refl _, rises, fun j low high => absurd high (by omega)⟩
      · rintro ⟨_, start, _, none⟩
        by_contra differ
        exact none k (Nat.le_refl _) (by omega) rises
    · have goesOn : ¬ clocks.reading k > clocks.previous k := rises
      have next : clocks.reading k = clocks.previous (k + 1) := rfl
      rw [if_neg goesOn, next, ih]
      constructor
      · rintro ⟨bound, start, there, none⟩
        refine ⟨by omega, by omega, there, fun j low high => ?_⟩
        by_cases here : j = k
        · exact here ▸ rises
        · exact none j (by omega) high
      · rintro ⟨bound, start, there, none⟩
        have later : k ≠ n := by
          rintro rfl
          exact rises there
        exact ⟨by omega, by omega, there, fun j low high => none j (by omega) high⟩

/-- The first latch that comes when the count has passed zero. -/
structure FirstBehind (clocks : Clocks) (n : Nat) : Prop where
  behind : pitTicks.toNat < clocks.latch n
  first : ∀ j < n, clocks.latch j ≤ pitTicks.toNat

theorem exists_firstBehind (steady : clocks.Steady) : ∃ n, clocks.FirstBehind n := by
  have passes := steady.endless pitTicks.toNat
  exact ⟨Nat.find passes, Nat.find_spec passes, fun j before =>
    Nat.le_of_not_lt (Nat.find_min passes before)⟩

/-- While the count falls to zero no reading is above the one before. -/
theorem no_rise (steady : clocks.Steady) (before : clocks.latch k ≤ pitTicks.toNat) :
    ¬ clocks.Rises k := by
  have reading := pitCount_before before
  rw [Rises, UInt16.lt_iff_toNat_lt, reading_eq, reading]
  have ticks := pitTicks_toNat
  cases k with
  | zero =>
    have top : (clocks.previous 0).toNat = 65535 := rfl
    omega
  | succ k =>
    have order : clocks.latch k ≤ clocks.latch (k + 1) := steady.order (Nat.le_succ k)
    have last : (clocks.previous (k + 1)).toNat = pitTicks.toNat - clocks.latch k := by
      rw [previous, reading_eq, pitCount_before (by omega)]
    omega

/-- The first reading behind zero is above the last one before it. -/
theorem rise (steady : clocks.Steady) (before : clocks.latch k ≤ pitTicks.toNat)
    (behind : pitTicks.toNat < clocks.latch (k + 1)) : clocks.Rises (k + 1) := by
  have gap := steady.gap k
  rw [Rises, UInt16.lt_iff_toNat_lt, previous, reading_eq, reading_eq, pitCount_before before,
    pitCount_behind behind (by omega)]
  omega

theorem loop_ends_iff (steady : clocks.Steady) {n : Nat} (first : clocks.FirstBehind n) :
    (∃ fuel, clocks.calibrateLoop fuel 0 0xFFFF = some n) ↔ clocks.latch 0 ≤ pitTicks.toNat := by
  have start : (0xFFFF : UInt16) = clocks.previous 0 := rfl
  rw [start]
  constructor
  · rintro ⟨fuel, ended⟩
    obtain ⟨_, _, rises, _⟩ := calibrateLoop_eq_some.mp ended
    by_contra late
    -- the first latch comes too late, and nothing is above the first `last`
    have here : n = 0 := by
      by_contra other
      exact late (first.first 0 (by omega))
    subst here
    have top : (clocks.previous 0).toNat = 65535 := rfl
    have bound := (clocks.reading 0).toNat_lt
    rw [Rises, UInt16.lt_iff_toNat_lt] at rises
    omega
  · intro early
    refine ⟨n + 1, calibrateLoop_eq_some.mpr ⟨by omega, Nat.zero_le _, ?_, ?_⟩⟩
    · cases n with
      | zero => exact absurd first.behind (by omega)
      | succ n => exact rise steady (first.first n (Nat.lt_succ_self n)) first.behind
    · exact fun j _ before => no_rise steady (first.first j before)

/-! ### The count -/

/-- A tenth of the ticks that were counted, through the frequency. -/
theorem count_eq (x : Nat) (fits : x < 2 ^ 32) :
    ((((0xFFFFFFFF - (0xFFFFFFFF - UInt32.ofNat x)).toUInt64 * 16 * 100) / 16 / 1000).toUInt32).toNat =
      x / 10 := by
  have ticks : 0xFFFFFFFF - (0xFFFFFFFF - UInt32.ofNat x) = UInt32.ofNat x := by
    apply UInt32.toNat_inj.mp
    have top : (0xFFFFFFFF : UInt32).toNat = 2 ^ 32 - 1 := rfl
    rw [UInt32.toNat_sub, UInt32.toNat_sub, UInt32.toNat_ofNat', top]
    omega
  have a : (16 : UInt64).toNat = 16 := rfl
  have b : (100 : UInt64).toNat = 100 := rfl
  have c : (1000 : UInt64).toNat = 1000 := rfl
  rw [ticks, UInt64.toNat_toUInt32, UInt64.toNat_div, UInt64.toNat_div, UInt64.toNat_mul,
    UInt64.toNat_mul, UInt32.toNat_toUInt64, UInt32.toNat_ofNat', a, b, c, Nat.mod_eq_of_lt fits]
  -- nothing overflows
  have divided : x * 16 * 100 / 16 = x * 100 := by omega
  rw [Nat.mod_eq_of_lt (by omega : x * 16 < 2 ^ 64),
    Nat.mod_eq_of_lt (by omega : x * 16 * 100 < 2 ^ 64), divided]
  omega

/-- What the registers of the timer hold after `lapic_timer_init`. -/
structure Programmed (l : Lapic) (ticks : Nat) : Prop where
  divisor : l.register Lapic.timerDivRegister = 0x3
  timer : l.register Lapic.timerRegister = Lapic.timerPeriodic ||| 32
  count : (l.register Lapic.timerInitRegister).toNat = min ticks 0xFFFFFFFF / 10

theorem lapicTimerInit_programmed {fuel n : Nat} (ended : clocks.calibrateLoop fuel 0 0xFFFF = some n)
    (l : Lapic) : ∃ freq l', clocks.lapicTimerInit fuel l = some (freq, l') ∧
      Programmed l' (clocks.fallen (clocks.read n)) := by
  rw [lapicTimerInit, lapicTimerCalibrate]
  dsimp only
  rw [ended]
  refine ⟨_, _, rfl, rfl, rfl, ?_⟩
  have count := count_eq (min (clocks.fallen (clocks.read n)) 0xFFFFFFFF) (by omega)
  exact count

/-- Whatever the clocks do, the timer comes with its vector and only its registers are written. -/
theorem lapicTimerInit_registers {fuel : Nat} {l l' : Lapic} {freq : UInt64}
    (done : clocks.lapicTimerInit fuel l = some (freq, l')) :
    l'.register Lapic.timerRegister = Lapic.timerPeriodic ||| 32 ∧
    ∀ reg, reg ≠ Lapic.timerDivRegister → reg ≠ Lapic.timerRegister →
      reg ≠ Lapic.timerInitRegister → l'.register reg = l.register reg := by
  rw [lapicTimerInit, lapicTimerCalibrate] at done
  dsimp only at done
  cases ended : clocks.calibrateLoop fuel 0 0xFFFF with
  | none =>
    rw [ended] at done
    cases done
  | some n =>
    rw [ended] at done
    obtain ⟨-, same⟩ := Prod.mk.inj (Option.some.inj done)
    rw [← same]
    constructor
    · rw [Lapic.lapicWrite_other _ _ (by decide), Lapic.lapicWrite_same _ _ (by decide)]
      rfl
    · intro reg noDiv noTimer noInit
      simp only [Lapic.lapicWrite_other _ _ noDiv, Lapic.lapicWrite_other _ _ noTimer,
        Lapic.lapicWrite_other _ _ noInit]

end Clocks

open Clocks in
/-- The loop ends at the first latch after the count has passed zero exactly when the first latch
of all comes before. The timer then counts a tenth of the ticks between its start and the reading,
which is at most one latch too long. -/
theorem timer_calibrated (clocks : Clocks) (steady : clocks.Steady) (l : Lapic) :
    ∃ n, clocks.FirstBehind n ∧
      ((∃ fuel, clocks.calibrateLoop fuel 0 0xFFFF = some n) ↔ clocks.latch 0 ≤ pitTicks.toNat) ∧
      (clocks.latch 0 ≤ pitTicks.toNat →
        (∃ fuel freq l', clocks.lapicTimerInit fuel l = some (freq, l') ∧
          Programmed l' (clocks.fallen (clocks.read n))) ∧
        ∀ gap, (∀ k, clocks.latch (k + 1) ≤ clocks.latch k + gap) →
          clocks.latch n ≤ pitTicks.toNat + gap) := by
  obtain ⟨n, first⟩ := exists_firstBehind steady
  refine ⟨n, first, loop_ends_iff steady first, fun early => ⟨?_, ?_⟩⟩
  · obtain ⟨fuel, ended⟩ := (loop_ends_iff steady first).mpr early
    exact ⟨fuel, lapicTimerInit_programmed ended l⟩
  · intro gap apart
    cases n with
    | zero => exact absurd first.behind (by omega)
    | succ n =>
      have last := first.first n (Nat.lt_succ_self n)
      have step := apart n
      omega

namespace Clocks

/-- A latch every hundred ticks, and an APIC that counts fifty times as fast as the PIT. -/
def regular : Clocks := ⟨fun k => 100 * k, fun k => 100 * k + 1, fun t => 50 * t⟩

theorem regular_steady : regular.Steady where
  order := by
    intro i j below
    exact Nat.mul_le_mul_left 100 below
  gap k := by
    change 100 * (k + 1) < 100 * k + 2 ^ 16
    omega
  endless t := ⟨t + 1, by change t < 100 * (t + 1); omega⟩
  later k := Nat.le_succ _

end Clocks

open Clocks in
theorem timer_calibrated_regular : ∃ n, Clocks.regular.FirstBehind n ∧
    ∃ fuel, Clocks.regular.calibrateLoop fuel 0 0xFFFF = some n := by
  obtain ⟨n, first, ends, _⟩ :=
    timer_calibrated .regular regular_steady ⟨fun _ => 0, fun _ => false, fun _ => false⟩
  exact ⟨n, first, ends.mpr (Nat.zero_le _)⟩

end DedOS
