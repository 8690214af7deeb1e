import DedOS.Lib.Trace

/-!
# `pic.c`

The two interrupt controllers of the PC behind their ports. A chip takes the bytes written to
its data port as initialisation words until it has those it was promised, and as its mask from
then on.
-/

namespace DedOS

open Lib

namespace Pic

/-- The initialisation word a chip waits for. -/
inductive Await where
  | nothing
  | icw2 (icw4 single : Bool)
  | icw3 (icw4 : Bool)
  | icw4
  deriving DecidableEq

/-- One chip; a set bit of `imr` masks a line. -/
structure Chip where
  await : Await
  offset : UInt8
  cascade : UInt8
  mode : UInt8
  imr : UInt8
  inService : UInt8
  deriving DecidableEq

namespace Chip

/-- The line of highest priority in service is the lowest bit. -/
def endOfInterrupt (c : Chip) : Chip := { c with inService := c.inService &&& (c.inService - 1) }

/-- A byte for the command port. Of the operation words only the unspecific end of interrupt
concerns the kernel. -/
def command (val : UInt8) (c : Chip) : Chip :=
  if val &&& 0x10 ≠ 0 then
    { c with await := .icw2 (val &&& 0x01 ≠ 0) (val &&& 0x02 ≠ 0), mode := 0, imr := 0
             inService := 0 }
  else if val = 0x20 then c.endOfInterrupt
  else c

/-- A byte for the data port. -/
def data (val : UInt8) (c : Chip) : Chip :=
  match c.await with
  | .nothing => { c with imr := val }
  | .icw2 icw4 single =>
    let await := if single then (if icw4 then .icw4 else .nothing) else .icw3 icw4
    { c with offset := val &&& 0xF8, await := await }
  | .icw3 icw4 => { c with cascade := val, await := if icw4 then .icw4 else .nothing }
  | .icw4 => { c with mode := val, await := .nothing }

end Chip

/-- Both chips and the register that connects them to the processor. -/
structure Pics where
  master : Chip
  slave : Chip
  imcrSelected : Bool
  imcr : UInt8

def outb (port : UInt16) (val : UInt8) (p : Pics) : Pics :=
  if port = 0x20 then { p with master := p.master.command val }
  else if port = 0x21 then { p with master := p.master.data val }
  else if port = 0xA0 then { p with slave := p.slave.command val }
  else if port = 0xA1 then { p with slave := p.slave.data val }
  else if port = 0x22 then { p with imcrSelected := val = 0x70 }
  else if port = 0x23 then if p.imcrSelected then { p with imcr := val } else p
  else p

/-- The data ports read as the masks. -/
def inb (port : UInt16) (p : Pics) : UInt8 :=
  if port = 0x21 then p.master.imr
  else if port = 0xA1 then p.slave.imr
  else 0

/-! ### The driver -/

def pic1Command : UInt16 := 0x20
def pic1Data : UInt16 := 0x21
def pic2Command : UInt16 := 0xA0
def pic2Data : UInt16 := 0xA1

def ioWait (p : Pics) : Pics := outb 0x80 0 p

def picInit (p : Pics) : Pics :=
  let mask1 := inb pic1Data p
  let mask2 := inb pic2Data p
  let p := ioWait (outb pic1Command 0x11 p)
  let p := ioWait (outb pic2Command 0x11 p)
  let p := ioWait (outb pic1Data 0x20 p)
  let p := ioWait (outb pic2Data 0x28 p)
  let p := ioWait (outb pic1Data 0x04 p)
  let p := ioWait (outb pic2Data 0x02 p)
  let p := ioWait (outb pic1Data 0x01 p)
  let p := ioWait (outb pic2Data 0x01 p)
  outb pic2Data mask2 (outb pic1Data mask1 p)

def picSendEoi (irq : UInt8) (p : Pics) : Pics :=
  let p := if irq ≥ 8 then outb pic2Command 0x20 p else p
  outb pic1Command 0x20 p

/-- `1 << irq` as a `uint8_t`. -/
def bit (irq : UInt8) : UInt8 := UInt8.ofNat (1 <<< irq.toNat)

/-- `pic_mask` and `pic_unmask`: `f` of the mask and the bit of the line is written back. -/
def picUpdate (f : UInt8 → UInt8 → UInt8) (irq : UInt8) (p : Pics) : Pics :=
  let (port, irq) := if irq < 8 then (pic1Data, irq) else (pic2Data, irq - 8)
  outb port (f (inb port p) (bit irq)) p

def picMask (irq : UInt8) (p : Pics) : Pics := picUpdate (fun value bit => value ||| bit) irq p

def picUnmask (irq : UInt8) (p : Pics) : Pics := picUpdate (fun value bit => value &&& ~~~bit) irq p

def picDisable (p : Pics) : Pics :=
  let p := outb pic2Data 0xFF (outb pic1Data 0xFF p)
  outb 0x23 0x01 (outb 0x22 0x70 p)

/-! ### Initialised chips -/

/-- Both chips work, with the vectors and the cascade of `pic_init`. -/
structure Ready (p : Pics) : Prop where
  master : p.master.await = .nothing ∧ p.master.offset = 0x20 ∧ p.master.cascade = 0x04 ∧
    p.master.mode = 0x01
  slave : p.slave.await = .nothing ∧ p.slave.offset = 0x28 ∧ p.slave.cascade = 0x02 ∧
    p.slave.mode = 0x01

variable {p p' : Pics} {irq : UInt8} {n : Fin 16}

/-- From whatever state, in the middle of an initialisation too, and with the masks kept. -/
theorem picInit_ready (p : Pics) : Ready (picInit p) ∧
    (picInit p).master.imr = p.master.imr ∧ (picInit p).slave.imr = p.slave.imr := by
  refine ⟨⟨⟨rfl, rfl, rfl, rfl⟩, ⟨rfl, rfl, rfl, rfl⟩⟩, rfl, rfl⟩

/-! ### Operations in any order -/

inductive Event where
  | mask (irq : UInt8)
  | unmask (irq : UInt8)
  | sendEoi (irq : UInt8)
  | disable

/-- `1 << irq` is defined for the numbers below 32 only. -/
def step (p : Pics) : Event → Option Pics
  | .mask irq => if irq.toNat < 40 then some (picMask irq p) else none
  | .unmask irq => if irq.toNat < 40 then some (picUnmask irq p) else none
  | .sendEoi irq => some (picSendEoi irq p)
  | .disable => some (picDisable p)

/-- Line `n` is masked. -/
def Pics.masked (p : Pics) (n : Fin 16) : Bool :=
  if n.val < 8 then p.master.imr.toBitVec.getLsbD n else p.slave.imr.toBitVec.getLsbD (n - 8)

def Event.apply (n : Fin 16) (masked : Bool) : Event → Bool
  | .mask irq => if irq.toNat = n then true else masked
  | .unmask irq => if irq.toNat = n then false else masked
  | .sendEoi _ => masked
  | .disable => true

/-- Whether line `n` is masked after a history that starts with `masked`. -/
def maskedAfter (n : Fin 16) (masked : Bool) : List (Entry Pics Event) → Bool
  | [] => masked
  | e :: h => e.event.apply n (maskedAfter n masked h)

theorem bit_getLsbD (irq : UInt8) (k : Nat) (small : k < 8) :
    (bit irq).toBitVec.getLsbD k = decide (irq.toNat = k) := by
  have power : 1 <<< irq.toNat = 2 ^ irq.toNat := Nat.one_shiftLeft _
  rw [bit, UInt8.toBitVec_ofNat', BitVec.getLsbD_ofNat, power, Nat.testBit_two_pow]
  simp [small]

variable {f : UInt8 → UInt8 → UInt8} {g : Bool → Bool → Bool}

theorem picUpdate_eq (ready : Ready p) : picUpdate f irq p =
    if irq < 8 then { p with master := { p.master with imr := f p.master.imr (bit irq) } }
    else { p with slave := { p.slave with imr := f p.slave.imr (bit (irq - 8)) } } := by
  by_cases low : irq < 8
  · simp [picUpdate, low, outb, inb, pic1Data, Chip.data, ready.master.1]
  · simp [picUpdate, low, outb, inb, pic2Data, Chip.data, ready.slave.1]

theorem picUpdate_ready (ready : Ready p) : Ready (picUpdate f irq p) := by
  rw [picUpdate_eq ready]
  split
  · exact ⟨ready.master, ready.slave⟩
  · exact ⟨ready.master, ready.slave⟩

/-- `f` works bit by bit as `g`, and a clear bit of its second argument changes nothing. -/
structure Bitwise (f : UInt8 → UInt8 → UInt8) (g : Bool → Bool → Bool) : Prop where
  bits : ∀ a b k, k < 8 →
    (f a b).toBitVec.getLsbD k = g (a.toBitVec.getLsbD k) (b.toBitVec.getLsbD k)
  neutral : ∀ x, g x false = x

/-- The update concerns the line of its number, and no line if there is none. -/
theorem picUpdate_masked (ready : Ready p) (bitwise : Bitwise f g) (n : Fin 16) :
    (picUpdate f irq p).masked n = if irq.toNat = n then g (p.masked n) true else p.masked n := by
  have eight : (8 : UInt8).toNat = 8 := rfl
  have small := irq.toNat_lt
  have line := n.isLt
  rw [picUpdate_eq ready]
  by_cases low : irq < 8
  · have below : irq.toNat < 8 := UInt8.lt_iff_toNat_lt.mp low
    rw [if_pos low, Pics.masked, Pics.masked]
    dsimp only
    by_cases first : n.val < 8
    · rw [if_pos first, if_pos first, bitwise.bits _ _ _ first, bit_getLsbD _ _ first]
      by_cases here : irq.toNat = n
      · simp [here]
      · simp [here, bitwise.neutral]
    · have other : irq.toNat ≠ n := by omega
      rw [if_neg first, if_neg first, if_neg other]
  · have above : 8 ≤ irq.toNat := by
      rw [UInt8.lt_iff_toNat_lt, eight] at low
      omega
    have number : (irq - 8).toNat = irq.toNat - 8 := by
      rw [UInt8.toNat_sub, eight]
      omega
    rw [if_neg low, Pics.masked, Pics.masked]
    dsimp only
    by_cases first : n.val < 8
    · have other : irq.toNat ≠ n := by omega
      rw [if_pos first, if_pos first, if_neg other]
    · have inside : n.val - 8 < 8 := by omega
      rw [if_neg first, if_neg first, bitwise.bits _ _ _ inside, bit_getLsbD _ _ inside, number]
      by_cases here : irq.toNat = n
      · simp [here]
      · have other : irq.toNat - 8 ≠ n.val - 8 := by omega
        simp [here, other, bitwise.neutral]

theorem picMask_masked (ready : Ready p) (n : Fin 16) :
    (picMask irq p).masked n = if irq.toNat = n then true else p.masked n := by
  have bitwise : Bitwise (fun value bit => value ||| bit) fun x y => x || y :=
    ⟨fun a b k _ => by simp, fun x => Bool.or_false x⟩
  rw [picMask, picUpdate_masked ready bitwise, Bool.or_true]

theorem picUnmask_masked (ready : Ready p) (n : Fin 16) :
    (picUnmask irq p).masked n = if irq.toNat = n then false else p.masked n := by
  have bitwise : Bitwise (fun value bit => value &&& ~~~bit) fun x y => x && !y :=
    ⟨fun a b k small => by simp [small], fun x => Bool.and_true x⟩
  rw [picUnmask, picUpdate_masked ready bitwise, Bool.not_true, Bool.and_false]

theorem picSendEoi_masked (p : Pics) (irq : UInt8) (n : Fin 16) :
    (picSendEoi irq p).masked n = p.masked n := by
  unfold picSendEoi
  split <;> rfl

theorem picSendEoi_ready (ready : Ready p) : Ready (picSendEoi irq p) := by
  unfold picSendEoi
  split <;> exact ⟨ready.master, ready.slave⟩

theorem picDisable_eq (ready : Ready p) : picDisable p = {
    master := { p.master with imr := 0xFF }
    slave := { p.slave with imr := 0xFF }
    imcrSelected := true
    imcr := 0x01 } := by
  simp [picDisable, outb, pic1Data, pic2Data, Chip.data, ready.master.1, ready.slave.1]

theorem picDisable_masked (ready : Ready p) (n : Fin 16) : (picDisable p).masked n = true := by
  have first : ∀ n : Fin 16, n.val < 8 → (0xFF : UInt8).toBitVec.getLsbD n = true := by decide
  have second : ∀ n : Fin 16, (0xFF : UInt8).toBitVec.getLsbD (n - 8) = true := by decide
  rw [picDisable_eq ready, Pics.masked]
  split
  next low => exact first n low
  · exact second n

theorem step_masked {e : Event} (ready : Ready p) (taken : step p e = some p') :
    Ready p' ∧ ∀ n, p'.masked n = e.apply n (p.masked n) := by
  cases e with
  | mask irq =>
    simp only [step] at taken
    split at taken
    · cases taken
      exact ⟨picUpdate_ready ready, picMask_masked ready⟩
    · cases taken
  | unmask irq =>
    simp only [step] at taken
    split at taken
    · cases taken
      exact ⟨picUpdate_ready ready, picUnmask_masked ready⟩
    · cases taken
  | sendEoi irq =>
    cases taken
    exact ⟨picSendEoi_ready ready, picSendEoi_masked p irq⟩
  | disable =>
    cases taken
    refine ⟨?_, picDisable_masked ready⟩
    rw [picDisable_eq ready]
    exact ⟨ready.master, ready.slave⟩

end Pic

open Pic in
/-- `pic_init` brings the chips from any state to the vectors from 0x20 and 0x28 on, and from
then on a line is masked as the last operation on it left it, as before `pic_init` if there was
none. -/
theorem pic_follows (p₀ : Pics) {h : List (Entry Pics Pic.Event)} {p : Pics}
    (run : Run step (· = picInit p₀) h p) :
    Ready p ∧ ∀ n, p.masked n = maskedAfter n (p₀.masked n) h := by
  induction run with
  | start same =>
    subst same
    obtain ⟨ready, master, slave⟩ := picInit_ready p₀
    refine ⟨ready, fun n => ?_⟩
    rw [Pics.masked, master, slave]
    rfl
  | step before taken ih =>
    obtain ⟨ready, masks⟩ := ih
    obtain ⟨ready', after⟩ := step_masked ready taken
    refine ⟨ready', fun n => ?_⟩
    rw [after, masks]
    rfl

namespace Pic

/-- The first chip is in the middle of an initialisation. -/
def halfway : Pics := ⟨⟨.icw4, 0, 0, 0, 0xFB, 0⟩, ⟨.nothing, 0, 0, 0, 0xFF, 0⟩, false, 0⟩

end Pic

open Pic in
theorem pic_follows_keyboard : ∃ h p, Run step (· = picInit halfway) h p ∧
    p.masked 1 = false ∧ Ready p := by
  have reached : ∃ h p, Run step (· = picInit halfway) h p ∧ decide (p.masked 1 = false) = true :=
    Run.exists_of_perform [Event.mask 1, Event.sendEoi 1, Event.unmask 1]
      (fun r => decide (Pics.masked r.2 1 = false)) rfl (by decide +kernel)
  obtain ⟨h, p, run, shown⟩ := reached
  exact ⟨h, p, run, of_decide_eq_true shown, (pic_follows halfway run).1⟩

end DedOS
