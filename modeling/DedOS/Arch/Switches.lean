import DedOS.Arch.Computer
import DedOS.Scheduler.Sleep

/-!
# What the threads and the devices see of interrupts

A thread that is given the processor has exactly the registers with which it last lost it, and
an interrupt that does not take the processor away changes none of them. On the side of the
devices, nothing stays in service: every request is served as soon as the processor lets it.
-/

namespace DedOS

open Lib Isr

namespace Computer

/-! ### Registers -/

/-- The processor cannot tell two frames with the same context apart. -/
theorem SameContext.ofFrame {a b : Registers} (same : SameContext a b) :
    Cpu.ofFrame a = Cpu.ofFrame b := by
  obtain ⟨rip, cs, rflags, rsp, ss, rax, rbx, rcx, rdx, rsi, rdi, rbp, r8, r9, r10, r11, r12, r13,
    r14, r15⟩ := same
  have general : a.reg = b.reg := by
    funext r
    cases r <;> assumption
  rw [Cpu.ofFrame, Cpu.ofFrame, general, rip, cs, rflags, rsp, ss]

/-- The registers that the step determines for `t`: those it takes the processor from `t` with,
or those that `thread_create` makes. -/
def registersFrom (t : Tid) (e : Entry Computer Event) : Option Cpu :=
  match e.event with
  | .interrupt _ _ | .resume _ _ =>
    if e.pre.machine.sched.current = some t ∧ e.post.machine.sched.current ≠ some t then
      some e.pre.cpu
    else none
  | .call (.create _ entry true (some stack)) =>
    if t = .thread e.pre.machine.sched.nextTid then
      some (Cpu.ofFrame (initialContext entry stack))
    else none
  | _ => none

/-- The registers with which `t` last lost the processor, or its initial ones if it never had
it. -/
def lastRegisters (t : Tid) : List (Entry Computer Event) → Option Cpu
  | [] => none
  | e :: h => (registersFrom t e).or (lastRegisters t h)

variable {image : Image} {scancode : UInt8} {callee : Callee} {c c' : Computer} {v : UInt8}
  {h : List (Entry Computer Event)} {e : Entry Computer Event} {t : Tid}

/-- A step that the scheduler does not see leaves its processor to the current thread. -/
theorem Stepped.hidden (stepped : Stepped image e) (unseen : schedView e.pre e.event = none) :
    e.post.machine = e.pre.machine := by
  have simulates := stepped.effect.machine stepped.quiet
  simpa only [Simulates, unseen] using simulates

/-- The scheduler's context for a step is that of the processor. -/
theorem Stepped.contextFrom (stepped : Stepped image e) (t : Tid) :
    (((e.seen machine schedView).bind (DedOS.contextFrom t)).map Cpu.ofFrame) =
      registersFrom t e := by
  have hidden : schedView e.pre e.event = none →
      (if e.pre.machine.sched.current = some t ∧ e.post.machine.sched.current ≠ some t then
        some e.pre.cpu else none) = none := by
    intro unseen
    rw [stepped.hidden unseen]
    exact if_neg fun both => both.2 both.1
  obtain ⟨pre, event, post⟩ := e
  cases event with
  | raise v => rfl
  | compute cpu mem => rfl
  | getchar => rfl
  | call call =>
    cases call with
    | create proc entry object stack =>
      cases object with
      | false => rfl
      | true =>
        cases stack with
        | none => rfl
        | some stack =>
          by_cases new : t = .thread pre.machine.sched.nextTid <;>
            simp [Entry.seen, schedView, DedOS.contextFrom, registersFrom, new]
    | _ => rfl
  | resume scancode callee =>
    by_cases lost : pre.machine.sched.current = some t ∧ post.machine.sched.current ≠ some t <;>
      simp [Entry.seen, schedView, DedOS.contextFrom, registersFrom, lost, frame,
        Cpu.ofFrame_frame]
  | interrupt scancode callee =>
    by_cases timer : pre.lapic.pending = some 32
    · by_cases lost : pre.machine.sched.current = some t ∧ post.machine.sched.current ≠ some t <;>
        simp [Entry.seen, schedView, DedOS.contextFrom, registersFrom, lost, timer, frame,
          Cpu.ofFrame_frame]
    · have unseen : schedView pre (.interrupt scancode callee) = none := if_neg timer
      rw [registersFrom, hidden unseen]
      simp [Entry.seen, unseen]

/-- The event is an interrupt, or goes on with a function of the scheduler. -/
def MayInterrupt : Event → Prop
  | .interrupt _ _ => True
  | .resume _ _ => True
  | _ => False

/-- The step enters `isr_handler` through vector 32. -/
def Ticks (e : Entry Computer Event) : Prop :=
  ∃ d, schedView e.pre e.event = some d ∧ entersTick e.pre.machine d

/-- What the step leaves to the interrupted thread. -/
structure Left (e : Entry Computer Event) (f : Registers) : Prop where
  cpu : e.post.cpu = Cpu.ofFrame f
  above : ∀ x, (interruptStack e.pre.machine.sched.tssRsp0 e.pre.cpu).toNat ≤ x →
    e.post.mem x = e.pre.mem x

/-- A tick leaves the registers of the frame with which `isr_handler` returned. -/
theorem Stepped.tick (stepped : Stepped image e) (ticks : Ticks e) : Left e e.post.machine.frame := by
  obtain ⟨d, seen, enters⟩ := ticks
  obtain ⟨pre, event, post⟩ := e
  obtain ⟨eff, quiet⟩ := stepped
  dsimp only at eff quiet
  cases eff with
  | interrupt v scancode callee f s before _ enabled pending handled left after =>
    have timer : v = 32 := by
      by_contra other
      have unseen : schedView pre (.interrupt scancode callee) = none :=
        if_neg fun same => other (Option.some.inj (pending.symm.trans same))
      rw [unseen] at seen
      cases seen
    rw [if_pos timer] at after
    subst after
    have machine : before.machine.frame = f := by rw [left.machine_timer timer]
    exact ⟨left.cpu.trans (congrArg _ machine.symm), left.above⟩
  | raised scancode callee t rest f s _ current todo handled left =>
    have machine : post.machine.frame = f := by rw [left.machine_timer rfl]
    exact ⟨left.cpu.trans (congrArg _ machine.symm), left.above⟩
  | resumed scancode callee m other taken =>
    cases seen
    obtain ⟨t, rest, current, todo⟩ := enters
    exact absurd todo (other t rest current)
  | call call m taken =>
    cases seen
    exact enters.elim
  | raise v high listed => cases seen
  | compute cpu mem => cases seen
  | getchar => cases seen

/-- What the threads see of the interrupts in the run `h`. -/
structure Transparent (h : List (Entry Computer Event)) : Prop where
  /-- a thread that is given the processor finds in it the registers with which it last lost it,
  or its initial ones -/
  restored : ∀ t later e before, h = later ++ e :: before → t ≠ .idle →
    e.pre.machine.sched.current ≠ some t → e.post.machine.sched.current = some t →
    lastRegisters t before = some e.post.cpu
  /-- an interrupt that is no tick, that does not end the quantum, or after which the same thread
  goes on leaves all registers as they were -/
  kept : ∀ e ∈ h, MayInterrupt e.event →
    (¬ Ticks e ∨ ¬ EndsQuantum e.pre.machine ∨ ∃ t, t ≠ .idle ∧
      e.pre.machine.sched.current = some t ∧ e.post.machine.sched.current = some t) →
    e.post.cpu = e.pre.cpu
  /-- no interrupt changes the memory above the stack pointer that it comes with -/
  above : ∀ e ∈ h, MayInterrupt e.event →
    ∀ x, (interruptStack e.pre.machine.sched.tssRsp0 e.pre.cpu).toNat ≤ x →
      e.post.mem x = e.pre.mem x

/-- A step that the scheduler sees, with the state of the scheduler before it. -/
theorem Runs.sched_step (room : ∀ e ∈ h, e.pre.Room) (run : Runs image h c) (member : e ∈ h)
    {d : DedOS.Event} (seen : schedView e.pre e.event = some d) : ∃ q q',
      Machine.Inv e.pre.machine q ∧ Machine.Effect e.pre.machine (e.pre.machine.view q) d
        e.post.machine (e.post.machine.view q') := by
  obtain ⟨after, before, rfl⟩ := List.append_of_mem member
  obtain ⟨_, rest⟩ := run.suffix
  have stepped := (Runs.quiet room run).2 e member
  have earlier : Machine.Runs (schedHistory before) e.pre.machine := by
    refine Runs.machine (fun f member => room f ?_) rest.entry.1
    exact List.mem_append_right _ (List.mem_cons_of_mem _ member)
  obtain ⟨q, inv⟩ := Machine.Runs.inv earlier
  have simulates := stepped.effect.machine stepped.quiet
  have taken : e.pre.machine.step d = some e.post.machine := by
    simpa only [Simulates, seen] using simulates
  obtain ⟨q', eff, _⟩ := inv.step taken
  exact ⟨q, q', inv, eff⟩

/-- `isr_handler` returns from every vector of an IRQ stub. -/
theorem isrHandler_returns {q : List Tid} (inv : Machine.Inv c.machine q) (high : 32 ≤ v.toNat) :
    ∃ f s, DedOS.isrHandler (c.cpu.frame (UInt64.ofNat v.toNat) 0) c.machine.sched = some (f, s) := by
  by_cases timer : v = 32
  · subst timer
    obtain ⟨s', run, _⟩ := vector32_refines c.frame inv.represents inv.wf
    exact ⟨_, _, run⟩
  · exact ⟨_, _, isrHandler_other high rfl timer⟩

/-- The highest request is served, and nothing else changes for the devices. -/
structure Served (c c' : Computer) (v : UInt8) : Prop where
  requested : c.lapic.requested v = true
  highest : ∀ w, c.lapic.requested w = true → w.toNat ≤ v.toNat
  cleared : c'.lapic.requested = Function.update c.lapic.requested v false
  ended : ∀ w, c'.lapic.inService w = false

theorem interrupt_served {q : List Tid} (quiet : Quiet c.lapic) (inv : Machine.Inv c.machine q)
    (enabled : c.interruptible = true) (room : c.Room) (asked : c.lapic.requested v = true)
    (image : Image) (scancode : UInt8) (callee : Callee) :
    ∃ w c', step image c (.interrupt scancode callee) = some c' ∧ Served c c' w := by
  have pending : c.lapic.pending = Lapic.highest c.lapic.requested :=
    quiet.idle.pending fun v asked => Nat.le_trans (by decide) (quiet.requested v asked).1
  cases found : Lapic.highest c.lapic.requested with
  | none =>
    rw [Lapic.highest_none.mp found v] at asked
    cases asked
  | some w =>
    rw [found] at pending
    obtain ⟨high, listed⟩ := quiet.pending_range pending
    obtain ⟨f, s, handled⟩ := isrHandler_returns inv high
    have ends : EndsAsHandled image (.hardware w) scancode callee
        { c with lapic := c.lapic.acknowledge w } := interrupt_ends rfl high listed room
    simp only [EndsAsHandled, Cause.vector, handled] at ends
    obtain ⟨before, done, left⟩ := ends
    have taken : step image c (.interrupt scancode callee) = some (if w = 32 then
        before.setMachine { before.machine with hwTimer := before.machine.hwTimer + 1 }
      else before) := by
      simp only [step, enabled, pending, if_true]
      rw [done]
      rfl
    refine ⟨w, _, taken, ?_⟩
    have lapic := served_lapic quiet left
    constructor
    case requested => exact Lapic.highest_some found
    case highest => exact Lapic.highest_le found
    case cleared => split <;> exact congrArg Lapic.requested lapic
    case ended =>
      intro u
      have inService : before.lapic.inService u = c.lapic.inService u := by rw [lapic]
      split <;> exact inService.trans (quiet.idle.nothing u)

end Computer

open Computer in
/-- In every state that is reached nothing is in service, so no request waits for a missing end
of another one: with interrupts enabled the highest is served, whatever it does. -/
theorem interrupts_served {image : Image} {h : List (Entry Computer Computer.Event)} {c : Computer}
    (room : ∀ e ∈ h, e.pre.Room) (run : Computer.Runs image h c) :
    (∀ v, c.lapic.inService v = false) ∧
    (c.interruptible = true → c.Room → ∀ v, c.lapic.requested v = true → ∀ scancode callee,
      ∃ w c', step image c (.interrupt scancode callee) = some c' ∧ Served c c' w) := by
  have quiet := (Runs.quiet room run).1
  obtain ⟨q, inv⟩ := Machine.Runs.inv (Runs.machine room run)
  refine ⟨quiet.idle.nothing, ?_⟩
  intro enabled here v asked scancode callee
  exact interrupt_served quiet inv enabled here asked image scancode callee

open Computer in
/-- A key waits behind the timer. -/
theorem interrupts_served_two_requests : ∃ h c, Computer.Runs flatImage h c ∧
    (c.lapic.requested 32 = true ∧ c.lapic.requested 33 = true) ∧
    ∃ w c', step flatImage c (.interrupt 0x1E clobbered) = some c' ∧ Served c c' w := by
  obtain ⟨h, c, run, room, ends⟩ := Computer.reaches [.raise 32, .raise 33]
    (fun r => decide ((r.2.lapic.requested 32 = true ∧ r.2.lapic.requested 33 = true) ∧
      r.2.interruptible = true ∧ r.2.Room)) (by decide +kernel)
  obtain ⟨asked, enabled, here⟩ := of_decide_eq_true ends
  exact ⟨h, c, run, asked,
    (interrupts_served room run).2 enabled here 32 asked.1 0x1E clobbered⟩

end DedOS
