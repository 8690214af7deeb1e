import DedOS.Arch.Idt
import DedOS.Arch.Lapic
import DedOS.Drivers.Keyboard
import DedOS.Lib.Simulation
import DedOS.Scheduler.Context

/-!
# The whole computer

The processor, the memory, the local APIC and everything that `isr_handler` works on. An
interrupt goes through the gates of `idt_init` and the instructions of `isr.asm`; what the
threads compute is left open. A run of the computer, seen through its scheduler, is a run of
`Machine`, and seen through its keyboard buffer one of `Keyboard`.
-/

namespace DedOS

open Lib

/-! ### `isr_handler` -/

/-- What `isr_handler` works on. -/
structure World where
  sched : Sched
  keyboard : Keyboard
  lapic : Lapic

/-- `isr_handler`, with the byte that the keyboard has ready. `none` means that it does not
return. -/
def World.isrHandler (scancode : UInt8) (frame : Registers) (w : World) :
    Option (Registers × World) :=
  if frame.vector < 32 then none
  else do
    let irq := (frame.vector - 32).toUInt8
    let (frame, w) ←
      if irq = 0 then
        let sched := w.sched.setCore { w.sched.toCore with timerTicks := w.sched.timerTicks + 1 }
        match sched.current with
        | some _ =>
          (schedulerTickIrq frame sched).map fun left => (left.1, { w with sched := left.2 })
        | none => some (frame, { w with sched := sched })
      else if irq = 1 then
        some (frame, { w with keyboard := Keyboard.keyboardHandler scancode w.keyboard })
      else some (frame, w)
    some (frame, { w with lapic := Lapic.lapicEoi w.lapic })

/-! ### The computer -/

structure Computer where
  cpu : Cpu
  mem : Memory
  machine : Machine
  keyboard : Keyboard
  lapic : Lapic

/-- `static idt_entry_t idt[IDT_SIZE];` -/
def staticIdt : Idt := fun _ => ⟨0, 0, 0, 0, 0, 0, 0⟩

namespace Computer

open Isr

def world (c : Computer) : World := ⟨c.machine.sched, c.keyboard, c.lapic⟩

/-- The frame of an interrupt through vector 32. -/
def frame (c : Computer) : Registers := c.cpu.frame 32 0

inductive Event where
  /-- a device asks for an interrupt -/
  | raise (vector : UInt8)
  /-- the local APIC interrupts the processor -/
  | interrupt (scancode : UInt8) (callee : Callee)
  /-- any instructions of the current thread -/
  | compute (cpu : Cpu) (mem : Memory)
  /-- the current thread enters a function of the scheduler -/
  | call (call : Call)
  /-- the current thread goes on with the function it is in -/
  | resume (scancode : UInt8) (callee : Callee)
  /-- a step of `keyboard_getchar` -/
  | getchar

/-- `int` or the APIC interrupt the processor. -/
def interrupt (image : Image) (cause : Cause) (scancode : UInt8) (callee : Callee)
    (c : Computer) : Option Computer :=
  match Isr.interrupt image (idtInit image staticIdt) c.machine.sched.tssRsp0
      (World.isrHandler scancode) callee interruptLength cause ⟨c.cpu, c.mem, c.world⟩ with
  | .error _ => none
  | .ok s => some {
      cpu := s.cpu
      mem := s.mem
      machine := { c.machine with
        sched := s.world.sched
        frame := if cause.vector = 32 then s.cpu.frame 32 0 else c.machine.frame }
      keyboard := s.world.keyboard
      lapic := s.world.lapic }

def setMachine (c : Computer) (m : Machine) : Computer := { c with machine := m }

/-- The interrupt flag of `rflags`. -/
def interruptible (c : Computer) : Bool := c.cpu.rflags &&& 0x200 ≠ 0

def step (image : Image) (c : Computer) : Event → Option Computer
  | .raise vector =>
    if 32 ≤ vector.toNat ∧ vector.toNat < 48 then
      some { c with lapic := c.lapic.request vector }
    else none
  | .interrupt scancode callee =>
    if c.interruptible then
      match c.lapic.pending with
      | none => none
      | some vector =>
        let c := { c with lapic := c.lapic.acknowledge vector }
        (c.interrupt image (.hardware vector) scancode callee).map fun c =>
          if vector = 32 then c.setMachine { c.machine with hwTimer := c.machine.hwTimer + 1 }
          else c
    else none
  | .compute cpu mem => some { c with cpu := cpu, mem := mem }
  | .call call => (c.machine.step (.call call)).map c.setMachine
  | .resume scancode callee =>
    match c.machine.sched.current with
    | none => none
    | some t =>
      match c.machine.pending t with
      | .raise :: rest =>
        (c.setMachine (c.machine.setPending t rest)).interrupt image (.software 32) scancode callee
      | _ => (c.machine.step (.resume c.frame)).map c.setMachine
  | .getchar => some { c with keyboard := Keyboard.keyboardGetchar c.keyboard }

/-- The local APIC between interrupts: idle, with only vectors of IRQ stubs requested. -/
structure Quiet (l : Lapic) : Prop where
  idle : l.Idle
  requested : ∀ v, l.requested v = true → 32 ≤ v.toNat ∧ v.toNat < 48

/-- The scheduler has been initialised, and the keyboard may have been used already. -/
structure Booted (c : Computer) : Prop where
  machine : c.machine.Booted
  lapic : Quiet c.lapic
  keyboard : ∃ h, Run Keyboard.step (· = Keyboard.init) h c.keyboard

abbrev Runs (image : Image) : List (Entry Computer Event) → Computer → Prop :=
  Run (step image) Booted

/-- There is room for a frame below the stack pointer that an interrupt would start from. -/
def Room (c : Computer) : Prop :=
  registersSize + 8 ≤ (interruptStack c.machine.sched.tssRsp0 c.cpu).toNat

instance : DecidablePred Room := fun _ => Nat.decLe ..

/-! ### `isr_handler` is `isr_handler` of the scheduler, and more -/

variable {image : Image} {scancode : UInt8} {callee : Callee} {c c' : Computer} {v : UInt8}
  {f f' : Registers} {s s' : Sched}

theorem irq_eq (listed : 32 ≤ v.toNat) :
    (UInt64.ofNat v.toNat - 32).toUInt8.toNat = v.toNat - 32 := by
  have small := v.toNat_lt
  have offset : (32 : UInt64).toNat = 32 := rfl
  rw [UInt64.toNat_toUInt8, UInt64.toNat_sub, UInt64.toNat_ofNat', offset]
  omega

theorem not_exception (listed : 32 ≤ v.toNat) : ¬ UInt64.ofNat v.toNat < 32 := by
  have small := v.toNat_lt
  have offset : (32 : UInt64).toNat = 32 := rfl
  rw [UInt64.lt_iff_toNat_lt, UInt64.toNat_ofNat', offset]
  omega

theorem irq_eq_iff (listed : 32 ≤ v.toNat) (irq : UInt8) (small : irq.toNat < 16) :
    (UInt64.ofNat v.toNat - 32).toUInt8 = irq ↔ v = irq + 32 := by
  have bound := v.toNat_lt
  have offset : (32 : UInt8).toNat = 32 := rfl
  rw [← UInt8.toNat_inj, ← UInt8.toNat_inj, irq_eq listed, UInt8.toNat_add, offset]
  omega

/-- The three parts of the world, each with what the interrupt does to it. -/
theorem isrHandler_eq (w : World) (listed : 32 ≤ v.toNat) (vector : f.vector = UInt64.ofNat v.toNat) :
    World.isrHandler scancode f w = (DedOS.isrHandler f w.sched).map fun left =>
      (left.1, {
        sched := left.2
        keyboard := if v = 33 then Keyboard.keyboardHandler scancode w.keyboard else w.keyboard
        lapic := Lapic.lapicEoi w.lapic }) := by
  have timer : (f.vector - 32).toUInt8 = 0 ↔ v = 32 := by
    rw [vector]
    exact irq_eq_iff listed 0 (by decide)
  have key : (f.vector - 32).toUInt8 = 1 ↔ v = 33 := by
    rw [vector]
    exact irq_eq_iff listed 1 (by decide)
  have maskable : ¬ f.vector < 32 := by
    rw [vector]
    exact not_exception listed
  rw [World.isrHandler, DedOS.isrHandler, if_neg maskable, if_neg maskable]
  dsimp only
  by_cases isTimer : v = 32
  · subst isTimer
    rw [if_pos (timer.mpr rfl), if_pos (timer.mpr rfl)]
    generalize w.sched.setCore { w.sched.toCore with timerTicks := w.sched.timerTicks + 1 } = ticked
    cases ticked.current with
    | none => rfl
    | some t => cases schedulerTickIrq f ticked <;> rfl
  · rw [if_neg fun same => isTimer (timer.mp same), if_neg fun same => isTimer (timer.mp same)]
    by_cases isKey : v = 33
    · rw [if_pos (key.mpr isKey), if_pos isKey]
      rfl
    · rw [if_neg fun same => isKey (key.mp same), if_neg isKey]
      rfl

/-- Vectors other than 32 do not concern the scheduler. -/
theorem isrHandler_other (listed : 32 ≤ v.toNat) (vector : f.vector = UInt64.ofNat v.toNat)
    (other : v ≠ 32) : DedOS.isrHandler f s = some (f, s) := by
  have maskable : ¬ f.vector < 32 := by
    rw [vector]
    exact not_exception listed
  have noTimer : ¬ (f.vector - 32).toUInt8 = 0 := by
    rw [vector]
    exact fun same => other ((irq_eq_iff listed 0 (by decide)).mp same)
  rw [DedOS.isrHandler, if_neg maskable, if_neg noTimer]

theorem schedulerTickIrq_vector (returned : schedulerTickIrq f s = some (f', s')) :
    f'.vector = f.vector ∧ f'.errorCode = f.errorCode := by
  rw [schedulerTickIrq] at returned
  split at returned
  · cases returned
    exact ⟨rfl, rfl⟩
  next current =>
  split at returned
  · cases returned
    exact ⟨rfl, rfl⟩
  next =>
  simp only [Option.bind_eq_bind, Option.bind_eq_some_iff] at returned
  obtain ⟨_, _, _, _, returned⟩ := returned
  split at returned
  · cases returned
    exact ⟨rfl, rfl⟩
  next =>
  simp only [reschedule, Option.bind_eq_bind, Option.bind_eq_some_iff] at returned
  obtain ⟨_, _, returned⟩ := returned
  cases returned
  exact ⟨rfl, rfl⟩

/-- `isr_handler` leaves the vector and the error code of the frame alone. -/
theorem isrHandler_vector (returned : DedOS.isrHandler f s = some (f', s')) :
    f'.vector = f.vector ∧ f'.errorCode = f.errorCode := by
  rw [DedOS.isrHandler] at returned
  split at returned
  · cases returned
  next =>
  dsimp only at returned
  split at returned
  · split at returned
    · exact schedulerTickIrq_vector returned
    · cases returned
      exact ⟨rfl, rfl⟩
  · cases returned
    exact ⟨rfl, rfl⟩

/-! ### One interrupt -/

/-- What an interrupt leaves behind when the scheduler's `isr_handler` has left `f` and `s`. -/
structure Interrupted (cause : Cause) (scancode : UInt8) (c : Computer) (f : Registers)
    (s : Sched) (c' : Computer) : Prop where
  cpu : c'.cpu = Cpu.ofFrame f
  above : ∀ x, (interruptStack c.machine.sched.tssRsp0 c.cpu).toNat ≤ x → c'.mem x = c.mem x
  machine : c'.machine = { c.machine with
    sched := s, frame := if cause.vector = 32 then f else c.machine.frame }
  keyboard : c'.keyboard =
    if cause.vector = 33 then Keyboard.keyboardHandler scancode c.keyboard else c.keyboard
  lapic : c'.lapic = Lapic.lapicEoi c.lapic

theorem Interrupted.machine_timer {cause : Cause} (left : Interrupted cause scancode c f s c')
    (timer : cause.vector = 32) : c'.machine = { c.machine with sched := s, frame := f } := by
  rw [left.machine, if_pos timer]

theorem Interrupted.machine_other {cause : Cause} (left : Interrupted cause scancode c f s c')
    (other : cause.vector ≠ 32) : c'.machine = { c.machine with sched := s } := by
  rw [left.machine, if_neg other]

/-- The interrupt ends as `isr_handler` of the scheduler does. -/
def EndsAsHandled (image : Image) (cause : Cause) (scancode : UInt8) (callee : Callee)
    (c : Computer) : Prop :=
  match DedOS.isrHandler (c.cpu.frame (UInt64.ofNat cause.vector.toNat) 0) c.machine.sched with
  | none => c.interrupt image cause scancode callee = none
  | some (f, s) => ∃ c', c.interrupt image cause scancode callee = some c' ∧
      Interrupted cause scancode c f s c'

theorem interrupt_ends {cause : Cause} (silent : cause.error = none)
    (high : 32 ≤ cause.vector.toNat) (listed : cause.vector.toNat < 48) (room : c.Room) :
    EndsAsHandled image cause scancode callee c := by
  unfold EndsAsHandled
  obtain ⟨f₀, isF₀⟩ : ∃ f₀, f₀ = c.cpu.frame (UInt64.ofNat cause.vector.toNat) 0 := ⟨_, rfl⟩
  have frame : causeFrame cause c.cpu = f₀ := by rw [isF₀, causeFrame, silent]; rfl
  have vector : f₀.vector = UInt64.ofNat cause.vector.toNat := by rw [isF₀]; rfl
  have noError : f₀.errorCode = 0 := by rw [isF₀]; rfl
  have handled : HandledAs image (idtInit image staticIdt) c.machine.sched.tssRsp0
      (World.isrHandler scancode) callee cause ⟨c.cpu, c.mem, c.world⟩ f₀ := by
    rw [← frame]
    apply handledAs_causeFrame listed (complete_irq silent high)
    exact Nat.le_trans (Nat.le_add_right ..) room
  have done := handled interruptLength (Nat.le_refl _)
  rw [isrHandler_eq _ high vector] at done
  rw [← isF₀]
  have world : (c.world).sched = c.machine.sched := rfl
  rw [world] at done
  cases returned : DedOS.isrHandler f₀ c.machine.sched with
  | none =>
    rw [returned] at done
    simp only [Option.map_none] at done
    simp only [interrupt]
    rw [done]
  | some left =>
    obtain ⟨f, s⟩ := left
    rw [returned] at done
    simp only [Option.map_some] at done
    obtain ⟨s', finished, resumes⟩ := done
    simp only [interrupt]
    rw [finished]
    obtain ⟨sameVector, sameError⟩ := isrHandler_vector returned
    refine ⟨_, rfl, ?_⟩
    constructor
    case cpu => exact resumes.cpu
    case above => exact resumes.above
    case keyboard => rw [resumes.world]; rfl
    case lapic => rw [resumes.world]; rfl
    case machine =>
      by_cases timer : cause.vector = 32
      · have back : s'.cpu.frame 32 0 = f := by
          rw [vector, timer] at sameVector
          rw [noError] at sameError
          have v32 : UInt64.ofNat (UInt8.toNat 32) = 32 := rfl
          rw [v32] at sameVector
          rw [resumes.cpu, ← sameVector, ← sameError]
          rfl
        rw [if_pos timer, if_pos timer, back, resumes.world]
      · rw [if_neg timer, if_neg timer, resumes.world]

/-! ### What a step does -/

/-- `e` turns `c` into `c'`, an interrupt with room for its frame. -/
inductive Effect (image : Image) (c : Computer) : Event → Computer → Prop
  | raise (v : UInt8) (high : 32 ≤ v.toNat) (listed : v.toNat < 48) :
      Effect image c (.raise v) { c with lapic := c.lapic.request v }
  | interrupt (v scancode : UInt8) (callee : Callee) (f : Registers) (s : Sched)
      (before c' : Computer) (enabled : c.interruptible = true)
      (pending : c.lapic.pending = some v)
      (handled : DedOS.isrHandler (c.cpu.frame (UInt64.ofNat v.toNat) 0) c.machine.sched =
        some (f, s))
      (left : Interrupted (.hardware v) scancode { c with lapic := c.lapic.acknowledge v } f s before)
      (after : c' = if v = 32 then
          before.setMachine { before.machine with hwTimer := before.machine.hwTimer + 1 }
        else before) :
      Effect image c (.interrupt scancode callee) c'
  | compute (cpu : Cpu) (mem : Memory) :
      Effect image c (.compute cpu mem) { c with cpu := cpu, mem := mem }
  | call (call : Call) (m : Machine) (taken : c.machine.step (.call call) = some m) :
      Effect image c (.call call) (c.setMachine m)
  | raised (scancode : UInt8) (callee : Callee) (t : Tid) (rest : List Micro) (f : Registers)
      (s : Sched) (c' : Computer) (current : c.machine.sched.current = some t)
      (todo : c.machine.pending t = .raise :: rest)
      (handled : DedOS.isrHandler c.frame c.machine.sched = some (f, s))
      (left : Interrupted (.software 32) scancode (c.setMachine (c.machine.setPending t rest)) f s c') :
      Effect image c (.resume scancode callee) c'
  | resumed (scancode : UInt8) (callee : Callee) (m : Machine)
      (quiet : ∀ t rest, c.machine.sched.current = some t → c.machine.pending t ≠ .raise :: rest)
      (taken : c.machine.step (.resume c.frame) = some m) :
      Effect image c (.resume scancode callee) (c.setMachine m)
  | getchar : Effect image c .getchar { c with keyboard := Keyboard.keyboardGetchar c.keyboard }

/-- A vector that is pending has been requested. -/
theorem Quiet.pending_range {l : Lapic} (quiet : Quiet l) (pending : l.pending = some v) :
    32 ≤ v.toNat ∧ v.toNat < 48 := by
  rw [quiet.idle.pending fun v asked => Nat.le_trans (by decide) (quiet.requested v asked).1] at pending
  exact quiet.requested v (Lapic.highest_some pending)

theorem step_effect {e : Event} (quiet : Quiet c.lapic) (room : c.Room) (taken : step image c e = some c') :
    Effect image c e c' := by
  cases e with
  | raise v =>
    simp only [step] at taken
    split at taken
    next range =>
      cases taken
      exact .raise v range.1 range.2
    · cases taken
  | interrupt scancode callee =>
    simp only [step] at taken
    split at taken
    next enabled =>
      split at taken
      · cases taken
      next v pending =>
        obtain ⟨high, listed⟩ := quiet.pending_range pending
        have ends : EndsAsHandled image (.hardware v) scancode callee
            { c with lapic := c.lapic.acknowledge v } := interrupt_ends rfl high listed room
        obtain ⟨before, ended, after⟩ := Option.map_eq_some_iff.mp taken
        cases handled : DedOS.isrHandler (c.cpu.frame (UInt64.ofNat v.toNat) 0) c.machine.sched with
        | none =>
          simp only [EndsAsHandled, Cause.vector, handled] at ends
          rw [ended] at ends
          cases ends
        | some returned =>
          simp only [EndsAsHandled, Cause.vector, handled] at ends
          obtain ⟨left, done, interrupted⟩ := ends
          obtain rfl := Option.some.inj (ended.symm.trans done)
          exact .interrupt v scancode callee returned.1 returned.2 before c' enabled pending handled
            interrupted after.symm
    · cases taken
  | compute cpu mem =>
    cases taken
    exact .compute cpu mem
  | call call =>
    obtain ⟨m, made, rfl⟩ := Option.map_eq_some_iff.mp taken
    exact .call call m made
  | resume scancode callee =>
    simp only [step] at taken
    split at taken
    · cases taken
    next t current =>
      split at taken
      next rest todo =>
        have ends : EndsAsHandled image (.software 32) scancode callee
            (c.setMachine (c.machine.setPending t rest)) :=
          interrupt_ends rfl (by decide) (by decide) room
        have frame : (c.setMachine (c.machine.setPending t rest)).cpu.frame
            (UInt64.ofNat (Cause.software 32).vector.toNat) 0 = c.frame := rfl
        have sched : (c.setMachine (c.machine.setPending t rest)).machine.sched =
            c.machine.sched := rfl
        rw [EndsAsHandled, frame, sched] at ends
        cases handled : DedOS.isrHandler c.frame c.machine.sched with
        | none =>
          simp only [handled] at ends
          rw [taken] at ends
          cases ends
        | some returned =>
          simp only [handled] at ends
          obtain ⟨left, done, interrupted⟩ := ends
          obtain rfl := Option.some.inj (taken.symm.trans done)
          exact .raised scancode callee t rest returned.1 returned.2 c' current todo handled
            interrupted
      next other =>
        obtain ⟨m, made, rfl⟩ := Option.map_eq_some_iff.mp taken
        refine .resumed scancode callee m ?_ made
        intro u rest running todo
        obtain rfl := Option.some.inj (current.symm.trans running)
        exact other rest todo
  | getchar =>
    cases taken
    exact .getchar

/-- The interrupt of the APIC that the driver has ended. -/
theorem served_lapic {before : Computer} (quiet : Quiet c.lapic)
    (left : Interrupted (.hardware v) scancode { c with lapic := c.lapic.acknowledge v } f s before) :
    before.lapic = { c.lapic with requested := Function.update c.lapic.requested v false } :=
  left.lapic.trans (quiet.idle.acknowledge_lapicEoi v)

theorem Effect.quiet {e : Event} (eff : Effect image c e c') (quiet : Quiet c.lapic) : Quiet c'.lapic := by
  cases eff with
  | raise v high listed =>
    refine ⟨quiet.idle.request v, ?_⟩
    intro w asked
    change (c.lapic.request v).requested w = true at asked
    rw [Lapic.request, if_pos quiet.idle.enabled] at asked
    by_cases same : w = v
    · exact same ▸ ⟨high, listed⟩
    · exact quiet.requested w ((Function.update_of_ne same true c.lapic.requested).symm.trans asked)
  | interrupt v scancode callee f s before c' enabled pending handled left after =>
    have lapic : c'.lapic =
        { c.lapic with requested := Function.update c.lapic.requested v false } := by
      rw [← served_lapic quiet left, after]
      split <;> rfl
    rw [lapic]
    refine ⟨⟨quiet.idle.enabled, quiet.idle.priority, quiet.idle.nothing⟩, ?_⟩
    intro w asked
    by_cases same : w = v
    · exact same ▸ quiet.pending_range pending
    · exact quiet.requested w ((Function.update_of_ne same false c.lapic.requested).symm.trans asked)
  | compute cpu mem => exact ⟨quiet.idle, quiet.requested⟩
  | call call m taken => exact ⟨quiet.idle, quiet.requested⟩
  | raised scancode callee t rest f s c' current todo handled left =>
    have lapic : c'.lapic = c.lapic := left.lapic.trans quiet.idle.lapicEoi
    rw [lapic]
    exact quiet
  | resumed scancode callee m other taken => exact ⟨quiet.idle, quiet.requested⟩
  | getchar => exact ⟨quiet.idle, quiet.requested⟩

/-! ### What the scheduler and the keyboard see -/

/-- An interrupt through vector 32 has the registers of the processor in its frame. -/
def schedView (c : Computer) : Event → Option DedOS.Event
  | .raise _ => none
  | .interrupt _ _ => if c.lapic.pending = some 32 then some (.timer c.frame) else none
  | .compute _ _ => none
  | .call call => some (.call call)
  | .resume _ _ => some (.resume c.frame)
  | .getchar => none

def keyView (c : Computer) : Event → Option Keyboard.Event
  | .interrupt scancode _ => if c.lapic.pending = some 33 then some (.irq scancode) else none
  | .getchar => some .consumer
  | _ => none

theorem Effect.machine {e : Event} (eff : Effect image c e c') (quiet : Quiet c.lapic) :
    Simulates Machine.step machine schedView ⟨c, e, c'⟩ := by
  cases eff with
  | interrupt v scancode callee f s before c' enabled pending handled left after =>
    obtain ⟨high, listed⟩ := quiet.pending_range pending
    simp only [Simulates, schedView, pending]
    by_cases timer : v = 32
    · subst timer
      have run : vector32 c.frame c.machine.sched = some (f, s) := handled
      rw [if_pos rfl] at after
      rw [if_pos rfl, after]
      simp only [Machine.step, Machine.interrupt, run, Option.map_some, setMachine,
        left.machine_timer rfl]
    · have same := isrHandler_other (s := c.machine.sched) high
        (f := c.cpu.frame (UInt64.ofNat v.toNat) 0) rfl timer
      rw [same] at handled
      obtain ⟨-, rfl⟩ := Prod.mk.inj (Option.some.inj handled)
      rw [if_neg timer] at after
      rw [if_neg fun same => timer (Option.some.inj same), after]
      exact left.machine_other timer
  | raised scancode callee t rest f s c' current todo handled left =>
    have run : vector32 c.frame c.machine.sched = some (f, s) := handled
    simp only [Simulates, schedView, Machine.step, current, todo, Machine.interrupt]
    have sched : (c.machine.setPending t rest).sched = c.machine.sched := rfl
    rw [sched, run, left.machine_timer rfl]
    rfl
  | resumed scancode callee m other taken => exact taken
  | call call m taken => exact taken
  | raise v high listed => rfl
  | compute cpu mem => rfl
  | getchar => rfl

theorem Effect.keyboard {e : Event} (eff : Effect image c e c') :
    Simulates Keyboard.step keyboard keyView ⟨c, e, c'⟩ := by
  cases eff with
  | interrupt v scancode callee f s before c' enabled pending handled left after =>
    have keyboard : c'.keyboard = before.keyboard := by
      rw [after]
      split <;> rfl
    rw [left.keyboard] at keyboard
    simp only [Simulates, keyView, pending]
    by_cases key : v = 33
    · subst key
      rw [if_pos rfl, keyboard]
      rfl
    · rw [if_neg fun same => key (Option.some.inj same)]
      exact keyboard.trans (if_neg key)
  | raised scancode callee t rest f s c' current todo handled left => exact left.keyboard
  | raise v high listed => rfl
  | compute cpu mem => rfl
  | call call m taken => rfl
  | resumed scancode callee m other taken => rfl
  | getchar => rfl

/-! ### Runs -/

variable {h : List (Entry Computer Event)}

/-- What is known of every step of a run. -/
structure Stepped (image : Image) (e : Entry Computer Event) : Prop where
  effect : Effect image e.pre e.event e.post
  quiet : Quiet e.pre.lapic

theorem Runs.quiet (room : ∀ e ∈ h, e.pre.Room) (run : Runs image h c) :
    Quiet c.lapic ∧ ∀ e ∈ h, Stepped image e := by
  induction run with
  | start booted => exact ⟨booted.lapic, by simp⟩
  | @step h c c' e before taken ih =>
    obtain ⟨quiet, each⟩ := ih fun e member => room e (List.mem_cons_of_mem _ member)
    have eff : Effect image c e c' := step_effect quiet (room ⟨c, e, c'⟩ List.mem_cons_self) taken
    refine ⟨eff.quiet quiet, ?_⟩
    intro f member
    rcases List.mem_cons.mp member with rfl | old
    · exact ⟨eff, quiet⟩
    · exact each f old

/-- The history of the scheduler in a run of the computer. -/
def schedHistory (h : List (Entry Computer Event)) : List (Entry Machine DedOS.Event) :=
  h.filterMap (Entry.seen machine schedView)

/-- The history of the keyboard buffer in a run of the computer. -/
def keyHistory (h : List (Entry Computer Event)) : List (Entry Keyboard Keyboard.Event) :=
  h.filterMap (Entry.seen keyboard keyView)

theorem Runs.machine (room : ∀ e ∈ h, e.pre.Room) (run : Runs image h c) :
    Machine.Runs (schedHistory h) c.machine := by
  refine Run.seen (fun _ booted => booted.machine) ?_ run
  intro e member
  have stepped := (Runs.quiet room run).2 e member
  exact stepped.effect.machine stepped.quiet

theorem Runs.keyboard (room : ∀ e ∈ h, e.pre.Room) (run : Runs image h c) :
    ∃ h₀, Run Keyboard.step (· = Keyboard.init) (keyHistory h ++ h₀) c.keyboard := by
  obtain ⟨c₀, booted, rest⟩ := run.from_start
  obtain ⟨h₀, used⟩ := booted.keyboard
  have start : ∀ c, c = c₀ → c.keyboard = c₀.keyboard := by
    rintro c rfl
    rfl
  have each : ∀ e ∈ h, Simulates Keyboard.step Computer.keyboard keyView e := fun e member =>
    ((Runs.quiet room run).2 e member).effect.keyboard
  have since : Run Keyboard.step (· = c₀.keyboard) (keyHistory h) c.keyboard :=
    Run.seen start each rest
  exact ⟨h₀, used.append since⟩

end Computer

open Computer in
/-- Interrupts that go through the gates, the stubs and `isr_common` are to the scheduler the
interrupts of `Machine`, with the registers of the processor in their frames, and to the
keyboard buffer those of `Keyboard`. -/
theorem computer_refines {image : Isr.Image} {h : List (Entry Computer Computer.Event)}
    {c : Computer} (room : ∀ e ∈ h, e.pre.Room) (run : Computer.Runs image h c) :
    Machine.Runs (schedHistory h) c.machine ∧
    ∃ h₀, Run Keyboard.step (· = Keyboard.init) (keyHistory h ++ h₀) c.keyboard :=
  ⟨Runs.machine room run, Runs.keyboard room run⟩

namespace Computer

def bootComputer : Computer where
  cpu := {
    reg := fun _ => 0, rip := 0xFFFFFFFF80000000, cs := 0x08, rflags := 0x202
    rsp := 0xFFFF800000010000, ss := 0x10 }
  mem _ := 0
  machine := bootMachine
  keyboard := .init
  lapic := Lapic.lapicInit ⟨fun _ => 0, fun _ => false, fun _ => false⟩

theorem bootComputer_booted : Booted bootComputer where
  machine := bootMachine_booted
  lapic := ⟨Lapic.lapicInit_idle fun _ => rfl, fun _ asked => Bool.noConfusion asked⟩
  keyboard := ⟨[], .start rfl⟩

/-- Evaluate events from boot to exhibit a run with room for every interrupt. -/
theorem reaches (es : List Event) (p : List (Entry Computer Event) × Computer → Bool)
    (holds : (perform (step Isr.flatImage) es [] bootComputer).map
      (fun r => decide (∀ e ∈ r.1, e.pre.Room) && p r) = some true) :
    ∃ h c, Runs Isr.flatImage h c ∧ (∀ e ∈ h, e.pre.Room) ∧ p (h, c) = true := by
  obtain ⟨h, c, run, ends⟩ := Run.exists_of_perform es _ bootComputer_booted holds
  simp only [Bool.and_eq_true, decide_eq_true_eq] at ends
  exact ⟨h, c, run, ends⟩

def clobbered : Isr.Callee := ⟨fun _ => 0x5555, 0x46, fun _ => 0xAA⟩

end Computer

open Computer in
/-- A tick and a key. -/
theorem computer_refines_tick_and_key : ∃ h c, Computer.Runs Isr.flatImage h c ∧
    (∀ e ∈ h, e.pre.Room) ∧ (c.machine.hwTimer = 1 ∧ c.keyboard.bufHead = 1) ∧
    Machine.Runs (schedHistory h) c.machine := by
  obtain ⟨h, c, run, room, ends⟩ := Computer.reaches
    [.raise 33, .raise 32, .interrupt 0x1E clobbered, .interrupt 0 clobbered]
    (fun r => decide (r.2.machine.hwTimer = 1 ∧ r.2.keyboard.bufHead = 1)) (by decide +kernel)
  exact ⟨h, c, run, room, of_decide_eq_true ends, (computer_refines room run).1⟩

end DedOS
