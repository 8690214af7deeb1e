import DedOS.Scheduler.Thread

/-!
# `scheduler.c` on its pointers

The loops of `scheduler_tick_irq` follow `next` pointers. Every node of the run
queue was made by `thread_create`, so a loop that has followed more than `nextTid`
links is inside a cycle: its bound runs out exactly when the C loop does not end,
and the result is `none`.
-/

namespace DedOS

structure Sched extends Core where
  next : Tid → Option Tid
  runQueue : Option Tid

namespace Sched

def setNext (s : Sched) (t : Tid) (link : Option Tid) : Sched :=
  { s with next := Function.update s.next t link }

def setCore (s : Sched) (k : Core) : Sched := { s with toCore := k }

@[simp] theorem setNext_toCore (s : Sched) (t : Tid) (link : Option Tid) :
    (s.setNext t link).toCore = s.toCore := rfl
@[simp] theorem setCore_toCore (s : Sched) (k : Core) : (s.setCore k).toCore = k := rfl
@[simp] theorem setCore_next (s : Sched) (k : Core) : (s.setCore k).next = s.next := rfl
@[simp] theorem setCore_runQueue (s : Sched) (k : Core) :
    (s.setCore k).runQueue = s.runQueue := rfl

/-- `if (prev) prev->next = after; else run_queue = after;` -/
def unlink (s : Sched) (prev after : Option Tid) : Sched :=
  match prev with
  | some p => s.setNext p after
  | none => { s with runQueue := after }

/-- `thread->next = run_queue; run_queue = thread;` -/
def pushQueue (s : Sched) (t : Tid) : Sched :=
  { s.setNext t s.runQueue with runQueue := some t }

/-- The bound on the loops over the run queue. -/
def loopBound (s : Sched) : Nat := s.nextTid

end Sched

def schedulerAddThread (t : Tid) (s : Sched) : Sched := s.pushQueue t

/-- The first loop of `scheduler_tick_irq`. -/
def wakeLoop : Nat → Option Tid → Sched → Option Sched
  | _, none, s => some s
  | 0, some _, _ => none
  | bound + 1, some t, s => wakeLoop bound (s.next t) (s.setCore (s.wakeThread t))

/-- The reaping loop of `scheduler_tick_irq`. -/
def reapLoop : Nat → Option Tid → Option Tid → Sched → Option Sched
  | _, _, none, s => some s
  | 0, _, some _, _ => none
  | bound + 1, prev, some t, s =>
    if (s.thread t).state = .dead then
      let after := s.next t
      let s := s.unlink prev after
      reapLoop bound prev after (s.setCore (s.threadDestroy t))
    else
      reapLoop bound (some t) (s.next t) s

/-- The selection loop of `scheduler_tick_irq`: the first `READY` thread, unlinked. -/
def selectLoop : Nat → Option Tid → Option Tid → Sched → Option (Option Tid × Sched)
  | _, _, none, s => some (none, s)
  | 0, _, some _, _ => none
  | bound + 1, prev, some candidate, s =>
    match (s.thread candidate).state with
    | .ready => some (some candidate, s.unlink prev (s.next candidate))
    | .blocked | .running | .dead => selectLoop bound (some candidate) (s.next candidate) s


/-- The re-queue switch of `scheduler_tick_irq`. `THREAD_RUNNING` falls through. -/
def Sched.requeue (s : Sched) (current : Tid) : Sched :=
  match (s.thread current).state with
  | .running =>
    (s.setCore (s.setThread current fun th =>
      { th with state := .ready, quantum := schedulerQuantum })).pushQueue current
  | .ready | .blocked => s.pushQueue current
  | .dead => s

/-- The saving half of the switch: re-queue `current` and keep the interrupted frame. The
idle thread is never queued and its frame is dropped. -/
def Sched.switchOut (s : Sched) (current : Tid) (frame : Registers) : Sched :=
  if current ≠ .idle then
    let s := s.requeue current
    s.setCore (s.setThread current fun th =>
      { th with context := saveContext th.context frame })
  else s

/-- `scheduler_tick_irq` from `thread_t* next = NULL;` to its end. -/
def reschedule (current : Tid) (frame : Registers) (s : Sched) : Option (Registers × Sched) := do
  let (found, s) ← selectLoop s.loopBound none s.runQueue s
  let next := found.getD .idle
  let s := s.switchOut current frame
  let (frame, k) := s.switchIn next frame
  some (frame, s.setCore k)

def schedulerTickIrq (frame : Registers) (s : Sched) : Option (Registers × Sched) :=
  match s.current with
  | none => some (frame, s)
  | some current =>
    if s.locked then some (frame, s) else do
    let s ← wakeLoop s.loopBound s.runQueue s
    let s ← reapLoop s.loopBound none s.runQueue s
    let s := s.setCore (s.chargeQuantum current)
    if 0 < (s.thread current).quantum then some (frame, s)
    else reschedule current frame s

/-- `isr_handler`. `none` means that it does not return: exceptions halt the CPU with
interrupts disabled. The keyboard and the LAPIC share no state with the scheduler. -/
def isrHandler (frame : Registers) (s : Sched) : Option (Registers × Sched) :=
  if frame.vector < 32 then none
  else
    let irq := (frame.vector - 32).toUInt8
    if irq = 0 then
      let s := s.setCore { s.toCore with timerTicks := s.timerTicks + 1 }
      match s.current with
      | some _ => schedulerTickIrq frame s
      | none => some (frame, s)
    else some (frame, s)

/-- The frame of IRQ stub 32, which pushes error code 0 and vector 32. -/
def irqFrame (regs : Registers) : Registers := { regs with vector := 32, errorCode := 0 }

/-- `int $0x20` and the hardware timer both enter through IRQ stub 32. -/
def vector32 (regs : Registers) (s : Sched) : Option (Registers × Sched) :=
  isrHandler (irqFrame regs) s

/-- `scheduler_init`, with `idle_fn`'s address and the stack pointer it reads. The other
members of the static `idle_thread` are zero. -/
def schedulerInit (idleFn rsp : UInt64) (s : Sched) : Sched :=
  let s := s.setCore (s.setThread .idle fun th =>
    { th with
      id := 0xFFFFFFFFFFFFFFFF, state := .ready, process := 0
      quantum := schedulerQuantum, wakeTick := 0
      context := { th.context with
        rip := idleFn, rsp := rsp, rbp := 0, rbx := 0, cs := 0x08, ss := 0x10
        rflags := 0x202, r12 := 0, r13 := 0, r14 := 0, r15 := 0 } })
  let s := s.setNext .idle none
  s.setCore { s.toCore with current := some .idle }

def schedulerLock (s : Sched) : Sched := s.setCore { s.toCore with locked := true }

def schedulerUnlock (s : Sched) : Sched := s.setCore { s.toCore with locked := false }

/-- The first half of `scheduler_yield`: `scheduler_current()->quantum = 0`. -/
def dropQuantum (s : Sched) : Sched :=
  match s.current with
  | some t => s.setCore (s.setThread t fun th => { th with quantum := 0 })
  | none => s

def schedulerYield (regs : Registers) (s : Sched) : Option (Registers × Sched) :=
  vector32 regs (dropQuantum s)

/-- `thread_sleep` between `cli` and `sti`. -/
def markBlocked (ms : UInt64) (s : Sched) : Sched :=
  match s.current with
  | some t => s.setCore (s.setThread t fun th =>
      { th with state := .blocked, wakeTick := s.timerTicks + ms })
  | none => s

/-- `thread_exit` between `cli` and `sti`. -/
def markDead (s : Sched) : Sched :=
  match s.current with
  | some t => s.setCore (s.setThread t fun th => { th with state := .dead })
  | none => s

end DedOS
