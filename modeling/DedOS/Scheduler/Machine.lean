import DedOS.Lib.Trace
import DedOS.Scheduler.Queue

/-!
# Runs of the scheduler

One CPU executes the current thread. Between any two of its instructions the hardware
timer may interrupt; otherwise the thread enters one of the scheduler's functions or
continues the one it is in. `thread_sleep` and `thread_exit` change the thread with
interrupts disabled and then yield, and `scheduler_yield` clears the quantum before
it executes `int $0x20`, so these calls leave `Micro` operations pending.

`scheduler_add_thread` is one event: its caller holds the scheduler lock, under which
a tick returns at once.
-/

namespace DedOS

open Lib

inductive Micro where
  /-- `scheduler_current()->quantum = 0` -/
  | dropQuantum
  /-- `int $0x20` -/
  | raise
  /-- `while (1) hlt` at the end of `thread_exit` -/
  | halt
  deriving DecidableEq, Repr

inductive Call where
  | yield
  | sleep (ms : UInt64)
  | exit
  | create (proc entry : UInt64) (object : Bool) (stack : Option UInt64)
  | add (t : Tid)
  | lock
  | unlock
  deriving DecidableEq

/-- `regs` are the registers of the interrupted thread. -/
inductive Event where
  | timer (regs : Registers)
  | call (c : Call)
  | resume (regs : Registers)
  deriving DecidableEq

/-- The scheduler, the registers its last interrupt returned with, what every thread
still has to do of the call it is in, and history: the threads added, the threads that
called `thread_exit`, and the hardware timer interrupts since boot. -/
structure Machine where
  sched : Sched
  frame : Registers
  pending : Tid → List Micro
  added : List Tid
  exited : List Tid
  hwTimer : Nat

/-- `t` was made by `thread_create`. -/
def Tid.created (count : Nat) : Tid → Prop
  | .idle => False
  | .thread n => n < count

instance (count : Nat) (t : Tid) : Decidable (t.created count) :=
  match t with
  | .idle => instDecidableFalse
  | .thread n => inferInstanceAs (Decidable (n < count))

namespace Machine

def setPending (m : Machine) (t : Tid) (rest : List Micro) : Machine :=
  { m with pending := Function.update m.pending t rest }

def interrupt (regs : Registers) (m : Machine) : Option Machine :=
  (vector32 regs m.sched).map fun left => { m with frame := left.1, sched := left.2 }

/-- The current thread `t` enters a function of the scheduler. The idle thread's loop
calls none that gives up the CPU, but `kmain` runs as the idle thread until the first
switch. -/
def enter (t : Tid) (m : Machine) : Call → Option Machine
  | .yield => if t = .idle then none else some (m.setPending t [.dropQuantum, .raise])
  | .sleep ms =>
    if t = .idle then none
    else some { m.setPending t [.dropQuantum, .raise] with sched := markBlocked ms m.sched }
  | .exit =>
    if t = .idle then none
    else some { m.setPending t [.dropQuantum, .raise, .halt] with
      sched := markDead m.sched, exited := t :: m.exited }
  | .create proc entry object stack =>
    some { m with sched := m.sched.setCore (m.sched.threadCreate proc entry object stack).2 }
  | .add u =>
    if u.created m.sched.nextTid ∧ u ∉ m.added then
      some { m with sched := schedulerAddThread u m.sched, added := u :: m.added }
    else none
  | .lock => some { m with sched := schedulerLock m.sched }
  | .unlock => some { m with sched := schedulerUnlock m.sched }

def step (m : Machine) : Event → Option Machine
  | .timer regs => (m.interrupt regs).map fun m => { m with hwTimer := m.hwTimer + 1 }
  | .call c =>
    match m.sched.current with
    | none => none
    | some t => if m.pending t = [] then m.enter t c else none
  | .resume regs =>
    match m.sched.current with
    | none => none
    | some t =>
      match m.pending t with
      | [] => none
      | .dropQuantum :: rest => some { m.setPending t rest with sched := dropQuantum m.sched }
      | .raise :: rest => (m.setPending t rest).interrupt regs
      | .halt :: _ => some m

/-- The state `scheduler_init` leaves when no thread was created before it. -/
def Booted (m : Machine) : Prop :=
  ∃ idleFn rsp s, s.runQueue = none ∧ s.current = none ∧ s.locked = false ∧ s.nextTid = 0 ∧
    s.destroyed = [] ∧ m.sched = schedulerInit idleFn rsp s ∧
    (∀ t, m.pending t = []) ∧ m.added = [] ∧ m.exited = []

abbrev Runs : List (Entry Machine Event) → Machine → Prop := Run step Booted

end Machine

/-- The step takes the CPU from `t`. -/
def switchesOut (t : Tid) (e : Entry Machine Event) : Prop :=
  e.pre.sched.current = some t ∧ e.post.sched.current ≠ some t

/-- The step gives the CPU to `t`. -/
def dispatches (t : Tid) (e : Entry Machine Event) : Prop :=
  e.pre.sched.current ≠ some t ∧ e.post.sched.current = some t

end DedOS
