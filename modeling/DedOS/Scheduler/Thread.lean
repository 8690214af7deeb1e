import DedOS.Lib.Chain

/-!
# Registers, threads and the scheduler's state

`Registers` is `registers_t`, used both as interrupt frame and as saved context.
`Core` is the state of `scheduler.c`, `thread.c` and the timer of `isr.c` without
the links of the run queue, so that the pointer-level scheduler and its
list-level view share every operation that does not follow a link.
-/

namespace DedOS

/-- `registers_t`: the frame `isr_common` builds on the stack. -/
structure Registers where
  r15 : UInt64
  r14 : UInt64
  r13 : UInt64
  r12 : UInt64
  r11 : UInt64
  r10 : UInt64
  r9 : UInt64
  r8 : UInt64
  rbp : UInt64
  rdi : UInt64
  rsi : UInt64
  rdx : UInt64
  rcx : UInt64
  rbx : UInt64
  rax : UInt64
  vector : UInt64
  errorCode : UInt64
  rip : UInt64
  cs : UInt64
  rflags : UInt64
  rsp : UInt64
  ss : UInt64
  deriving DecidableEq, Repr

def Registers.zero : Registers :=
  ⟨0, 0, 0, 0, 0, 0, 0, 0, 0, 0, 0, 0, 0, 0, 0, 0, 0, 0, 0, 0, 0, 0⟩

inductive ThreadState where
  | ready
  | running
  | blocked
  | dead
  deriving DecidableEq, Repr

/-- The address of a `thread_t`: the static `idle_thread`, or the object made by the
`n`-th successful `thread_create`. -/
inductive Tid where
  | idle
  | thread (n : Nat)
  deriving DecidableEq, Repr

/-- `thread_t` without its `next` member, which `Sched.next` keeps for all threads. -/
structure Thread where
  id : UInt64
  state : ThreadState
  context : Registers
  stack : UInt64
  wakeTick : UInt64
  quantum : Nat
  kernelStackTop : UInt64
  process : UInt64
  deriving DecidableEq, Repr

/-- An all-zero `thread_t`, as `memset` leaves it. -/
def Thread.zero : Thread :=
  { id := 0, state := .ready, context := .zero, stack := 0, wakeTick := 0, quantum := 0,
    kernelStackTop := 0, process := 0 }

/-- What the wake loop makes of a thread of the queue. -/
def Thread.wokenAt (ticks : UInt64) (th : Thread) : Thread :=
  if th.state = .blocked ∧ th.wakeTick ≤ ticks then { th with state := .ready } else th

theorem Thread.wokenAt_state (ticks : UInt64) (th : Thread) : (th.wokenAt ticks).state =
    if th.state = .blocked ∧ th.wakeTick ≤ ticks then .ready else th.state := by
  unfold wokenAt
  split <;> rfl

@[simp] theorem Thread.wokenAt_wakeTick (ticks : UInt64) (th : Thread) :
    (th.wokenAt ticks).wakeTick = th.wakeTick := by
  unfold wokenAt
  split <;> rfl

@[simp] theorem Thread.wokenAt_quantum (ticks : UInt64) (th : Thread) :
    (th.wokenAt ticks).quantum = th.quantum := by
  unfold wokenAt
  split <;> rfl

@[simp] theorem Thread.wokenAt_context (ticks : UInt64) (th : Thread) :
    (th.wokenAt ticks).context = th.context := by
  unfold wokenAt
  split <;> rfl

theorem Thread.wokenAt_wokenAt (ticks : UInt64) (th : Thread) :
    (th.wokenAt ticks).wokenAt ticks = th.wokenAt ticks := by
  unfold wokenAt
  split <;> simp_all

def schedulerQuantum : Nat := 10

def threadStackSize : UInt64 := 4096

structure Core where
  thread : Tid → Thread
  current : Option Tid
  locked : Bool
  timerTicks : UInt64
  /-- successful `thread_create` calls; `next_tid` is this number modulo 2^64 -/
  nextTid : Nat
  /-- `tss.rsp0` -/
  tssRsp0 : UInt64
  /-- the threads `thread_destroy` was called on, latest first -/
  destroyed : List Tid

namespace Core

variable (k : Core) (t u : Tid) (f : Thread → Thread)

def setThread : Core := { k with thread := Function.update k.thread t (f (k.thread t)) }

@[simp] theorem setThread_same : (k.setThread t f).thread t = f (k.thread t) :=
  Function.update_self ..

theorem setThread_other (h : u ≠ t) : (k.setThread t f).thread u = k.thread u :=
  Function.update_of_ne h ..

@[simp] theorem setThread_current : (k.setThread t f).current = k.current := rfl
@[simp] theorem setThread_locked : (k.setThread t f).locked = k.locked := rfl
@[simp] theorem setThread_timerTicks : (k.setThread t f).timerTicks = k.timerTicks := rfl
@[simp] theorem setThread_nextTid : (k.setThread t f).nextTid = k.nextTid := rfl
@[simp] theorem setThread_destroyed : (k.setThread t f).destroyed = k.destroyed := rfl

/-- `thread_destroy`: both `kfree` calls, recorded as one. -/
def threadDestroy : Core := { k with destroyed := t :: k.destroyed }

/-- The body of the wake loop for one thread of the queue. -/
def wakeThread : Core :=
  if (k.thread t).state = .blocked ∧ (k.thread t).wakeTick ≤ k.timerTicks then
    k.setThread t fun th => { th with state := .ready }
  else k

/-- `if (current->quantum > 0) current->quantum--;` -/
def chargeQuantum : Core :=
  if 0 < (k.thread t).quantum then
    k.setThread t fun th => { th with quantum := th.quantum - 1 }
  else k

/-- The wake loop over a whole queue. -/
def wakeAll (q : List Tid) : Core :=
  { k with thread := fun t => if t ∈ q then (k.thread t).wokenAt k.timerTicks else k.thread t }

/-- The calls of `thread_destroy` of a reaping loop over a whole queue. -/
def destroyAll (q : List Tid) : Core := { k with destroyed := q.reverse ++ k.destroyed }

theorem wakeThread_eq : k.wakeThread t = k.setThread t (Thread.wokenAt k.timerTicks) := by
  unfold wakeThread
  split
  next due => simp [setThread, Thread.wokenAt, due]
  next early => simp [setThread, Thread.wokenAt, early]

theorem chargeQuantum_eq :
    k.chargeQuantum t = k.setThread t fun th => { th with quantum := th.quantum - 1 } := by
  unfold chargeQuantum
  split
  · rfl
  next spent =>
    have zero : (k.thread t).quantum = 0 := by omega
    have same : { k.thread t with quantum := (k.thread t).quantum - 1 } = k.thread t := by
      rw [zero, Nat.zero_sub, ← zero]
    rw [setThread, same, Function.update_eq_self]

@[simp] theorem wakeAll_nil : k.wakeAll [] = k := by simp [wakeAll]

theorem wakeAll_cons (q : List Tid) : k.wakeAll (t :: q) = (k.wakeThread t).wakeAll q := by
  rw [wakeThread_eq]
  have threads : (k.wakeAll (t :: q)).thread =
      ((k.setThread t (Thread.wokenAt k.timerTicks)).wakeAll q).thread := by
    funext u
    by_cases same : u = t
    · subst same
      by_cases again : u ∈ q
      · simp [wakeAll, again, Thread.wokenAt_wokenAt]
      · simp [wakeAll, again]
    · by_cases member : u ∈ q <;> simp [wakeAll, member, same, setThread_other]
  simp only [wakeAll, setThread] at threads ⊢
  rw [threads]

@[simp] theorem destroyAll_nil : k.destroyAll [] = k := rfl

theorem destroyAll_cons (q : List Tid) :
    k.destroyAll (t :: q) = (k.threadDestroy t).destroyAll q := by
  simp [destroyAll, threadDestroy]

end Core

/-- The assignments `current->context.x = frame->x` of `scheduler_tick_irq`. -/
def saveContext (context frame : Registers) : Registers :=
  { context with
    rip := frame.rip, rsp := frame.rsp, rbp := frame.rbp
    cs := frame.cs, ss := frame.ss, rflags := frame.rflags
    rax := frame.rax, rbx := frame.rbx, rcx := frame.rcx, rdx := frame.rdx
    rsi := frame.rsi, rdi := frame.rdi
    r8 := frame.r8, r9 := frame.r9, r10 := frame.r10, r11 := frame.r11
    r12 := frame.r12, r13 := frame.r13, r14 := frame.r14, r15 := frame.r15 }

/-- The assignments `frame->x = current->context.x` of `scheduler_tick_irq`. -/
def restoreContext (frame context : Registers) : Registers :=
  { frame with
    rip := context.rip, rsp := context.rsp, rbp := context.rbp
    rax := context.rax, rbx := context.rbx, rcx := context.rcx, rdx := context.rdx
    rsi := context.rsi, rdi := context.rdi
    ss := context.ss, cs := context.cs, rflags := context.rflags
    r8 := context.r8, r9 := context.r9, r10 := context.r10, r11 := context.r11
    r12 := context.r12, r13 := context.r13, r14 := context.r14, r15 := context.r15 }

/-- The context `thread_create` builds. `*--sp = thread_exit` leaves `sp` eight bytes
below the aligned top of the stack. -/
def initialContext (entry stack : UInt64) : Registers :=
  { Registers.zero with
    rip := entry, rsp := ((stack + threadStackSize) &&& ~~~0xF) - 8, rbp := 0, rbx := 0
    cs := 0x08, ss := 0x10, rflags := 0x202, r12 := 0, r13 := 0, r14 := 0, r15 := 0 }

/-- `thread_create`. The two `kmalloc` calls are outside the scheduler: `object` says
whether the `thread_t` was obtained and `stack` is the stack, if any. -/
def Core.threadCreate (k : Core) (proc entry : UInt64) (object : Bool) (stack : Option UInt64) :
    Option Tid × Core :=
  match object, stack with
  | false, _ => (none, k)
  | true, none => (none, k)
  | true, some stack =>
    let t := Tid.thread k.nextTid
    let k := k.setThread t fun _ =>
      { id := UInt64.ofNat k.nextTid, state := .ready, context := initialContext entry stack
        stack := stack, wakeTick := 0, quantum := schedulerQuantum
        kernelStackTop := stack + threadStackSize, process := proc }
    (some t, { k with nextTid := k.nextTid + 1 })

/-- The frame's selection to the CPU: `next` becomes current and its context is what
`iretq` will restore. -/
def Core.switchIn (k : Core) (next : Tid) (frame : Registers) : Registers × Core :=
  let k := k.setThread next fun th => { th with state := .running, quantum := schedulerQuantum }
  let k := { k with current := some next }
  let context := (k.thread next).context
  let k := if context.cs = 0x1B then { k with tssRsp0 := (k.thread next).kernelStackTop } else k
  (restoreContext frame context, k)

end DedOS
