import DedOS.Lib.Chain
import DedOS.Scheduler.Scheduler

/-!
# The end of `kmain`

From `current = &idle_thread` in `scheduler_init` to `scheduler_unlock` the code of `kmain`
runs in the name of the idle thread, whose saved context is that of `idle_fn`. The timer may
interrupt it any number of times before each of its calls; a tick during a call finds the
scheduler's state as it is before or after it.
-/

namespace DedOS

inductive Task where
  | a
  | b
  deriving DecidableEq, Repr

/-- What `kmain` calls, in the order of `kmainTail`. -/
inductive KmainCall where
  | logInfo
  | lock
  | processCreate (task : Task)
  | threadCreate (task : Task)
  | addThread (task : Task)
  | unlock
  deriving DecidableEq, Repr

def kmainTail : List KmainCall :=
  [.logInfo, .lock, .processCreate .a, .threadCreate .a, .addThread .a,
    .processCreate .b, .threadCreate .b, .addThread .b, .unlock]

/-- Everything this part of the boot depends on: the scheduler before `scheduler_init`, the
results of the allocations, and the registers with which the timer interrupts `kmain` before
each call. -/
structure Boot where
  sched : Sched
  idleFn : UInt64
  rsp : UInt64
  entry : Task → UInt64
  /-- the result of `process_create` -/
  process : Task → UInt64
  /-- the `kmalloc` of the `thread_t` succeeds -/
  object : Task → Bool
  stack : Task → Option UInt64
  ticks : KmainCall → List Registers
  fresh : sched.runQueue = none ∧ sched.locked = false
  /-- `kmain` does not execute in `idle_fn`. -/
  elsewhere : ∀ call, ∀ regs ∈ ticks call, regs.rip ≠ idleFn

/-- The scheduler and the local variables of `kmain`. -/
structure Kmain where
  sched : Sched
  process : Task → UInt64
  thread : Task → Option Tid

/-- The timer interrupts `kmain` with the given registers, one after the other; `none` when
an interrupt returns with another frame. -/
def deliver : List Registers → Sched → Option Sched
  | [], s => some s
  | regs :: rest, s => do
    let (frame, s) ← vector32 regs s
    if frame = irqFrame regs then deliver rest s else none

namespace Boot

/-- One call of `kmain`; `none` is a page fault. -/
def exec (b : Boot) (k : Kmain) : KmainCall → Option Kmain
  | .logInfo => some k
  | .lock => some { k with sched := schedulerLock k.sched }
  | .processCreate task =>
    some { k with process := Function.update k.process task (b.process task) }
  | .threadCreate task =>
    let (thread, core) :=
      k.sched.threadCreate (k.process task) (b.entry task) (b.object task) (b.stack task)
    some { k with
      sched := k.sched.setCore core, thread := Function.update k.thread task thread }
  -- a null pointer is not tested for
  | .addThread task =>
    (k.thread task).map fun t => { k with sched := schedulerAddThread t k.sched }
  | .unlock => some { k with sched := schedulerUnlock k.sched }

def run (b : Boot) : List KmainCall → Kmain → Option Kmain
  | [], k => some k
  | call :: rest, k => do
    let s ← deliver (b.ticks call) k.sched
    let k ← b.exec { k with sched := s } call
    b.run rest k

/-- `kmain` from the assignment to `current`; `none` when it does not get to the end. -/
def kmain (b : Boot) : Option Kmain :=
  b.run kmainTail
    { sched := schedulerInit b.idleFn b.rsp b.sched, process := fun _ => 0, thread := fun _ => none }

/-- Both `kmalloc` calls of `thread_create` succeed. -/
def Obtained (b : Boot) (task : Task) : Prop := b.object task = true ∧ (b.stack task).isSome

/-- The number of ticks before `locked` is set. -/
def earlyTicks (b : Boot) : Nat := (b.ticks .logInfo).length + (b.ticks .lock).length

end Boot

/-! ### Ticks during the boot -/

section Ticks

variable {s s' : Sched} {regs : Registers} {spent : Nat} {idleFn : UInt64}

/-- `timer_ticks++`, `n` times -/
def Sched.clock (n : Nat) (s : Sched) : Sched :=
  s.setCore { s.toCore with timerTicks := s.timerTicks + UInt64.ofNat n }

/-- A timer interrupt counts and goes on in `scheduler_tick_irq`. -/
theorem vector32_eq {t : Tid} (running : s.current = some t) :
    vector32 regs s = schedulerTickIrq (irqFrame regs) (s.clock 1) := by
  simp [vector32, isrHandler, irqFrame, Sched.setCore, Sched.clock, running]

/-- Under the lock a tick only counts. -/
theorem vector32_locked {t : Tid} (running : s.current = some t) (locked : s.locked = true) :
    vector32 regs s = some (irqFrame regs, s.clock 1) := by
  have running' : (s.clock 1).current = some t := running
  have locked' : (s.clock 1).locked = true := locked
  rw [vector32_eq running, schedulerTickIrq, running']
  exact if_pos locked'

/-- Any number of ticks under the lock returns to `kmain`. -/
theorem deliver_locked {t : Tid} (running : s.current = some t) (locked : s.locked = true)
    (ticks : List Registers) : deliver ticks s = some (s.clock ticks.length) := by
  induction ticks generalizing s with
  | nil => simp [deliver, Sched.clock, Sched.setCore]
  | cons regs rest ih =>
    have later := ih (s := s.clock 1) running locked
    have clocks : (s.clock 1).clock rest.length = s.clock (rest.length + 1) := by
      simp [Sched.clock, Sched.setCore, UInt64.ofNat_add, UInt64.add_assoc, UInt64.add_comm]
    simp only [deliver, vector32_locked running locked, Option.bind_eq_bind, Option.bind_some,
      if_true, later, clocks, List.length_cons]

/-- `kmain` runs as the idle thread, which has used `spent` ticks of its quantum, and nothing
else is there to run. -/
structure Alone (idleFn : UInt64) (spent : Nat) (s : Sched) : Prop where
  current : s.current = some .idle
  locked : s.locked = false
  empty : s.runQueue = none
  quantum : (s.thread .idle).quantum = schedulerQuantum - spent
  context : (s.thread .idle).context.rip = idleFn

theorem Alone.init {idleFn rsp : UInt64} (empty : s.runQueue = none) (locked : s.locked = false) :
    Alone idleFn 0 (schedulerInit idleFn rsp s) where
  current := rfl
  locked := locked
  empty := empty
  quantum := by simp [schedulerInit]
  context := by simp [schedulerInit]

/-- What a tick finds when it reaches the test of the quantum. -/
def Sched.charged (s : Sched) : Sched := (s.clock 1).setCore ((s.clock 1).chargeQuantum .idle)

theorem Alone.charged (alone : Alone idleFn spent s) : Alone idleFn (spent + 1) s.charged := by
  rw [Sched.charged, Core.chargeQuantum_eq]
  constructor
  case current => exact alone.current
  case locked => exact alone.locked
  case empty => exact alone.empty
  case quantum =>
    have left := alone.quantum
    simp [Sched.clock, left, Nat.sub_sub]
  case context => simpa [Sched.clock] using alone.context

theorem Alone.tick (alone : Alone idleFn spent s) : vector32 regs s =
    if 0 < (s.charged.thread .idle).quantum then some (irqFrame regs, s.charged)
    else reschedule .idle (irqFrame regs) s.charged := by
  have running : (s.clock 1).current = some .idle := alone.current
  have unlocked : ¬ (s.clock 1).locked = true := by simp [Sched.clock, alone.locked]
  have empty : (s.clock 1).runQueue = none := alone.empty
  rw [vector32_eq alone.current, schedulerTickIrq, running]
  -- both loops over the queue end at once
  simp only [if_neg unlocked, empty, wakeLoop, reapLoop, Option.bind_eq_bind, Option.bind_some]
  rfl

/-- With an empty queue the switch goes to the idle thread's own context. -/
theorem Alone.reschedule (alone : Alone idleFn spent s) (frame : Registers) :
    ∃ left s', reschedule .idle frame s = some (left, s') ∧ left.rip = idleFn := by
  have chosen : DedOS.reschedule .idle frame s =
      some ((s.switchIn .idle frame).1, s.setCore (s.switchIn .idle frame).2) := by
    simp [DedOS.reschedule, alone.empty, selectLoop, Sched.switchOut]
  refine ⟨_, _, chosen, ?_⟩
  simpa [Core.switchIn, restoreContext] using alone.context

/-- The tick that uses up the quantum does not return to `kmain`, the ones before do. -/
theorem Alone.deliver (alone : Alone idleFn spent s) (ticks : List Registers)
    (elsewhere : ∀ regs ∈ ticks, regs.rip ≠ idleFn) (left : spent < schedulerQuantum) :
    if spent + ticks.length < schedulerQuantum then
      ∃ s', deliver ticks s = some s' ∧ Alone idleFn (spent + ticks.length) s'
    else deliver ticks s = none := by
  induction ticks generalizing s spent with
  | nil =>
    rw [List.length_nil, Nat.add_zero, if_pos left]
    exact ⟨s, rfl, alone⟩
  | cons regs rest ih =>
    obtain ⟨here, others⟩ := List.forall_mem_cons.mp elsewhere
    have quantum := alone.charged.quantum
    by_cases more : spent + 1 < schedulerQuantum
    · have returns : vector32 regs s = some (irqFrame regs, s.charged) := by
        rw [alone.tick, if_pos (by omega)]
      have later := ih alone.charged others more
      simpa [DedOS.deliver, returns, Nat.add_assoc, Nat.add_comm 1] using later
    · obtain ⟨frame, s', switched, rip⟩ := alone.charged.reschedule (irqFrame regs)
      have lost : vector32 regs s = some (frame, s') := by
        rw [alone.tick, if_neg (by omega), switched]
      have differ : frame ≠ irqFrame regs := by
        rintro rfl
        exact here rip
      rw [List.length_cons, if_neg (by omega)]
      simp only [DedOS.deliver, lost, Option.bind_eq_bind, Option.bind_some, if_neg differ]

end Ticks

/-! ### The calls under the lock -/

/-- `kmain` holds the lock and the run queue is `q`, of threads made so far. -/
structure Held (q : List Tid) (s : Sched) : Prop where
  current : s.current = some .idle
  locked : s.locked = true
  chain : Lib.Chain s.next s.runQueue q
  made : ∀ t ∈ q, ∃ n < s.nextTid, t = .thread n

section Calls

variable {b : Boot} {k : Kmain} {q : List Tid} {rest : List KmainCall} {task : Task}

/-- Ticks before a call under the lock do not matter to it. -/
theorem run_locked (held : Held q k.sched) (call : KmainCall) : b.run (call :: rest) k =
    (b.exec { k with sched := k.sched.clock (b.ticks call).length } call).bind (b.run rest) := by
  simp only [Boot.run, deliver_locked held.current held.locked, Option.bind_eq_bind, Option.bind_some]

theorem Held.clock {s : Sched} (held : Held q s) (n : Nat) : Held q (s.clock n) :=
  ⟨held.current, held.locked, held.chain, held.made⟩

/-- `thread_create` leaves the queue and the lock alone. -/
theorem Held.create {s : Sched} {core : Core} (held : Held q s) (current : core.current = s.current)
    (locked : core.locked = s.locked) (count : s.nextTid ≤ core.nextTid) : Held q (s.setCore core) where
  current := current.trans held.current
  locked := locked.trans held.locked
  chain := held.chain
  made t member := by
    obtain ⟨n, below, equal⟩ := held.made t member
    exact ⟨n, Nat.lt_of_lt_of_le below count, equal⟩

theorem Held.fresh {s : Sched} (held : Held q s) : Tid.thread s.nextTid ∉ q := by
  intro member
  obtain ⟨n, below, equal⟩ := held.made _ member
  cases equal
  exact Nat.lt_irrefl _ below

theorem Held.push {s : Sched} {n : Nat} (held : Held q s) (below : n < s.nextTid)
    (outside : Tid.thread n ∉ q) : Held (.thread n :: q) (schedulerAddThread (.thread n) s) where
  current := held.current
  locked := held.locked
  chain := by
    have first : (schedulerAddThread (.thread n) s).next (.thread n) = s.runQueue :=
      Function.update_self ..
    rw [Lib.chain_cons, first]
    refine ⟨rfl, held.chain.congr ?_⟩
    intro t member
    apply Function.update_of_ne
    rintro rfl
    exact outside member
  made t member := by
    rcases List.mem_cons.mp member with rfl | old
    · exact ⟨n, below, rfl⟩
    · exact held.made t old

theorem exec_threadCreate (obtained : b.Obtained task) :
    ∃ core : Core, b.exec k (.threadCreate task) = some { k with
        sched := k.sched.setCore core
        thread := Function.update k.thread task (some (.thread k.sched.nextTid)) } ∧
      core.current = k.sched.current ∧ core.locked = k.sched.locked ∧
      core.nextTid = k.sched.nextTid + 1 := by
  obtain ⟨object, stack⟩ := obtained
  obtain ⟨stack, allocated⟩ := Option.isSome_iff_exists.mp stack
  simp only [Boot.exec, object, allocated, Core.threadCreate]
  exact ⟨_, rfl, rfl, rfl, rfl⟩

theorem exec_threadCreate_none (missing : ¬ b.Obtained task) :
    b.exec k (.threadCreate task) =
      some { k with thread := Function.update k.thread task none } := by
  simp only [Boot.exec]
  cases object : b.object task with
  | false => rfl
  | true =>
    cases stack : b.stack task with
    | none => rfl
    | some stack' => exact absurd ⟨object, by rw [stack]; rfl⟩ missing

theorem run_processCreate (b : Boot) (task : Task) (rest : List KmainCall) (held : Held q k.sched) :
    ∃ k', b.run (.processCreate task :: rest) k =
    b.run rest k' ∧ Held q k'.sched ∧ k'.thread = k.thread := by
  rw [run_locked held]
  exact ⟨_, rfl, held.clock _, rfl⟩

theorem run_threadCreate (rest : List KmainCall) (held : Held q k.sched) (obtained : b.Obtained task) :
    ∃ k' n, b.run (.threadCreate task :: rest) k = b.run rest k' ∧ Held q k'.sched ∧
      k'.thread = Function.update k.thread task (some (.thread n)) ∧
      n < k'.sched.nextTid ∧ Tid.thread n ∉ q := by
  have clocked := held.clock (b.ticks (.threadCreate task)).length
  obtain ⟨core, created, current, locked, count⟩ := exec_threadCreate (b := b)
    (k := { k with sched := k.sched.clock (b.ticks (.threadCreate task)).length }) obtained
  rw [run_locked held, created]
  refine ⟨_, k.sched.nextTid, rfl, clocked.create current locked ?_, rfl, ?_, held.fresh⟩
  · exact count ▸ Nat.le_succ _
  · exact Nat.lt_of_lt_of_eq (Nat.lt_succ_self _) count.symm

theorem run_addThread {n : Nat} (b : Boot) (rest : List KmainCall) (held : Held q k.sched) (made : k.thread task = some (.thread n))
    (below : n < k.sched.nextTid) (outside : Tid.thread n ∉ q) :
    ∃ k', b.run (.addThread task :: rest) k = b.run rest k' ∧
      Held (.thread n :: q) k'.sched ∧ k'.thread = k.thread := by
  have clocked := held.clock (b.ticks (.addThread task)).length
  rw [run_locked held, Boot.exec, made, Option.map_some]
  exact ⟨_, rfl, clocked.push below outside, rfl⟩

/-- The three calls that start a task put a new thread at the head of the queue. -/
theorem start_task (held : Held q k.sched) (obtained : b.Obtained task) :
    ∃ k' t, b.run (.processCreate task :: .threadCreate task :: .addThread task :: rest) k =
        b.run rest k' ∧ Held (t :: q) k'.sched ∧
      k'.thread = Function.update k.thread task (some t) := by
  obtain ⟨k₁, run₁, held₁, thread₁⟩ :=
    run_processCreate b task (.threadCreate task :: .addThread task :: rest) held
  obtain ⟨k₂, n, run₂, held₂, thread₂, below, outside⟩ :=
    run_threadCreate (.addThread task :: rest) held₁ obtained
  have made : k₂.thread task = some (.thread n) := by rw [thread₂, Function.update_self]
  obtain ⟨k₃, run₃, held₃, thread₃⟩ := run_addThread b rest held₂ made below outside
  exact ⟨k₃, .thread n, by rw [run₁, run₂, run₃], held₃, by rw [thread₃, thread₂, thread₁]⟩

/-- Without its memory there is no thread, and `scheduler_add_thread` faults. -/
theorem start_task_none (held : Held q k.sched) (missing : ¬ b.Obtained task) :
    b.run (.processCreate task :: .threadCreate task :: .addThread task :: rest) k = none := by
  obtain ⟨k₁, run₁, held₁, _⟩ :=
    run_processCreate b task (.threadCreate task :: .addThread task :: rest) held
  have held₂ := held₁.clock (b.ticks (.threadCreate task)).length
  rw [run₁, run_locked held₁, exec_threadCreate_none missing, Option.bind_some, run_locked held₂]
  simp [Boot.exec]

theorem run_unlock (held : Held q k.sched) : ∃ k', b.run [.unlock] k = some k' ∧
    k'.sched.current = some .idle ∧ Lib.Chain k'.sched.next k'.sched.runQueue q ∧
    k'.thread = k.thread := by
  rw [run_locked held]
  exact ⟨_, rfl, held.current, held.chain, rfl⟩

end Calls

/-- `kmain` still has the CPU and both of its threads are in the run queue. -/
def HandedOver (k : Kmain) : Prop :=
  k.sched.current = some .idle ∧ ∃ ta tb, k.thread .a = some ta ∧ k.thread .b = some tb ∧
    Lib.Chain k.sched.next k.sched.runQueue [tb, ta]

/-- `kmain` up to the point where it holds the lock. -/
theorem kmain_locks (b : Boot) (rest : List KmainCall) :
    if b.earlyTicks < schedulerQuantum then
      ∃ k, b.run (.logInfo :: .lock :: rest)
          { sched := schedulerInit b.idleFn b.rsp b.sched, process := fun _ => 0,
            thread := fun _ => none } = b.run rest k ∧ Held [] k.sched
    else b.run (.logInfo :: .lock :: rest)
      { sched := schedulerInit b.idleFn b.rsp b.sched, process := fun _ => 0,
        thread := fun _ => none } = none := by
  have alone : Alone b.idleFn 0 (schedulerInit b.idleFn b.rsp b.sched) :=
    Alone.init b.fresh.1 b.fresh.2
  have first := alone.deliver (b.ticks .logInfo) (b.elsewhere .logInfo) (by decide)
  rw [Nat.zero_add] at first
  simp only [Boot.run, Boot.exec, Boot.earlyTicks]
  by_cases early : (b.ticks .logInfo).length < schedulerQuantum
  · rw [if_pos early] at first
    obtain ⟨s, delivered, alone⟩ := first
    have second := alone.deliver (b.ticks .lock) (b.elsewhere .lock) early
    simp only [delivered, Option.bind_eq_bind, Option.bind_some]
    split at second
    next more =>
      obtain ⟨s', delivered', alone'⟩ := second
      simp only [delivered', Option.bind_some, if_pos more]
      exact ⟨_, rfl, alone'.current, rfl, Lib.chain_nil.mpr alone'.empty, by simp⟩
    next late => simp [second, late]
  · rw [if_neg early] at first
    have late : ¬ (b.ticks .logInfo).length + (b.ticks .lock).length < schedulerQuantum := by omega
    simp [first, late]

/-- `kmain` adds both threads, every tick on the way returning to it with its frame, exactly
when the quantum of the idle thread outlasts the ticks before the lock and the threads get
their memory. -/
theorem kmain_hands_over_iff (b : Boot) : (∃ k, b.kmain = some k ∧ HandedOver k) ↔
    b.earlyTicks < schedulerQuantum ∧ b.Obtained .a ∧ b.Obtained .b := by
  have locks := kmain_locks b (.processCreate .a :: .threadCreate .a :: .addThread .a ::
    .processCreate .b :: .threadCreate .b :: .addThread .b :: [.unlock])
  constructor
  · rintro ⟨k, finished, _⟩
    by_cases early : b.earlyTicks < schedulerQuantum
    · rw [if_pos early] at locks
      obtain ⟨k₀, run₀, held₀⟩ := locks
      refine ⟨early, ?_⟩
      by_contra missing
      -- a task that gets no memory stops the boot
      have stuck : b.kmain = none := by
        refine run₀.trans ?_
        by_cases first : b.Obtained .a
        · obtain ⟨k₁, _, run₁, held₁, _⟩ := start_task held₀ first
          rw [run₁]
          exact start_task_none held₁ fun second => missing ⟨first, second⟩
        · exact start_task_none held₀ first
      rw [stuck] at finished
      cases finished
    · rw [if_neg early] at locks
      cases locks.symm.trans finished
  · rintro ⟨early, first, second⟩
    rw [if_pos early] at locks
    obtain ⟨k₀, run₀, held₀⟩ := locks
    obtain ⟨k₁, ta, run₁, held₁, thread₁⟩ := start_task held₀ first
    obtain ⟨k₂, tb, run₂, held₂, thread₂⟩ := start_task held₁ second
    obtain ⟨k₃, run₃, current, chain, thread₃⟩ := run_unlock (b := b) held₂
    have finished : b.kmain = some k₃ := run₀.trans (by rw [run₁, run₂, run₃])
    refine ⟨k₃, finished, current, ta, tb, ?_, ?_, chain⟩
    · simp [thread₃, thread₂, thread₁]
    · simp [thread₃, thread₂]

/-- A boot whose log line lasts ten ticks. -/
def slowBoot : Boot where
  sched :=
    { thread := fun _ => Thread.zero, current := none, locked := false, timerTicks := 0
      nextTid := 0, tssRsp0 := 0, destroyed := [], next := fun _ => none, runQueue := none }
  idleFn := 0xffffffff80001000
  rsp := 0xffffffff80010000
  entry
    | .a => 0xffffffff80002000
    | .b => 0xffffffff80003000
  process _ := 0xffff800000100000
  object _ := true
  stack _ := some 0xffffffff90000000
  ticks
    | .logInfo => List.replicate 10 { Registers.zero with rip := 0xffffffff80004000 }
    | _ => []
  fresh := ⟨rfl, rfl⟩
  elsewhere := by
    intro call regs member
    cases call with
    | logInfo =>
      obtain rfl := List.eq_of_mem_replicate member
      decide
    | _ => cases member

/-- The tenth tick switches to `idle_fn`; the frame of `kmain` is kept nowhere. -/
theorem slow_boot_is_lost :
    (slowBoot.ticks .logInfo).length = 10 ∧ slowBoot.Obtained .a ∧ slowBoot.Obtained .b ∧
    (((deliver ((slowBoot.ticks .logInfo).take 9)
        (schedulerInit slowBoot.idleFn slowBoot.rsp slowBoot.sched)).bind
      (vector32 { Registers.zero with rip := 0xffffffff80004000 })).map fun left => left.1.rip) =
      some slowBoot.idleFn ∧
    ¬ ∃ k, slowBoot.kmain = some k ∧ HandedOver k := by
  refine ⟨rfl, ⟨rfl, rfl⟩, ⟨rfl, rfl⟩, by decide +kernel, ?_⟩
  rintro ⟨k, finished, _⟩
  have lost : slowBoot.kmain.isNone = true := by decide +kernel
  rw [finished] at lost
  cases lost

end DedOS
