import DedOS.Scheduler.ThreadMemory

/-!
# Every thread has a stack of its own

`thread_memory`: every thread that was ever created keeps its `thread_t` and its stack, two
live blocks that it shares with nobody, and a thread that is given the processor for the first
time finds the address of `thread_exit` on its stack, where its entry function returns to.
-/

namespace DedOS

open Lib HeapRun

/-! ### What the scheduler leaves in a `thread_t` -/

namespace QSched

variable {v : QSched} {c t : Tid} {frame : Registers}

theorem account_stack : ((v.account c).thread t).stack = (v.thread t).stack := by
  have woken : ∀ th : Thread, (th.wokenAt v.timerTicks).stack = th.stack := by
    intro th
    unfold Thread.wokenAt
    split <;> rfl
  have waked : (v.wake.reap.thread t).stack = (v.thread t).stack := by
    change (if t ∈ v.queue then (v.thread t).wokenAt v.timerTicks else v.thread t).stack = _
    split
    · exact woken _
    · rfl
  rw [account, Core.chargeQuantum_eq, ← waked]
  by_cases same : t = c
  · subst same
    simp
  · simp [Core.setThread_other, same]

theorem reschedule_stack (idle : .idle ∉ v.queue) :
    ((v.reschedule c frame).2.thread t).stack = (v.thread t).stack := by
  rw [reschedule_eq v c frame idle]
  obtain ⟨_, core⟩ := switchOut_spec { v with queue := v.queue.erase v.selected } c frame
  generalize switchOut { v with queue := v.queue.erase v.selected } c frame = w at core ⊢
  have out : (w.thread t).stack = (v.thread t).stack := by
    rw [core]
    split
    · rfl
    · by_cases same : t = c
      · subst same
        simp [left]
      · simp [Core.setThread_other, same]
  obtain ⟨_, threads, _⟩ := switchIn_spec w.toCore v.selected frame
  change ((Core.switchIn w.toCore v.selected frame).2.thread t).stack = _
  rw [threads, ← out]
  by_cases same : t = v.selected
  · subst same
    simp
  · simp [same]

/-- An interrupt moves no stack, and writes the context of the thread it interrupts only. -/
theorem WF.interrupt_kept {added exited : List Tid} (wf : WF v added exited) (regs : Registers)
    (hc : v.current = some c) : (v.interrupt regs).2.nextTid = v.nextTid ∧
      (∀ t, ((v.interrupt regs).2.thread t).stack = (v.thread t).stack) ∧
      ∀ t, t ≠ c → ((v.interrupt regs).2.thread t).context = (v.thread t).context := by
  have acc := wf.clock.account_accounted c
  refine ⟨?_, ?_, ?_⟩
  · rcases wf.interrupt_cases hc regs with ⟨_, out⟩ | ⟨_, _, out⟩ | ⟨_, _, sw⟩
    · rw [out]
      rfl
    · rw [out]
      exact acc.nextTid
    · exact sw.nextTid.trans acc.nextTid
  · intro t
    have current : v.clock.current = some c := hc
    rw [QSched.interrupt, QSched.tick, current]
    dsimp only
    split
    · rfl
    · split
      · exact account_stack
      · rw [reschedule_stack (acc.queue ▸ wf.idle_notMem), account_stack]
        rfl
  · intro t other
    rcases wf.interrupt_cases hc regs with ⟨_, out⟩ | ⟨_, _, out⟩ | ⟨_, _, sw⟩
    · rw [out]
      rfl
    · rw [out]
      exact acc.context t
    · rw [sw.context, if_neg fun both => other both.1]
      exact acc.context t

end QSched

namespace Machine

variable {m m' : Machine} {v v' : QSched} {e : Event}

/-- Only `thread_create` makes threads, stacks and the contexts of threads that do not run. -/
theorem Effect.kept (eff : Effect m v e m' v') (wf : v.WF m.added m.exited)
    (other : Kernel.isCreate e = false) : v'.nextTid = v.nextTid ∧
      (∀ t, (v'.thread t).stack = (v.thread t).stack) ∧
      ∀ t, v.current ≠ some t → (v'.thread t).context = (v.thread t).context := by
  obtain ⟨c, hc, _⟩ := wf.current
  have ticked := fun regs => wf.interrupt_kept regs hc
  have notCurrent : ∀ {t}, v.current ≠ some t → t ≠ c := by
    rintro t different rfl
    exact different hc
  -- one member of one `thread_t` is written
  have wrote : ∀ (u : Tid) (f : Thread → Thread), (∀ th, (f th).stack = th.stack) →
      (∀ th, (f th).context = th.context) →
      (∀ t, ((v.setThread u f).thread t).stack = (v.thread t).stack) ∧
      ∀ t, ((v.setThread u f).thread t).context = (v.thread t).context := by
    intro u f stack context
    refine ⟨fun t => ?_, fun t => ?_⟩ <;> by_cases same : t = u
    · subst same
      simp [stack]
    · simp [Core.setThread_other, same]
    · subst same
      simp [context]
    · simp [Core.setThread_other, same]
  cases eff with
  | timer regs s =>
    obtain ⟨count, stack, context⟩ := ticked regs
    exact ⟨count, stack, fun t different => context t (notCurrent different)⟩
  | raise regs t rest s _ _ =>
    obtain ⟨count, stack, context⟩ := ticked regs
    exact ⟨count, stack, fun t different => context t (notCurrent different)⟩
  | drop regs t rest s _ _ =>
    obtain ⟨stack, context⟩ := wrote t (fun th => { th with quantum := 0 }) (fun _ => rfl)
      fun _ => rfl
    exact ⟨rfl, stack, fun u _ => context u⟩
  | sleep ms t s _ _ _ =>
    obtain ⟨stack, context⟩ := wrote t
      (fun th => { th with state := .blocked, wakeTick := v.timerTicks + ms }) (fun _ => rfl)
      fun _ => rfl
    exact ⟨rfl, stack, fun u _ => context u⟩
  | exit t s _ _ _ =>
    obtain ⟨stack, context⟩ := wrote t (fun th => { th with state := .dead }) (fun _ => rfl)
      fun _ => rfl
    exact ⟨rfl, stack, fun u _ => context u⟩
  | create proc entry object stack s => cases other
  | _ => exact ⟨rfl, fun _ => rfl, fun _ _ => rfl⟩

end Machine

namespace Kernel

variable {threadExit : UInt64} {k k' : Kernel} {e : Event} {t u : Tid} {q : List Tid}
  {h before later : List (Entry Kernel Event)}

/-- The blocks of a thread are live, and the stack fits into its pages. -/
structure HasBlocks (k : Kernel) (t : Tid) : Prop where
  object : k.objectBlock t ∈ k.memory.blocks
  stack : k.stackBlock t ∈ k.memory.blocks
  aligned : (k.stackBlock t).ptr % pageSize = allocHeaderSize
  high : (k.stackBlock t).ptr + 2 * pageSize ≤ 2 ^ 64 + allocHeaderSize

/-- Every thread has its blocks, which are no other thread's. -/
structure Owned (k : Kernel) : Prop where
  good : Good k.memory
  machine : ∃ q, Machine.Inv k.machine q
  blocks : ∀ t, t.created k.machine.sched.nextTid → HasBlocks k t
  apart : ∀ t u, t.created k.machine.sched.nextTid → u.created k.machine.sched.nextTid → t ≠ u →
    k.objectBlock t ≠ k.objectBlock u ∧ k.stackBlock t ≠ k.stackBlock u
  above : Above (heapBase + k.machine.sched.nextTid * (2 * pageSize)) k.memory.heap

/-- The two kinds of blocks differ in size. -/
theorem object_ne_stack : k.objectBlock t ≠ k'.stackBlock u := by
  intro same
  injection same with _ sizes
  cases sizes

/-! ### One step -/

/-- The thread writes to its stack. -/
def Pushes (t : Tid) (k : Kernel) (e : Event) : Prop :=
  (∃ offset value, e = .push offset value) ∧ k.machine.sched.current = some t

/-- What a step leaves of the threads that there are. -/
structure Keeps (k : Kernel) (e : Event) (k' : Kernel) : Prop where
  good : Good k'.memory
  above : ∀ n, Above n k.memory.heap → Above n k'.memory.heap
  count : k.machine.sched.nextTid ≤ k'.machine.sched.nextTid
  objectBlock : ∀ t, t.created k.machine.sched.nextTid → k'.objectBlock t = k.objectBlock t
  stackBlock : ∀ t, t.created k.machine.sched.nextTid → k'.stackBlock t = k.stackBlock t
  spared : ∀ t, t.created k.machine.sched.nextTid → Spared (k.objectBlock t) k.memory k'.memory
  live : ∀ t, t.created k.machine.sched.nextTid → k.stackBlock t ∈ k.memory.blocks →
    k.stackBlock t ∈ k'.memory.blocks
  bytes : ∀ t, t.created k.machine.sched.nextTid → ¬ Pushes t k e →
    Spared (k.stackBlock t) k.memory k'.memory
  context : ∀ t, t.created k.machine.sched.nextTid → k.machine.sched.current ≠ some t →
    (k'.machine.sched.thread t).context = (k.machine.sched.thread t).context

/-- A thread is made, with a `thread_t` and a stack that nobody had. -/
structure Makes (threadExit : UInt64) (k k' : Kernel) (object stack : Nat) : Prop where
  memory : Made threadExit k.memory k'.memory object stack
  count : k'.machine.sched.nextTid = k.machine.sched.nextTid + 1
  objectBlock : k'.objectBlock (.thread k.machine.sched.nextTid) = ⟨object, threadSize⟩
  stackBlock : k'.stackBlock (.thread k.machine.sched.nextTid) = ⟨stack, threadStackSize.toNat⟩
  sp : (k'.machine.sched.thread (.thread k.machine.sched.nextTid)).context.rsp =
    initialSp (UInt64.ofNat stack)

theorem objectBlock_mem (made : t.created k.machine.sched.nextTid) :
    k.objectBlock t ∈ k.threadBlocks ∧ k.stackBlock t ∈ k.threadBlocks := by
  have listed := QSched.Tid.created_mem_range made
  constructor <;> exact List.mem_flatMap.mpr ⟨t, listed, by simp⟩

/-- The reaping loop never meets a dead thread, so `thread_destroy` is not called. -/
theorem sched_step {e : DedOS.Event} (inv : Machine.Inv k.machine q)
    (taken : step threadExit k (.sched e) = some k') : isCreate e = false ∧
      (∃ q', Machine.Effect k.machine (k.machine.view q) e k'.machine (k'.machine.view q') ∧
        Machine.Inv k'.machine q') ∧ k' = { k with machine := k'.machine } := by
  unfold step at taken
  dsimp only at taken
  split at taken
  · cases taken
  next other =>
    simp only [Option.bind_eq_bind, Option.bind_eq_some_iff] at taken
    obtain ⟨machine, stepped, destroyed⟩ := taken
    obtain ⟨q', eff, inv'⟩ := inv.step stepped
    have none : machine.sched.destroyed = [] := inv'.wf.kept
    rw [none, List.take_nil, List.reverse_nil] at destroyed
    obtain rfl := Option.some.inj destroyed
    exact ⟨by simpa using other, ⟨q', eff, inv'⟩, rfl⟩

theorem sched_keeps {e : DedOS.Event} (good : Good k.memory) (inv : Machine.Inv k.machine q)
    (taken : step threadExit k (.sched e) = some k') : Keeps k (.sched e) k' ∧
      k'.machine.sched.nextTid = k.machine.sched.nextTid := by
  obtain ⟨other, ⟨q', eff, _⟩, same⟩ := sched_step inv taken
  obtain ⟨count, stack, context⟩ := eff.kept inv.wf other
  have memory : k'.memory = k.memory := by rw [same]
  have stays : ∀ b, Spared b k.memory k'.memory := by
    rw [memory]
    exact fun b live => ⟨live, fun _ _ => rfl⟩
  refine ⟨⟨memory ▸ good, fun n past => memory ▸ past, count.ge, fun t _ => ?_, fun t _ => ?_,
    fun t _ => stays _, fun t _ live => memory ▸ live, fun t _ _ => stays _,
    fun t _ => context t⟩, count⟩
  · rw [same, objectBlock, objectBlock]
  · have kept : (k'.machine.sched.thread t).stack = (k.machine.sched.thread t).stack := stack t
    rw [stackBlock, stackBlock, kept]

theorem heap_keeps {e : HeapEvent} (good : Good k.memory) (fits : FitsEvent k.memory e)
    (taken : step threadExit k (.heap e) = some k') : Keeps k (.heap e) k' ∧
      k'.machine = k.machine := by
  unfold step at taken
  dsimp only at taken
  split at taken
  · cases taken
  next foreign =>
    obtain ⟨memory, called, rfl⟩ := Option.map_eq_some_iff.mp taken
    -- the caller names no block of a thread
    have silent : ∀ b ∈ k.threadBlocks, Spared b k.memory memory := by
      intro b mine
      refine good.spared fits called ?_ ?_
      · rintro rfl
        exact foreign (decide_eq_true mine)
      · rintro offset value rfl
        exact foreign (decide_eq_true mine)
    refine ⟨⟨good.step fits called, fun n past => past.step fits called, le_rfl, fun _ _ => rfl,
      fun _ _ => rfl, fun t made => silent _ (objectBlock_mem made).1, fun t made live =>
      (silent _ (objectBlock_mem made).2 live).1, fun t made _ => silent _ (objectBlock_mem made).2,
      fun _ _ _ => rfl⟩, rfl⟩

theorem push_keeps {offset : Nat} {value : UInt8} (owned : Owned k)
    (taken : step threadExit k (.push offset value) = some k') : Keeps k (.push offset value) k' ∧
      k'.machine = k.machine := by
  have good := owned.good
  obtain ⟨q, inv⟩ := owned.machine
  unfold step at taken
  dsimp only at taken
  split at taken
  next n current =>
    obtain ⟨memory, called, rfl⟩ := Option.map_eq_some_iff.mp taken
    have allowed : Allowed k.memory (.call (.write (k.stackBlock (.thread n)) offset value)) := by
      by_contra refused
      rw [HeapRun.step, if_neg refused] at called
      cases called
    -- the store is below the size of the stack, whose pages hold it
    have fits : FitsEvent k.memory (.call (.write (k.stackBlock (.thread n)) offset value)) :=
      (inside_stack allowed.2 : Inside (k.stackBlock (.thread n)) offset).2
    have others : ∀ b, b ≠ k.stackBlock (.thread n) → Spared b k.memory memory := by
      intro b other
      refine good.spared fits called (by simp) ?_
      rintro _ _ same
      injection same with same
      injection same with same
      exact other same.symm
    have running : Tid.created k.machine.sched.nextTid (.thread n) :=
      inv.wf.made _ ((inv.wf.owner current).resolve_left (by simp))
    refine ⟨⟨good.step fits called, fun _ past => past.step fits called, le_rfl, fun _ _ => rfl,
      fun _ _ => rfl, fun t _ => others _ object_ne_stack, fun t _ live => ?_, fun t made quiet => ?_,
      fun _ _ _ => rfl⟩, rfl⟩
    · exact step_stays called (by simp) live
    · apply others
      -- the stack of a thread that does not run is another block
      have other : t ≠ .thread n := by
        rintro rfl
        exact quiet ⟨⟨offset, value, rfl⟩, current⟩
      exact (owned.apart t _ made running other).2
  · cases taken

/-- A call of `thread_create` that fails leaves the threads alone; otherwise there is one more. -/
theorem create_machine {proc entry : UInt64} {object : Bool} {stack : Option UInt64}
    {m m' : Machine} (taken : m.step (.call (.create proc entry object stack)) = some m') :
    m'.sched.toCore = (m.sched.threadCreate proc entry object stack).2 := by
  unfold Machine.step at taken
  dsimp only at taken
  split at taken
  · cases taken
  · split at taken
    · obtain rfl := Option.some.inj taken
      rfl
    · cases taken

theorem create_keeps {proc entry : UInt64} (owned : Owned k)
    (fits : Fits k.memory.heap threadStackSize.toNat)
    (taken : step threadExit k (.create proc entry) = some k') : Keeps k (.create proc entry) k' ∧
      (k'.machine.sched.nextTid = k.machine.sched.nextTid ∨
        ∃ object stack, Makes threadExit k k' object stack) := by
  simp only [step, threadCreate, Option.bind_eq_bind, Option.bind_eq_some_iff, Prod.exists,
    Option.some.injEq] at taken
  obtain ⟨a, memory, gotMemory, machine, stepped, rfl⟩ := taken
  obtain ⟨untouched, handed⟩ := threadMemory_spec owned.good fits gotMemory
  have core := create_machine stepped
  have spared : ∀ b, Spared b k.memory memory := fun b => untouched.all
  cases gotStack : a.stack with
  | none =>
    have same : machine.sched.toCore = k.machine.sched.toCore := by
      rw [core, gotStack]
      cases decide (a.object ≠ 0) <;> rfl
    have thread : machine.sched.thread = k.machine.sched.thread := congrArg Core.thread same
    have count : machine.sched.nextTid = k.machine.sched.nextTid := congrArg Core.nextTid same
    refine ⟨⟨untouched.good, untouched.above, count.ge, fun t _ => rfl, fun t _ => ?_,
      fun t _ => spared _, fun t _ live => (spared _ live).1, fun t _ _ => spared _,
      fun t _ _ => ?_⟩, .inl count⟩
    · rw [stackBlock, stackBlock, thread]
    · rw [thread]
  | some stack =>
    have made := handed stack gotStack
    have nonnull : decide (a.object ≠ 0) = true := decide_eq_true made.nonnull
    rw [gotStack, nonnull, Option.map_some] at core
    have count : machine.sched.nextTid = k.machine.sched.nextTid + 1 := by
      rw [core]
      rfl
    have kept : ∀ t, t ≠ .thread k.machine.sched.nextTid →
        machine.sched.thread t = k.machine.sched.thread t := by
      intro t old
      rw [core]
      simp [Core.threadCreate, Core.setThread_other, old]
    have new : (machine.sched.thread (.thread k.machine.sched.nextTid)).stack = UInt64.ofNat stack ∧
        (machine.sched.thread (.thread k.machine.sched.nextTid)).context.rsp =
          initialSp (UInt64.ofNat stack) := by
      rw [core]
      simp [Core.threadCreate, initialContext, initialSp]
    have old : ∀ t : Tid, t.created k.machine.sched.nextTid → t ≠ .thread k.machine.sched.nextTid := by
      rintro t made rfl
      exact absurd made (Nat.lt_irrefl _)
    have below : stack < 2 ^ 64 := by
      have high := made.stack.high
      dsimp only [pageSize, allocHeaderSize] at high
      omega
    refine ⟨⟨untouched.good, untouched.above, count.ge.trans' (Nat.le_succ _), fun t known => ?_,
      fun t known => ?_, fun t _ => spared _, fun t _ live => (spared _ live).1,
      fun t _ _ => spared _, fun t known _ => ?_⟩, .inr ⟨a.object, stack, made, count, ?_, ?_, new.2⟩⟩
    · simp [objectBlock, old t known]
    · rw [stackBlock, stackBlock, kept t (old t known)]
    · rw [kept t (old t known)]
    · simp [objectBlock]
    · rw [stackBlock, new.1, UInt64.toNat_ofNat_of_lt' below]

theorem Owned.keeps (owned : Owned k) (roomy : Roomy ⟨k, e, k'⟩)
    (taken : step threadExit k e = some k') : Keeps k e k' ∧
      (k'.machine.sched.nextTid = k.machine.sched.nextTid ∨
        ∃ object stack, Makes threadExit k k' object stack) := by
  cases e with
  | sched e =>
    obtain ⟨q, inv⟩ := owned.machine
    obtain ⟨keeps, count⟩ := sched_keeps owned.good inv taken
    exact ⟨keeps, .inl count⟩
  | create proc entry => exact create_keeps owned roomy taken
  | heap e =>
    obtain ⟨keeps, same⟩ := heap_keeps owned.good roomy taken
    exact ⟨keeps, .inl (by rw [same])⟩
  | push offset value =>
    obtain ⟨keeps, same⟩ := push_keeps owned taken
    exact ⟨keeps, .inl (by rw [same])⟩

theorem Owned.machine_step (owned : Owned k) (roomy : Roomy ⟨k, e, k'⟩)
    (taken : step threadExit k e = some k') : ∃ q, Machine.Inv k'.machine q := by
  obtain ⟨q, inv⟩ := owned.machine
  cases e with
  | sched e =>
    obtain ⟨_, ⟨q', _, inv'⟩, _⟩ := sched_step inv taken
    exact ⟨q', inv'⟩
  | create proc entry =>
    simp only [step, threadCreate, Option.bind_eq_bind, Option.bind_eq_some_iff, Prod.exists,
      Option.some.injEq] at taken
    obtain ⟨a, memory, _, machine, stepped, rfl⟩ := taken
    obtain ⟨q', _, inv'⟩ := inv.step stepped
    exact ⟨q', inv'⟩
  | heap e => exact ⟨q, (heap_keeps owned.good roomy taken).2 ▸ inv⟩
  | push offset value => exact ⟨q, (push_keeps owned taken).2 ▸ inv⟩

theorem Keeps.hasBlocks (keeps : Keeps k e k') (made : t.created k.machine.sched.nextTid)
    (has : HasBlocks k t) : HasBlocks k' t := by
  have object := keeps.objectBlock t made
  have stack := keeps.stackBlock t made
  refine ⟨?_, ?_, ?_, ?_⟩
  · rw [object]
    exact (keeps.spared t made has.object).1
  · rw [stack]
    exact keeps.live t made has.stack
  · rw [stack]
    exact has.aligned
  · rw [stack]
    exact has.high

theorem Makes.hasBlocks {object stack : Nat} (makes : Makes threadExit k k' object stack) :
    HasBlocks k' (.thread k.machine.sched.nextTid) := by
  have isObject := makes.objectBlock
  have isStack := makes.stackBlock
  refine ⟨?_, ?_, ?_, ?_⟩
  · rw [isObject]
    exact makes.memory.live
  · rw [isStack]
    exact makes.memory.stack.live
  · rw [isStack]
    exact makes.memory.stack.aligned
  · rw [isStack]
    exact makes.memory.stack.high

/-- An old thread's blocks are live before the step, and the new ones are not. -/
theorem Makes.differ {object stack : Nat} (makes : Makes threadExit k k' object stack)
    (keeps : Keeps k e k') (made : t.created k.machine.sched.nextTid) (has : HasBlocks k t) :
    k'.objectBlock t ≠ k'.objectBlock (.thread k.machine.sched.nextTid) ∧
      k'.stackBlock t ≠ k'.stackBlock (.thread k.machine.sched.nextTid) := by
  rw [keeps.objectBlock t made, keeps.stackBlock t made, makes.objectBlock, makes.stackBlock]
  constructor
  · intro same
    exact makes.memory.new (same ▸ has.object)
  · intro same
    exact makes.memory.stack.new (same ▸ has.stack)

/-- The blocks of a new thread were nobody's, those of the others are what they were. -/
theorem Owned.step (owned : Owned k) (roomy : Roomy ⟨k, e, k'⟩)
    (taken : step threadExit k e = some k') : Owned k' := by
  obtain ⟨keeps, count⟩ := owned.keeps roomy taken
  have machine := owned.machine_step roomy taken
  have oldApart : ∀ t u : Tid, t.created k.machine.sched.nextTid →
      u.created k.machine.sched.nextTid → t ≠ u →
      k'.objectBlock t ≠ k'.objectBlock u ∧ k'.stackBlock t ≠ k'.stackBlock u := by
    intro t u made made' other
    rw [keeps.objectBlock t made, keeps.stackBlock t made, keeps.objectBlock u made',
      keeps.stackBlock u made']
    exact owned.apart t u made made' other
  rcases count with count | ⟨object, stack, makes⟩
  · refine ⟨keeps.good, machine, fun t made => ?_, fun t u made made' => ?_, ?_⟩
    · rw [count] at made
      exact keeps.hasBlocks made (owned.blocks t made)
    · rw [count] at made made'
      exact oldApart t u made made'
    · rw [count]
      exact keeps.above _ owned.above
  · have split : ∀ t : Tid, t.created k'.machine.sched.nextTid →
        t.created k.machine.sched.nextTid ∨ t = .thread k.machine.sched.nextTid := by
      intro t made
      rw [makes.count] at made
      exact Machine.created_succ.mp made
    refine ⟨keeps.good, machine, fun t made => ?_, fun t u made made' other => ?_, ?_⟩
    · rcases split t made with old | rfl
      · exact keeps.hasBlocks old (owned.blocks t old)
      · exact makes.hasBlocks
    · rcases split t made with old | rfl
      · rcases split u made' with old' | rfl
        · exact oldApart t u old old' other
        · exact makes.differ keeps old (owned.blocks t old)
      · have old' := (split u made').resolve_right other.symm
        have apart := makes.differ keeps old' (owned.blocks u old')
        exact ⟨apart.1.symm, apart.2.symm⟩
    · have moved := makes.memory.stack.above _ owned.above
      rw [makes.count, Nat.succ_mul, ← Nat.add_assoc]
      exact moved

theorem Booted.count (booted : Booted k) : k.machine.sched.nextTid = 0 := by
  obtain ⟨idleFn, rsp, s, _, _, _, none, _, sched, _⟩ := booted.machine
  rw [sched]
  exact none

theorem Booted.nobody (booted : Booted k) (t : Tid) : ¬ t.created k.machine.sched.nextTid := by
  rw [booted.count]
  cases t with
  | idle => exact id
  | thread n => exact Nat.not_lt_zero n

theorem Booted.owned (booted : Booted k) : Owned k := by
  obtain ⟨h, run, fits⟩ := booted.memory
  have good := run_good run fits
  refine ⟨good, ⟨_, booted.machine.inv⟩, fun t made => absurd made (booted.nobody t),
    fun t _ made => absurd made (booted.nobody t), ?_⟩
  obtain ⟨_, _, _, top, inv⟩ := good
  have vaddr := inv.vaddr
  have range := inv.range
  rw [booted.count, Nat.zero_mul]
  unfold Above wrap64 at *
  dsimp only [heapBase] at *
  omega

/-! ### Threads that have not run yet -/

/-- The thread is as `thread_create` left it. -/
structure Fresh (threadExit : UInt64) (k : Kernel) (t : Tid) : Prop where
  sp : (k.machine.sched.thread t).context.rsp.toNat = (k.stackBlock t).ptr + 4080
  exit : ∀ i < 8, byteAt k.memory.heap (k.stackBlock t) (4080 + i) =
    (leBytes 8 threadExit.toNat)[i]?

theorem Keeps.fresh (keeps : Keeps k e k') (made : t.created k.machine.sched.nextTid)
    (has : HasBlocks k t) (waits : k.machine.sched.current ≠ some t)
    (fresh : Fresh threadExit k t) : Fresh threadExit k' t := by
  constructor
  · rw [keeps.context t made waits, keeps.stackBlock t made]
    exact fresh.sp
  · intro i below
    have spared := keeps.bytes t made (fun pushes => waits pushes.2) has.stack
    have inside : Inside (k.stackBlock t) (4080 + i) := by
      apply inside_stack
      rw [threadStackSize_toNat]
      omega
    rw [keeps.stackBlock t made, spared.2 _ inside]
    exact fresh.exit i below

theorem Makes.fresh {object stack : Nat} (makes : Makes threadExit k k' object stack) :
    Fresh threadExit k' (.thread k.machine.sched.nextTid) := by
  have made := makes.memory.stack
  constructor
  · rw [makes.sp, makes.stackBlock]
    exact initialSp_toNat made.aligned made.high
  · rw [makes.stackBlock]
    exact made.exit

/-- The invariant along a run, with the threads that have not had the processor in it. -/
theorem Runs.owned (run : Runs threadExit h k) (roomy : ∀ e ∈ h, Roomy e) : Owned k ∧
    ∀ t, t.created k.machine.sched.nextTid → (∀ e ∈ h, e.pre.machine.sched.current ≠ some t) →
      Fresh threadExit k t := by
  induction run with
  | start booted =>
    exact ⟨booted.owned, fun t made => absurd made (booted.nobody t)⟩
  | @step h k k' e before taken ih =>
    obtain ⟨owned, fresh⟩ := ih fun e member => roomy e (List.mem_cons_of_mem _ member)
    have here := roomy _ List.mem_cons_self
    obtain ⟨keeps, count⟩ := owned.keeps here taken
    have old : ∀ t : Tid, t.created k.machine.sched.nextTid →
        (∀ e' ∈ ⟨k, e, k'⟩ :: h, e'.pre.machine.sched.current ≠ some t) →
        Fresh threadExit k' t := by
      intro t made never
      have waits := never _ List.mem_cons_self
      exact keeps.fresh made (owned.blocks t made) waits
        (fresh t made fun e' member => never e' (List.mem_cons_of_mem _ member))
    refine ⟨owned.step here taken, fun t made never => ?_⟩
    rcases count with count | ⟨object, stack, makes⟩
    · rw [count] at made
      exact old t made never
    · rw [makes.count] at made
      rcases Machine.created_succ.mp made with was | rfl
      · exact old t was never
      · exact makes.fresh

/-! ### The memory of all threads -/

theorem Owned.nodup (owned : Owned k) : k.threadBlocks.Nodup := by
  have created : ∀ t ∈ (List.range k.machine.sched.nextTid).map Tid.thread,
      t.created k.machine.sched.nextTid := by
    intro t listed
    obtain ⟨n, inRange, rfl⟩ := List.mem_map.mp listed
    exact List.mem_range.mp inRange
  have threads : ((List.range k.machine.sched.nextTid).map Tid.thread).Nodup := by
    refine List.nodup_range.map ?_
    intro n n' same
    injection same
  rw [threadBlocks, List.nodup_flatMap]
  refine ⟨fun t _ => by simp [object_ne_stack], threads.pairwise_of_forall_ne ?_⟩
  intro t listed u listed' other
  have apart := owned.apart t u (created t listed) (created u listed') other
  simp only [Function.onFun, List.disjoint_cons_left, List.mem_cons, List.not_mem_nil, or_false,
    not_or, List.disjoint_nil_left, and_true]
  exact ⟨⟨apart.1, object_ne_stack⟩, Ne.symm object_ne_stack, apart.2⟩

theorem Owned.live (owned : Owned k) {b : Block} (member : b ∈ k.threadBlocks) :
    b ∈ k.memory.blocks := by
  obtain ⟨t, listed, mine⟩ := List.mem_flatMap.mp member
  obtain ⟨n, inRange, rfl⟩ := List.mem_map.mp listed
  have has := owned.blocks (.thread n) (List.mem_range.mp inRange)
  rcases List.mem_cons.mp mine with rfl | mine
  · exact has.object
  · obtain rfl := List.mem_singleton.mp mine
    exact has.stack

/-- The step gives the processor to the thread. -/
def Dispatches (t : Tid) (e : Entry Kernel Event) : Prop :=
  e.pre.machine.sched.current ≠ some t ∧ e.post.machine.sched.current = some t

/-- What the first dispatch of a thread finds: the stack pointer inside its own stack, as after
a call, with the address of `thread_exit` to return to. -/
structure StartsAtTop (threadExit : UInt64) (t : Tid) (e : Entry Kernel Event) : Prop where
  sp : e.post.machine.frame.rsp.toNat = (e.pre.stackBlock t).ptr + 4080
  called : e.post.machine.frame.rsp.toNat % 16 = 8
  exit : ∀ i < 8, byteAt e.post.memory.heap (e.pre.stackBlock t) (4080 + i) =
    (leBytes 8 threadExit.toNat)[i]?

theorem Dispatches.sched (given : Dispatches t ⟨k, e, k'⟩) (owned : Owned k)
    (roomy : Roomy ⟨k, e, k'⟩) (taken : step threadExit k e = some k') : ∃ e', e = .sched e' := by
  have stays : k'.machine.sched.current ≠ k.machine.sched.current := fun same =>
    given.1 (same.symm.trans given.2)
  cases e with
  | sched e => exact ⟨e, rfl⟩
  | create proc entry =>
    simp only [step, threadCreate, Option.bind_eq_bind, Option.bind_eq_some_iff, Prod.exists,
      Option.some.injEq] at taken
    obtain ⟨a, memory, _, machine, stepped, rfl⟩ := taken
    refine absurd ?_ stays
    dsimp only
    rw [create_machine stepped]
    cases decide (a.object ≠ 0) <;> cases a.stack <;> rfl
  | heap e => exact absurd (by rw [(heap_keeps owned.good roomy taken).2]) stays
  | push offset value => exact absurd (by rw [(push_keeps owned taken).2]) stays

theorem Fresh.starts {e : DedOS.Event} (fresh : Fresh threadExit k t) (has : HasBlocks k t)
    (inv : Machine.Inv k.machine q) (taken : step threadExit k (.sched e) = some k')
    (given : Dispatches t ⟨k, .sched e, k'⟩) : StartsAtTop threadExit t ⟨k, .sched e, k'⟩ := by
  obtain ⟨_, ⟨q', eff, _⟩, same⟩ := sched_step inv taken
  obtain ⟨_, _, _, rsp, _⟩ := dispatch_restores inv eff given
  have sp : k'.machine.frame.rsp.toNat = (k.stackBlock t).ptr + 4080 := by
    rw [rsp]
    exact fresh.sp
  have memory : k'.memory = k.memory := by rw [same]
  refine ⟨sp, ?_, ?_⟩
  · have aligned := has.aligned
    dsimp only [pageSize, allocHeaderSize] at aligned ⊢
    omega
  · intro i below
    dsimp only
    rw [memory]
    exact fresh.exit i below

/-- What the run `h` from the start to `k` did with the memory of threads. -/
structure ThreadMemory (threadExit : UInt64) (h : List (Entry Kernel Event)) (k : Kernel) : Prop where
  /-- the blocks of all threads that were created are live, of those that exited too -/
  live : ∀ b ∈ k.threadBlocks, b ∈ k.memory.blocks
  distinct : k.threadBlocks.Nodup
  /-- no byte of them is a byte of another live block -/
  alone : ∀ b ∈ k.threadBlocks, ∀ b' ∈ k.memory.blocks, ∀ offset offset' a, Inside b offset →
    Inside b' offset' → cell k.memory.heap b offset = some a →
    cell k.memory.heap b' offset' = some a → b = b' ∧ offset = offset'
  /-- stacks are handed out upwards and never reused -/
  few : k.machine.sched.nextTid * (2 * pageSize) ≤ 2 ^ 64 - heapBase
  /-- a stack is changed by its thread only -/
  kept : ∀ e ∈ h, ∀ t, t.created e.pre.machine.sched.nextTid → ¬ Pushes t e.pre e.event →
    ∀ offset < threadStackSize.toNat, byteAt e.post.memory.heap (e.post.stackBlock t) offset =
      byteAt e.pre.memory.heap (e.pre.stackBlock t) offset
  first : ∀ t later e before, h = later ++ e :: before → t ≠ .idle → Dispatches t e →
    (∀ e' ∈ before, e'.pre.machine.sched.current ≠ some t) → StartsAtTop threadExit t e

theorem thread_memory (run : Runs threadExit h k) (roomy : ∀ e ∈ h, Roomy e) :
    ThreadMemory threadExit h k where
  live b member := (run.owned roomy).1.live member
  distinct := (run.owned roomy).1.nodup
  alone b member b' member' offset offset' a inside inside' here here' := by
    have owned := (run.owned roomy).1
    obtain ⟨_, _, _, _, inv⟩ := owned.good
    exact inv.cell_injective (owned.live member) member' inside inside' here here'
  few := by
    have above := (run.owned roomy).1.above.1
    omega
  kept e member t made quiet offset below := by
    obtain ⟨later, before, rfl⟩ := List.append_of_mem member
    obtain ⟨_, rest⟩ := Run.suffix run
    obtain ⟨runBefore, taken, _⟩ := rest.entry
    obtain ⟨owned, _⟩ := Runs.owned runBefore fun e' old =>
      roomy e' (List.mem_append_right _ (List.mem_cons_of_mem _ old))
    obtain ⟨keeps, _⟩ := owned.keeps (roomy e member) taken
    rw [keeps.stackBlock t made]
    exact (keeps.bytes t made quiet (owned.blocks t made).stack).2 _ (inside_stack below)
  first t later e before split busy given never := by
    subst split
    obtain ⟨_, rest⟩ := Run.suffix run
    obtain ⟨runBefore, taken, _⟩ := rest.entry
    obtain ⟨owned, fresh⟩ := Runs.owned runBefore fun e' old =>
      roomy e' (List.mem_append_right _ (List.mem_cons_of_mem _ old))
    have here := roomy e (List.mem_append_right _ List.mem_cons_self)
    obtain ⟨pre, event, post⟩ := e
    obtain ⟨e, rfl⟩ := given.sched owned here taken
    obtain ⟨q, inv⟩ := owned.machine
    obtain ⟨_, ⟨q', eff, _⟩, _⟩ := sched_step inv taken
    have made := inv.wf.made t (inv.wf.queued t (dispatch_queued inv eff busy given))
    exact (fresh t made never).starts (owned.blocks t made) inv taken given

/-- A first thread on the small machine. -/
theorem thread_memory_one_thread : ∃ h k, Runs 0x1000 h k ∧ k.machine.sched.nextTid = 1 ∧
    ThreadMemory 0x1000 h k := by
  have evaluated : ((heapInit bareHeap).bind fun heap =>
      (request threadSize ⟨heap, [], []⟩).map fun r => decide (r.1 ≠ 0) &&
        r.2.heap.vm.pmm.freePages == 8 && heap.heapVaddr == heapBase) = some true := by
    decide +kernel
  obtain ⟨heap, started, evaluated⟩ := Option.bind_eq_some_iff.mp evaluated
  obtain ⟨⟨object, s⟩, gotObject, facts⟩ := Option.map_eq_some_iff.mp evaluated
  simp only [Bool.and_eq_true, beq_iff_eq, decide_eq_true_eq] at facts
  obtain ⟨⟨nonnull, frames⟩, vaddr⟩ := facts
  have start : HeapRun.Started ⟨heap, [], []⟩ := ⟨bareHeap, booted_bareHeap, started, rfl, rfl⟩
  have noEvent : AllFit [] := fun x member => absurd member List.not_mem_nil
  have fits : Fits heap threadStackSize.toNat := by
    rw [Fits, vaddr]
    decide
  obtain ⟨stack, memory, made⟩ : ∃ stack memory,
      threadMemory 0x1000 ⟨heap, [], []⟩ = some (⟨object, some stack⟩, memory) :=
    threadMemory_served (run_good (.start start) noEvent) fits gotObject nonnull frames.ge
  let k : Kernel := ⟨bootMachine, ⟨heap, [], []⟩, fun _ => 0⟩
  have booted : Booted k := ⟨bootMachine_booted, [], .start start, noEvent⟩
  obtain ⟨k', taken, count⟩ : ∃ k', step 0x1000 k (.create 0 0x2000) = some k' ∧
      k'.machine.sched.nextTid = 1 := by
    simp only [step, threadCreate, k, made, Option.bind_eq_bind, Option.bind_some,
      decide_eq_true nonnull]
    exact ⟨_, rfl, rfl⟩
  have run : Runs 0x1000 [⟨k, .create 0 0x2000, k'⟩] k' := .step (.start booted) taken
  refine ⟨_, k', run, count, thread_memory run ?_⟩
  intro e member
  obtain rfl := List.mem_singleton.mp member
  exact fits

end Kernel

end DedOS
