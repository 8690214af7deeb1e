import DedOS.Scheduler.Machine

/-!
# The scheduler's invariant
-/

namespace DedOS

open Lib

namespace QSched

/-- The thread a switch chooses. -/
def selected (w : QSched) : Tid := (w.queue.find? (isReady w.toCore)).getD .idle

/-- `c` loses the CPU while it could go on. -/
def Preempted (w : QSched) (c : Tid) : Prop := c ≠ .idle ∧ (w.thread c).state = .running

/-- `c` goes back to the queue when it loses the CPU. -/
def Requeued (w : QSched) (c : Tid) : Prop := c ≠ .idle ∧ (w.thread c).state ≠ .dead

instance (w : QSched) (c : Tid) : Decidable (w.Preempted c) := inferInstanceAs (Decidable (_ ∧ _))
instance (w : QSched) (c : Tid) : Decidable (w.Requeued c) := inferInstanceAs (Decidable (_ ∧ _))

theorem selected_cases (w : QSched) :
    (w.selected = .idle ∧ ∀ t ∈ w.queue, (w.thread t).state ≠ .ready) ∨
    (w.selected ∈ w.queue ∧ (w.thread w.selected).state = .ready) := by
  unfold selected
  cases found : w.queue.find? (isReady w.toCore) with
  | none =>
    left
    simpa [List.find?_eq_none, isReady] using found
  | some r =>
    right
    have ready := List.find?_some found
    exact ⟨List.mem_of_find?_eq_some found, by simpa [isReady] using ready⟩

theorem selected_known (w : QSched) : w.selected = .idle ∨ w.selected ∈ w.queue :=
  w.selected_cases.imp And.left And.left

/-- A thread outside the queue is not selected. -/
theorem selected_ne {w : QSched} {c : Tid} (busy : c ≠ .idle) (out : c ∉ w.queue) :
    w.selected ≠ c := by
  rintro rfl
  exact w.selected_known.elim busy out

theorem pick_eq (w : QSched) (idle : .idle ∉ w.queue) :
    w.pick = (w.queue.find? (isReady w.toCore), { w with queue := w.queue.erase w.selected }) := by
  unfold pick selected
  cases found : w.queue.find? (isReady w.toCore) with
  | none => simp [List.erase_of_not_mem idle]
  | some r => simp

/-- What switching out makes of the thread it takes the CPU from. -/
def left (w : QSched) (c : Tid) (frame : Registers) (th : Thread) : Thread :=
  { th with
    context := saveContext th.context frame
    state := if w.Preempted c then .ready else th.state
    quantum := if w.Preempted c then schedulerQuantum else th.quantum }

theorem switchOut_spec (w : QSched) (c : Tid) (frame : Registers) :
    (w.switchOut c frame).queue = (if w.Requeued c then [c] else []) ++ w.queue ∧
    (w.switchOut c frame).toCore =
      if c = .idle then w.toCore else w.setThread c (w.left c frame) := by
  unfold switchOut requeue
  by_cases idle : c = .idle
  · simp [idle, Requeued]
  · cases state : (w.thread c).state <;>
      simp [idle, Requeued, Preempted, left, state, Core.setThread]

theorem switchIn_spec (k : Core) (t : Tid) (frame : Registers) :
    (k.switchIn t frame).1 = restoreContext frame (k.thread t).context ∧
    (k.switchIn t frame).2.thread = Function.update k.thread t
      { k.thread t with state := .running, quantum := schedulerQuantum } ∧
    (k.switchIn t frame).2.current = some t ∧ (k.switchIn t frame).2.locked = k.locked ∧
    (k.switchIn t frame).2.timerTicks = k.timerTicks ∧
    (k.switchIn t frame).2.nextTid = k.nextTid ∧
    (k.switchIn t frame).2.destroyed = k.destroyed := by
  unfold Core.switchIn
  dsimp only
  split <;> simp [Core.setThread]

theorem reschedule_eq (w : QSched) (c : Tid) (frame : Registers) (idle : .idle ∉ w.queue) :
    let v := switchOut { w with queue := w.queue.erase w.selected } c frame
    w.reschedule c frame = ((v.switchIn w.selected frame).1,
      { toCore := (v.switchIn w.selected frame).2, queue := v.queue }) := by
  unfold reschedule
  rw [pick_eq w idle]
  rfl

/-- Everything a switch away from `c` does, as seen from outside. -/
structure Switched (w : QSched) (c : Tid) (frame frame' : Registers) (w' : QSched) : Prop where
  current : w'.current = some w.selected
  queue : w'.queue = (if w.Requeued c then [c] else []) ++ w.queue.erase w.selected
  state : ∀ t, (w'.thread t).state =
    if t = w.selected then .running
    else if t = c ∧ w.Preempted c then .ready
    else (w.thread t).state
  wakeTick : ∀ t, (w'.thread t).wakeTick = (w.thread t).wakeTick
  quantum : ∀ t, (w'.thread t).quantum =
    if t = w.selected ∨ (t = c ∧ w.Preempted c) then schedulerQuantum else (w.thread t).quantum
  context : ∀ t, (w'.thread t).context =
    if t = c ∧ c ≠ .idle then saveContext (w.thread t).context frame else (w.thread t).context
  frame : frame' = restoreContext frame (w.thread w.selected).context
  locked : w'.locked = w.locked
  timerTicks : w'.timerTicks = w.timerTicks
  nextTid : w'.nextTid = w.nextTid
  destroyed : w'.destroyed = w.destroyed

theorem reschedule_switched (w : QSched) (c : Tid) (frame : Registers) (out : c ∉ w.queue)
    (idle : .idle ∉ w.queue) :
    Switched w c frame (w.reschedule c frame).1 (w.reschedule c frame).2 := by
  -- the thread that was running is not in the queue, so it is not selected
  have other : c ≠ .idle → w.selected ≠ c := fun busy => selected_ne busy out
  rw [reschedule_eq w c frame idle]
  obtain ⟨queue, core⟩ := switchOut_spec { w with queue := w.queue.erase w.selected } c frame
  generalize switchOut { w with queue := w.queue.erase w.selected } c frame = v at queue core ⊢
  have threads : ∀ t, v.thread t =
      if t = c ∧ c ≠ .idle then w.left c frame (w.thread t) else w.thread t := by
    intro t
    rw [core]
    by_cases idle : c = .idle
    · simp [idle]
    · by_cases same : t = c
      · subst same
        simp [idle]
        rfl
      · simp [idle, same, Core.setThread]
  obtain ⟨hframe, hthread, hcurrent, hlocked, hticks, hnext, hdestroyed⟩ :=
    switchIn_spec v.toCore w.selected frame
  have chosen : v.thread w.selected = w.thread w.selected := by
    rw [threads, if_neg]
    rintro ⟨same, busy⟩
    exact other busy same
  have rest : v.locked = w.locked ∧ v.timerTicks = w.timerTicks ∧ v.nextTid = w.nextTid ∧
      v.destroyed = w.destroyed := by
    rw [core]
    split <;> exact ⟨rfl, rfl, rfl, rfl⟩
  -- both halves of the switch together, thread by thread
  have after : ∀ t, (Core.switchIn v.toCore w.selected frame).2.thread t =
      if t = w.selected then
        { w.thread t with state := .running, quantum := schedulerQuantum }
      else if t = c ∧ c ≠ .idle then w.left c frame (w.thread t) else w.thread t := by
    intro t
    rw [hthread]
    by_cases sel : t = w.selected
    · subst sel
      simp [chosen]
    · simp [sel, threads]
  constructor
  case current => exact hcurrent
  case queue => exact queue
  case frame => rw [hframe, chosen]
  case locked => exact hlocked.trans rest.1
  case timerTicks => exact hticks.trans rest.2.1
  case nextTid => exact hnext.trans rest.2.2.1
  case destroyed => exact hdestroyed.trans rest.2.2.2
  all_goals
    intro t
    rw [after]
    by_cases sel : t = w.selected
    · have apart : ¬ (t = c ∧ c ≠ .idle) := fun both => other both.2 (sel.symm.trans both.1)
      simp only [sel, if_true, true_or]
      try exact (if_neg (sel ▸ apart)).symm
    · by_cases mine : t = c ∧ c ≠ .idle
      · obtain ⟨rfl, busy⟩ := mine
        simp [sel, busy, left]
      · have quiet : ¬ (t = c ∧ w.Preempted c) := fun both => mine ⟨both.1, both.2.1⟩
        simp [sel, mine, quiet]

/-- The invariant of the list-level scheduler, given which threads were added and which
of them called `thread_exit`. -/
structure WF (v : QSched) (added exited : List Tid) : Prop where
  distinct : v.queue.Nodup
  current : ∃ c, v.current = some c ∧ c ∉ v.queue ∧ (c = .idle ∨ c ∈ added)
  queued : ∀ t ∈ v.queue, t ∈ added
  waiting : ∀ t ∈ v.queue, (v.thread t).state = .ready ∨ (v.thread t).state = .blocked
  made : ∀ t ∈ added, t.created v.nextTid
  once : added.Nodup
  gone : ∀ t ∈ exited, t ∈ added
  placed : ∀ t ∈ added, t ∉ exited → v.current = some t ∨ t ∈ v.queue
  dead : ∀ t ∈ added, (v.thread t).state = .dead ↔ t ∈ exited
  fresh : ∀ t, t.created v.nextTid → t ∉ added → (v.thread t).state = .ready
  idle : (v.thread .idle).state = .ready ∨ (v.thread .idle).state = .running
  kept : v.destroyed = []

variable {v w : QSched} {added exited : List Tid} {c : Tid} {frame frame' : Registers}

theorem WF.idle_notMem (wf : WF v added exited) : .idle ∉ v.queue := fun member =>
  wf.made _ (wf.queued _ member)

theorem WF.away (wf : WF v added exited) (hc : v.current = some c) : c ∉ v.queue := by
  obtain ⟨d, hd, out, _⟩ := wf.current
  obtain rfl := Option.some.inj (hc.symm.trans hd)
  exact out

/-- The current thread is the idle thread or one that was added. -/
theorem WF.owner (wf : WF v added exited) (hc : v.current = some c) : c = .idle ∨ c ∈ added := by
  obtain ⟨d, hd, _, owner⟩ := wf.current
  obtain rfl := Option.some.inj (hc.symm.trans hd)
  exact owner

theorem Tid.created_mem_range {n : Nat} {t : Tid} (h : t.created n) :
    t ∈ (List.range n).map Tid.thread := by
  cases t with
  | idle => exact h.elim
  | thread i => exact List.mem_map.mpr ⟨i, List.mem_range.mpr h, rfl⟩

theorem WF.fits (wf : WF v added exited) : v.queue.length ≤ v.nextTid := by
  have inside : v.queue ⊆ (List.range v.nextTid).map Tid.thread := fun t member =>
    Tid.created_mem_range (wf.made t (wf.queued t member))
  have shorter := List.Nodup.length_le_of_subset wf.distinct inside
  simpa using shorter

/-- What a tick makes of a thread before it decides about a switch. -/
structure Accounted (v : QSched) (c : Tid) (w : QSched) : Prop where
  queue : w.queue = v.queue
  current : w.current = v.current
  locked : w.locked = v.locked
  timerTicks : w.timerTicks = v.timerTicks
  nextTid : w.nextTid = v.nextTid
  destroyed : w.destroyed = v.destroyed
  state : ∀ t, (w.thread t).state =
    if t ∈ v.queue ∧ (v.thread t).state = .blocked ∧ (v.thread t).wakeTick ≤ v.timerTicks
    then .ready else (v.thread t).state
  wakeTick : ∀ t, (w.thread t).wakeTick = (v.thread t).wakeTick
  quantum : ∀ t, (w.thread t).quantum =
    if t = c then (v.thread t).quantum - 1 else (v.thread t).quantum
  context : ∀ t, (w.thread t).context = (v.thread t).context

theorem account_accounted (c : Tid) (waiting : ∀ t ∈ v.queue, (v.thread t).state ≠ .dead) :
    Accounted v c (v.account c) := by
  -- nothing in the queue is dead, so the reaper does nothing
  have alive : ∀ t ∈ v.queue, isDead v.wake.toCore t = false := by
    intro t member
    have state := waiting t member
    simp only [isDead, wake, Core.wakeAll, member, if_true, Thread.wokenAt]
    split <;> simp_all
  have reaped : v.wake.reap = v.wake := by
    have none : v.queue.filter (isDead v.wake.toCore) = [] :=
      List.filter_eq_nil_iff.mpr fun t member => by simp [alive t member]
    have all : v.queue.filter (fun t => !isDead v.wake.toCore t) = v.queue :=
      List.filter_eq_self.mpr fun t member => by simp [alive t member]
    change QSched.mk (v.wake.toCore.destroyAll (v.queue.filter (isDead v.wake.toCore)))
      (v.queue.filter fun t => !isDead v.wake.toCore t) = v.wake
    rw [none, all]
    rfl
  have threads : ∀ t, ((v.account c).thread t) =
      let th := if t ∈ v.queue then (v.thread t).wokenAt v.timerTicks else v.thread t
      if t = c then { th with quantum := th.quantum - 1 } else th := by
    intro t
    rw [account, Core.chargeQuantum_eq, reaped]
    by_cases same : t = c
    · subst same
      simp [wake, Core.wakeAll]
    · simp [same, Core.setThread, wake, Core.wakeAll]
  have rest : (v.account c) = { v.wake with toCore := v.wake.chargeQuantum c } := by
    rw [account, reaped]
  rw [Core.chargeQuantum_eq] at rest
  constructor
  case queue => rw [rest]; rfl
  case current => rw [rest]; rfl
  case locked => rw [rest]; rfl
  case timerTicks => rw [rest]; rfl
  case nextTid => rw [rest]; rfl
  case destroyed => rw [rest]; rfl
  all_goals
    intro t
    rw [threads]
    by_cases same : t = c
    · subst same
      by_cases member : t ∈ v.queue <;> simp [member, Thread.wokenAt_state]
    · by_cases member : t ∈ v.queue <;> simp [member, same, Thread.wokenAt_state]

theorem WF.account_accounted (wf : WF v added exited) (c : Tid) :
    Accounted v c (v.account c) := by
  refine QSched.account_accounted c fun t member => ?_
  rcases wf.waiting t member with state | state <;> simp [state]

/-- The three things a tick can do. -/
theorem WF.tick_cases (wf : WF v added exited) (hc : v.current = some c) :
    (v.locked = true ∧ v.tick frame = (frame, v)) ∨
    (v.locked = false ∧ 1 < (v.thread c).quantum ∧ v.tick frame = (frame, v.account c)) ∨
    (v.locked = false ∧ (v.thread c).quantum ≤ 1 ∧
      Switched (v.account c) c frame (v.tick frame).1 (v.tick frame).2) := by
  have charged := (wf.account_accounted c).quantum c
  have queue := (wf.account_accounted c).queue
  rw [if_pos rfl] at charged
  unfold tick
  rw [hc]
  cases v.locked with
  | true => exact Or.inl ⟨rfl, rfl⟩
  | false =>
    right
    by_cases more : 0 < ((v.account c).thread c).quantum
    · left
      exact ⟨rfl, by omega, by simp [more]⟩
    · right
      simp only [Bool.false_eq_true, if_false, more]
      refine ⟨trivial, by omega, reschedule_switched _ c frame ?_ ?_⟩
      · rw [queue]
        exact wf.away hc
      · rw [queue]
        exact wf.idle_notMem

theorem Accounted.wf (acc : Accounted v c w) (wf : WF v added exited) : WF w added exited := by
  have state := acc.state
  -- only threads of the queue are woken
  have same : ∀ t, t ∉ v.queue → (w.thread t).state = (v.thread t).state := fun t out => by
    rw [state, if_neg fun h => out h.1]
  constructor
  case distinct => rw [acc.queue]; exact wf.distinct
  case current => rw [acc.queue, acc.current]; exact wf.current
  case queued => rw [acc.queue]; exact wf.queued
  case waiting =>
    rw [acc.queue]
    intro t member
    rw [state]
    split
    · exact Or.inl rfl
    · exact wf.waiting t member
  case made => rw [acc.nextTid]; exact wf.made
  case once => exact wf.once
  case gone => exact wf.gone
  case placed => rw [acc.queue, acc.current]; exact wf.placed
  case dead =>
    intro t member
    rw [← wf.dead t member, state]
    split
    next woke => simp [woke.2.1]
    · rfl
  case fresh =>
    rw [acc.nextTid]
    intro t made out
    rw [same t fun member => out (wf.queued t member)]
    exact wf.fresh t made out
  case idle => rw [same _ wf.idle_notMem]; exact wf.idle
  case kept => rw [acc.destroyed]; exact wf.kept

theorem Switched.wf (sw : Switched w c frame frame' v) (wf : WF w added exited)
    (hc : w.current = some c) : WF v added exited := by
  have out := wf.away hc
  have owner := wf.owner hc
  have chosen := w.selected_cases
  have known := w.selected_known
  have away : w.Requeued c → c ≠ w.selected := fun requeued => (selected_ne requeued.1 out).symm
  -- the queue behind the switch
  have members : ∀ t, t ∈ v.queue ↔ (t = c ∧ w.Requeued c) ∨ (t ∈ w.queue ∧ t ≠ w.selected) := by
    intro t
    rw [sw.queue, List.mem_append, wf.distinct.mem_erase_iff, and_comm (a := t ≠ w.selected)]
    split <;> simp_all
  constructor
  case distinct =>
    rw [sw.queue]
    split
    · refine List.nodup_cons.mpr ⟨fun member => out (List.mem_of_mem_erase member), ?_⟩
      exact wf.distinct.erase _
    · exact wf.distinct.erase _
  case current =>
    refine ⟨w.selected, sw.current, ?_, ?_⟩
    · rw [members]
      rintro (⟨same, requeued⟩ | ⟨_, differ⟩)
      · exact away requeued same.symm
      · exact differ rfl
    · exact known.imp id (wf.queued _)
  case queued =>
    intro t member
    rcases (members t).mp member with ⟨rfl, requeued⟩ | ⟨member, _⟩
    · exact owner.resolve_left requeued.1
    · exact wf.queued t member
  case waiting =>
    intro t member
    rw [sw.state]
    rcases (members t).mp member with ⟨rfl, requeued⟩ | ⟨member, differ⟩
    · rw [if_neg (away requeued)]
      cases state : (w.thread t).state with
      | ready => simp
      | running => simp [Preempted, state, requeued.1]
      | blocked => simp [Preempted, state]
      | dead => exact absurd state requeued.2
    · have other : t ≠ c := fun same => out (same ▸ member)
      simpa [differ, other] using wf.waiting t member
  case made => rw [sw.nextTid]; exact wf.made
  case once => exact wf.once
  case gone => exact wf.gone
  case placed =>
    intro t member alive
    rw [sw.current, members]
    by_cases sel : t = w.selected
    · exact Or.inl (sel ▸ rfl)
    · right
      rcases wf.placed t member alive with current | queued
      · left
        obtain rfl := Option.some.inj (hc.symm.trans current)
        have busy : c ≠ .idle := by
          rintro rfl
          exact wf.made _ member
        exact ⟨rfl, busy, fun dead => alive ((wf.dead c member).mp dead)⟩
      · exact Or.inr ⟨queued, sel⟩
  case dead =>
    intro t member
    rw [← wf.dead t member, sw.state]
    split
    next sel =>
      have busy : w.selected ≠ .idle := by
        rintro idle
        exact wf.made _ (idle ▸ sel ▸ member)
      have ready := (chosen.resolve_left fun h => busy h.1).2
      simp [sel, ready]
    · split
      next preempted => simp [preempted.1, preempted.2.2]
      · rfl
  case fresh =>
    rw [sw.nextTid]
    intro t made new
    have differ : t ≠ w.selected := by
      rintro rfl
      rcases known with idle | queued
      · rw [idle] at made
        exact made
      · exact new (wf.queued _ queued)
    have other : t ≠ c := by
      rintro rfl
      rcases owner with rfl | added
      · exact made
      · exact new added
    simpa [sw.state, differ, other] using wf.fresh t made new
  case idle =>
    have quiet : ¬ (Tid.idle = c ∧ w.Preempted c) := fun ⟨same, preempted⟩ =>
      preempted.1 same.symm
    rw [sw.state, if_neg quiet]
    split
    · exact Or.inr rfl
    · exact wf.idle
  case kept => rw [sw.destroyed]; exact wf.kept

theorem WF.tick (wf : WF v added exited) : WF (v.tick frame).2 added exited := by
  obtain ⟨c, hc, _, _⟩ := wf.current
  have acc := wf.account_accounted c
  rcases wf.tick_cases hc with ⟨_, same⟩ | ⟨_, _, stays⟩ | ⟨_, _, switched⟩
  · rw [same]
    exact wf
  · rw [stays]
    exact acc.wf wf
  · exact switched.wf (acc.wf wf) (acc.current.trans hc)

/-- `timer_ticks++` -/
def clock (v : QSched) : QSched := { v with timerTicks := v.timerTicks + 1 }

/-- A vector-32 interrupt: `isr_handler` counts it and calls the tick. -/
def interrupt (regs : Registers) (v : QSched) : Registers × QSched :=
  v.clock.tick (irqFrame regs)

theorem WF.clock (wf : WF v added exited) : WF v.clock added exited := { wf with }

/-- An interrupt that changes the current thread is a switch. -/
theorem WF.interrupt_cases (wf : WF v added exited) (hc : v.current = some c)
    (regs : Registers) :
    (v.locked = true ∧ v.interrupt regs =
      (irqFrame regs, v.clock)) ∨
    (v.locked = false ∧ 1 < (v.thread c).quantum ∧ v.interrupt regs =
      (irqFrame regs, v.clock.account c)) ∨
    (v.locked = false ∧ (v.thread c).quantum ≤ 1 ∧
      Switched (v.clock.account c) c (irqFrame regs)
        (v.interrupt regs).1 (v.interrupt regs).2) :=
  wf.clock.tick_cases hc

end QSched

open QSched in
theorem vector32_refines {s : Sched} {v : QSched} {added exited : List Tid} (regs : Registers)
    (rep : Represents s v) (wf : WF v added exited) :
    ∃ s', vector32 regs s = some ((v.interrupt regs).1, s') ∧
      Represents s' (v.interrupt regs).2 := by
  obtain ⟨c, hc, _⟩ := wf.current
  have current : s.current = some c := by rw [rep.core]; exact hc
  have counted : Represents (s.setCore { s.toCore with timerTicks := s.timerTicks + 1 })
      { v with timerTicks := v.timerTicks + 1 } := ⟨by simp [rep.core], rep.chain⟩
  obtain ⟨s', run, rep'⟩ := schedulerTickIrq_refines
    (irqFrame regs) counted wf.fits fun _ => wf.away
  refine ⟨s', ?_, rep'⟩
  have vector : (irqFrame regs).vector = 32 := rfl
  simpa [vector32, isrHandler, vector, current, QSched.interrupt, QSched.clock] using run

namespace Machine

/-- The machine's scheduler with its run queue `q` as a list. -/
def view (m : Machine) (q : List Tid) : QSched := ⟨m.sched.toCore, q⟩

@[simp] theorem view_toCore (m : Machine) (q : List Tid) : (m.view q).toCore = m.sched.toCore := rfl
@[simp] theorem view_queue (m : Machine) (q : List Tid) : (m.view q).queue = q := rfl

structure Inv (m : Machine) (q : List Tid) : Prop where
  chain : Chain m.sched.next m.sched.runQueue q
  wf : (m.view q).WF m.added m.exited
  halted : ∀ t ∈ m.exited, Micro.halt ∈ m.pending t

/-- What one step does to the machine `m` whose scheduler is `v`. -/
inductive Effect (m : Machine) (v : QSched) : Event → Machine → QSched → Prop
  | timer (regs : Registers) (s : Sched) : Effect m v (.timer regs)
      { m with frame := (v.interrupt regs).1, sched := s, hwTimer := m.hwTimer + 1 }
      (v.interrupt regs).2
  | raise (regs : Registers) (t : Tid) (rest : List Micro) (s : Sched) :
      v.current = some t → m.pending t = .raise :: rest → Effect m v (.resume regs)
      { m.setPending t rest with frame := (v.interrupt regs).1, sched := s }
      (v.interrupt regs).2
  | drop (regs : Registers) (t : Tid) (rest : List Micro) (s : Sched) :
      v.current = some t → m.pending t = .dropQuantum :: rest → Effect m v (.resume regs)
      { m.setPending t rest with sched := s }
      { v with toCore := v.setThread t fun th => { th with quantum := 0 } }
  | halt (regs : Registers) (t : Tid) (rest : List Micro) :
      v.current = some t → m.pending t = .halt :: rest → Effect m v (.resume regs) m v
  | yield (t : Tid) : v.current = some t → m.pending t = [] → t ≠ .idle →
      Effect m v (.call .yield) (m.setPending t [.dropQuantum, .raise]) v
  | sleep (ms : UInt64) (t : Tid) (s : Sched) :
      v.current = some t → m.pending t = [] → t ≠ .idle → Effect m v (.call (.sleep ms))
      { m.setPending t [.dropQuantum, .raise] with sched := s }
      { v with toCore := v.setThread t fun th =>
        { th with state := .blocked, wakeTick := v.timerTicks + ms } }
  | exit (t : Tid) (s : Sched) :
      v.current = some t → m.pending t = [] → t ≠ .idle → Effect m v (.call .exit)
      { m.setPending t [.dropQuantum, .raise, .halt] with sched := s, exited := t :: m.exited }
      { v with toCore := v.setThread t fun th => { th with state := .dead } }
  | create (proc entry : UInt64) (object : Bool) (stack : Option UInt64) (s : Sched) :
      Effect m v (.call (.create proc entry object stack)) { m with sched := s }
      { v with toCore := (v.threadCreate proc entry object stack).2 }
  | add (u : Tid) (s : Sched) : u.created v.nextTid → u ∉ m.added → Effect m v (.call (.add u))
      { m with sched := s, added := u :: m.added } { v with queue := u :: v.queue }
  | lock (s : Sched) : Effect m v (.call .lock) { m with sched := s } { v with locked := true }
  | unlock (s : Sched) :
      Effect m v (.call .unlock) { m with sched := s } { v with locked := false }

variable {m m' : Machine} {q : List Tid} {e : Event} {v : QSched}

theorem Inv.represents (inv : Inv m q) : Represents m.sched (m.view q) := ⟨rfl, inv.chain⟩

theorem enter_effect (inv : Inv m q) {t : Tid} {c : Call} (hc : m.sched.current = some t)
    (free : m.pending t = []) (h : m.enter t c = some m') :
    ∃ v', Effect m (m.view q) (.call c) m' v' ∧ Represents m'.sched v' := by
  have view : (m.view q).current = some t := hc
  cases c with
  | yield =>
    simp only [enter] at h
    split at h
    · cases h
    next busy =>
      cases h
      exact ⟨_, .yield t view free busy, inv.represents⟩
  | sleep ms =>
    simp only [enter] at h
    split at h
    · cases h
    next busy =>
      cases h
      refine ⟨_, .sleep ms t _ view free busy, ?_, ?_⟩
      · simp [markBlocked, hc]
      · simpa [markBlocked, hc] using inv.chain
  | exit =>
    simp only [enter] at h
    split at h
    · cases h
    next busy =>
      cases h
      refine ⟨_, .exit t _ view free busy, ?_, ?_⟩
      · simp [markDead, hc]
      · simpa [markDead, hc] using inv.chain
  | create proc entry object stack =>
    cases h
    exact ⟨_, .create proc entry object stack _, rfl, inv.chain⟩
  | add u =>
    simp only [enter] at h
    split at h
    next legal =>
      cases h
      -- the new thread goes to the head of the queue
      refine ⟨_, .add u _ legal.1 legal.2, rfl, inv.chain.push fun member => ?_⟩
      exact legal.2 (inv.wf.queued u member)
    · cases h
  | lock =>
    cases h
    exact ⟨_, .lock _, rfl, inv.chain⟩
  | unlock =>
    cases h
    exact ⟨_, .unlock _, rfl, inv.chain⟩

/-- Every step has one of the effects, and the new links represent the new queue. -/
theorem step_effect (inv : Inv m q) (h : step m e = some m') :
    ∃ v', Effect m (m.view q) e m' v' ∧ Represents m'.sched v' := by
  cases e with
  | timer regs =>
    -- the timer interrupt, with the scheduler unlocked or not
    obtain ⟨s', run, rep⟩ := vector32_refines regs inv.represents inv.wf
    simp only [step, interrupt, run, Option.map_some, Option.some.injEq] at h
    subst h
    exact ⟨_, .timer regs s', rep⟩
  | call c =>
    simp only [step] at h
    split at h
    · cases h
    next t hc =>
      split at h
      next free => exact enter_effect inv hc free h
      · cases h
  | resume regs =>
    simp only [step] at h
    split at h
    · cases h
    next t hc =>
      split at h
      · cases h
      next rest todo =>
        cases h
        refine ⟨_, .drop regs t rest _ hc todo, ?_, ?_⟩
        · simp [dropQuantum, hc]
        · simpa [dropQuantum, hc] using inv.chain
      next rest todo =>
        obtain ⟨s', run, rep⟩ := vector32_refines regs inv.represents inv.wf
        simp only [interrupt, setPending, run, Option.map_some, Option.some.injEq] at h
        subst h
        exact ⟨_, .raise regs t rest s' hc todo, rep⟩
      next rest todo =>
        cases h
        exact ⟨_, .halt regs t rest hc todo, inv.represents⟩

theorem interrupt_wf {added exited : List Tid} (regs : Registers) (wf : v.WF added exited) :
    (v.interrupt regs).2.WF added exited := wf.clock.tick

/-- The invariant only looks at the states of threads. -/
theorem setThread_wf {added exited : List Tid} {t : Tid} {f : Thread → Thread}
    (wf : v.WF added exited) (same : ∀ th, (f th).state = th.state) :
    QSched.WF { v with toCore := v.setThread t f } added exited := by
  have state : ∀ u, ((v.setThread t f).thread u).state = (v.thread u).state := by
    intro u
    by_cases here : u = t
    · subst here
      simp [same]
    · rw [Core.setThread_other _ _ _ _ here]
  refine { wf with waiting := ?_, dead := ?_, fresh := ?_, idle := ?_ }
  · simpa only [state] using wf.waiting
  · simpa only [state] using wf.dead
  · simpa only [state, Core.setThread_nextTid] using wf.fresh
  · simpa only [state] using wf.idle

/-- The current thread, not idle, marks itself `BLOCKED`. -/
theorem block_wf {added exited : List Tid} {t : Tid} {f : Thread → Thread}
    (wf : v.WF added exited) (hc : v.current = some t) (busy : t ≠ .idle) (alive : t ∉ exited)
    (blocks : ∀ th, (f th).state = .blocked) :
    QSched.WF { v with toCore := v.setThread t f } added exited := by
  have other : ∀ u, u ≠ t → ((v.setThread t f).thread u) = v.thread u := fun u differ =>
    Core.setThread_other _ _ _ _ differ
  have out := wf.away hc
  refine { wf with waiting := ?_, dead := ?_, fresh := ?_, idle := ?_ }
  · intro u member
    rw [other u (ne_of_mem_of_not_mem member out)]
    exact wf.waiting u member
  · intro u member
    by_cases here : u = t
    · subst here
      simp [blocks, alive]
    · rw [other u here]
      exact wf.dead u member
  · intro u made new
    have differ : u ≠ t := by
      rintro rfl
      exact (wf.owner hc).elim busy new
    rw [other u differ]
    exact wf.fresh u made new
  · rw [other _ busy.symm]
    exact wf.idle

/-- The current thread, not idle, marks itself `DEAD`. -/
theorem die_wf {added exited : List Tid} {t : Tid}
    (wf : v.WF added exited) (hc : v.current = some t) (busy : t ≠ .idle) :
    QSched.WF { v with toCore := v.setThread t fun th => { th with state := .dead } }
      added (t :: exited) := by
  -- only the state of `t` changes
  have other : ∀ u, u ≠ t →
      ((v.setThread t fun th => { th with state := .dead }).thread u) = v.thread u :=
    fun u differ => Core.setThread_other _ _ _ _ differ
  have out := wf.away hc
  refine { wf with waiting := ?_, gone := ?_, placed := ?_, dead := ?_, fresh := ?_, idle := ?_ }
  · intro u member
    rw [other u (ne_of_mem_of_not_mem member out)]
    exact wf.waiting u member
  · intro u dead
    rcases List.mem_cons.mp dead with rfl | old
    · exact (wf.owner hc).resolve_left busy
    · exact wf.gone u old
  · intro u member alive
    exact wf.placed u member fun dead => alive (List.mem_cons_of_mem t dead)
  · intro u member
    by_cases here : u = t
    · subst here
      simp
    · rw [other u here, wf.dead u member]
      simp [here]
  · intro u made new
    have differ : u ≠ t := by
      rintro rfl
      exact (wf.owner hc).elim busy new
    rw [other u differ]
    exact wf.fresh u made new
  · rw [other _ busy.symm]
    exact wf.idle

theorem created_succ {n : Nat} {t : Tid} : t.created (n + 1) ↔ t.created n ∨ t = .thread n := by
  cases t with
  | idle => simp [Tid.created]
  | thread i =>
    simp only [Tid.created, Tid.thread.injEq]
    omega

theorem create_wf {added exited : List Tid} (wf : v.WF added exited)
    (proc entry : UInt64) (object : Bool) (stack : Option UInt64) :
    QSched.WF { v with toCore := (v.threadCreate proc entry object stack).2 } added exited := by
  cases object with
  | false => exact wf
  | true =>
    cases stack with
    | none => exact wf
    | some stack =>
      -- the new thread has an id that no thread has had
      have new : Tid.thread v.nextTid ∉ added := fun member =>
        Nat.lt_irrefl _ (wf.made _ member)
      have other : ∀ u, u ≠ .thread v.nextTid →
          (v.threadCreate proc entry true (some stack)).2.thread u = v.thread u :=
        fun u differ => by simp [Core.threadCreate, Core.setThread_other, differ]
      have added_other : ∀ u ∈ added, u ≠ .thread v.nextTid := fun u member =>
        ne_of_mem_of_not_mem member new
      refine { wf with waiting := ?_, made := ?_, dead := ?_, fresh := ?_, idle := ?_ }
      · intro u member
        rw [other u (added_other u (wf.queued u member))]
        exact wf.waiting u member
      · exact fun u member => created_succ.mpr (Or.inl (wf.made u member))
      · intro u member
        rw [other u (added_other u member)]
        exact wf.dead u member
      · intro u made out
        rcases created_succ.mp made with old | rfl
        · rw [other u]
          · exact wf.fresh u old out
          · rintro rfl
            exact Nat.lt_irrefl _ old
        · simp [Core.threadCreate]
      · rw [other .idle (by simp)]
        exact wf.idle

theorem add_wf {added exited : List Tid} {u : Tid} (wf : v.WF added exited) (made : u.created v.nextTid) (new : u ∉ added) :
    QSched.WF { v with queue := u :: v.queue } (u :: added) exited := by
  -- a thread is added once, so it is not in the queue yet
  have out : u ∉ v.queue := fun member => new (wf.queued u member)
  have ready := wf.fresh u made new
  have alive : u ∉ exited := fun dead => new (wf.gone u dead)
  refine { wf with
    distinct := List.nodup_cons.mpr ⟨out, wf.distinct⟩
    current := ?_, queued := ?_, waiting := ?_, made := ?_
    once := List.nodup_cons.mpr ⟨new, wf.once⟩
    gone := fun t dead => List.mem_cons_of_mem u (wf.gone t dead)
    placed := ?_, dead := ?_, fresh := ?_ }
  · obtain ⟨c, hc, away, owner⟩ := wf.current
    refine ⟨c, hc, fun member => ?_, owner.imp id (List.mem_cons_of_mem u)⟩
    rcases List.mem_cons.mp member with rfl | old
    · exact owner.elim (fun idle => by subst idle; exact made) new
    · exact away old
  · exact fun t member => (List.mem_cons.mp member).elim (fun same => same ▸ List.mem_cons_self)
      fun old => List.mem_cons_of_mem u (wf.queued t old)
  · intro t member
    rcases List.mem_cons.mp member with rfl | old
    · exact Or.inl ready
    · exact wf.waiting t old
  · intro t member
    rcases List.mem_cons.mp member with rfl | old
    · exact made
    · exact wf.made t old
  · intro t member living
    rcases List.mem_cons.mp member with rfl | old
    · exact Or.inr List.mem_cons_self
    · exact (wf.placed t old living).imp id (List.mem_cons_of_mem u)
  · intro t member
    rcases List.mem_cons.mp member with rfl | old
    · simp [ready, alive]
    · exact wf.dead t old
  · exact fun t made' out' => wf.fresh t made' fun old => out' (List.mem_cons_of_mem u old)

/-- A thread between two calls has not called `thread_exit`. -/
theorem alive_of_free (halted : ∀ t ∈ m.exited, Micro.halt ∈ m.pending t) (t : Tid)
    (free : m.pending t = []) : t ∉ m.exited := by
  intro dead
  have pending := halted t dead
  simp [free] at pending

/-- The invariant is preserved by what a step does. -/
theorem Effect.wf {v' : QSched} (eff : Effect m v e m' v') (wf : v.WF m.added m.exited)
    (halted : ∀ t ∈ m.exited, Micro.halt ∈ m.pending t) : v'.WF m'.added m'.exited := by
  have alive := alive_of_free halted
  cases eff with
  | timer regs s => exact interrupt_wf regs wf
  | raise regs t rest s hc todo => exact interrupt_wf regs wf
  | drop regs t rest s hc todo => exact setThread_wf wf fun _ => rfl
  | halt regs t rest hc todo => exact wf
  | yield t hc free busy => exact wf
  | sleep ms t s hc free busy => exact block_wf wf hc busy (alive t free) fun _ => rfl
  | exit t s hc free busy => exact die_wf wf hc busy
  | create proc entry object stack s => exact create_wf wf proc entry object stack
  | add u s made new => exact add_wf wf made new
  | lock s => exact { wf with }
  | unlock s => exact { wf with }

theorem Effect.halted {v' : QSched} (eff : Effect m v e m' v')
    (halted : ∀ t ∈ m.exited, Micro.halt ∈ m.pending t) :
    ∀ t ∈ m'.exited, Micro.halt ∈ m'.pending t := by
  have alive := alive_of_free halted
  -- the pending list of a thread that continues loses an operation other than `halt`
  have continued : ∀ (t : Tid) (op : Micro) (rest : List Micro), m.pending t = op :: rest →
      op ≠ .halt → ∀ u ∈ m.exited, Micro.halt ∈ Function.update m.pending t rest u := by
    intro t op rest todo other u dead
    by_cases same : u = t
    · subst same
      have pending := halted u dead
      rw [todo, List.mem_cons] at pending
      rw [Function.update_self]
      exact pending.resolve_left other.symm
    · rw [Function.update_of_ne same]
      exact halted u dead
  have entered : ∀ (t : Tid) (todo : List Micro), m.pending t = [] →
      ∀ u ∈ m.exited, Micro.halt ∈ Function.update m.pending t todo u := by
    intro t todo free u dead
    have differ : u ≠ t := ne_of_mem_of_not_mem dead (alive t free)
    rw [Function.update_of_ne differ]
    exact halted u dead
  cases eff with
  | timer regs s => exact halted
  | raise regs t rest s hc todo => exact continued t _ rest todo (by simp)
  | drop regs t rest s hc todo => exact continued t _ rest todo (by simp)
  | halt regs t rest hc todo => exact halted
  | yield t hc free busy => exact entered t _ free
  | sleep ms t s hc free busy => exact entered t _ free
  | exit t s hc free busy =>
    intro u dead
    rcases List.mem_cons.mp dead with rfl | old
    · simp [setPending]
    · exact entered t _ free u old
  | create proc entry object stack s => exact halted
  | add u s made new => exact halted
  | lock s => exact halted
  | unlock s => exact halted

/-- Only a switch changes the current thread. -/
theorem Effect.switch {v' : QSched} (eff : Effect m v e m' v') (wf : v.WF m.added m.exited)
    (changed : v'.current ≠ v.current) :
    ∃ regs c, (e = .timer regs ∨ e = .resume regs) ∧ v.current = some c ∧ v.locked = false ∧
      (v.thread c).quantum ≤ 1 ∧
      QSched.Switched (v.clock.account c) c (irqFrame regs)
        m'.frame v' := by
  obtain ⟨c, hc, _⟩ := wf.current
  have interrupted : ∀ regs, (v.interrupt regs).2.current ≠ v.current →
      v.locked = false ∧ (v.thread c).quantum ≤ 1 ∧
      QSched.Switched (v.clock.account c) c (irqFrame regs)
        (v.interrupt regs).1 (v.interrupt regs).2 := by
    intro regs differ
    rcases wf.interrupt_cases hc regs with ⟨_, same⟩ | ⟨_, _, same⟩ | switched
    · exact absurd (by rw [same]; rfl) differ
    · exact absurd (by rw [same]; exact (wf.clock.account_accounted c).current) differ
    · exact switched
  cases eff with
  | timer regs s => exact ⟨regs, c, Or.inl rfl, hc, interrupted regs changed⟩
  | raise regs t rest s _ todo => exact ⟨regs, c, Or.inr rfl, hc, interrupted regs changed⟩
  | create proc entry object stack s =>
    cases object with
    | false => exact absurd rfl changed
    | true => cases stack <;> exact absurd rfl changed
  | _ => exact absurd rfl changed

theorem Inv.step (inv : Inv m q) (h : step m e = some m') :
    ∃ q', Effect m (m.view q) e m' (m'.view q') ∧ Inv m' q' := by
  obtain ⟨v', eff, rep⟩ := step_effect inv h
  have wf := eff.wf inv.wf inv.halted
  have view : v' = m'.view v'.queue := rep.eq
  rw [view] at eff wf
  exact ⟨v'.queue, eff, rep.chain, wf, eff.halted inv.halted⟩

theorem Booted.inv (h : Booted m) : Inv m [] := by
  obtain ⟨idleFn, rsp, s, empty, _, _, none, kept, sched, _, added, exited⟩ := h
  have core : m.sched.nextTid = 0 ∧ m.sched.destroyed = [] ∧ m.sched.current = some .idle ∧
      (m.sched.thread .idle).state = .ready := by
    rw [sched]
    simp [schedulerInit, none, kept]
  refine ⟨?_, ?_, ?_⟩
  · rw [sched]
    simpa [schedulerInit, Sched.setNext] using empty
  · rw [added, exited]
    constructor
    case current => exact ⟨.idle, core.2.2.1, by simp, Or.inl rfl⟩
    case fresh =>
      intro t made
      rw [view_toCore, core.1] at made
      cases t with
      | idle => exact made.elim
      | thread n => exact absurd made (Nat.not_lt_zero n)
    case idle => exact Or.inl core.2.2.2
    case kept => exact core.2.1
    all_goals simp
  · simp [exited]

/-- The invariant holds in every state that a run reaches. -/
theorem Runs.inv {h : List (Entry Machine Event)} (run : Runs h m) : ∃ q, Inv m q :=
  Run.invariant (P := fun m => ∃ q, Inv m q) (fun _ booted => ⟨[], booted.inv⟩)
    (fun _ _ _ ⟨_, inv⟩ taken => let ⟨q', _, inv'⟩ := inv.step taken; ⟨q', inv'⟩) run

end Machine

end DedOS
