import DedOS.Scheduler.Context

/-!
# When the idle thread runs

`scheduler_tick_irq` looks for a `READY` thread before it puts the current thread back
into the queue, and never looks again. `idle_last_iff`: the idle thread gets the CPU only
when nothing else can run exactly as long as the thread it gets the CPU from was idle,
asleep or dead.
-/

namespace DedOS

open Lib Machine

variable {h : List (Entry Machine Event)} {m m' : Machine} {q q' : List Tid} {e : Event}

/-- The tick reaches its dispatch and gives the CPU to the idle thread. -/
def SwitchesToIdle (e : Entry Machine Event) : Prop :=
  entersTick e.pre e.event ∧ EndsQuantum e.pre ∧ e.post.sched.current = some .idle

/-- No thread of `run_queue` is `READY`. -/
def NoneReady (m : Machine) : Prop :=
  ∃ q, Chain m.sched.next m.sched.runQueue q ∧ ∀ t ∈ q, (m.sched.thread t).state ≠ .ready

/-- Whenever the idle thread gets the CPU in the run, no queued thread could take it. -/
def IdleLast (h : List (Entry Machine Event)) : Prop :=
  ∀ e ∈ h, SwitchesToIdle e → NoneReady e.post

/-- The current thread cannot go on: it is the idle thread, or it sleeps, or it ended. -/
def GaveUp (m : Machine) : Prop :=
  ∃ c, m.sched.current = some c ∧
    (c = .idle ∨ (m.sched.thread c).state = .blocked ∨ (m.sched.thread c).state = .dead)

theorem noneReady_iff (inv : Inv m q) :
    NoneReady m ↔ ∀ t ∈ q, (m.sched.thread t).state ≠ .ready := by
  constructor
  · rintro ⟨q', chain, quiet⟩
    rw [inv.chain.unique chain]
    exact quiet
  · intro quiet
    exact ⟨q, inv.chain, quiet⟩

theorem gaveUp_iff {c : Tid} (hc : m.sched.current = some c) : GaveUp m ↔
    c = .idle ∨ (m.sched.thread c).state = .blocked ∨ (m.sched.thread c).state = .dead := by
  constructor
  · rintro ⟨d, hd, state⟩
    obtain rfl := Option.some.inj (hc.symm.trans hd)
    exact state
  · intro state
    exact ⟨c, hc, state⟩

namespace QSched

variable {w w' : QSched} {c : Tid} {frame frame' : Registers}

/-- After a switch to the idle thread only the thread that lost the CPU can be `READY`:
the selection loop has seen all the others. -/
theorem Switched.ready_iff (sw : Switched w c frame frame' w') (idle : w.selected = .idle)
    (unqueued : .idle ∉ w.queue) (t : Tid) :
    t ∈ w'.queue ∧ (w'.thread t).state = .ready ↔
      t = c ∧ w.Requeued c ∧ (w.Preempted c ∨ (w.thread c).state = .ready) := by
  -- the idle thread is selected when the search finds no READY thread
  have quiet : ∀ t ∈ w.queue, (w.thread t).state ≠ .ready := by
    rcases w.selected_cases with ⟨_, none⟩ | ⟨member, _⟩
    · exact none
    · exact absurd (idle ▸ member) unqueued
  -- the old current is the only thread that comes to the queue
  have members : t ∈ w'.queue ↔ (t = c ∧ w.Requeued c) ∨ t ∈ w.queue := by
    rw [sw.queue, idle, List.erase_of_not_mem unqueued]
    by_cases back : w.Requeued c <;> simp [back]
  rw [members, sw.state, idle]
  constructor
  · rintro ⟨⟨rfl, back⟩ | queued, ready⟩
    · rw [if_neg back.1] at ready
      by_cases cut : w.Preempted t
      · exact ⟨rfl, back, Or.inl cut⟩
      · rw [if_neg fun both => cut both.2] at ready
        exact ⟨rfl, back, Or.inr ready⟩
    · -- a queued thread was not ready, unless it is the one that was running
      have busy : t ≠ .idle := by
        rintro rfl
        exact unqueued queued
      rw [if_neg busy] at ready
      by_cases cut : t = c ∧ w.Preempted c
      · obtain ⟨rfl, cut⟩ := cut
        refine ⟨rfl, ⟨cut.1, ?_⟩, Or.inl cut⟩
        simp [cut.2]
      · rw [if_neg cut] at ready
        exact absurd ready (quiet t queued)
  · rintro ⟨rfl, back, able⟩
    refine ⟨Or.inl ⟨rfl, back⟩, ?_⟩
    rw [if_neg back.1]
    by_cases cut : w.Preempted t
    · rw [if_pos ⟨rfl, cut⟩]
    · rw [if_neg fun both => cut both.2]
      exact able.resolve_left cut

end QSched

/-- One tick that gives the CPU to the idle thread. -/
theorem idle_switch_iff (inv : Inv m q) (inv' : Inv m' q')
    (eff : Effect m (m.view q) e m' (m'.view q')) (given : SwitchesToIdle ⟨m, e, m'⟩) :
    NoneReady m' ↔ GaveUp m := by
  obtain ⟨enters, ⟨free, c, hc, spent⟩, toIdle⟩ := given
  obtain ⟨regs, tick⟩ : ∃ regs, e = .timer regs ∨ e = .resume regs := by
    cases e with
    | timer regs => exact ⟨regs, Or.inl rfl⟩
    | resume regs => exact ⟨regs, Or.inr rfl⟩
    | call c => exact enters.elim
  obtain ⟨frame, after⟩ := tick_interrupts eff enters tick
  have acc := inv.wf.clock.account_accounted c
  obtain sw : QSched.Switched ((m.view q).clock.account c) c (irqFrame regs)
      ((m.view q).interrupt regs).1 (m'.view q') := by
    rw [after]
    rcases inv.wf.interrupt_cases hc regs with ⟨held, _⟩ | ⟨_, more, _⟩ | ⟨_, _, sw⟩
    · exact absurd (held.symm.trans free) (by decide)
    · exact absurd spent (Nat.not_le.mpr more)
    · exact sw
  have chosen : ((m.view q).clock.account c).selected = .idle :=
    Option.some.inj (sw.current.symm.trans toIdle)
  have unqueued : Tid.idle ∉ ((m.view q).clock.account c).queue := by
    rw [acc.queue]
    exact inv.wf.idle_notMem
  -- the wake loop does not look at the current thread
  have state : (((m.view q).clock.account c).thread c).state = (m.sched.thread c).state := by
    rw [acc.state, if_neg fun woken => inv.wf.away hc woken.1]
    rfl
  have ready := fun t => sw.ready_iff chosen unqueued t
  rw [noneReady_iff inv', gaveUp_iff hc]
  simp only [QSched.Requeued, QSched.Preempted, state] at ready
  constructor
  · intro quiet
    by_contra able
    simp only [not_or] at able
    obtain ⟨busy, awake, alive⟩ := able
    have goesOn : (m.sched.thread c).state = .running ∨ (m.sched.thread c).state = .ready := by
      cases found : (m.sched.thread c).state with
      | ready => exact Or.inr rfl
      | running => exact Or.inl rfl
      | blocked => exact absurd found awake
      | dead => exact absurd found alive
    obtain ⟨queued, isReady⟩ := (ready c).mpr
      ⟨rfl, ⟨busy, alive⟩, goesOn.imp (fun running => ⟨busy, running⟩) id⟩
    exact quiet c queued isReady
  · intro stopped t queued isReady
    obtain ⟨rfl, ⟨busy, alive⟩, goesOn⟩ := (ready t).mp ⟨queued, isReady⟩
    rcases stopped with idle | asleep | dead
    · exact busy idle
    · rw [asleep] at goesOn
      rcases goesOn with ⟨_, running⟩ | ready
      · cases running
      · cases ready
    · exact alive dead

/-- The idle thread runs only when nothing else can, exactly in the runs in which it
never takes the CPU from a thread that could go on. -/
theorem idle_last_iff (run : Runs h m) :
    IdleLast h ↔ ∀ e ∈ h, SwitchesToIdle e → GaveUp e.pre := by
  have entry : ∀ e ∈ h, SwitchesToIdle e → (NoneReady e.post ↔ GaveUp e.pre) := by
    intro e member given
    obtain ⟨before, runBefore, taken⟩ := run.mem member
    obtain ⟨q, inv⟩ := Runs.inv runBefore
    obtain ⟨q', eff, inv'⟩ := inv.step taken
    exact idle_switch_iff inv inv' eff given
  constructor
  · intro last e member given
    exact (entry e member given).mp (last e member given)
  · intro stopped e member given
    exact (entry e member given).mpr (stopped e member given)

/-- One thread runs, sleeps, and the idle thread takes over. -/
theorem idle_last_iff_sleeper : ∃ h m, Runs h m ∧ m.sched.current = some .idle ∧
    (IdleLast h ↔ ∀ e ∈ h, SwitchesToIdle e → GaveUp e.pre) := by
  obtain ⟨h, m, run, ends⟩ := reaches (spawn 0 ++ timers 10 ++ sleeps 5)
    (fun r => r.2.sched.current = some .idle) (by decide +kernel)
  exact ⟨h, m, run, of_decide_eq_true ends, idle_last_iff run⟩

/-- The only thread of the system uses its quantum up: the tick finds the queue empty,
gives the CPU to the idle thread and leaves a `READY` thread in the queue. -/
theorem idle_while_ready : ∃ h m, Runs h m ∧ ¬ IdleLast h := by
  obtain ⟨h, m, run, ends⟩ := reaches (spawn 0 ++ timers 20)
    (fun r => r.1.head?.any fun e => e.event = .timer .zero && !e.pre.sched.locked &&
      e.pre.sched.current = some (.thread 0) &&
      (e.pre.sched.thread (.thread 0)).quantum ≤ 1 &&
      e.post.sched.current = some .idle && e.post.sched.runQueue = some (.thread 0) &&
      e.post.sched.next (.thread 0) = none &&
      (e.post.sched.thread (.thread 0)).state = .ready) (by decide +kernel)
  refine ⟨h, m, run, fun last => ?_⟩
  cases h with
  | nil => simp at ends
  | cons e before =>
    simp only [List.head?_cons, Option.any_some, Bool.and_eq_true, decide_eq_true_eq,
      Bool.not_eq_true', and_assoc] at ends
    obtain ⟨event, free, current, spent, idle, queue, alone, ready⟩ := ends
    obtain ⟨q, chain, quiet⟩ := last e (List.mem_cons_self ..)
      ⟨by rw [event]; trivial, ⟨free, _, current, spent⟩, idle⟩
    have only : Chain e.post.sched.next e.post.sched.runQueue [.thread 0] := by
      rw [queue, chain_cons]
      exact ⟨rfl, chain_nil.mpr alone⟩
    rw [chain.unique only] at quiet
    exact quiet _ (List.mem_singleton.mpr rfl) ready

end DedOS
