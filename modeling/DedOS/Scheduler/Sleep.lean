import DedOS.Scheduler.Context

/-!
# Sleeping threads and the two clocks

`timer_ticks` counts every entry of `isr_handler` through vector 32, the `int $0x20` of
`scheduler_yield` included, while `thread_sleep` takes it for a count of milliseconds.
`sleeper_never_early`: a sleeper is safe in every run in which the yields counted since its
call, and a wrapping `wake_tick`, do not make up for hardware interrupts that have not come.
-/

namespace DedOS

open Lib Machine

theorem entersTick_resume (m : Machine) (regs : Registers) :
    entersTick m (.resume regs) ↔
      (m.sched.current.bind fun t => (m.pending t).head?) = some .raise := by
  simp [entersTick, Option.bind_eq_some_iff, List.head?_eq_some_iff]

instance (m : Machine) : (e : Event) → Decidable (entersTick m e)
  | .timer _ => instDecidableTrue
  | .call _ => instDecidableFalse
  | .resume regs => decidable_of_iff _ (entersTick_resume m regs).symm

/-- The entries through vector 32, by the timer and by `int $0x20`. -/
def irqCount (h : List (Entry Machine Event)) : Nat :=
  h.countP fun e => entersTick e.pre e.event

/-- The hardware timer interrupts. -/
def hardwareCount (h : List (Entry Machine Event)) : Nat :=
  h.countP fun e => match e.event with
    | .timer _ => true
    | .call _ | .resume _ => false

/-- The call of `thread_sleep` that `e` is, with the scheduler unlocked: who and how long. -/
def sleepCall (e : Entry Machine Event) : Option (Tid × UInt64) :=
  match e.event, e.pre.sched.current with
  | .call (.sleep ms), some t => if e.pre.sched.locked then none else some (t, ms)
  | _, _ => none

/-- `d` does not give the CPU to a thread whose sleep `e` is not over. -/
def NotEarly (d : Entry Machine Event) (_ : List (Entry Machine Event))
    (e : Entry Machine Event) : Prop :=
  ∀ call ∈ sleepCall e, dispatches call.1 d → e.pre.hwTimer + call.2.toNat ≤ d.post.hwTimer

/-- A wake loop since the call of `thread_sleep(ms)` at `ticks` ran when the counter of
vector-32 entries, of both kinds, had reached the sum that the call computed. -/
def Reached (ticks ms : UInt64) : List (Entry Machine Event) → Prop
  | [] => False
  | d :: h => (entersTick d.pre d.event ∧ d.pre.sched.locked = false ∧
      ticks + ms ≤ ticks + UInt64.ofNat (irqCount (d :: h))) ∨ Reached ticks ms h

/-- `d` is no tick at the end of a quantum that finds the tick of the sleep `e` reached by
the counter of vector-32 entries, but not by the hardware timer. -/
def ClockHonest (d : Entry Machine Event) (mid : List (Entry Machine Event))
    (e : Entry Machine Event) : Prop :=
  ∀ call ∈ sleepCall e, entersTick d.pre d.event → EndsQuantum d.pre →
    Reached e.pre.sched.timerTicks call.2 (d :: mid) →
    call.2.toNat ≤ hardwareCount (d :: mid)

instance (m : Machine) : Decidable (EndsQuantum m) :=
  inferInstanceAs (Decidable (_ ∧ ∃ c, c ∈ m.sched.current ∧ _))

instance (t : Tid) (e : Entry Machine Event) : Decidable (dispatches t e) :=
  inferInstanceAs (Decidable (_ ∧ _))

instance (ticks ms : UInt64) : (h : List (Entry Machine Event)) → Decidable (Reached ticks ms h)
  | [] => instDecidableFalse
  | _ :: h =>
    have : Decidable (Reached ticks ms h) := instDecidableReached ticks ms h
    inferInstanceAs (Decidable (_ ∨ _))

instance (d : Entry Machine Event) (mid : List (Entry Machine Event))
    (e : Entry Machine Event) : Decidable (NotEarly d mid e) :=
  inferInstanceAs (Decidable (∀ call ∈ sleepCall e, _))

instance (d : Entry Machine Event) (mid : List (Entry Machine Event))
    (e : Entry Machine Event) : Decidable (ClockHonest d mid e) :=
  inferInstanceAs (Decidable (∀ call ∈ sleepCall e, _))

/-! ### The clocks -/

variable {h mid before : List (Entry Machine Event)} {m m' : Machine} {q q' : List Tid}
  {e : Event} {t : Tid}

theorem interrupt_timerTicks {v : QSched} {added exited : List Tid} (regs : Registers)
    (wf : v.WF added exited) :
    (v.interrupt regs).2.timerTicks = v.timerTicks + 1 := by
  obtain ⟨c, hc, _⟩ := wf.current
  have acc := wf.clock.account_accounted c
  rcases wf.interrupt_cases hc regs with ⟨_, out⟩ | ⟨_, _, out⟩ | ⟨_, _, sw⟩
  · rw [out]
    rfl
  · rw [out]
    exact acc.timerTicks
  · exact sw.timerTicks.trans acc.timerTicks

/-- `thread_create` writes the new `thread_t` and nothing else that the scheduler reads. -/
theorem threadCreate_frame (k : Core) (proc entry : UInt64) (object : Bool)
    (stack : Option UInt64) :
    let k' := (k.threadCreate proc entry object stack).2
    k'.timerTicks = k.timerTicks ∧ k'.current = k.current ∧ k'.locked = k.locked ∧
      k.nextTid ≤ k'.nextTid ∧ ∀ t, t.created k.nextTid → k'.thread t = k.thread t := by
  cases object with
  | false => exact ⟨rfl, rfl, rfl, Nat.le_refl _, fun _ _ => rfl⟩
  | true =>
    cases stack with
    | none => exact ⟨rfl, rfl, rfl, Nat.le_refl _, fun _ _ => rfl⟩
    | some stack =>
      refine ⟨rfl, rfl, rfl, Nat.le_succ _, fun t made => ?_⟩
      have old : t ≠ .thread k.nextTid := by
        rintro rfl
        exact Nat.lt_irrefl _ made
      simp [Core.threadCreate, Core.setThread_other, old]

theorem Tid.created_le {n n' : Nat} (made : t.created n) (more : n ≤ n') : t.created n' := by
  cases t with
  | idle => exact made
  | thread i => exact Nat.lt_of_lt_of_le made more

/-- `timer_ticks` counts both kinds of entries, the hardware only one. -/
theorem step_clocks (inv : Inv m q) (eff : Effect m (m.view q) e m' (m'.view q')) :
    m'.sched.timerTicks =
      m.sched.timerTicks + UInt64.ofNat (irqCount [⟨m, e, m'⟩]) ∧
    m'.hwTimer = m.hwTimer + hardwareCount [⟨m, e, m'⟩] := by
  -- a step counts one tick if it enters the handler, and none otherwise
  have quiet : ¬ entersTick m e → irqCount [⟨m, e, m'⟩] = 0 := fun out => by
    simp [irqCount, out]
  have tick : entersTick m e → irqCount [⟨m, e, m'⟩] = 1 := fun enters => by
    simp [irqCount, enters]
  have other : ∀ {t op rest regs}, m.sched.current = some t → m.pending t = op :: rest →
      op ≠ .raise → ¬ entersTick m (.resume regs) := by
    intro t op rest regs hc todo differ enters
    rw [entersTick_resume] at enters
    simp [hc, todo, differ] at enters
  generalize hv : m'.view q' = v' at eff
  have core : m'.sched.toCore = v'.toCore := congrArg QSched.toCore hv
  have ticks : v'.timerTicks = m'.sched.timerTicks := congrArg Core.timerTicks core.symm
  cases eff with
  | timer regs s =>
    refine ⟨?_, rfl⟩
    rw [← ticks, tick trivial]
    exact interrupt_timerTicks regs inv.wf
  | raise regs t rest s hc todo =>
    refine ⟨?_, rfl⟩
    rw [← ticks, tick ⟨t, rest, hc, todo⟩]
    exact interrupt_timerTicks regs inv.wf
  | drop regs t rest s hc todo =>
    refine ⟨?_, rfl⟩
    rw [← ticks, quiet (other hc todo (by simp))]
    simp
  | halt regs t rest hc todo =>
    refine ⟨?_, rfl⟩
    rw [quiet (other hc todo (by simp))]
    simp
  | create proc entry object stack s =>
    refine ⟨?_, rfl⟩
    rw [← ticks, quiet id]
    simpa using (threadCreate_frame m.sched.toCore proc entry object stack).1
  | _ =>
    refine ⟨?_, rfl⟩
    rw [← ticks, quiet id]
    simp

/-- Only an entry through vector 32 dispatches a thread. -/
theorem dispatch_enters {v v' : QSched} (eff : Effect m v e m' v')
    (given : v.current ≠ some t ∧ v'.current = some t)
    (current : m.sched.current = v.current) : entersTick m e := by
  cases eff with
  | timer regs s => trivial
  | raise regs c rest s hc todo => exact ⟨c, rest, current.trans hc, todo⟩
  | create proc entry object stack s =>
    have kept := (threadCreate_frame v.toCore proc entry object stack).2.1
    exact absurd (kept.symm.trans given.2) given.1
  | _ => exact absurd given.2 given.1

/-! ### A sleeper until its wake loop -/

/-- `t` has called `thread_sleep`, and no wake loop has found its tick `w` come: it either
still has the CPU and is on its way to the yield, or it waits. -/
structure Asleep (t : Tid) (w : UInt64) (m : Machine) : Prop where
  blocked : (m.sched.thread t).state = .blocked
  wakeTick : (m.sched.thread t).wakeTick = w
  created : t.created m.sched.nextTid
  leaving : m.sched.current = some t → m.sched.locked = false ∧
    (m.pending t = [.dropQuantum, .raise] ∨
      (m.pending t = [.raise] ∧ (m.sched.thread t).quantum = 0))

variable {w : UInt64}

theorem Asleep.busy (asleep : Asleep t w m) : t ≠ .idle := by
  rintro rfl
  exact asleep.created

/-- Calls are made by threads that are not on their way to a yield. -/
theorem Asleep.call_other {c : Call} (asleep : Asleep t w m)
    (taken : step m (.call c) = some m') : m.sched.current ≠ some t := by
  intro current
  rw [step, current] at taken
  obtain ⟨_, todo | ⟨todo, _⟩⟩ := asleep.leaving current <;> simp [todo] at taken

/-- Steps that neither touch the `thread_t` of `t` nor give it the CPU. -/
theorem Asleep.untouched (asleep : Asleep t w m) (same : m'.sched.thread t = m.sched.thread t)
    (made : t.created m'.sched.nextTid) (out : m'.sched.current ≠ some t) : Asleep t w m' where
  blocked := by rw [same]; exact asleep.blocked
  wakeTick := by rw [same]; exact asleep.wakeTick
  created := made
  leaving current := absurd current out

/-- A tick that is locked, or not yet at `w`, leaves a sleeper asleep. -/
theorem Asleep.interrupt {regs : Registers} (asleep : Asleep t w m) (inv : Inv m q)
    (after : m'.view q' = ((m.view q).interrupt regs).2)
    (kept : m'.pending = m.pending ∨
      ∃ c rest, m.sched.current = some c ∧ m.pending c = .raise :: rest)
    (early : m.sched.locked = false → ¬ w ≤ m.sched.timerTicks + 1) :
    Asleep t w m' := by
  obtain ⟨c, hc, away, _⟩ := inv.wf.current
  have current : m.sched.current = some c := hc
  have acc := inv.wf.clock.account_accounted c
  -- the wake loop looks at queued threads only, and finds `t` there too early
  have state : m.sched.locked = false →
      (((m.view q).clock.account c).thread t).state = .blocked := by
    intro free
    have due : ¬ (m.sched.thread t).wakeTick ≤ m.sched.timerTicks + 1 := by
      rw [asleep.wakeTick]
      exact early free
    rw [acc.state, if_neg fun ready => due ready.2.2]
    exact asleep.blocked
  have core : m'.sched.toCore = ((m.view q).interrupt regs).2.toCore :=
    congrArg QSched.toCore after
  rcases inv.wf.interrupt_cases hc regs with ⟨locked, out⟩ | ⟨free, more, out⟩ | ⟨free, _, sw⟩
  · rw [out] at core
    have elsewhere : m.sched.current ≠ some t := fun here => by
      have open' := (asleep.leaving here).1
      have shut : m.sched.locked = true := locked
      simp [open'] at shut
    refine asleep.untouched (by rw [core]; rfl) (by rw [core]; exact asleep.created) ?_
    rw [core]
    exact elsewhere
  · rw [out] at core
    have nextTid : m'.sched.nextTid = m.sched.nextTid := by
      rw [core]
      exact acc.nextTid
    refine ⟨by rw [core]; exact state free, ?_, nextTid ▸ asleep.created, ?_⟩
    · rw [core, acc.wakeTick]
      exact asleep.wakeTick
    · intro here
      have mine : m.sched.current = some t := by
        rw [core, acc.current] at here
        exact here
      obtain rfl : c = t := Option.some.inj (current.symm.trans mine)
      have positive : 1 < (m.sched.thread c).quantum := more
      -- the quantum has not been dropped, so the interrupt is the timer's
      rcases (asleep.leaving mine).2 with todo | ⟨_, zero⟩
      · have same : m'.pending = m.pending := by
          refine kept.resolve_right ?_
          rintro ⟨d, rest, hd, raised⟩
          obtain rfl := Option.some.inj (current.symm.trans hd)
          simp [todo] at raised
        exact ⟨by rw [core, acc.locked]; exact free, Or.inl (by rw [same]; exact todo)⟩
      · omega
  · rw [← after] at sw
    have differ : t ≠ ((m.view q).clock.account c).selected := by
      rcases QSched.selected_cases ((m.view q).clock.account c) with ⟨idle, _⟩ | ⟨_, ready⟩
      · rw [idle]
        exact asleep.busy
      · rintro same
        rw [← same, state free] at ready
        cases ready
    have quiet : ¬ (t = c ∧ ((m.view q).clock.account c).Preempted c) := by
      rintro ⟨rfl, _, running⟩
      rw [state free] at running
      cases running
    have nextTid : m'.sched.nextTid = m.sched.nextTid := sw.nextTid.trans acc.nextTid
    refine ⟨?_, ?_, nextTid ▸ asleep.created, fun here => ?_⟩
    · have after := sw.state t
      rw [if_neg differ, if_neg quiet, state free] at after
      exact after
    · exact ((sw.wakeTick t).trans (acc.wakeTick t)).trans asleep.wakeTick
    · exact absurd (Option.some.inj (sw.current.symm.trans here)).symm differ

/-- Until an unlocked tick at or after `w`, a sleeper stays asleep. -/
theorem Asleep.step (asleep : Asleep t w m) (inv : Inv m q) (taken : step m e = some m')
    (eff : Effect m (m.view q) e m' (m'.view q'))
    (early : entersTick m e → m.sched.locked = false → ¬ w ≤ m.sched.timerTicks + 1) :
    Asleep t w m' := by
  generalize hv : m'.view q' = v' at eff
  have core : m'.sched.toCore = v'.toCore := congrArg QSched.toCore hv
  -- a step of another thread writes that thread only
  have elsewhere : ∀ {u f}, m.sched.current = some u → u ≠ t →
      m'.sched.toCore = m.sched.setThread u f → Asleep t w m' := by
    intro u f hc differ wrote
    refine asleep.untouched ?_ (by rw [wrote]; exact asleep.created) ?_
    · rw [wrote, Core.setThread_other _ _ _ _ differ.symm]
    · rw [wrote]
      exact fun here => differ (Option.some.inj (hc.symm.trans here))
  cases eff with
  | timer regs s =>
    exact asleep.interrupt inv hv (Or.inl rfl) (early trivial)
  | raise regs c rest s hc todo =>
    exact asleep.interrupt inv hv (Or.inr ⟨c, rest, hc, todo⟩) (early ⟨c, rest, hc, todo⟩)
  | drop regs c rest s hc todo =>
    by_cases mine : c = t
    · subst mine
      have remaining : rest = [.raise] := by
        rcases (asleep.leaving hc).2 with all | ⟨last, _⟩
        · exact (List.cons.inj (todo.symm.trans all)).2
        · simp [last] at todo
      subst remaining
      refine ⟨?_, ?_, ?_, fun _ => ⟨?_, Or.inr ⟨Function.update_self .., ?_⟩⟩⟩
      · rw [core]
        simpa using asleep.blocked
      · rw [core]
        simpa using asleep.wakeTick
      · rw [core]
        exact asleep.created
      · rw [core]
        exact (asleep.leaving hc).1
      · rw [core]
        simp
    · exact elsewhere (f := fun th => { th with quantum := 0 }) hc mine core
  | halt regs c rest hc todo => exact asleep
  | yield c hc free busy =>
    exact asleep.untouched rfl asleep.created (asleep.call_other taken)
  | sleep ms c s hc free busy =>
    have differ : c ≠ t := fun same => asleep.call_other taken (same ▸ hc)
    exact elsewhere
      (f := fun th => { th with state := .blocked, wakeTick := m.sched.timerTicks + ms })
      hc differ core
  | exit c s hc free busy =>
    have differ : c ≠ t := fun same => asleep.call_other taken (same ▸ hc)
    exact elsewhere (f := fun th => { th with state := .dead }) hc differ core
  | create proc entry object stack s =>
    obtain ⟨_, current, _, more, frame⟩ :=
      threadCreate_frame m.sched.toCore proc entry object stack
    refine asleep.untouched ?_ ?_ ?_
    · rw [core]
      exact frame t asleep.created
    · rw [core]
      exact Tid.created_le asleep.created more
    · rw [core]
      exact fun here => asleep.call_other taken (current.symm.trans here)
  | add u s made new =>
    exact asleep.untouched (by rw [core]; rfl) (by rw [core]; exact asleep.created)
      (by rw [core]; exact asleep.call_other taken)
  | lock s =>
    exact asleep.untouched (by rw [core]; rfl) (by rw [core]; exact asleep.created)
      (by rw [core]; exact asleep.call_other taken)
  | unlock s =>
    exact asleep.untouched (by rw [core]; rfl) (by rw [core]; exact asleep.created)
      (by rw [core]; exact asleep.call_other taken)

/-- A dispatched thread is running, so it is not asleep. -/
theorem Asleep.not_dispatched (asleep : Asleep t w m') (inv : Inv m q)
    (eff : Effect m (m.view q) e m' (m'.view q')) : ¬ dispatches t ⟨m, e, m'⟩ := by
  intro given
  obtain ⟨_, _, _, _, _, _, sw⟩ := eff.switch inv.wf fun same => given.1 (same.symm.trans given.2)
  have running := sw.state t
  rw [if_pos (Option.some.inj (sw.current.symm.trans given.2)).symm] at running
  have blocked := asleep.blocked
  rw [show (m'.sched.thread t).state = .running from running] at blocked
  cases blocked

theorem sleepCall_eq_some {ms : UInt64} {e : Entry Machine Event} :
    sleepCall e = some (t, ms) ↔ e.event = .call (.sleep ms) ∧ e.pre.sched.current = some t ∧
      e.pre.sched.locked = false := by
  unfold sleepCall
  split
  next ms' u event current =>
    cases e.pre.sched.locked <;> simp [event, current, and_comm, eq_comm]
  next none =>
    constructor
    · intro h
      cases h
    · rintro ⟨event, current, _⟩
      exact absurd current (none _ _ event)

theorem sleep_starts {ms : UInt64} (inv : Inv m q) (taken : step m e = some m')
    (sleeps : sleepCall ⟨m, e, m'⟩ = some (t, ms)) :
    Asleep t (m.sched.timerTicks + ms) m' := by
  obtain ⟨rfl, here, free⟩ := sleepCall_eq_some.mp sleeps
  have current : m.sched.current = some t := here
  obtain ⟨c, hc, _, owner⟩ := inv.wf.current
  obtain rfl : c = t := Option.some.inj (hc.symm.trans current)
  have idle : m.pending c = [] := by
    by_contra todo
    simp [step, current, todo] at taken
  have busy : c ≠ .idle := by
    rintro rfl
    simp [step, current, idle, enter] at taken
  obtain rfl : { m.setPending c [.dropQuantum, .raise] with sched := markBlocked ms m.sched } =
      m' := by simpa [step, current, idle, enter, busy] using taken
  have made := inv.wf.made c (owner.resolve_left busy)
  constructor
  case blocked => simp [markBlocked, current]
  case wakeTick => simp [markBlocked, current]
  case created => simpa [markBlocked, current] using made
  case leaving =>
    intro _
    exact ⟨by simpa [markBlocked, current] using free, Or.inl (Function.update_self ..)⟩

/-! ### Runs -/

theorem irqCount_cons (e : Entry Machine Event) (h : List (Entry Machine Event)) :
    irqCount (e :: h) = irqCount h + irqCount [e] := by
  simp [irqCount, List.countP_cons]

theorem hardwareCount_cons (e : Entry Machine Event) (h : List (Entry Machine Event)) :
    hardwareCount (e :: h) = hardwareCount h + hardwareCount [e] := by
  simp [hardwareCount, List.countP_cons]

/-- The history after a sleep call: the clocks have advanced by its entries, and a wake
loop has found the sleeper's tick reached or it is still asleep. -/
theorem asleep_or_reached {ms : UInt64} {e : Entry Machine Event}
    (run : Runs (mid ++ e :: before) m) (sleeps : sleepCall e = some (t, ms)) :
    m.sched.timerTicks = e.pre.sched.timerTicks + UInt64.ofNat (irqCount mid) ∧
    m.hwTimer = e.pre.hwTimer + hardwareCount mid ∧
    (Reached e.pre.sched.timerTicks ms mid ∨ Asleep t (e.pre.sched.timerTicks + ms) m) := by
  induction mid generalizing m with
  | nil =>
    obtain ⟨runBefore, taken, rfl⟩ := run.entry
    obtain ⟨q, inv⟩ := Runs.inv runBefore
    obtain ⟨q', eff, _⟩ := inv.step taken
    obtain ⟨ticks, hardware⟩ := step_clocks inv eff
    -- the call of `thread_sleep` itself is no tick
    have quiet : irqCount [e] = 0 ∧ hardwareCount [e] = 0 := by
      simp [irqCount, hardwareCount, (sleepCall_eq_some.mp sleeps).1, entersTick]
    refine ⟨?_, ?_, Or.inr (sleep_starts inv taken sleeps)⟩
    · rw [ticks, quiet.1]
      rfl
    · rw [hardware, quiet.2]
      rfl
  | cons d mid ih =>
    obtain ⟨runBefore, taken, rfl⟩ := run.entry
    obtain ⟨q, inv⟩ := Runs.inv runBefore
    obtain ⟨q', eff, _⟩ := inv.step taken
    obtain ⟨ticks, hardware⟩ := step_clocks inv eff
    obtain ⟨ticks', hardware', before⟩ := ih runBefore
    -- the step adds its tick to the count
    have counted : d.post.sched.timerTicks =
        e.pre.sched.timerTicks + UInt64.ofNat (irqCount (d :: mid)) := by
      rw [ticks, ticks', irqCount_cons d mid, UInt64.add_assoc, ← UInt64.ofNat_add]
    refine ⟨counted, by rw [hardware, hardware', hardwareCount_cons d mid, Nat.add_assoc], ?_⟩
    rcases before with reached | asleep
    · exact Or.inl (Or.inr reached)
    · by_cases now : entersTick d.pre d.event ∧ d.pre.sched.locked = false ∧
          e.pre.sched.timerTicks + ms ≤ d.pre.sched.timerTicks + 1
      · -- this wake loop is the first to find the sleeper's tick reached
        obtain ⟨enters, free, come⟩ := now
        have one : irqCount [d] = 1 := by simp [irqCount, enters]
        refine Or.inl (Or.inl ⟨enters, free, ?_⟩)
        rw [← counted, ticks, one]
        exact come
      · exact Or.inr (asleep.step inv taken eff fun enters free come =>
          now ⟨enters, free, come⟩)

/-- No sleeper runs early in a run whose ticks find a sleeper's tick reached at the end of a
quantum only when the hardware timer has reached it. -/
theorem sleeper_never_early (run : Runs h m) (honest : Pairs ClockHonest h) :
    Pairs NotEarly h := by
  rintro later d mid e before rfl ⟨t, ms⟩ sleeps given
  obtain ⟨last, rest⟩ := run.suffix
  have since : Runs ((d :: mid) ++ e :: before) last := rest
  obtain ⟨_, hardware, state⟩ := asleep_or_reached since sleeps
  obtain ⟨runBefore, taken, rfl⟩ := rest.entry
  obtain ⟨q, inv⟩ := Runs.inv runBefore
  obtain ⟨q', eff, _⟩ := inv.step taken
  rw [hardware]
  rcases state with reached | asleep
  · -- a dispatch is a tick at the end of a quantum
    obtain ⟨_, c, _, hc, free, spent, _⟩ := eff.switch inv.wf fun same =>
      given.1 (same.symm.trans given.2)
    have enters : entersTick d.pre d.event := dispatch_enters eff given rfl
    have due := honest later d mid e before rfl (t, ms) sleeps enters ⟨free, c, hc, spent⟩ reached
    exact Nat.add_le_add_left due _
  · exact absurd given (asleep.not_dispatched inv eff)

/-- A sleep of five milliseconds that ends with the idle thread's quantum after ten. -/
theorem sleeper_never_early_one_sleep : ∃ h m, Runs h m ∧
    m.sched.current = some (.thread 0) ∧ m.hwTimer = 20 ∧ Pairs NotEarly h := by
  obtain ⟨h, m, run, ends⟩ := reaches
    (spawn 0 ++ timers 10 ++ sleeps 5 ++ timers 10)
    (fun r => r.2.sched.current = some (.thread 0) && r.2.hwTimer = 20 &&
      Pairs ClockHonest r.1) (by decide +kernel)
  simp only [Bool.and_eq_true, decide_eq_true_eq] at ends
  exact ⟨h, m, run, ends.1.1, ends.1.2, sleeper_never_early run ends.2⟩

/-- A thread calls `thread_sleep(11)` after 10 hardware interrupts. The `int $0x20` of its
own yield is counted, and it runs again after 20. -/
theorem sleeper_runs_early : ∃ h m, Runs h m ∧ ¬ Pairs NotEarly h := by
  obtain ⟨h, m, run, ends⟩ := reaches
    (spawn 0 ++ timers 10 ++ sleeps 11 ++ timers 10)
    (fun r => ! decide (Pairs NotEarly r.1)) (by decide +kernel)
  exact ⟨h, m, run, by simpa using ends⟩

end DedOS
