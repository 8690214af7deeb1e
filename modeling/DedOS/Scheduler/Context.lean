import DedOS.Scheduler.Safety

/-!
# Context switches are transparent

`context_switches_transparent`: a thread is resumed with the registers it was interrupted
with, whatever other threads did in between. The invariant `Saved` says that the context of
every thread that does not have the CPU is the one its history predicts.
-/

namespace DedOS

open Lib Machine

/-- `a` and `b` agree on `rip`, `cs`, `rflags`, `rsp`, `ss` and the general registers. -/
def SameContext (a b : Registers) : Prop :=
  a.rip = b.rip ∧ a.cs = b.cs ∧ a.rflags = b.rflags ∧ a.rsp = b.rsp ∧ a.ss = b.ss ∧
  a.rax = b.rax ∧ a.rbx = b.rbx ∧ a.rcx = b.rcx ∧ a.rdx = b.rdx ∧
  a.rsi = b.rsi ∧ a.rdi = b.rdi ∧ a.rbp = b.rbp ∧
  a.r8 = b.r8 ∧ a.r9 = b.r9 ∧ a.r10 = b.r10 ∧ a.r11 = b.r11 ∧
  a.r12 = b.r12 ∧ a.r13 = b.r13 ∧ a.r14 = b.r14 ∧ a.r15 = b.r15

theorem SameContext.trans {a b c : Registers} (h₁ : SameContext a b) (h₂ : SameContext b c) :
    SameContext a c := by
  unfold SameContext at *
  simp_all

theorem saveContext_same (context frame : Registers) :
    SameContext (saveContext context frame) frame := by
  simp [SameContext, saveContext]

theorem restoreContext_same (frame context : Registers) :
    SameContext (restoreContext frame context) context := by
  simp [SameContext, restoreContext]

theorem irqFrame_same (regs : Registers) : SameContext (irqFrame regs) regs := by
  simp [SameContext, irqFrame]

/-- The context that the step makes for `t`: of the frame it interrupts `t` in, or of
`thread_create`. -/
def contextFrom (t : Tid) (e : Entry Machine Event) : Option Registers :=
  match e.event with
  | .timer regs | .resume regs =>
    if e.pre.sched.current = some t ∧ e.post.sched.current ≠ some t then some regs else none
  | .call (.create _ entry true (some stack)) =>
    if t = .thread e.pre.sched.nextTid then some (initialContext entry stack) else none
  | .call _ => none

/-- The registers of the frame in which `t` was last switched out, or its initial context
if it never ran. -/
def lastContext (t : Tid) : List (Entry Machine Event) → Option Registers
  | [] => none
  | e :: h => (contextFrom t e).or (lastContext t h)

/-- The threads without the CPU hold the contexts their history predicts. -/
def Saved (h : List (Entry Machine Event)) (m : Machine) : Prop :=
  ∀ t, t.created m.sched.nextTid → m.sched.current ≠ some t →
    ∃ c, lastContext t h = some c ∧ SameContext (m.sched.thread t).context c

variable {h before later : List (Entry Machine Event)} {m m' : Machine} {q q' : List Tid}
  {e : Event} {t : Tid}

/-- A step that leaves the CPU and the contexts alone. -/
theorem saved_of_same (saved : Saved h m) (count : m'.sched.nextTid = m.sched.nextTid)
    (current : m'.sched.current = m.sched.current)
    (context : ∀ t, (m'.sched.thread t).context = (m.sched.thread t).context)
    (silent : ∀ t, contextFrom t ⟨m, e, m'⟩ = none) : Saved (⟨m, e, m'⟩ :: h) m' := by
  intro t made other
  rw [count] at made
  rw [current] at other
  obtain ⟨c, last, same⟩ := saved t made other
  exact ⟨c, by rw [lastContext, silent, Option.none_or, last], by rw [context]; exact same⟩

theorem contextFrom_tick {regs : Registers} (tick : e = .timer regs ∨ e = .resume regs) (t : Tid) :
    contextFrom t ⟨m, e, m'⟩ =
      if m.sched.current = some t ∧ m'.sched.current ≠ some t then some regs else none := by
  rcases tick with rfl | rfl <;> rfl

/-- A switch saves the frame of the thread it takes the CPU from and no other context. -/
theorem switched_saved {regs : Registers} {c : Tid} (inv : Inv m q) (saved : Saved h m)
    (tick : e = .timer regs ∨ e = .resume regs) (hc : m.sched.current = some c)
    (sw : QSched.Switched ((m.view q).clock.account c) c (irqFrame regs) m'.frame (m'.view q')) :
    Saved (⟨m, e, m'⟩ :: h) m' := by
  have acc := inv.wf.clock.account_accounted c
  have count : m'.sched.nextTid = m.sched.nextTid := sw.nextTid.trans acc.nextTid
  have chosen : m'.sched.current = some ((m.view q).clock.account c).selected := sw.current
  intro t made other
  rw [count] at made
  have context : (m'.sched.thread t).context =
      if t = c ∧ c ≠ .idle then saveContext (m.sched.thread t).context (irqFrame regs)
      else (m.sched.thread t).context := by
    have after := sw.context t
    rw [acc.context] at after
    exact after
  rw [lastContext, contextFrom_tick tick]
  by_cases mine : t = c
  · subst mine
    have busy : t ≠ .idle := by
      rintro rfl
      exact made
    refine ⟨regs, by simp [hc, other], ?_⟩
    rw [context, if_pos ⟨rfl, busy⟩]
    exact (saveContext_same _ _).trans (irqFrame_same regs)
  · have others : m.sched.current ≠ some t := by
      rw [hc]
      exact fun same => mine (Option.some.inj same).symm
    obtain ⟨k, last, same⟩ := saved t made others
    refine ⟨k, by simp [others, last], ?_⟩
    rw [context, if_neg fun both => mine both.1]
    exact same

theorem interrupted_saved {regs : Registers} (inv : Inv m q) (saved : Saved h m)
    (tick : e = .timer regs ∨ e = .resume regs)
    (left : m'.frame = ((m.view q).interrupt regs).1 ∧
      m'.view q' = ((m.view q).interrupt regs).2) : Saved (⟨m, e, m'⟩ :: h) m' := by
  obtain ⟨c, hc, _⟩ := inv.wf.current
  have acc := inv.wf.clock.account_accounted c
  have silent : m'.sched.current = m.sched.current → ∀ t, contextFrom t ⟨m, e, m'⟩ = none := by
    intro same t
    rw [contextFrom_tick tick, same]
    simp
  rcases inv.wf.interrupt_cases hc regs with ⟨_, out⟩ | ⟨_, _, out⟩ | ⟨_, _, sw⟩
  · have view : m'.view q' = (m.view q).clock := by rw [left.2, out]
    have current : m'.sched.current = m.sched.current := congrArg (fun v => v.current) view
    exact saved_of_same saved (congrArg (fun v => v.nextTid) view) current
      (fun t => congrArg (fun v => (v.thread t).context) view) (silent current)
  · have view : m'.view q' = (m.view q).clock.account c := by rw [left.2, out]
    have current : m'.sched.current = m.sched.current :=
      (congrArg (fun v => v.current) view).trans acc.current
    exact saved_of_same saved ((congrArg (fun v => v.nextTid) view).trans acc.nextTid) current
      (fun t => (congrArg (fun v => (v.thread t).context) view).trans (acc.context t))
      (silent current)
  · rw [← left.1, ← left.2] at sw
    exact switched_saved inv saved tick hc sw

/-- A step that only writes other members of one `thread_t`. -/
theorem written_saved {t : Tid} {f : Thread → Thread} (saved : Saved h m)
    (wrote : m'.sched.toCore = m.sched.setThread t f)
    (context : ∀ th, (f th).context = th.context)
    (silent : ∀ u, contextFrom u ⟨m, e, m'⟩ = none) : Saved (⟨m, e, m'⟩ :: h) m' := by
  refine saved_of_same saved (by rw [wrote]; rfl) (by rw [wrote]; rfl) (fun u => ?_) silent
  rw [wrote]
  by_cases same : u = t
  · subst same
    rw [Core.setThread_same, context]
  · rw [Core.setThread_other _ _ _ _ same]

/-- `thread_create` writes the context of the new thread and of no other. -/
theorem created_saved {proc entry stack : UInt64} (saved : Saved h m)
    (made : m'.sched.toCore = (m.sched.threadCreate proc entry true (some stack)).2)
    (hevent : e = .call (.create proc entry true (some stack))) :
    Saved (⟨m, e, m'⟩ :: h) m' := by
  subst hevent
  intro u known other
  rw [made] at known other ⊢
  by_cases new : u = .thread m.sched.nextTid
  · subst new
    exact ⟨initialContext entry stack, by simp [lastContext, contextFrom],
      by simp [Core.threadCreate, SameContext]⟩
  · have old := (created_succ.mp known).resolve_right new
    obtain ⟨c, last, same⟩ := saved u old other
    refine ⟨c, by simp [lastContext, contextFrom, new, last], ?_⟩
    simpa [Core.threadCreate, Core.setThread_other, new] using same

theorem step_saved (inv : Inv m q) (eff : Effect m (m.view q) e m' (m'.view q'))
    (saved : Saved h m) : Saved (⟨m, e, m'⟩ :: h) m' := by
  generalize hv : m'.view q' = v' at eff
  -- a step that is no interrupt and leaves `current` alone ends no context
  have stays : ∀ regs, e = .resume regs → m'.sched.current = m.sched.current →
      ∀ u, contextFrom u ⟨m, e, m'⟩ = none := by
    intro regs hevent same u
    rw [contextFrom_tick (Or.inr hevent), same]
    simp
  have core : m'.sched.toCore = v'.toCore := congrArg QSched.toCore hv
  cases eff with
  | timer regs s => exact interrupted_saved inv saved (Or.inl rfl) ⟨rfl, hv⟩
  | raise regs t rest s hc todo => exact interrupted_saved inv saved (Or.inr rfl) ⟨rfl, hv⟩
  | drop regs t rest s hc todo =>
    exact written_saved (f := fun th => { th with quantum := 0 }) saved core (fun _ => rfl)
      (stays regs rfl (by rw [core]; rfl))
  | halt regs t rest hc todo =>
    exact saved_of_same saved rfl rfl (fun _ => rfl) (stays regs rfl rfl)
  | yield t hc free busy => exact saved_of_same saved rfl rfl (fun _ => rfl) fun _ => rfl
  | sleep ms t s hc free busy =>
    exact written_saved
      (f := fun th => { th with state := .blocked, wakeTick := m.sched.timerTicks + ms })
      saved core (fun _ => rfl) fun _ => rfl
  | exit t s hc free busy =>
    exact written_saved (f := fun th => { th with state := .dead }) saved core (fun _ => rfl)
      fun _ => rfl
  | create proc entry object stack s =>
    cases object with
    | false =>
      exact saved_of_same saved (by rw [core]; rfl) (by rw [core]; rfl)
        (fun _ => by rw [core]; rfl) fun _ => rfl
    | true =>
      cases stack with
      | none =>
        exact saved_of_same saved (by rw [core]; rfl) (by rw [core]; rfl)
          (fun _ => by rw [core]; rfl) fun _ => rfl
      | some stack => exact created_saved saved core rfl
  | add u s made new =>
    exact saved_of_same saved (by rw [core]; rfl) (by rw [core]; rfl)
      (fun _ => by rw [core]; rfl) fun _ => rfl
  | lock s =>
    exact saved_of_same saved (by rw [core]; rfl) (by rw [core]; rfl)
      (fun _ => by rw [core]; rfl) fun _ => rfl
  | unlock s =>
    exact saved_of_same saved (by rw [core]; rfl) (by rw [core]; rfl)
      (fun _ => by rw [core]; rfl) fun _ => rfl

theorem Runs.saved (run : Runs h m) : Saved h m := by
  refine Run.history ?_ ?_ run
  · rintro m booted t made
    obtain ⟨idleFn, rsp, s, _, _, _, none, _, sched, _⟩ := booted
    have count : (schedulerInit idleFn rsp s).nextTid = 0 := none
    rw [sched, count] at made
    cases t with
    | idle => exact made.elim
    | thread n => exact absurd made (Nat.not_lt_zero n)
  · intro h m e m' before saved taken
    obtain ⟨q, inv⟩ := Runs.inv before
    obtain ⟨q', eff, _⟩ := inv.step taken
    exact step_saved inv eff saved

/-! ### What a tick leaves in the frame -/

/-- The tick gets past the lock and the quantum of the thread it interrupts. -/
def EndsQuantum (m : Machine) : Prop :=
  m.sched.locked = false ∧ ∃ c, m.sched.current = some c ∧ (m.sched.thread c).quantum ≤ 1

/-- An entry of `isr_handler` through vector 32 is the list-level interrupt. -/
theorem tick_interrupts {regs : Registers} (eff : Effect m (m.view q) e m' (m'.view q'))
    (enters : entersTick m e) (tick : e = .timer regs ∨ e = .resume regs) :
    m'.frame = ((m.view q).interrupt regs).1 ∧
      m'.view q' = ((m.view q).interrupt regs).2 := by
  generalize hv : m'.view q' = v' at eff
  have raised : ∀ t op rest, m.sched.current = some t → m.pending t = op :: rest →
      (∃ u rest, m.sched.current = some u ∧ m.pending u = .raise :: rest) → op = .raise := by
    rintro t op rest hc todo ⟨u, rest', hu, top⟩
    obtain rfl := Option.some.inj (hc.symm.trans hu)
    exact (List.cons.inj (todo.symm.trans top)).1
  cases eff with
  | timer given s =>
    obtain rfl : given = regs := by simpa using tick
    exact ⟨rfl, rfl⟩
  | raise given t rest s hc todo =>
    obtain rfl : given = regs := by simpa using tick
    exact ⟨rfl, rfl⟩
  | drop given t rest s hc todo => cases raised t _ rest hc todo enters
  | halt given t rest hc todo => cases raised t _ rest hc todo enters
  | _ => exact enters.elim

/-- The frame a dispatch leaves is the context of the thread it dispatches. -/
theorem dispatch_restores (inv : Inv m q) (eff : Effect m (m.view q) e m' (m'.view q'))
    (given : dispatches t ⟨m, e, m'⟩) : SameContext m'.frame (m.sched.thread t).context := by
  obtain ⟨regs, c, _, hc, _, _, sw⟩ := eff.switch inv.wf fun same =>
    given.1 (same.symm.trans given.2)
  have chosen : ((m.view q).clock.account c).selected = t :=
    Option.some.inj (sw.current.symm.trans given.2)
  rw [sw.frame, chosen, (inv.wf.clock.account_accounted c).context]
  exact restoreContext_same _ _

/-- A dispatch takes its thread from the queue. -/
theorem dispatch_queued (inv : Inv m q) (eff : Effect m (m.view q) e m' (m'.view q'))
    (busy : t ≠ .idle) (given : dispatches t ⟨m, e, m'⟩) : t ∈ q := by
  obtain ⟨regs, c, _, hc, _, _, sw⟩ := eff.switch inv.wf fun same =>
    given.1 (same.symm.trans given.2)
  have chosen := QSched.selected_known ((m.view q).clock.account c)
  rw [Option.some.inj (sw.current.symm.trans given.2),
    (inv.wf.clock.account_accounted c).queue] at chosen
  exact chosen.resolve_left busy

/-- A tick that returns early, or after which the same thread goes on, leaves the frame
of the interrupt as it was. -/
theorem tick_keeps_frame {regs : Registers} (inv : Inv m q)
    (eff : Effect m (m.view q) e m' (m'.view q')) (enters : entersTick m e)
    (tick : e = .timer regs ∨ e = .resume regs)
    (stays : ¬ EndsQuantum m ∨
      ∃ c, c ≠ .idle ∧ m.sched.current = some c ∧ m'.sched.current = some c) :
    m'.frame = irqFrame regs := by
  obtain ⟨frame, after⟩ := tick_interrupts eff enters tick
  obtain ⟨c, hc, away, _⟩ := inv.wf.current
  have acc := inv.wf.clock.account_accounted c
  rcases inv.wf.interrupt_cases hc regs with ⟨_, out⟩ | ⟨_, _, out⟩ | ⟨free, spent, sw⟩
  · rw [frame, out]
  · rw [frame, out]
  · rcases stays with early | ⟨d, busy, hd, kept⟩
    · exact absurd ⟨free, c, hc, spent⟩ early
    · -- the selected thread is the idle thread or one of the queue, never the current one
      obtain rfl := Option.some.inj (hc.symm.trans hd)
      rw [← after] at sw
      have selected := Option.some.inj (sw.current.symm.trans kept)
      exact absurd selected (QSched.selected_ne busy (acc.queue ▸ away))

/-- What the threads of the run `h` see of the switches in it. -/
structure Transparent (h : List (Entry Machine Event)) : Prop where
  /-- a dispatched thread finds in the frame the registers it was last switched out with,
  or its initial context -/
  restored : ∀ t later e before, h = later ++ e :: before → t ≠ .idle → dispatches t e →
    ∃ c, lastContext t before = some c ∧ SameContext e.post.frame c
  /-- a tick that does not switch returns with the frame it was entered with -/
  kept : ∀ e ∈ h, ∀ regs, entersTick e.pre e.event →
    (e.event = .timer regs ∨ e.event = .resume regs) →
    (¬ EndsQuantum e.pre ∨
      ∃ c, c ≠ .idle ∧ e.pre.sched.current = some c ∧ e.post.sched.current = some c) →
    e.post.frame = irqFrame regs

theorem context_switches_transparent (run : Runs h m) : Transparent h := by
  constructor
  · rintro t later e before rfl busy given
    obtain ⟨_, rest⟩ := run.suffix
    obtain ⟨runBefore, taken, _⟩ := rest.entry
    obtain ⟨q, inv⟩ := Runs.inv runBefore
    obtain ⟨q', eff, _⟩ := inv.step taken
    have made := inv.wf.made t (inv.wf.queued t (dispatch_queued inv eff busy given))
    obtain ⟨c, last, same⟩ := Runs.saved runBefore t made given.1
    exact ⟨c, last, (dispatch_restores inv eff given).trans same⟩
  · intro e member regs enters tick stays
    obtain ⟨before, runBefore, taken⟩ := run.mem member
    obtain ⟨q, inv⟩ := Runs.inv runBefore
    obtain ⟨q', eff, _⟩ := inv.step taken
    exact tick_keeps_frame inv eff enters tick stays

/-- Thread 1 is dispatched by the tenth tick, interrupted in its code at `0x1234`, and
gets back there twenty ticks later. -/
theorem context_switches_transparent_two_threads : ∃ h m, Runs h m ∧
    (m.sched.current = some (.thread 1) ∧ m.frame.rip = 0x1234) ∧ Transparent h := by
  obtain ⟨h, m, run, ends⟩ := reaches
    (spawn 0 ++ spawn 1 ++ timers 10 ++
      List.replicate 10 (.timer { Registers.zero with rip := 0x1234 }) ++ timers 10)
    (fun r => r.2.sched.current = some (.thread 1) && r.2.frame.rip = 0x1234)
    (by decide +kernel)
  simp only [Bool.and_eq_true, decide_eq_true_eq] at ends
  exact ⟨h, m, run, ends, context_switches_transparent run⟩

end DedOS
