import DedOS.Scheduler.Sleep

/-!
# Which threads the scheduler can bypass

A preempted thread goes back to the head of the queue, where the next selection starts.
`no_bypass_iff`: from a reachable state, ticks and yields never bypass a ready thread exactly
when the scheduler is locked or at most two threads compete; with three, two of them
alternate and the third waits for ever.
-/

namespace DedOS

open Lib Machine

def TickOrYield : Event → Prop
  | .timer _ | .resume _ | .call .yield => True
  | .call _ => False

instance : (e : Event) → Decidable (TickOrYield e)
  | .timer _ | .resume _ | .call .yield => instDecidableTrue
  | .call (.sleep _) | .call .exit | .call (.create _ _ _ _) | .call (.add _) | .call .lock
  | .call .unlock => instDecidableFalse

/-- `x` is `READY` in the run queue. -/
def Waits (x : Tid) (m : Machine) : Prop :=
  (∃ q, Chain m.sched.next m.sched.runQueue q ∧ x ∈ q) ∧ (m.sched.thread x).state = .ready

/-- No thread is dispatched by both `e` and the later `d` while another waits from the one
to the other. -/
def Fair (d : Entry Machine Event) (mid : List (Entry Machine Event))
    (e : Entry Machine Event) : Prop :=
  ¬ ∃ x y, dispatches y e ∧ dispatches y d ∧
    ∀ f ∈ d :: (mid ++ [e]), Waits x f.pre ∧ Waits x f.post ∧ ¬ dispatches x f

/-- The current thread will go back to the queue. -/
def Competes (m : Machine) : Prop :=
  ∃ c, m.sched.current = some c ∧ c ≠ .idle ∧ (m.sched.thread c).state ≠ .dead

instance (m : Machine) : Decidable (Competes m) :=
  inferInstanceAs (Decidable (∃ c, c ∈ m.sched.current ∧ _))

/-- The number of threads that compete for the CPU when the run queue is `q`. -/
def competitors (m : Machine) (q : List Tid) : Nat :=
  q.length + if Competes m then 1 else 0

def AtMostTwo (m : Machine) : Prop :=
  ∃ q, Chain m.sched.next m.sched.runQueue q ∧ competitors m q ≤ 2

variable {h mid before : List (Entry Machine Event)} {m m' s : Machine} {q q' : List Tid}
  {e : Event} {t x y : Tid}

theorem waits_iff (inv : Inv m q) :
    Waits x m ↔ x ∈ q ∧ (m.sched.thread x).state = .ready := by
  constructor
  · rintro ⟨⟨q', chain, member⟩, ready⟩
    obtain rfl := inv.chain.unique chain
    exact ⟨member, ready⟩
  · rintro ⟨member, ready⟩
    exact ⟨⟨q, inv.chain, member⟩, ready⟩

theorem atMostTwo_iff (inv : Inv m q) : AtMostTwo m ↔ competitors m q ≤ 2 := by
  constructor
  · rintro ⟨q', chain, few⟩
    obtain rfl := inv.chain.unique chain
    exact few
  · exact fun few => ⟨q, inv.chain, few⟩

theorem competes_iff {c : Tid} (hc : m.sched.current = some c) :
    Competes m ↔ c ≠ .idle ∧ (m.sched.thread c).state ≠ .dead := by
  simp [Competes, hc]

/-! ### Ticks and yields -/

/-- What a tick or yield does to the places of threads: nothing, or a switch. -/
inductive Shifts (m : Machine) (q : List Tid) (m' : Machine) (q' : List Tid) : Prop
  | stays : m'.sched.current = m.sched.current → q' = q → m'.sched.locked = m.sched.locked →
      (∀ t, (m'.sched.thread t).state = (m.sched.thread t).state ∨
        (t ∈ q ∧ (m'.sched.thread t).state = .ready)) → Shifts m q m' q'
  | switches (c : Tid) (frame : Registers) : m.sched.current = some c → m.sched.locked = false →
      QSched.Switched ((m.view q).clock.account c) c frame m'.frame (m'.view q') →
      Shifts m q m' q'

theorem effect_shifts (inv : Inv m q) (eff : Effect m (m.view q) e m' (m'.view q'))
    (only : TickOrYield e) : Shifts m q m' q' := by
  obtain ⟨c, hc, _⟩ := inv.wf.current
  have acc := inv.wf.clock.account_accounted c
  -- what the handler does: nothing under the lock, no switch, or a switch
  have ticked : ∀ regs, m'.frame = ((m.view q).interrupt regs).1 →
      m'.view q' = ((m.view q).interrupt regs).2 → Shifts m q m' q' := by
    intro regs frame after
    have core : m'.sched.toCore = ((m.view q).interrupt regs).2.toCore :=
      congrArg QSched.toCore after
    have queue : q' = ((m.view q).interrupt regs).2.queue := congrArg QSched.queue after
    rcases inv.wf.interrupt_cases hc regs with ⟨_, out⟩ | ⟨_, _, out⟩ | ⟨free, _, sw⟩
    · rw [out] at core queue
      exact .stays (by rw [core]; rfl) queue (by rw [core]; rfl) fun t => Or.inl (by rw [core]; rfl)
    · rw [out] at core queue
      refine .stays ?_ (queue.trans acc.queue) ?_ fun t => ?_
      · rw [core]
        exact acc.current
      · rw [core]
        exact acc.locked
      · rw [core, acc.state]
        split
        next woken => exact Or.inr ⟨woken.1, rfl⟩
        · exact Or.inl rfl
    · rw [← frame, ← after] at sw
      exact .switches c _ hc free sw
  generalize hv : m'.view q' = v' at eff
  have core : m'.sched.toCore = v'.toCore := congrArg QSched.toCore hv
  have queue : q' = v'.queue := congrArg QSched.queue hv
  cases eff with
  | timer regs s => exact ticked regs rfl hv
  | raise regs t rest s ht todo => exact ticked regs rfl hv
  | drop regs t rest s ht todo =>
    refine .stays (by rw [core]; rfl) queue (by rw [core]; rfl) fun u => Or.inl ?_
    rw [core]
    by_cases same : u = t
    · subst same
      simp
    · simp [Core.setThread_other, same]
  | halt regs t rest ht todo => exact .stays rfl queue rfl fun _ => Or.inl rfl
  | yield t ht free busy => exact .stays rfl queue rfl fun _ => Or.inl rfl
  | _ => exact only.elim

/-- Ticks and yields keep the lock and the number of competitors. -/
theorem Shifts.keeps (shifts : Shifts m q m' q') (inv : Inv m q) :
    m'.sched.locked = m.sched.locked ∧ competitors m' q' = competitors m q := by
  obtain ⟨c, hc, away, _⟩ := inv.wf.current
  have current : m.sched.current = some c := hc
  cases shifts with
  | stays same queue locked states =>
    have state : (m'.sched.thread c).state = (m.sched.thread c).state :=
      (states c).resolve_right fun woken => away woken.1
    have competes : Competes m' ↔ Competes m := by
      rw [competes_iff (same.trans current), competes_iff current, state]
    exact ⟨locked, by rw [competitors, competitors, queue, if_congr competes rfl rfl]⟩
  | switches d frame hd free sw =>
    obtain rfl : c = d := Option.some.inj (current.symm.trans hd)
    have acc := inv.wf.clock.account_accounted c
    refine ⟨sw.locked.trans acc.locked, ?_⟩
    have state : (((m.view q).clock.account c).thread c).state = (m.sched.thread c).state := by
      rw [acc.state, if_neg fun woken => away woken.1]
      rfl
    have left : ((m.view q).clock.account c).Requeued c ↔ Competes m := by
      rw [competes_iff current, QSched.Requeued, state]
    have queue : q' = (if Competes m then [c] else []) ++
        q.erase ((m.view q).clock.account c).selected := by
      have after := sw.queue
      rw [acc.queue, if_congr left rfl rfl] at after
      exact after
    -- the selected thread leaves the queue and competes from the CPU
    have entered : Competes m' ↔ ((m.view q).clock.account c).selected ≠ .idle := by
      rw [competes_iff sw.current]
      have running := sw.state ((m.view q).clock.account c).selected
      rw [if_pos rfl] at running
      have alive : (m'.sched.thread ((m.view q).clock.account c).selected).state ≠ .dead := by
        rw [show (m'.sched.thread _).state = .running from running]
        simp
      exact and_iff_left alive
    have chosen : ((m.view q).clock.account c).selected = .idle ∨
        ((m.view q).clock.account c).selected ∈ q := by
      have known := QSched.selected_known ((m.view q).clock.account c)
      rwa [acc.queue] at known
    have idle_out : .idle ∉ q := inv.wf.idle_notMem
    rw [competitors, competitors, queue, List.length_append]
    rcases chosen with idle | member
    · have out : ¬ Competes m' := fun competes => entered.mp competes idle
      rw [idle, List.erase_of_not_mem idle_out, if_neg out]
      split
      · rw [List.length_singleton]
        omega
      · rw [List.length_nil]
        omega
    · have busy : ((m.view q).clock.account c).selected ≠ .idle := fun idle =>
        idle_out (idle ▸ member)
      have positive : 0 < q.length := List.length_pos_of_mem member
      rw [if_pos (entered.mpr busy), List.length_erase_of_mem member]
      split
      · rw [List.length_singleton]
        omega
      · rw [List.length_nil]
        omega

/-- While a thread waits, a thread that competes stays on the CPU. -/
theorem Shifts.competes (shifts : Shifts m q m' q') (inv : Inv m q)
    (ready : x ∈ q ∧ (m.sched.thread x).state = .ready)
    (busy : Competes m ∨ m'.sched.current ≠ m.sched.current) : Competes m' := by
  obtain ⟨c, hc, away, _⟩ := inv.wf.current
  have current : m.sched.current = some c := hc
  cases shifts with
  | stays same queue locked states =>
    have state : (m'.sched.thread c).state = (m.sched.thread c).state :=
      (states c).resolve_right fun woken => away woken.1
    have before := busy.resolve_right fun changed => changed same
    rw [competes_iff (same.trans current), state]
    exact (competes_iff current).mp before
  | switches d frame hd free sw =>
    obtain rfl : c = d := Option.some.inj (current.symm.trans hd)
    have acc := inv.wf.clock.account_accounted c
    have chosen := QSched.selected_cases ((m.view q).clock.account c)
    rw [acc.queue] at chosen
    -- the waiting thread is ready, so the idle thread is not selected
    have member : ((m.view q).clock.account c).selected ∈ q := by
      rcases chosen with ⟨_, none⟩ | ⟨member, _⟩
      · refine absurd ?_ (none x ready.1)
        rw [acc.state]
        split
        · rfl
        · exact ready.2
      · exact member
    rw [competes_iff sw.current]
    constructor
    · rintro idle
      rw [idle] at member
      exact inv.wf.idle_notMem member
    · have running := sw.state ((m.view q).clock.account c).selected
      rw [if_pos rfl] at running
      rw [show (m'.sched.thread _).state = .running from running]
      simp

/-! ### Two competitors are treated fairly -/

/-- The invariant, the lock and the number of competitors through a run of ticks and yields. -/
theorem kept_since (inv : Inv s q) (run : Run step (· = s) h m)
    (only : ∀ f ∈ h, TickOrYield f.event) :
    ∃ q', Inv m q' ∧ m.sched.locked = s.sched.locked ∧ competitors m q' = competitors s q := by
  induction run with
  | start same =>
    subst same
    exact ⟨q, inv, rfl, rfl⟩
  | @step h m m' e before taken ih =>
    obtain ⟨q₁, inv₁, locked, count⟩ := ih fun f member => only f (List.mem_cons_of_mem _ member)
    obtain ⟨q₂, eff, inv₂⟩ := inv₁.step taken
    obtain ⟨locked', count'⟩ := (effect_shifts inv₁ eff (only _ List.mem_cons_self)).keeps inv₁
    exact ⟨q₂, inv₂, locked'.trans locked, count'.trans count⟩

/-- From the dispatch of `y` by `e` on, while `x` waits, the current thread competes. -/
theorem competes_since {e : Entry Machine Event} (inv : Inv s q)
    (run : Run step (· = s) (mid ++ e :: before) m)
    (only : ∀ f ∈ mid ++ e :: before, TickOrYield f.event) (given : dispatches y e)
    (waits : ∀ f ∈ mid ++ [e], Waits x f.pre) : Competes m := by
  induction mid generalizing m with
  | nil =>
    obtain ⟨runBefore, taken, rfl⟩ := run.entry
    obtain ⟨q, inv, _⟩ := kept_since inv runBefore fun f member =>
      only f (List.mem_cons_of_mem e member)
    obtain ⟨q', eff, _⟩ := inv.step taken
    have shifts := effect_shifts inv eff (only e (by simp))
    refine shifts.competes inv ((waits_iff inv).mp (waits e (by simp))) (Or.inr fun same => ?_)
    exact given.1 (same.symm.trans given.2)
  | cons d mid ih =>
    obtain ⟨runBefore, taken, rfl⟩ := run.entry
    have only' := fun f member => only f (List.mem_cons_of_mem d member)
    have competes := ih runBefore only' fun f member => waits f (List.mem_cons_of_mem d member)
    obtain ⟨q, inv, _⟩ := kept_since inv runBefore only'
    obtain ⟨q', eff, _⟩ := inv.step taken
    have shifts := effect_shifts inv eff (only d (by simp))
    exact shifts.competes inv ((waits_iff inv).mp (waits d (by simp))) (Or.inl competes)

/-- A thread dispatched over a waiting one makes three competitors. -/
theorem dispatch_competitors {d : Entry Machine Event} (inv : Inv d.pre q)
    (eff : Effect d.pre (d.pre.view q) d.event d.post (d.post.view q'))
    (given : dispatches y d) (waits : Waits x d.pre) (other : ¬ dispatches x d)
    (competes : Competes d.pre) : d.pre.sched.locked = false ∧ 3 ≤ competitors d.pre q := by
  have ready := (waits_iff inv).mp waits
  obtain ⟨regs, c, _, hc, free, _, sw⟩ := eff.switch inv.wf fun same =>
    given.1 (same.symm.trans given.2)
  have acc := inv.wf.clock.account_accounted c
  have chosen := QSched.selected_cases ((d.pre.view q).clock.account c)
  rw [Option.some.inj (sw.current.symm.trans given.2), acc.queue] at chosen
  have selected : y ∈ q := by
    rcases chosen with ⟨_, none⟩ | ⟨member, _⟩
    · refine absurd ?_ (none x ready.1)
      rw [acc.state]
      split
      · rfl
      · exact ready.2
    · exact member
  have differ : x ≠ y := by
    rintro rfl
    exact other given
  have two : [x, y].length ≤ q.length := by
    refine List.Nodup.length_le_of_subset (by simp [differ]) fun t member => ?_
    simp only [List.mem_cons, List.not_mem_nil, or_false] at member
    rcases member with rfl | rfl
    · exact ready.1
    · exact selected
  refine ⟨free, ?_⟩
  rw [competitors, if_pos competes]
  simpa using two

theorem fair_of_few (inv : Inv s q) (few : s.sched.locked = true ∨ AtMostTwo s)
    (run : Run step (· = s) h m) (only : ∀ f ∈ h, TickOrYield f.event) : Pairs Fair h := by
  rintro later d mid e before rfl ⟨x, y, given, again, waits⟩
  obtain ⟨_, rest⟩ := run.suffix
  have only' : ∀ f ∈ mid ++ e :: before, TickOrYield f.event := fun f member =>
    only f (List.mem_append_right _ (List.mem_cons_of_mem d member))
  obtain ⟨runBefore, taken, rfl⟩ := rest.entry
  obtain ⟨q', inv', locked, count⟩ := kept_since inv runBefore only'
  obtain ⟨q'', eff, _⟩ := inv'.step taken
  have competes := competes_since inv runBefore only' given fun f member =>
    (waits f (List.mem_cons_of_mem d member)).1
  have now := waits d List.mem_cons_self
  obtain ⟨free, three⟩ := dispatch_competitors inv' eff again now.1 now.2.2 competes
  rcases few with shut | two
  · rw [locked, shut] at free
    cases free
  · rw [atMostTwo_iff inv] at two
    omega

/-! ### Three competitors -/

/-- Unlocked, with the current thread `c` running. -/
structure Rolling (m : Machine) (q : List Tid) (c : Tid) : Prop where
  inv : Inv m q
  current : m.sched.current = some c
  free : m.sched.locked = false
  running : (m.sched.thread c).state = .running

/-- The timer can always interrupt, and only interrupts. -/
theorem timer_step (inv : Inv m q) (regs : Registers) :
    ∃ m' q', step m (.timer regs) = some m' ∧ Inv m' q' ∧
      m'.frame = ((m.view q).interrupt regs).1 ∧ m'.view q' = ((m.view q).interrupt regs).2 := by
  obtain ⟨s', run, _⟩ := vector32_refines regs inv.represents inv.wf
  have taken : step m (.timer regs) = some { m with
      frame := ((m.view q).interrupt regs).1, sched := s', hwTimer := m.hwTimer + 1 } := by
    simp [step, interrupt, run]
  obtain ⟨q', eff, inv'⟩ := inv.step taken
  refine ⟨_, q', taken, inv', ?_⟩
  exact tick_interrupts eff trivial (Or.inl rfl)

/-- A timer interrupt in an unlocked state: the quantum goes down, or the thread is
switched. -/
theorem timer_cases (inv : Inv m q) {c : Tid} (hc : m.sched.current = some c)
    (free : m.sched.locked = false) :
    ∃ m' q', step m (.timer .zero) = some m' ∧ Inv m' q' ∧
      ((1 < (m.sched.thread c).quantum ∧ q' = q ∧
          m'.sched.toCore = ((m.view q).clock.account c).toCore) ∨
        ∃ frame, QSched.Switched ((m.view q).clock.account c) c frame m'.frame (m'.view q')) := by
  obtain ⟨m', q', taken, inv', frame, after⟩ := timer_step inv .zero
  refine ⟨m', q', taken, inv', ?_⟩
  rcases inv.wf.interrupt_cases hc .zero with ⟨shut, _⟩ | ⟨_, more, out⟩ | ⟨_, _, sw⟩
  · exact absurd (free.symm.trans shut) (by simp)
  · left
    rw [out] at after
    exact ⟨more, (congrArg QSched.queue after).trans (inv.wf.clock.account_accounted c).queue,
      congrArg QSched.toCore after⟩
  · right
    rw [← frame, ← after] at sw
    exact ⟨_, sw⟩

theorem Rolling.of_charged {c : Tid} (roll : Rolling m q c) (inv' : Inv m' q)
    (core : m'.sched.toCore = ((m.view q).clock.account c).toCore) : Rolling m' q c := by
  have acc := roll.inv.wf.clock.account_accounted c
  refine ⟨inv', ?_, ?_, ?_⟩
  · rw [core, acc.current]
    exact roll.current
  · rw [core, acc.locked]
    exact roll.free
  · rw [core, acc.state, if_neg fun woken => roll.inv.wf.away roll.current woken.1]
    exact roll.running

theorem rolling_of_switched {c : Tid} {frame : Registers} (inv : Inv m q) (inv' : Inv m' q')
    (free : m.sched.locked = false)
    (sw : QSched.Switched ((m.view q).clock.account c) c frame m'.frame (m'.view q')) :
    Rolling m' q' ((m.view q).clock.account c).selected := by
  have acc := inv.wf.clock.account_accounted c
  refine ⟨inv', sw.current, (sw.locked.trans acc.locked).trans free, ?_⟩
  have running := sw.state ((m.view q).clock.account c).selected
  rw [if_pos rfl] at running
  exact running

/-- A run of ticks and yields from `s`. -/
def Timed (s : Machine) (h : List (Entry Machine Event)) (m : Machine) : Prop :=
  Run step (· = s) h m ∧ ∀ f ∈ h, TickOrYield f.event

theorem Timed.nil (s : Machine) : Timed s [] s := ⟨.start rfl, by simp⟩

theorem Timed.tick (timed : Timed s h m) (taken : step m (.timer .zero) = some m') :
    Timed s (⟨m, .timer .zero, m'⟩ :: h) m' := by
  refine ⟨timed.1.step taken, fun f member => ?_⟩
  rcases List.mem_cons.mp member with rfl | old
  · exact trivial
  · exact timed.2 f old

theorem Timed.trans {h' : List (Entry Machine Event)} (first : Timed s h m)
    (second : Timed m h' m') : Timed s (h' ++ h) m' := by
  refine ⟨first.1.append second.1, fun f member => ?_⟩
  rcases List.mem_append.mp member with late | early
  · exact second.2 f late
  · exact first.2 f early

/-- The timer takes the CPU from any thread when its quantum ends. -/
theorem exists_rolling (n : Nat) (inv : Inv m q) {c : Tid} (hc : m.sched.current = some c)
    (free : m.sched.locked = false) (left : (m.sched.thread c).quantum ≤ n) :
    ∃ h m' q' c', Timed m h m' ∧ Rolling m' q' c' := by
  induction n generalizing m with
  | zero =>
    obtain ⟨m', q', taken, inv', ⟨more, _⟩ | ⟨frame, sw⟩⟩ := timer_cases inv hc free
    · omega
    · exact ⟨_, m', q', _, (Timed.nil m).tick taken, rolling_of_switched inv inv' free sw⟩
  | succ n ih =>
    have acc := inv.wf.clock.account_accounted c
    obtain ⟨m', q', taken, inv', ⟨more, rfl, core⟩ | ⟨frame, sw⟩⟩ := timer_cases inv hc free
    · have current : m'.sched.current = some c := by
        rw [core, acc.current]
        exact hc
      have unlocked : m'.sched.locked = false := by
        rw [core, acc.locked]
        exact free
      have less : (m'.sched.thread c).quantum ≤ n := by
        rw [core, acc.quantum, if_pos rfl]
        have same : ((m.view q').clock.thread c).quantum = (m.sched.thread c).quantum := rfl
        omega
      obtain ⟨h, m'', q'', c', timed, roll⟩ := ih inv' current unlocked less
      exact ⟨_, m'', q'', c', ((Timed.nil m).tick taken).trans timed, roll⟩
    · exact ⟨_, m', q', _, (Timed.nil m).tick taken, rolling_of_switched inv inv' free sw⟩

/-- No `wake_tick` is beyond the last tick before `timer_ticks` wraps. -/
theorem all_woken (inv : Inv m q) (c : Tid) (last : m.sched.timerTicks + 1 = -1) :
    ∀ t ∈ q, (((m.view q).clock.account c).thread t).state = .ready := by
  intro t member
  have waiting := inv.wf.clock.waiting t member
  rw [(inv.wf.clock.account_accounted c).state]
  have due : ((m.view q).clock.thread t).wakeTick ≤ (m.view q).clock.timerTicks := by
    rw [show (m.view q).clock.timerTicks = -1 from last, UInt64.le_iff_toNat_le]
    exact Nat.le_of_lt_succ (UInt64.toNat_lt _)
  rcases waiting with ready | blocked
  · rw [if_neg (by simp [ready])]
    exact ready
  · rw [if_pos ⟨member, blocked, due⟩]

/-- The queue after a switch: the preempted thread before the others, all ready if they
were. -/
theorem switched_queue {c : Tid} {frame : Registers} (roll : Rolling m q c)
    (sw : QSched.Switched ((m.view q).clock.account c) c frame m'.frame (m'.view q'))
    (ready : ∀ t ∈ q, (((m.view q).clock.account c).thread t).state = .ready) :
    q' = (if c = .idle then [] else [c]) ++
        q.erase ((m.view q).clock.account c).selected ∧
      ∀ t ∈ q', (m'.sched.thread t).state = .ready := by
  have acc := roll.inv.wf.clock.account_accounted c
  have away : c ∉ q := roll.inv.wf.away roll.current
  have running : (((m.view q).clock.account c).thread c).state = .running := by
    rw [acc.state, if_neg fun woken => away woken.1]
    exact roll.running
  have requeued : ((m.view q).clock.account c).Requeued c ↔ ¬ c = .idle := by
    simp [QSched.Requeued, running]
  have queue : q' = (if c = .idle then [] else [c]) ++
      q.erase ((m.view q).clock.account c).selected := by
    have after := sw.queue
    rw [acc.queue, if_congr requeued rfl rfl, ite_not] at after
    exact after
  refine ⟨queue, fun t member => ?_⟩
  have distinct : q.Nodup := roll.inv.wf.distinct
  have after := sw.state t
  rw [queue, List.mem_append] at member
  rcases member with self | other
  · split at self
    · cases self
    next busy =>
      -- the preempted thread was running, so it becomes ready
      obtain rfl := List.mem_singleton.mp self
      have differ : t ≠ ((m.view q).clock.account t).selected :=
        (QSched.selected_ne busy (acc.queue ▸ away)).symm
      rw [if_neg differ, if_pos ⟨rfl, busy, running⟩] at after
      exact after
  · have differ := (distinct.mem_erase_iff.mp other).1
    have known := List.mem_of_mem_erase other
    have elsewhere : t ≠ c := ne_of_mem_of_not_mem known away
    rw [if_neg differ, if_neg fun both => elsewhere both.1, ready t known] at after
    exact after

/-- The last tick before `timer_ticks` wraps leaves only ready threads in the queue. -/
theorem Rolling.tick {c : Tid} (roll : Rolling m q c) :
    ∃ m' q' c', step m (.timer .zero) = some m' ∧ Rolling m' q' c' ∧
      m'.sched.timerTicks = m.sched.timerTicks + 1 ∧
      (m.sched.timerTicks + 1 = -1 → ∀ t ∈ q', (m'.sched.thread t).state = .ready) := by
  have acc := roll.inv.wf.clock.account_accounted c
  obtain ⟨m', q', taken, inv', ⟨_, rfl, core⟩ | ⟨frame, sw⟩⟩ :=
    timer_cases roll.inv roll.current roll.free
  · refine ⟨m', q', c, taken, roll.of_charged inv' core, by rw [core, acc.timerTicks]; rfl, ?_⟩
    intro last
    rw [core]
    exact all_woken roll.inv c last
  · refine ⟨m', q', _, taken, rolling_of_switched roll.inv inv' roll.free sw,
      sw.timerTicks.trans acc.timerTicks, fun last => ?_⟩
    exact (switched_queue roll sw (all_woken roll.inv c last)).2

theorem Rolling.ticks {c : Tid} (roll : Rolling m q c) (n : Nat) :
    ∃ h m' q' c', Timed m h m' ∧ Rolling m' q' c' ∧
      m'.sched.timerTicks = m.sched.timerTicks + UInt64.ofNat n := by
  induction n with
  | zero => exact ⟨[], m, q, c, Timed.nil m, roll, by simp⟩
  | succ n ih =>
    obtain ⟨h, m', q', c', timed, roll', ticks⟩ := ih
    obtain ⟨m'', q'', c'', taken, roll'', more, _⟩ := roll'.tick
    refine ⟨_, m'', q'', c'', timed.tick taken, roll'', ?_⟩
    rw [more, ticks, UInt64.ofNat_add, UInt64.add_assoc]
    rfl

/-- From any unlocked state some ticks lead to one in which all queued threads are ready. -/
theorem exists_all_ready (inv : Inv m q) (free : m.sched.locked = false) :
    ∃ h m' q' c', Timed m h m' ∧ Rolling m' q' c' ∧
      ∀ t ∈ q', (m'.sched.thread t).state = .ready := by
  obtain ⟨c, hc, _⟩ := inv.wf.current
  obtain ⟨h₁, m₁, q₁, c₁, timed₁, roll₁⟩ :=
    exists_rolling _ inv hc free (Nat.le_refl (m.sched.thread c).quantum)
  obtain ⟨h₂, m₂, q₂, c₂, timed₂, roll₂, ticks⟩ :=
    roll₁.ticks (-1 - 1 - m₁.sched.timerTicks).toNat
  obtain ⟨m₃, q₃, c₃, taken, roll₃, _, ready⟩ := roll₂.tick
  refine ⟨_, m₃, q₃, c₃, (timed₁.trans timed₂).tick taken, roll₃, ready ?_⟩
  rw [ticks, UInt64.ofNat_toNat]
  generalize m₁.sched.timerTicks = ticks
  grind

theorem woken_ready (inv : Inv m q) (c : Tid)
    (ready : ∀ t ∈ q, (m.sched.thread t).state = .ready) :
    ∀ t ∈ q, (((m.view q).clock.account c).thread t).state = .ready := by
  intro t member
  rw [(inv.wf.clock.account_accounted c).state]
  split
  · rfl
  · exact ready t member

/-- With only ready threads queued, the next switch takes the first; the others wait. -/
theorem Rolling.switch {a c : Tid} {rest : List Tid} (roll : Rolling m (a :: rest) c)
    (ready : ∀ t ∈ a :: rest, (m.sched.thread t).state = .ready) :
    ∃ d h m', Timed m (d :: h) m' ∧ dispatches a d ∧
      Rolling m' ((if c = .idle then [] else [c]) ++ rest) a ∧
      (∀ t ∈ (if c = .idle then [] else [c]) ++ rest, (m'.sched.thread t).state = .ready) ∧
      ∀ f ∈ d :: h, ∀ x ∈ rest, Waits x f.pre ∧ Waits x f.post ∧ ¬ dispatches x f := by
  -- by induction on the quantum that the current thread has left
  induction left : (m.sched.thread c).quantum using Nat.strongRecOn generalizing m with
  | ind n ih =>
    have acc := roll.inv.wf.clock.account_accounted c
    have distinct : (a :: rest).Nodup := roll.inv.wf.distinct
    have ready' := woken_ready roll.inv c ready
    have waits : ∀ x ∈ rest, Waits x m := fun x member => (waits_iff roll.inv).mpr
      ⟨List.mem_cons_of_mem a member, ready x (List.mem_cons_of_mem a member)⟩
    obtain ⟨m', q', taken, inv', ⟨more, rfl, core⟩ | ⟨frame, sw⟩⟩ :=
      timer_cases roll.inv roll.current roll.free
    · have roll' := roll.of_charged inv' core
      have states : ∀ t ∈ a :: rest, (m'.sched.thread t).state = .ready := by
        rw [core]
        exact ready'
      have charged : (m'.sched.thread c).quantum = n - 1 := by
        rw [core, acc.quantum, if_pos rfl, ← left]
        rfl
      obtain ⟨d, h, m'', timed, given, roll'', states', all⟩ :=
        ih (n - 1) (by omega) roll' states charged
      refine ⟨d, h ++ [⟨m, .timer .zero, m'⟩], m'', ?_, given, roll'', states', ?_⟩
      · exact ((Timed.nil m).tick taken).trans timed
      · intro f member x waiting
        rw [← List.cons_append, List.mem_append, List.mem_singleton] at member
        rcases member with late | rfl
        · exact all f late x waiting
        · refine ⟨waits x waiting, (waits_iff inv').mpr ⟨List.mem_cons_of_mem a waiting,
            states x (List.mem_cons_of_mem a waiting)⟩, fun given => given.1 ?_⟩
          exact roll.current.trans (roll'.current.symm.trans given.2)
    · have chosen : ((m.view (a :: rest)).clock.account c).selected = a := by
        have first := ready' a List.mem_cons_self
        rw [QSched.selected, acc.queue, show (m.view (a :: rest)).clock.queue = a :: rest from rfl,
          List.find?_cons_of_pos (by simpa [QSched.isReady] using first)]
        rfl
      obtain ⟨queue, states⟩ := switched_queue roll sw ready'
      have roll' := rolling_of_switched roll.inv inv' roll.free sw
      rw [chosen, List.erase_cons_head] at queue
      rw [chosen] at roll'
      subst queue
      have elsewhere : c ≠ a := fun same => roll.inv.wf.away roll.current (by simp [same])
      refine ⟨⟨m, .timer .zero, m'⟩, [], m', (Timed.nil m).tick taken, ⟨?_, roll'.current⟩,
        roll', states, ?_⟩
      · rw [roll.current]
        exact fun same => elsewhere (Option.some.inj same)
      · intro f member x waiting
        obtain rfl := List.mem_singleton.mp member
        have later := List.mem_append_right (if c = .idle then [] else [c]) waiting
        refine ⟨waits x waiting, (waits_iff inv').mpr ⟨later, states x later⟩, fun given => ?_⟩
        have same : a = x := Option.some.inj (roll'.current.symm.trans given.2)
        exact (List.nodup_cons.mp distinct).1 (same ▸ waiting)

/-- Two threads alternate and a third waits: every switch puts the preempted thread before
the waiting one. -/
theorem Rolling.bypass {a x y : Tid} {rest : List Tid} (roll : Rolling m (x :: y :: rest) a)
    (busy : a ≠ .idle) (ready : ∀ t ∈ x :: y :: rest, (m.sched.thread t).state = .ready) :
    ∃ h m', Timed m h m' ∧ ¬ Pairs Fair h := by
  have known : x ≠ .idle := by
    rintro rfl
    exact roll.inv.wf.idle_notMem List.mem_cons_self
  obtain ⟨d₁, h₁, m₁, timed₁, given₁, roll₁, ready₁, waits₁⟩ := roll.switch ready
  rw [if_neg busy] at roll₁ ready₁
  obtain ⟨d₂, h₂, m₂, timed₂, _, roll₂, ready₂, waits₂⟩ := Rolling.switch roll₁ ready₁
  rw [if_neg known] at roll₂ ready₂
  obtain ⟨d₃, h₃, m₃, timed₃, given₃, _, _, waits₃⟩ := Rolling.switch roll₂ ready₂
  refine ⟨_, m₃, (timed₁.trans timed₂).trans timed₃, fun fair => ?_⟩
  refine fair [] d₃ (h₃ ++ d₂ :: h₂) d₁ h₁ (by simp) ⟨y, x, given₁, given₃, fun f member => ?_⟩
  -- `y` stands behind the first thread of the queue at all three switches
  simp only [List.mem_cons, List.mem_append, List.not_mem_nil, or_false] at member
  rcases member with rfl | ((late | rfl | middle) | rfl)
  · exact waits₃ f (by simp) y (by simp)
  · exact waits₃ f (by simp [late]) y (by simp)
  · exact waits₂ f (by simp) y (by simp)
  · exact waits₂ f (by simp [middle]) y (by simp)
  · exact waits₁ f (by simp) y (by simp)

theorem exists_bypass (inv : Inv s q) (free : s.sched.locked = false)
    (three : 3 ≤ competitors s q) : ∃ h m, Timed s h m ∧ ¬ Pairs Fair h := by
  obtain ⟨h₀, m₀, q₀, c, timed₀, roll₀, ready₀⟩ := exists_all_ready inv free
  have many : 3 ≤ q₀.length + if c ≠ .idle then 1 else 0 := by
    obtain ⟨q', inv', _, count⟩ := kept_since inv timed₀.1 timed₀.2
    obtain rfl := inv'.chain.unique roll₀.inv.chain
    have busy : Competes m₀ ↔ c ≠ .idle := by
      rw [competes_iff roll₀.current, roll₀.running]
      simp
    rw [← count, competitors, if_congr busy rfl rfl] at three
    exact three
  cases q₀ with
  | nil => split at many <;> simp at many
  | cons a rest =>
    have known : a ≠ .idle := by
      rintro rfl
      exact roll₀.inv.wf.idle_notMem List.mem_cons_self
    obtain ⟨d, h₁, m₁, timed₁, _, roll₁, ready₁, _⟩ := roll₀.switch ready₀
    have two : 2 ≤ ((if c = .idle then [] else [c]) ++ rest).length := by
      split <;> simp_all
    generalize (if c = .idle then [] else [c]) ++ rest = q₁ at roll₁ ready₁ two
    match q₁, two with
    | x :: y :: rest, _ =>
      obtain ⟨h₂, m₂, timed₂, unfair⟩ := Rolling.bypass roll₁ known ready₁
      refine ⟨h₂ ++ _, m₂, (timed₀.trans timed₁).trans timed₂, fun fair => unfair ?_⟩
      exact fair.of_append

/-- From a reachable state ticks and yields bypass no ready thread, whatever they are, exactly
when the scheduler is locked or at most two threads compete for the CPU. -/
theorem no_bypass_iff {h₀ : List (Entry Machine Event)} (reached : Runs h₀ s) :
    (∀ h m, Run step (· = s) h m → (∀ f ∈ h, TickOrYield f.event) → Pairs Fair h) ↔
      s.sched.locked = true ∨ AtMostTwo s := by
  obtain ⟨q, inv⟩ := Runs.inv reached
  constructor
  · intro fair
    by_contra few
    rw [not_or, Bool.not_eq_true, atMostTwo_iff inv] at few
    obtain ⟨h, m, timed, unfair⟩ := exists_bypass inv few.1 (by omega)
    exact unfair (fair h m timed.1 timed.2)
  · exact fun few h m run only => fair_of_few inv few run only

theorem no_bypass_iff_two_threads : ∃ h₀ s, Runs h₀ s ∧ s.added = [.thread 1, .thread 0] ∧
    ((∀ h m, Run step (· = s) h m → (∀ f ∈ h, TickOrYield f.event) → Pairs Fair h) ↔
      s.sched.locked = true ∨ AtMostTwo s) := by
  obtain ⟨h₀, s, reached, ends⟩ := reaches (spawn 0 ++ spawn 1)
    (fun r => r.2.added = [.thread 1, .thread 0]) (by decide +kernel)
  exact ⟨h₀, s, reached, by simpa using ends, no_bypass_iff reached⟩

/-- `x` waits, with the run queue one of the given. -/
def waitsIn (qs : List (List Tid)) (x : Tid) (m : Machine) : Bool :=
  qs.any (fun q => Chain m.sched.next m.sched.runQueue q ∧ x ∈ q) &&
    (m.sched.thread x).state = .ready

theorem waits_of_waitsIn {qs : List (List Tid)} (found : waitsIn qs x m = true) : Waits x m := by
  simp only [waitsIn, Bool.and_eq_true, List.any_eq_true, decide_eq_true_eq] at found
  obtain ⟨⟨q, _, chain, member⟩, ready⟩ := found
  exact ⟨⟨q, chain, member⟩, ready⟩

/-- The last entry and the one `n + 1` before it dispatch `y` while `x` waits. -/
def bypassedAfter (n : Nat) (qs : List (List Tid)) (x y : Tid) :
    List (Entry Machine Event) → Bool
  | [] => false
  | d :: rest => dispatches y d && (rest.drop n).head?.any fun e => dispatches y e &&
      (d :: (rest.take n ++ [e])).all fun f =>
        waitsIn qs x f.pre && waitsIn qs x f.post && ! decide (dispatches x f)

theorem not_fair_of_bypassedAfter {n : Nat} {qs : List (List Tid)}
    (found : bypassedAfter n qs x y h = true) : ¬ Pairs Fair h := by
  cases h with
  | nil => cases found
  | cons d rest =>
    simp only [bypassedAfter, Bool.and_eq_true, Option.any_eq_true, decide_eq_true_eq,
      List.all_eq_true, Bool.not_eq_true', decide_eq_false_iff_not] at found
    obtain ⟨again, e, first, given, waits⟩ := found
    obtain ⟨before, tail⟩ := List.head?_eq_some_iff.mp first
    intro fair
    refine fair [] d (rest.take n) e before ?_ ⟨x, y, given, again, fun f member => ?_⟩
    · rw [← tail, List.take_append_drop]
      rfl
    · obtain ⟨⟨pre, post⟩, other⟩ := waits f member
      exact ⟨waits_of_waitsIn pre, waits_of_waitsIn post, other⟩

/-- Threads 0, 1 and 2 are ready. Of the next thirty ticks the tenth and the thirtieth
dispatch thread 2, while thread 0 waits. -/
theorem third_thread_bypassed : ∃ h₀ s h m, Runs h₀ s ∧ Run step (· = s) h m ∧
    (∀ f ∈ h, TickOrYield f.event) ∧ ¬ Pairs Fair h := by
  obtain ⟨h₀, s, h, m, reached, run, ends⟩ := reaches_from (spawn 0 ++ spawn 1 ++ spawn 2)
    (timers 30) (fun r => r.1.all (fun f => TickOrYield f.event) && bypassedAfter 19
      [[.thread 2, .thread 1, .thread 0], [.thread 1, .thread 0], [.thread 2, .thread 0]]
      (.thread 0) (.thread 2) r.1) (by decide +kernel)
  simp only [Bool.and_eq_true, List.all_eq_true, decide_eq_true_eq] at ends
  exact ⟨h₀, s, h, m, reached, run, ends.1, not_fair_of_bypassedAfter ends.2⟩

end DedOS
