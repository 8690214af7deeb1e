import DedOS.Scheduler.Invariant

/-!
# Safety of the run queue, and the threads it loses

`run_queue_safe`: through every run the run queue stays a list of distinct waiting
threads, and every added thread that has not exited is in exactly one place.

`all_accounted_iff`: an exited thread is lost exactly when the tick that switches away
from it is reached: the re-queue switch leaves a `DEAD` thread out of the queue, and the
reaping loop only looks there.
-/

namespace DedOS

open Lib Machine

variable {h : List (Entry Machine Event)} {m m' : Machine} {q q' : List Tid} {e : Event} {t : Tid}

/-- A step that gives the CPU to `t` finds it ready once its wake loop is done. -/
theorem dispatched_ready (run : Runs h m) {e : Entry Machine Event} (member : e ∈ h)
    (given : dispatches t e) :
    (t = .idle ∧ (e.pre.sched.thread t).state ≠ .blocked ∧
      (e.pre.sched.thread t).state ≠ .dead) ∨
    ((e.pre.sched.thread t).wokenAt (e.pre.sched.timerTicks + 1)).state = .ready := by
  obtain ⟨before, runBefore, taken⟩ := run.mem member
  obtain ⟨q, inv⟩ := Runs.inv runBefore
  obtain ⟨q', eff, _⟩ := inv.step taken
  obtain ⟨regs, c, _, hc, _, _, switched⟩ := eff.switch inv.wf fun same =>
    given.1 (same.symm.trans given.2)
  have acc := inv.wf.clock.account_accounted c
  have chosen := QSched.selected_cases ((e.pre.view q).clock.account c)
  rw [Option.some.inj (switched.current.symm.trans given.2)] at chosen
  rcases chosen with ⟨idle, _⟩ | ⟨queued, ready⟩
  · left
    refine ⟨idle, ?_⟩
    rw [idle]
    rcases inv.wf.idle with state | state <;> simp [view_toCore] at state <;> simp [state]
  · right
    rw [acc.queue] at queued
    rw [acc.state, if_congr (and_iff_right queued) rfl rfl] at ready
    rw [Thread.wokenAt_state]
    exact ready

/-- What the scheduler promises about its queue `q` after the run `h`. -/
structure QueueSafe (h : List (Entry Machine Event)) (m : Machine) (q : List Tid) : Prop where
  /-- following the links from `run_queue` visits `q` and ends -/
  list : Chain m.sched.next m.sched.runQueue q
  distinct : q.Nodup
  notCurrent : ∀ c, m.sched.current = some c → c ∉ q
  notIdle : Tid.idle ∉ q
  notRunning : ∀ t ∈ q, (m.sched.thread t).state ≠ .running
  /-- an added thread that has not called `thread_exit` is in exactly one place -/
  onePlace : ∀ t ∈ m.added, t ∉ m.exited →
    (m.sched.current = some t ∧ q.count t = 0) ∨ (m.sched.current ≠ some t ∧ q.count t = 1)
  /-- after the wake loop of its tick, a dispatched thread is neither blocked nor dead -/
  dispatched : ∀ e ∈ h, ∀ t, dispatches t e →
    ((e.pre.sched.thread t).wokenAt (e.pre.sched.timerTicks + 1)).state ≠ .blocked ∧
    ((e.pre.sched.thread t).wokenAt (e.pre.sched.timerTicks + 1)).state ≠ .dead
  /-- the loops of the next tick end -/
  returns : ∀ regs, (vector32 regs m.sched).isSome

/-- The run queue invariant of the scheduler, over every run. -/
theorem run_queue_safe (run : Runs h m) : ∃ q, QueueSafe h m q := by
  obtain ⟨q, inv⟩ := Runs.inv run
  refine ⟨q, inv.chain, inv.wf.distinct, fun _ => inv.wf.away, inv.wf.idle_notMem, ?_, ?_, ?_, ?_⟩
  · intro t member
    rcases inv.wf.waiting t member with state | state <;>
      simp [view_toCore] at state <;> simp [state]
  · intro t member alive
    rcases inv.wf.placed t member alive with current | queued
    · exact Or.inl ⟨current, List.count_eq_zero.mpr (inv.wf.away current)⟩
    · right
      refine ⟨fun current => inv.wf.away current queued, ?_⟩
      exact List.count_eq_one_of_mem inv.wf.distinct queued
  · intro e member t given
    rcases dispatched_ready run member given with ⟨rfl, awake, alive⟩ | ready
    · rw [Thread.wokenAt_state, if_neg fun due => awake due.1]
      exact ⟨awake, alive⟩
    · simp [ready]
  · intro regs
    obtain ⟨s', run', _⟩ := vector32_refines regs inv.represents inv.wf
    simp [run']

/-! ### A machine to run on -/

/-- The scheduler's statics at boot, before `scheduler_init`. -/
def staticSched : Sched :=
  { thread := fun _ => .zero, current := none, locked := false, timerTicks := 0, nextTid := 0
    tssRsp0 := 0, destroyed := [], next := fun _ => none, runQueue := none }

def bootMachine : Machine :=
  { sched := schedulerInit 0xffffffff80001000 0xffffffff80100000 staticSched, frame := .zero
    pending := fun _ => [], added := [], exited := [], hwTimer := 0 }

theorem bootMachine_booted : Booted bootMachine :=
  ⟨_, _, staticSched, rfl, rfl, rfl, rfl, rfl, rfl, fun _ => rfl, rfl, rfl⟩

/-- Evaluate events from boot to exhibit a run that ends as `p` says. -/
theorem reaches (es : List Event) (p : List (Entry Machine Event) × Machine → Bool)
    (holds : (perform step es [] bootMachine).map p = some true) :
    ∃ h m, Runs h m ∧ p (h, m) = true :=
  Run.exists_of_perform es p bootMachine_booted holds

/-- Evaluate events from boot in two parts. -/
theorem reaches_from (es₁ es₂ : List Event) (p : List (Entry Machine Event) × Machine → Bool)
    (holds : ((perform step es₁ [] bootMachine).bind fun r =>
      (perform step es₂ [] r.2).map p) = some true) :
    ∃ h₁ s h₂ m, Runs h₁ s ∧ Run step (· = s) h₂ m ∧ p (h₂, m) = true :=
  Run.exists_of_perform_from es₁ es₂ p bootMachine_booted holds

def timers (n : Nat) : List Event := List.replicate n (.timer .zero)

/-- `thread_create` and `scheduler_add_thread` of the `n`-th thread. -/
def spawn (n : Nat) : List Event :=
  [.call (.create 0 (0xffffffff80002000 + 0x100 * UInt64.ofNat n) true
    (some (0xffff800000100000 + 0x1000 * UInt64.ofNat n))), .call (.add (.thread n))]

def yields : List Event := [.call .yield, .resume .zero, .resume .zero]

def sleeps (ms : UInt64) : List Event := [.call (.sleep ms), .resume .zero, .resume .zero]

def exits : List Event := [.call .exit, .resume .zero, .resume .zero]

/-- A run with two threads, a sleep, a yield and an exit, and its queue. -/
theorem run_queue_safe_two_threads : ∃ h m, Runs h m ∧
    m.added = [.thread 1, .thread 0] ∧ m.exited = [.thread 0] ∧ ∃ q, QueueSafe h m q := by
  obtain ⟨h, m, run, ends⟩ := reaches
    (spawn 0 ++ spawn 1 ++ timers 10 ++ sleeps 5 ++ exits)
    (fun r => r.2.added = [.thread 1, .thread 0] && r.2.exited = [.thread 0]) (by decide +kernel)
  simp only [Bool.and_eq_true, decide_eq_true_eq] at ends
  exact ⟨h, m, run, ends.1, ends.2, run_queue_safe run⟩

/-! ### Exited threads -/

/-- The event enters `isr_handler` through vector 32. -/
def entersTick (m : Machine) : Event → Prop
  | .timer _ => True
  | .resume _ => ∃ t rest, m.sched.current = some t ∧ m.pending t = .raise :: rest
  | .call _ => False

/-- The step is a tick, not held off by the scheduler lock, that finds the current thread
dead and its quantum used up. -/
def DropsDead (e : Entry Machine Event) : Prop :=
  entersTick e.pre e.event ∧ e.pre.sched.locked = false ∧
    ∃ c, e.pre.sched.current = some c ∧ (e.pre.sched.thread c).state = .dead ∧
      (e.pre.sched.thread c).quantum ≤ 1

/-- Every added thread is current, or queued, or was destroyed, exactly once in all. -/
def AllAccounted (m : Machine) : Prop :=
  ∃ q, Chain m.sched.next m.sched.runQueue q ∧ ∀ t ∈ m.added,
    (if m.sched.current = some t then 1 else 0) + q.count t + m.sched.destroyed.count t = 1

/-- All added threads, the exited ones included, are current or queued. -/
def AllPlaced (m : Machine) (q : List Tid) : Prop :=
  ∀ t ∈ m.added, m.sched.current = some t ∨ t ∈ q

/-- `t` was added, and neither the CPU nor the queue knows it any more. -/
def Lost (m : Machine) (q : List Tid) (t : Tid) : Prop :=
  t ∈ m.added ∧ m.sched.current ≠ some t ∧ t ∉ q

theorem allAccounted_iff (inv : Inv m q) : AllAccounted m ↔ AllPlaced m q := by
  have kept : m.sched.destroyed = [] := inv.wf.kept
  have counts : ∀ t, q.count t = if t ∈ q then 1 else 0 := by
    intro t
    split
    next member => exact List.count_eq_one_of_mem inv.wf.distinct member
    next out => exact List.count_eq_zero.mpr out
  have apart : ∀ t, m.sched.current = some t → t ∉ q := fun t => inv.wf.away
  constructor
  · rintro ⟨q', chain, counted⟩ t member
    obtain rfl := inv.chain.unique chain
    have one := counted t member
    rw [kept, counts] at one
    by_cases current : m.sched.current = some t
    · exact Or.inl current
    · right
      by_contra out
      simp [current, out] at one
  · intro placed
    refine ⟨q, inv.chain, fun t member => ?_⟩
    rw [kept, counts]
    rcases placed t member with current | queued
    · simp [current, apart t current]
    · have other : m.sched.current ≠ some t := fun current => apart t current queued
      simp [other, queued]

/-- Where a step moves threads: nowhere, a new thread into the queue, or a switch. -/
inductive Moves (m : Machine) (v : QSched) (e : Event) (m' : Machine) (v' : QSched) : Prop
  | stays : m'.added = m.added → v'.current = v.current → v'.queue = v.queue →
      ¬ DropsDead ⟨m, e, m'⟩ → Moves m v e m' v'
  | joins (u : Tid) : m'.added = u :: m.added → u ∉ m.added → v'.current = v.current →
      v'.queue = u :: v.queue → ¬ DropsDead ⟨m, e, m'⟩ → Moves m v e m' v'
  | switches (c sel : Tid) : m'.added = m.added → v.current = some c → v'.current = some sel →
      sel = .idle ∨ sel ∈ v.queue →
      v'.queue = (if c ≠ .idle ∧ (v.thread c).state ≠ .dead then [c] else []) ++
        v.queue.erase sel →
      (DropsDead ⟨m, e, m'⟩ ↔ (v.thread c).state = .dead) → Moves m v e m' v'

theorem effect_moves {v v' : QSched} (eff : Effect m v e m' v') (wf : v.WF m.added m.exited)
    (view : v.toCore = m.sched.toCore) : Moves m v e m' v' := by
  obtain ⟨c, hc, _⟩ := wf.current
  have current : m.sched.current = some c := by rw [← view]; exact hc
  have acc := wf.clock.account_accounted c
  have away : c ∉ v.queue := wf.away hc
  -- the three outcomes of an interrupt that `e` raises and that leaves `added` alone
  have ticked : ∀ regs, entersTick m e → m'.added = m.added → v' = (v.interrupt regs).2 →
      Moves m v e m' v' := by
    intro regs enters same hv
    rcases wf.interrupt_cases hc regs with ⟨locked, out⟩ | ⟨_, more, out⟩ | ⟨free, spent, sw⟩
    · refine .stays same (by rw [hv, out]; rfl) (by rw [hv, out]; rfl) ?_
      rintro ⟨_, unlocked, _⟩
      rw [view] at locked
      simp [locked] at unlocked
    · refine .stays same (by rw [hv, out]; exact acc.current)
        (by rw [hv, out]; exact acc.queue) ?_
      rintro ⟨_, _, d, hd, _, used⟩
      obtain rfl := Option.some.inj (current.symm.trans hd)
      rw [view] at more
      exact Nat.not_le.mpr more used
    · refine .switches c (v.clock.account c).selected same hc ?_ ?_ ?_ ?_
      · rw [hv]
        exact sw.current
      · exact (QSched.selected_known _).imp_right fun chosen => acc.queue ▸ chosen
      · have state : ((v.clock.account c).thread c).state = (v.thread c).state := by
          rw [acc.state, if_neg fun member => away member.1]
          rfl
        have requeued : (v.clock.account c).Requeued c ↔
            c ≠ .idle ∧ (v.thread c).state ≠ .dead := by rw [QSched.Requeued, state]
        rw [hv, sw.queue, acc.queue, if_congr requeued rfl rfl]
        rfl
      · constructor
        · rintro ⟨_, _, d, hd, dead, _⟩
          obtain rfl := Option.some.inj (current.symm.trans hd)
          rw [view]
          exact dead
        · intro dead
          rw [view] at dead free spent
          exact ⟨enters, free, c, current, dead, spent⟩
  have quiet : ∀ t op rest, v.current = some t → m.pending t = op :: rest → op ≠ .raise →
      ∀ regs, ¬ DropsDead ⟨m, .resume regs, m'⟩ := by
    rintro t op rest ht todo other regs ⟨⟨d, rest', hd, raised⟩, _⟩
    rw [view] at ht
    obtain rfl := Option.some.inj (ht.symm.trans hd)
    rw [raised] at todo
    exact other (List.cons.inj todo).1.symm
  cases eff with
  | timer regs s => exact ticked regs trivial rfl rfl
  | raise regs t rest s ht todo =>
    exact ticked regs ⟨t, rest, by rw [← view]; exact ht, todo⟩ rfl rfl
  | drop regs t rest s ht todo =>
    exact .stays rfl rfl rfl (quiet t _ rest ht todo (by simp) regs)
  | halt regs t rest ht todo =>
    exact .stays rfl rfl rfl (quiet t _ rest ht todo (by simp) regs)
  | add u s made new => exact .joins u rfl new rfl rfl fun drops => drops.1
  | create proc entry object stack s =>
    refine .stays rfl ?_ rfl fun drops => drops.1
    cases object with
    | false => rfl
    | true => cases stack <;> rfl
  | _ => exact .stays rfl rfl rfl fun drops => drops.1

theorem step_placed (inv : Inv m q) (eff : Effect m (m.view q) e m' (m'.view q'))
    (keeps : ¬ DropsDead ⟨m, e, m'⟩) (placed : AllPlaced m q) : AllPlaced m' q' := by
  intro t member
  change (m'.view q').current = some t ∨ t ∈ (m'.view q').queue
  cases effect_moves eff inv.wf rfl with
  | stays added current queue _ =>
    rw [current, queue]
    exact placed t (added ▸ member)
  | joins u added _ current queue _ =>
    rw [current, queue]
    rw [added] at member
    rcases List.mem_cons.mp member with rfl | old
    · exact Or.inr List.mem_cons_self
    · exact (placed t old).imp id (List.mem_cons_of_mem u)
  | switches c sel added hc hsel _ queue drops =>
    rw [hsel, queue]
    by_cases same : t = sel
    · exact Or.inl (same ▸ rfl)
    · right
      rw [added] at member
      rcases placed t member with current | queued
      · obtain rfl := Option.some.inj (hc.symm.trans current)
        have busy : c ≠ .idle := by
          rintro rfl
          exact inv.wf.made _ member
        have alive : ((m.view q).thread c).state ≠ .dead := fun dead => keeps (drops.mpr dead)
        rw [if_pos ⟨busy, alive⟩]
        exact List.mem_append_left _ (List.mem_singleton_self c)
      · refine List.mem_append_right _ ?_
        exact (List.mem_erase_of_ne same).mpr queued

theorem step_drops (inv : Inv m q) (eff : Effect m (m.view q) e m' (m'.view q'))
    (drop : DropsDead ⟨m, e, m'⟩) : ∃ t, Lost m' q' t := by
  cases effect_moves eff inv.wf rfl with
  | stays _ _ _ keeps => exact absurd drop keeps
  | joins _ _ _ _ _ keeps => exact absurd drop keeps
  | switches c sel added hc hsel known queue drops =>
    have dead := drops.mp drop
    have out : c ∉ q := inv.wf.away hc
    have busy : c ≠ .idle := by
      rintro rfl
      rcases inv.wf.idle with state | state <;> rw [dead] at state <;> cases state
    obtain ⟨d, hd, _, owner⟩ := inv.wf.current
    obtain rfl := Option.some.inj (hc.symm.trans hd)
    refine ⟨c, added ▸ owner.resolve_left busy, ?_, ?_⟩
    · change (m'.view q').current ≠ some c
      rw [hsel]
      rintro same
      obtain rfl := Option.some.inj same
      exact known.elim busy out
    · change c ∉ (m'.view q').queue
      rw [queue]
      simp only [dead, ne_eq, not_true_eq_false, and_false, if_false, List.nil_append]
      exact fun member => out (List.mem_of_mem_erase member)

theorem step_lost (inv : Inv m q) (eff : Effect m (m.view q) e m' (m'.view q'))
    (lost : Lost m q t) : Lost m' q' t := by
  obtain ⟨member, other, out⟩ := lost
  change t ∈ m'.added ∧ (m'.view q').current ≠ some t ∧ t ∉ (m'.view q').queue
  cases effect_moves eff inv.wf rfl with
  | stays added current queue _ =>
    rw [added, current, queue]
    exact ⟨member, other, out⟩
  | joins u added new current queue _ =>
    rw [added, current, queue]
    refine ⟨List.mem_cons_of_mem u member, other, fun here => ?_⟩
    rcases List.mem_cons.mp here with rfl | old
    · exact new member
    · exact out old
  | switches c sel added hc hsel known queue _ =>
    rw [added, hsel, queue]
    refine ⟨member, ?_, fun here => ?_⟩
    · rintro same
      obtain rfl := Option.some.inj same
      rcases known with rfl | queued
      · exact inv.wf.made _ member
      · exact out queued
    · rcases List.mem_append.mp here with self | rest
      · split at self
        · obtain rfl := List.mem_singleton.mp self
          exact other hc
        · cases self
      · exact out (List.mem_of_mem_erase rest)

/-- A run loses no thread exactly when none of its ticks switches away from a dead one.
The reaping loop never helps: no dead thread ever reaches the queue it scans. -/
theorem all_accounted_iff (run : Runs h m) : AllAccounted m ↔ ∀ e ∈ h, ¬ DropsDead e := by
  have both : ∃ q, Inv m q ∧ ((∀ e ∈ h, ¬ DropsDead e) → AllPlaced m q) ∧
      ((∃ e ∈ h, DropsDead e) → ∃ t, Lost m q t) := by
    refine Run.history (P := fun h m => ∃ q, Inv m q ∧
      ((∀ e ∈ h, ¬ DropsDead e) → AllPlaced m q) ∧
      ((∃ e ∈ h, DropsDead e) → ∃ t, Lost m q t)) ?_ ?_ run
    · intro m booted
      refine ⟨[], booted.inv, fun _ t member => ?_, by simp⟩
      obtain ⟨_, _, _, _, _, _, _, _, _, _, none, _⟩ := booted
      simp [none] at member
    · rintro h m e m' _ ⟨q, inv, keeps, loses⟩ taken
      obtain ⟨q', eff, inv'⟩ := inv.step taken
      refine ⟨q', inv', fun all => ?_, ?_⟩
      · have before := keeps fun e member => all e (List.mem_cons_of_mem _ member)
        exact step_placed inv eff (all _ List.mem_cons_self) before
      · rintro ⟨d, member, drop⟩
        rcases List.mem_cons.mp member with rfl | old
        · exact step_drops inv eff drop
        · obtain ⟨t, lost⟩ := loses ⟨d, old, drop⟩
          exact ⟨t, step_lost inv eff lost⟩
  obtain ⟨q, inv, keeps, loses⟩ := both
  rw [allAccounted_iff inv]
  constructor
  · intro placed e member drop
    obtain ⟨t, added, other, out⟩ := loses ⟨e, member, drop⟩
    exact (placed t added).elim other out
  · exact keeps

theorem all_accounted_iff_one_exit : ∃ h m, Runs h m ∧ m.exited = [.thread 0] ∧
    (AllAccounted m ↔ ∀ e ∈ h, ¬ DropsDead e) := by
  obtain ⟨h, m, run, ends⟩ := reaches
    (spawn 0 ++ timers 10 ++ exits)
    (fun r => r.2.exited = [.thread 0]) (by decide +kernel)
  exact ⟨h, m, run, by simpa using ends, all_accounted_iff run⟩

/-- The first thread runs, exits and is switched away from: nothing refers to it any
more, and it was not destroyed. -/
theorem exited_thread_lost : ∃ h m, Runs h m ∧ ¬ AllAccounted m := by
  obtain ⟨h, m, run, ends⟩ := reaches
    (spawn 0 ++ timers 10 ++ exits)
    (fun r => r.2.added = [.thread 0] && r.2.sched.current = some .idle &&
      r.2.sched.runQueue = none && r.2.sched.destroyed = []) (by decide +kernel)
  simp only [Bool.and_eq_true, decide_eq_true_eq] at ends
  obtain ⟨⟨⟨added, current⟩, empty⟩, kept⟩ := ends
  refine ⟨h, m, run, ?_⟩
  rintro ⟨q, chain, counted⟩
  have one := counted (.thread 0) (by simp [added])
  rw [empty] at chain
  obtain rfl := chain.unique (Lib.chain_nil.mpr rfl)
  simp [current, kept] at one

end DedOS
