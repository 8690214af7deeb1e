import DedOS.Scheduler.Scheduler

/-!
# The run queue as a list

`QSched` is the scheduler with its run queue as a list instead of links, and
`QSched.tick` is total. `schedulerTickIrq_refines` says that the pointer-level tick
follows it through the representation `Repr`.
-/

namespace DedOS

open Lib

/-- The scheduler's purpose, without pointers: a core and a list of waiting threads. -/
structure QSched extends Core where
  queue : List Tid

namespace QSched

def isReady (k : Core) (t : Tid) : Bool := (k.thread t).state = .ready

def isDead (k : Core) (t : Tid) : Bool := (k.thread t).state = .dead

@[simp] theorem isDead_threadDestroy (k : Core) (t : Tid) :
    isDead (k.threadDestroy t) = isDead k := rfl

/-- Wake every sleeper of the queue whose tick has come. -/
def wake (v : QSched) : QSched :=
  { v with toCore := v.toCore.wakeAll v.queue }

/-- Destroy the dead threads of the queue and keep the others. -/
def reap (v : QSched) : QSched :=
  { toCore := v.toCore.destroyAll (v.queue.filter (isDead v.toCore))
    queue := v.queue.filter fun t => !isDead v.toCore t }

def pick (v : QSched) : Option Tid × QSched :=
  match v.queue.find? (isReady v.toCore) with
  | some t => (some t, { v with queue := v.queue.erase t })
  | none => (none, v)

def requeue (v : QSched) (current : Tid) : QSched :=
  match (v.thread current).state with
  | .running =>
    { toCore := v.setThread current fun th =>
        { th with state := .ready, quantum := schedulerQuantum }
      queue := current :: v.queue }
  | .ready | .blocked => { v with queue := current :: v.queue }
  | .dead => v

def switchOut (v : QSched) (current : Tid) (frame : Registers) : QSched :=
  if current ≠ .idle then
    let v := v.requeue current
    { v with toCore := v.setThread current fun th =>
        { th with context := saveContext th.context frame } }
  else v

def reschedule (current : Tid) (frame : Registers) (v : QSched) : Registers × QSched :=
  let v' := v.pick.2.switchOut current frame
  let switched := v'.switchIn (v.pick.1.getD .idle) frame
  (switched.1, { v' with toCore := switched.2 })

/-- The work of a tick on the threads, before the quantum decides about a switch. -/
def account (current : Tid) (v : QSched) : QSched :=
  { v.wake.reap with toCore := v.wake.reap.chargeQuantum current }

def tick (frame : Registers) (v : QSched) : Registers × QSched :=
  match v.current with
  | none => (frame, v)
  | some current =>
    if v.locked then (frame, v)
    else if 0 < ((v.account current).thread current).quantum then (frame, v.account current)
    else (v.account current).reschedule current frame

end QSched

/-- The links of `s` thread exactly the queue of `v`, and the rest is equal. -/
structure Represents (s : Sched) (v : QSched) : Prop where
  core : s.toCore = v.toCore
  chain : Chain s.next s.runQueue v.queue

/-! ### The loops over the queue -/

theorem wakeLoop_spec (bound : Nat) (s : Sched) (t : Option Tid) (q : List Tid)
    (rest : Chain s.next t q) (enough : q.length ≤ bound) :
    wakeLoop bound t s = some (s.setCore (s.wakeAll q)) := by
  induction q generalizing bound t s with
  | nil =>
    obtain rfl := chain_nil.mp rest
    rw [Core.wakeAll_nil]
    cases bound <;> rfl
  | cons a q ih =>
    obtain ⟨rfl, tail⟩ := chain_cons.mp rest
    cases bound with
    | zero => simp at enough
    | succ bound =>
      have step := ih bound (s.setCore (s.wakeThread a)) (s.next a) tail (by simpa using enough)
      rw [wakeLoop, step, Core.wakeAll_cons]
      rfl

/-- Cutting `t` out of the queue behind the threads `kept`. -/
theorem unlink_spec (s : Sched) (t : Tid) (kept rest : List Tid)
    (whole : Chain s.next s.runQueue (kept ++ t :: rest)) :
    let s' := s.unlink kept.getLast? (s.next t)
    s'.toCore = s.toCore ∧ Seg s'.next s'.runQueue kept (s.next t) ∧
      Chain s'.next (s.next t) rest := by
  obtain ⟨mid, front, back⟩ := chain_append.mp whole
  obtain ⟨rfl, tail⟩ := chain_cons.mp back
  rcases List.eq_nil_or_concat kept with rfl | ⟨before, p, rfl⟩
  · exact ⟨rfl, .nil _, tail⟩
  · have distinct := whole.nodup
    simp only [List.concat_eq_append, List.append_assoc, List.singleton_append,
      List.nodup_append, List.nodup_cons, List.mem_cons, not_or] at distinct
    have fresh : p ∉ before := fun member => distinct.2.2 p member p (Or.inl rfl) rfl
    have out : p ∉ rest := distinct.2.1.1.2
    simp only [List.concat_eq_append, List.getLast?_append, List.getLast?_singleton,
      Option.some_or, Sched.unlink]
    rw [List.concat_eq_append] at front
    exact ⟨rfl, front.relink fresh, tail.update_notMem out⟩

/-- The reaping loop in the middle of its walk: the threads `kept` stand before `t`. -/
theorem reapLoop_spec (bound : Nat) (s : Sched) (t : Option Tid) (kept q : List Tid)
    (front : Seg s.next s.runQueue kept t) (rest : Chain s.next t q)
    (enough : q.length ≤ bound) :
    ∃ s', reapLoop bound kept.getLast? t s = some s' ∧
      s'.toCore = s.destroyAll (q.filter (QSched.isDead s.toCore)) ∧
      Chain s'.next s'.runQueue (kept ++ q.filter fun t => !QSched.isDead s.toCore t) := by
  induction q generalizing bound t s kept with
  | nil =>
    -- the end of the queue
    obtain rfl := chain_nil.mp rest
    refine ⟨s, by cases bound <;> rfl, rfl, ?_⟩
    rw [List.filter_nil, List.append_nil]
    exact front
  | cons a q ih =>
    obtain ⟨rfl, tail⟩ := chain_cons.mp rest
    cases bound with
    | zero => simp at enough
    | succ bound =>
      have enough' : q.length ≤ bound := by simpa using enough
      rw [reapLoop]
      by_cases dead : (s.thread a).state = .dead
      · -- a dead thread is cut out and destroyed
        have whole : Chain s.next s.runQueue (kept ++ a :: q) :=
          chain_append.mpr ⟨some a, front, rest⟩
        obtain ⟨core, front', tail'⟩ := unlink_spec s a kept q whole
        obtain ⟨s', run, core', chain'⟩ := ih bound
          ((s.unlink kept.getLast? (s.next a)).setCore
            ((s.unlink kept.getLast? (s.next a)).threadDestroy a))
          (s.next a) kept front' tail' enough'
        refine ⟨s', by rw [if_pos dead]; exact run, ?_, ?_⟩
        · rw [core', Sched.setCore_toCore, core, QSched.isDead_threadDestroy,
            List.filter_cons_of_pos (by simpa [QSched.isDead] using dead), Core.destroyAll_cons]
        · rw [List.filter_cons_of_neg (by simpa [QSched.isDead] using dead)]
          simpa [core] using chain'
      · -- any other is kept
        obtain ⟨s', run, core', chain'⟩ := ih bound s (s.next a) (kept ++ [a])
          (seg_append.mpr ⟨some a, front, by simp⟩) tail enough'
        refine ⟨s', ?_, ?_, ?_⟩
        · rw [if_neg dead]
          simpa using run
        · simpa [QSched.isDead, dead] using core'
        · simpa [QSched.isDead, dead] using chain'

/-- The selection loop in the middle of its walk: the threads `passed` are not ready. -/
theorem selectLoop_spec (bound : Nat) (s : Sched) (t : Option Tid) (passed q : List Tid)
    (front : Seg s.next s.runQueue passed t) (rest : Chain s.next t q)
    (enough : q.length ≤ bound) :
    ∃ s', selectLoop bound passed.getLast? t s =
        some (q.find? (QSched.isReady s.toCore), s') ∧
      s'.toCore = s.toCore ∧
      Chain s'.next s'.runQueue (passed ++
        match q.find? (QSched.isReady s.toCore) with
        | some r => q.erase r
        | none => q) := by
  induction q generalizing bound t passed with
  | nil =>
    -- no thread is ready, so the idle thread is chosen
    obtain rfl := chain_nil.mp rest
    refine ⟨s, by cases bound <;> rfl, rfl, ?_⟩
    rw [List.find?_nil, List.append_nil]
    exact front
  | cons a q ih =>
    obtain ⟨rfl, tail⟩ := chain_cons.mp rest
    cases bound with
    | zero => simp at enough
    | succ bound =>
      by_cases ready : (s.thread a).state = .ready
      · -- the first ready thread is cut out
        have whole : Chain s.next s.runQueue (passed ++ a :: q) :=
          chain_append.mpr ⟨some a, front, rest⟩
        obtain ⟨core, front', tail'⟩ := unlink_spec s a passed q whole
        refine ⟨s.unlink passed.getLast? (s.next a), ?_, core, ?_⟩
        · simp [selectLoop, ready, QSched.isReady]
        · have cut := chain_append.mpr ⟨_, front', tail'⟩
          rw [List.find?_cons_of_pos (by simpa [QSched.isReady] using ready)]
          simpa only [List.erase_cons_head] using cut
      · -- the walk goes on behind a thread that is not ready
        obtain ⟨s', run, core, chain⟩ := ih bound (s.next a) (passed ++ [a])
          (seg_append.mpr ⟨some a, front, by simp⟩) tail (by simpa using enough)
        have skip : q.find? (QSched.isReady s.toCore) =
            (a :: q).find? (QSched.isReady s.toCore) := by
          simp [QSched.isReady, ready]
        refine ⟨s', ?_, core, ?_⟩
        · rw [← skip, ← run]
          cases state : (s.thread a).state <;> simp_all [selectLoop]
        · rw [← skip]
          cases found : q.find? (QSched.isReady s.toCore) with
          | none => simpa [found] using chain
          | some r =>
            have differ : a ≠ r := by
              rintro rfl
              have holds := List.find?_some found
              simp [QSched.isReady, ready] at holds
            simpa [found, List.erase_cons_tail, differ] using chain

/-! ### The tick -/

theorem Represents.mk' {s : Sched} {q : List Tid} (chain : Chain s.next s.runQueue q) :
    Represents s ⟨s.toCore, q⟩ := ⟨rfl, chain⟩

theorem Represents.eq {s : Sched} {v : QSched} (rep : Represents s v) : v = ⟨s.toCore, v.queue⟩ := by
  rw [rep.core]

theorem Represents.push {s : Sched} {k : Core} {q : List Tid} {t : Tid}
    (rep : Represents s ⟨k, q⟩) (out : t ∉ q) : Represents (s.pushQueue t) ⟨k, t :: q⟩ :=
  ⟨rep.core, rep.chain.push out⟩

theorem requeue_refines {s : Sched} {v : QSched} {c : Tid} (rep : Represents s v)
    (out : c ∉ v.queue) : Represents (s.requeue c) (v.requeue c) := by
  rw [rep.eq] at out ⊢
  have base : Represents s ⟨s.toCore, v.queue⟩ := .mk' rep.chain
  unfold Sched.requeue QSched.requeue
  cases (s.thread c).state with
  | running => exact Represents.push (.mk' rep.chain) out
  | ready => exact base.push out
  | blocked => exact base.push out
  | dead => exact base

theorem mem_pick {v : QSched} {t : Tid} (member : t ∈ v.pick.2.queue) : t ∈ v.queue := by
  unfold QSched.pick at member
  split at member
  · exact List.mem_of_mem_erase member
  · exact member

theorem switchOut_refines {s : Sched} {v : QSched} {c : Tid} (frame : Registers)
    (rep : Represents s v) (out : c ∉ v.queue) :
    Represents (s.switchOut c frame) (v.switchOut c frame) := by
  unfold Sched.switchOut QSched.switchOut
  by_cases idle : c = .idle
  · simpa [idle] using rep
  · have queued := requeue_refines rep out
    simp only [ne_eq, idle, not_false_eq_true, if_true]
    exact ⟨by simp [queued.core], queued.chain⟩

theorem pick_refines {s : Sched} {v : QSched} (rep : Represents s v)
    (fits : v.queue.length ≤ v.nextTid) :
    ∃ s', selectLoop s.loopBound none s.runQueue s = some (v.pick.1, s') ∧
      Represents s' v.pick.2 := by
  have bound : v.queue.length ≤ s.loopBound := by
    rw [Sched.loopBound, rep.core]
    exact fits
  obtain ⟨s', run, core, chain⟩ :=
    selectLoop_spec s.loopBound s s.runQueue [] v.queue (.nil _) rep.chain bound
  rw [rep.core] at run chain core
  refine ⟨s', ?_, ?_⟩
  · rw [List.getLast?_nil] at run
    rw [run, QSched.pick]
    cases v.queue.find? (QSched.isReady v.toCore) <;> rfl
  · rw [QSched.pick]
    cases found : v.queue.find? (QSched.isReady v.toCore) with
    | none => exact ⟨core, by simpa [found] using chain⟩
    | some r => exact ⟨core, by simpa [found] using chain⟩

theorem reschedule_refines {s : Sched} {v : QSched} {c : Tid} (frame : Registers)
    (rep : Represents s v) (fits : v.queue.length ≤ v.nextTid) (out : c ∉ v.queue) :
    ∃ s', reschedule c frame s = some ((v.reschedule c frame).1, s') ∧
      Represents s' (v.reschedule c frame).2 := by
  obtain ⟨s', run, picked⟩ := pick_refines rep fits
  have switched := switchOut_refines frame picked fun member => out (mem_pick member)
  refine ⟨(s'.switchOut c frame).setCore
    ((s'.switchOut c frame).switchIn (v.pick.1.getD .idle) frame).2, ?_, ?_, switched.chain⟩
  · simp [reschedule, run, QSched.reschedule, switched.core]
  · simp [QSched.reschedule, switched.core]

theorem account_refines {s : Sched} {v : QSched} (c : Tid) (rep : Represents s v)
    (fits : v.queue.length ≤ v.nextTid) :
    ∃ s₁ s₂, wakeLoop s.loopBound s.runQueue s = some s₁ ∧
      reapLoop s₁.loopBound none s₁.runQueue s₁ = some s₂ ∧
      Represents (s₂.setCore (s₂.chargeQuantum c)) (v.account c) := by
  have bound : v.queue.length ≤ s.loopBound := by
    rw [Sched.loopBound, rep.core]
    exact fits
  have woke := wakeLoop_spec s.loopBound s s.runQueue v.queue rep.chain bound
  obtain ⟨s₂, reaped, core, chain⟩ := reapLoop_spec s.loopBound
    (s.setCore (s.wakeAll v.queue)) s.runQueue [] v.queue (.nil _) rep.chain bound
  refine ⟨_, s₂, woke, reaped, ?_, ?_⟩
  · simp [QSched.account, QSched.reap, QSched.wake, core, rep.core]
  · simpa [QSched.account, QSched.reap, QSched.wake, rep.core] using chain

/-- A tick of the pointer-level scheduler returns and does what the list-level tick
does. It needs only that the current thread is not queued and that the loops'
bound covers the queue. -/
theorem schedulerTickIrq_refines {s : Sched} {v : QSched} (frame : Registers)
    (rep : Represents s v) (fits : v.queue.length ≤ v.nextTid)
    (away : ∀ c, v.current = some c → c ∉ v.queue) :
    ∃ s', schedulerTickIrq frame s = some ((v.tick frame).1, s') ∧
      Represents s' (v.tick frame).2 := by
  have current : s.current = v.current := congrArg Core.current rep.core
  have locked : s.locked = v.locked := congrArg Core.locked rep.core
  unfold schedulerTickIrq QSched.tick
  rw [current, locked]
  cases hc : v.current with
  | none => exact ⟨s, rfl, rep⟩
  | some c =>
    cases v.locked with
    | true => exact ⟨s, rfl, rep⟩
    | false =>
      obtain ⟨s₁, s₂, woke, reaped, accounted⟩ := account_refines c rep fits
      have quantum : ((s₂.setCore (s₂.chargeQuantum c)).thread c).quantum =
          ((v.account c).thread c).quantum := by rw [accounted.core]
      simp only [woke, reaped, Option.bind_eq_bind, Option.bind_some, Bool.false_eq_true,
        if_false, quantum]
      split
      · exact ⟨_, rfl, accounted⟩
      · have charged : (v.account c).nextTid = v.nextTid := by
          rw [QSched.account, Core.chargeQuantum_eq]
          rfl
        have shorter : (v.account c).queue.length ≤ v.queue.length := List.length_filter_le ..
        exact reschedule_refines frame accounted (by omega) fun member =>
          away c hc (List.mem_of_mem_filter member)

end DedOS
