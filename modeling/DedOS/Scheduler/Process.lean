import Mathlib.Algebra.Group.Nat.Defs
import Mathlib.Data.List.Nodup
import Mathlib.Data.List.Range
import DedOS.Scheduler.Scheduler

/-!
# Processes, and who gets which identifier

`process_create` and `thread_create` number what they make from counters of their own, both
starting at 0. `scheduler_init` gives the idle thread the largest identifier and the idle
process the first one.
-/

namespace DedOS

inductive ProcessState where
  | running
  | dead
  deriving DecidableEq, Repr

/-- `process_t`. Only the first 64 bytes of `name` are part of it. -/
structure Process where
  pid : UInt64
  name : Nat → UInt8
  state : ProcessState
  next : UInt64

/-- An all-zero `process_t`, as the static `idle_process` is at first. -/
def Process.zero : Process := { pid := 0, name := fun _ => 0, state := .running, next := 0 }

/-- The loop of `process_create` from index `i`, which is `room` short of 63, and the
assignment behind it. -/
def copyName (name : Nat → UInt8) : Nat → Nat → (Nat → UInt8) → Nat → UInt8
  | i, 0, field => Function.update field i 0
  | i, room + 1, field =>
    if name i ≠ 0 then copyName name (i + 1) room (Function.update field i (name i))
    else Function.update field i 0

/-- `process_create`. `object` is what the memory of the new `process_t` holds, `none` if
`kmalloc` fails. The second part is the next `next_pid`. -/
def processCreate (name : Nat → UInt8) (object : Option Process) (nextPid : UInt64) :
    Option Process × UInt64 :=
  match object with
  | none => (none, nextPid)
  | some object =>
    (some { pid := nextPid, state := .running, next := 0, name := copyName name 0 63 object.name },
      nextPid + 1)

/-- `field` holds the text of `name` from `low` on, cut at `limit` and closed by a NUL. -/
def HoldsName (name field : Nat → UInt8) (low limit : Nat) : Prop :=
  ∃ n, low ≤ n ∧ n ≤ limit ∧ (∀ i, low ≤ i → i < n → field i = name i ∧ name i ≠ 0) ∧
    field n = 0 ∧ (n = limit ∨ name n = 0)

theorem copyName_before {name field : Nat → UInt8} {i room j : Nat} (before : j < i) :
    copyName name i room field j = field j := by
  induction room generalizing i field with
  | zero => simp [copyName, Nat.ne_of_lt before]
  | succ room ih =>
    rw [copyName]
    split
    · rw [ih (Nat.lt_succ_of_lt before), Function.update_of_ne (Nat.ne_of_lt before)]
    · simp [Nat.ne_of_lt before]

/-- The name field ends up as a string of at most 63 bytes. -/
theorem copyName_holds (name field : Nat → UInt8) (i room : Nat) :
    HoldsName name (copyName name i room field) i (i + room) := by
  induction room generalizing i field with
  | zero =>
    refine ⟨i, Nat.le_refl _, Nat.le_refl _, ?_, by simp [copyName], Or.inl rfl⟩
    intro j above below
    omega
  | succ room ih =>
    rw [copyName]
    split
    next more =>
      obtain ⟨n, above, below, same, closed, why⟩ := ih (Function.update field i (name i)) (i + 1)
      refine ⟨n, by omega, by omega, ?_, closed, ?_⟩
      · intro j low high
        cases Nat.eq_or_lt_of_le low with
        | inl here =>
          subst here
          rw [copyName_before (Nat.lt_succ_self _), Function.update_self]
          exact ⟨rfl, more⟩
        | inr later => exact same j later high
      · rcases why with full | ended
        · exact Or.inl (by omega)
        · exact Or.inr ended
    next ended =>
      refine ⟨i, Nat.le_refl _, by omega, ?_, by simp, Or.inr (not_not.mp ended)⟩
      intro j low high
      omega

/-! ### Sequences of calls -/

inductive SetupCall where
  | schedulerInit (idleFn rsp : UInt64)
  | processCreate (name : Nat → UInt8) (object : Option Process)
  | threadCreate (proc entry : UInt64) (object : Bool) (stack : Option UInt64)

namespace SetupCall

inductive Kind where
  | schedulerInit
  | processCreate
  | threadCreate
  deriving DecidableEq

def kind : SetupCall → Kind
  | schedulerInit .. => .schedulerInit
  | processCreate .. => .processCreate
  | threadCreate .. => .threadCreate

/-- A call of `process_create` that gets its memory. -/
def makesProcess : SetupCall → Bool
  | processCreate _ object => object.isSome
  | _ => false

/-- A call of `thread_create` that gets its memory. -/
def makesThread : SetupCall → Bool
  | threadCreate _ _ object stack => object && stack.isSome
  | _ => false

end SetupCall

/-- The scheduler, the statics `idle_process` and `next_pid`, and the processes made so far. -/
structure Setup where
  sched : Sched
  idleProcess : Process
  nextPid : UInt64
  processes : List Process

namespace Setup

/-- Before the first call all statics are zero. -/
def bss : Setup where
  sched :=
    { thread := fun _ => Thread.zero, current := none, locked := false, timerTicks := 0
      nextTid := 0, tssRsp0 := 0, destroyed := [], next := fun _ => none, runQueue := none }
  idleProcess := Process.zero
  nextPid := 0
  processes := []

def exec (s : Setup) : SetupCall → Setup
  | .schedulerInit idleFn rsp =>
    { s with
      sched := DedOS.schedulerInit idleFn rsp s.sched
      idleProcess := { s.idleProcess with pid := 0, state := .running } }
  | .processCreate name object =>
    let (made, nextPid) := DedOS.processCreate name object s.nextPid
    { s with nextPid := nextPid, processes := s.processes ++ made.toList }
  | .threadCreate proc entry object stack =>
    { s with sched := s.sched.setCore (s.sched.threadCreate proc entry object stack).2 }

def run (calls : List SetupCall) : Setup := calls.foldl exec bss

/-- `idle_process` and every process made. -/
def pids (s : Setup) : List UInt64 := s.idleProcess.pid :: s.processes.map (·.pid)

/-- `idle_thread` and every thread made. -/
def tids (s : Setup) : List UInt64 :=
  (s.sched.thread .idle).id ::
    (List.range s.sched.nextTid).map fun n => (s.sched.thread (.thread n)).id

def UniqueIds (s : Setup) : Prop := s.pids.Nodup ∧ s.tids.Nodup

instance (s : Setup) : Decidable s.UniqueIds := inferInstanceAs (Decidable (_ ∧ _))

/-- The first `n` numbers of a 64-bit counter. -/
def firstIds (n : Nat) : List UInt64 := (List.range n).map UInt64.ofNat

theorem firstIds_succ (n : Nat) : firstIds (n + 1) = firstIds n ++ [UInt64.ofNat n] := by
  simp [firstIds, List.range_succ]

theorem toNat_ofNat {n : Nat} (small : n < 2 ^ 64) : (UInt64.ofNat n).toNat = n :=
  UInt64.toNat_ofNat_of_lt' small

/-- A counter does not repeat before it wraps. -/
theorem nodup_firstIds {n : Nat} (few : n ≤ 2 ^ 64) : (firstIds n).Nodup := by
  apply List.Nodup.map_on _ List.nodup_range
  intro i memI j memJ same
  rw [List.mem_range] at memI memJ
  have values := congrArg UInt64.toNat same
  rwa [toNat_ofNat (by omega), toNat_ofNat (by omega)] at values

theorem zero_mem_firstIds {n : Nat} : 0 ∈ firstIds n ↔ n ≠ 0 := by
  constructor
  · rintro mem rfl
    simp [firstIds] at mem
  · intro some
    exact List.mem_map.mpr ⟨0, List.mem_range.mpr (by omega), rfl⟩

/-- The largest number stays free for one call less than there are numbers. -/
theorem max_not_mem_firstIds {n : Nat} (few : n < 2 ^ 64 - 1) :
    0xFFFFFFFFFFFFFFFF ∉ firstIds n := by
  intro mem
  obtain ⟨i, below, same⟩ := List.mem_map.mp mem
  rw [List.mem_range] at below
  have values := congrArg UInt64.toNat same
  rw [toNat_ofNat (by omega)] at values
  have largest : (0xFFFFFFFFFFFFFFFF : UInt64).toNat = 2 ^ 64 - 1 := rfl
  omega

open SetupCall

/-- `scheduler_init` has been called. -/
def Initialized (calls : List SetupCall) : Prop := ∃ call ∈ calls, call.kind = .schedulerInit

instance (calls : List SetupCall) : Decidable (Initialized calls) :=
  inferInstanceAs (Decidable (∃ call ∈ calls, _))

/-- Which identifiers a sequence of calls has given out. -/
structure Issued (calls : List SetupCall) (s : Setup) : Prop where
  nextPid : s.nextPid = UInt64.ofNat (calls.countP makesProcess)
  pids : s.processes.map (·.pid) = firstIds (calls.countP makesProcess)
  idlePid : s.idleProcess.pid = 0
  nextTid : s.sched.nextTid = calls.countP makesThread
  tids : ∀ n < s.sched.nextTid, (s.sched.thread (.thread n)).id = UInt64.ofNat n
  idleTid : (s.sched.thread .idle).id = if Initialized calls then 0xFFFFFFFFFFFFFFFF else 0

variable {calls : List SetupCall} {s : Setup} {call : SetupCall}

theorem initialized_append : Initialized (calls ++ [call]) ↔
    Initialized calls ∨ call.kind = .schedulerInit := by
  simp [Initialized, or_and_right, exists_or]

theorem Issued.bss : Issued [] bss where
  nextPid := rfl
  pids := rfl
  idlePid := rfl
  nextTid := rfl
  tids := by
    intro n bound
    cases bound
  idleTid := rfl

theorem Issued.schedulerInit (issued : Issued calls s) (idleFn rsp : UInt64) :
    Issued (calls ++ [.schedulerInit idleFn rsp]) (s.exec (.schedulerInit idleFn rsp)) where
  nextPid := by simpa [exec, makesProcess] using issued.nextPid
  pids := by simpa [exec, makesProcess] using issued.pids
  idlePid := rfl
  nextTid := by simpa [exec, DedOS.schedulerInit, makesThread] using issued.nextTid
  tids := issued.tids
  idleTid := by
    have called : Initialized (calls ++ [.schedulerInit idleFn rsp]) := by
      simp [initialized_append, kind]
    rw [if_pos called]
    rfl

theorem Issued.processCreate (issued : Issued calls s) (name : Nat → UInt8)
    (object : Option Process) :
    Issued (calls ++ [.processCreate name object]) (s.exec (.processCreate name object)) where
  nextPid := by
    cases object with
    | none => simpa [exec, DedOS.processCreate, makesProcess] using issued.nextPid
    | some object =>
      simp [exec, DedOS.processCreate, makesProcess, issued.nextPid, UInt64.ofNat_add]
  pids := by
    cases object with
    | none => simpa [exec, DedOS.processCreate, makesProcess] using issued.pids
    | some object =>
      simp [exec, DedOS.processCreate, makesProcess, issued.pids, issued.nextPid, firstIds_succ]
  idlePid := issued.idlePid
  nextTid := by simpa [exec, makesThread] using issued.nextTid
  tids := issued.tids
  idleTid := by simpa [exec, initialized_append, kind] using issued.idleTid

/-- What a successful `thread_create` does to the identifiers. -/
theorem threadCreate_ids (k : Core) (proc entry stack : UInt64) (t : Tid) :
    ((k.threadCreate proc entry true (some stack)).2.thread t).id =
      if t = .thread k.nextTid then UInt64.ofNat k.nextTid else (k.thread t).id := by
  by_cases made : t = .thread k.nextTid
  · subst made
    simp [Core.threadCreate]
  · simp [Core.threadCreate, made, Core.setThread_other]

theorem threadCreate_nextTid (k : Core) (proc entry stack : UInt64) :
    (k.threadCreate proc entry true (some stack)).2.nextTid = k.nextTid + 1 := rfl

theorem Issued.threadCreate (issued : Issued calls s) (proc entry : UInt64) (object : Bool)
    (stack : Option UInt64) : Issued (calls ++ [.threadCreate proc entry object stack])
      (s.exec (.threadCreate proc entry object stack)) where
  nextPid := by simpa [exec, makesProcess] using issued.nextPid
  pids := by simpa [exec, makesProcess] using issued.pids
  idlePid := issued.idlePid
  nextTid := by
    have before := issued.nextTid
    match object, stack with
    | false, _ => simpa [exec, Core.threadCreate, makesThread] using before
    | true, none => simpa [exec, Core.threadCreate, makesThread] using before
    | true, some stack => simpa [exec, threadCreate_nextTid, makesThread] using before
  tids := by
    match object, stack with
    | false, _ => exact issued.tids
    | true, none => exact issued.tids
    | true, some stack =>
      intro n bound
      simp only [exec, Sched.setCore_toCore, threadCreate_nextTid, threadCreate_ids] at bound ⊢
      cases Nat.lt_succ_iff_lt_or_eq.mp bound with
      | inl older =>
        have differ : n ≠ s.sched.nextTid := Nat.ne_of_lt older
        simpa [differ] using issued.tids n older
      | inr newest => simp [newest]
  idleTid := by
    have before := issued.idleTid
    match object, stack with
    | false, _ => simpa [exec, Core.threadCreate, initialized_append, kind] using before
    | true, none => simpa [exec, Core.threadCreate, initialized_append, kind] using before
    | true, some stack => simpa [exec, threadCreate_ids, initialized_append, kind] using before

theorem run_append : run (calls ++ [call]) = (run calls).exec call := by simp [run]

theorem run_issued (calls : List SetupCall) : Issued calls (run calls) := by
  induction calls using List.reverseRecOn with
  | nil => exact Issued.bss
  | append_singleton calls call ih =>
    rw [run_append]
    cases call with
    | schedulerInit idleFn rsp => exact ih.schedulerInit idleFn rsp
    | processCreate name object => exact ih.processCreate name object
    | threadCreate proc entry object stack => exact ih.threadCreate proc entry object stack

theorem Issued.pids_eq (issued : Issued calls s) :
    s.pids = 0 :: firstIds (calls.countP makesProcess) := by
  rw [Setup.pids, issued.idlePid, issued.pids]

theorem Issued.tids_eq (issued : Issued calls s) : s.tids =
    (if Initialized calls then 0xFFFFFFFFFFFFFFFF else 0) ::
      firstIds (calls.countP makesThread) := by
  have ids : ((List.range s.sched.nextTid).map fun n => (s.sched.thread (.thread n)).id) =
      firstIds s.sched.nextTid := by
    apply List.map_congr_left
    intro n mem
    exact issued.tids n (List.mem_range.mp mem)
  rw [Setup.tids, issued.idleTid, ids, issued.nextTid]

/-- The idle process has taken the first identifier, so any process repeats it. -/
theorem Issued.pids_nodup (issued : Issued calls s)
    (few : calls.countP makesProcess ≤ 2 ^ 64) :
    s.pids.Nodup ↔ ∀ call ∈ calls, call.makesProcess = false := by
  rw [issued.pids_eq, List.nodup_cons, zero_mem_firstIds, not_not, List.countP_eq_zero]
  simp [nodup_firstIds few]

/-- The idle thread's identifier is out of the counter's way once `scheduler_init` has set it. -/
theorem Issued.tids_nodup (issued : Issued calls s)
    (few : calls.countP makesThread < 2 ^ 64 - 1) :
    s.tids.Nodup ↔ Initialized calls ∨ ∀ call ∈ calls, call.makesThread = false := by
  have distinct : (firstIds (calls.countP makesThread)).Nodup := nodup_firstIds (by omega)
  rw [issued.tids_eq, List.nodup_cons]
  by_cases called : Initialized calls
  · simp [called, max_not_mem_firstIds few, distinct]
  · simp [called, zero_mem_firstIds, List.countP_eq_zero, distinct]

end Setup

open Setup in
/-- Identifiers are unique exactly when no process was made, and no thread was made without
`scheduler_init`. -/
theorem ids_unique_iff (calls : List SetupCall)
    (few : ∀ kind, calls.countP (fun call => call.kind = kind) < 2 ^ 64 - 1) :
    (run calls).UniqueIds ↔
      (∀ call ∈ calls, call.makesProcess = false) ∧
        (Initialized calls ∨ ∀ call ∈ calls, call.makesThread = false) := by
  have processes : calls.countP SetupCall.makesProcess ≤
      calls.countP (fun call => call.kind = .processCreate) := by
    apply List.countP_mono_left
    intro call _ makes
    cases call <;> simp_all [SetupCall.makesProcess, SetupCall.kind]
  have threads : calls.countP SetupCall.makesThread ≤
      calls.countP (fun call => call.kind = .threadCreate) := by
    apply List.countP_mono_left
    intro call _ makes
    cases call <;> simp_all [SetupCall.makesThread, SetupCall.kind]
  have fewProcesses := few .processCreate
  have fewThreads := few .threadCreate
  have issued := run_issued calls
  rw [UniqueIds, issued.pids_nodup (by omega), issued.tids_nodup (by omega)]

/-- Two threads after `scheduler_init`. -/
theorem ids_unique_iff_two_threads :
    let calls := [SetupCall.schedulerInit 0 0, .threadCreate 0 0 true (some 0),
      .threadCreate 0 0 true (some 0)]
    (Setup.run calls).UniqueIds ↔
      (∀ call ∈ calls, call.makesProcess = false) ∧
        (Setup.Initialized calls ∨ ∀ call ∈ calls, call.makesThread = false) := by
  apply ids_unique_iff
  intro kind
  cases kind <;> decide

/-- The first process gets the identifier of the idle process. -/
theorem pid_repeated : ¬ ∀ calls : List SetupCall,
    (∀ kind, calls.countP (fun call => call.kind = kind) < 2 ^ 64 - 1) →
      (Setup.run calls).UniqueIds := by
  intro unique
  have repeated : ¬ (Setup.run [.schedulerInit 0 0,
      .processCreate (fun _ => 0) (some Process.zero)]).UniqueIds := by decide
  apply repeated
  apply unique
  intro kind
  cases kind <;> decide

end DedOS
