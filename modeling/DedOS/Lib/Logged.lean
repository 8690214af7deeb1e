import Mathlib.Data.List.Basic

/-!
# Computations with a log

A computation that may fail and that records what it does, in order. What was recorded before
a failure stays recorded, so a statement about the log of a loop holds of every prefix of its
run when it is proved for every bound on the rounds.
-/

namespace DedOS.Lib

structure Logged (ω ε α : Type) where
  log : List ω
  result : Except ε α

namespace Logged

variable {ω ε α β : Type}

instance : Monad (Logged ω ε) where
  pure a := ⟨[], .ok a⟩
  bind x f :=
    match x.result with
    | .ok a => ⟨x.log ++ (f a).log, (f a).result⟩
    | .error e => ⟨x.log, .error e⟩

/-- Record an event. -/
def record (w : ω) : Logged ω ε Unit := ⟨[w], .ok ()⟩

def recordAll (l : List ω) : Logged ω ε Unit := ⟨l, .ok ()⟩

def fail (e : ε) : Logged ω ε α := ⟨[], .error e⟩

/-- A computation without events. -/
def lift (r : Except ε α) : Logged ω ε α := ⟨[], r⟩

variable {x : Logged ω ε α} {f : α → Logged ω ε β} {a : α} {e : ε} {w : ω}

@[simp] theorem log_pure : (pure a : Logged ω ε α).log = [] := rfl
@[simp] theorem result_pure : (pure a : Logged ω ε α).result = .ok a := rfl
@[simp] theorem log_record : (record w : Logged ω ε Unit).log = [w] := rfl
@[simp] theorem result_record : (record w : Logged ω ε Unit).result = .ok () := rfl
@[simp] theorem log_recordAll (l : List ω) : (recordAll l : Logged ω ε Unit).log = l := rfl
@[simp] theorem result_recordAll (l : List ω) : (recordAll l : Logged ω ε Unit).result = .ok () :=
  rfl
@[simp] theorem log_lift (r : Except ε α) : (lift r : Logged ω ε α).log = [] := rfl
@[simp] theorem result_lift (r : Except ε α) : (lift r : Logged ω ε α).result = r := rfl
@[simp] theorem log_fail : (fail e : Logged ω ε α).log = [] := rfl
@[simp] theorem result_fail : (fail e : Logged ω ε α).result = .error e := rfl

/-- A computation that succeeds goes on with its result. -/
theorem bind_of_ok (done : x.result = .ok a) : x >>= f = ⟨x.log ++ (f a).log, (f a).result⟩ := by
  change (match x.result with
    | .ok a => (⟨x.log ++ (f a).log, (f a).result⟩ : Logged ω ε β)
    | .error e => ⟨x.log, .error e⟩) = _
  rw [done]

theorem log_bind_ok (done : x.result = .ok a) : (x >>= f).log = x.log ++ (f a).log := by
  rw [bind_of_ok done]

theorem result_bind_ok (done : x.result = .ok a) : (x >>= f).result = (f a).result := by
  rw [bind_of_ok done]

/-- A computation that fails is the end. -/
theorem bind_of_error (failed : x.result = .error e) : x >>= f = ⟨x.log, .error e⟩ := by
  change (match x.result with
    | .ok a => (⟨x.log ++ (f a).log, (f a).result⟩ : Logged ω ε β)
    | .error e => ⟨x.log, .error e⟩) = _
  rw [failed]

theorem log_bind_error (failed : x.result = .error e) : (x >>= f).log = x.log := by
  rw [bind_of_error failed]

theorem result_bind_error (failed : x.result = .error e) : (x >>= f).result = .error e := by
  rw [bind_of_error failed]

/-- The results alone are those of a computation without a log. -/
theorem result_bind : (x >>= f).result = x.result >>= fun a => (f a).result := by
  cases done : x.result with
  | ok a => rw [result_bind_ok done]; rfl
  | error e => rw [result_bind_error done]; rfl

/-- What a sequence records, one of its parts has recorded. -/
theorem mem_log_bind :
    w ∈ (x >>= f).log ↔ w ∈ x.log ∨ ∃ a, x.result = .ok a ∧ w ∈ (f a).log := by
  cases done : x.result with
  | ok a => simp [log_bind_ok done]
  | error e => simp [log_bind_error done]

/-- The first event of a sequence. -/
@[simp] theorem log_record_bind (w : ω) (f : Unit → Logged ω ε β) :
    (record w >>= f).log = w :: (f ()).log := rfl

@[simp] theorem result_record_bind (w : ω) (f : Unit → Logged ω ε β) :
    (record w >>= f).result = (f ()).result := rfl

end Logged

end DedOS.Lib
