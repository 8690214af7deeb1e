import DedOS.Lib.Logged

/-!
# Loops with a bound on their rounds

`loop round e` makes the rounds of a loop until one of them ends it, or fails with `e` when
the bound is reached. A round may have loops of its own, which are given the same bound. As
long as a larger bound does not change what a round has done (`Below`), the bounds can be
forgotten: the loop ends, and its events are those of its rounds, along `Rounds`.
-/

namespace DedOS.Lib.Logged

variable {σ ω ε α β : Type}

/-! ### Larger bounds -/

/-- `x` is `y`, or has failed with `e` on the way there. -/
def Below (e : ε) (x y : Logged ω ε α) : Prop := x = y ∨ x.result = .error e ∧ x.log <+: y.log

variable {e : ε} {x y z : Logged ω ε α} {f g : α → Logged ω ε β} {w : ω}

@[simp] theorem Below.refl (e : ε) (x : Logged ω ε α) : Below e x x := .inl rfl

theorem Below.fail (e : ε) (x : Logged ω ε α) : Below e (fail e) x :=
  .inr ⟨rfl, List.nil_prefix⟩

theorem Below.mem (below : Below e x y) (member : w ∈ x.log) : w ∈ y.log := by
  rcases below with rfl | ⟨_, front⟩
  · exact member
  · exact front.subset member

/-- A computation that has not run into its bound is the same with a larger one. -/
theorem Below.eq (below : Below e x y) (settled : x.result ≠ .error e) : x = y :=
  below.resolve_right fun failed => settled failed.1

theorem Below.bind (first : Below e x y) (next : ∀ a, Below e (f a) (g a)) :
    Below e (x >>= f) (y >>= g) := by
  rcases first with rfl | ⟨failed, front⟩
  · cases done : x.result with
    | error e' =>
      left
      rw [bind_of_error done, bind_of_error done]
    | ok a =>
      rw [bind_of_ok done, bind_of_ok done]
      rcases next a with same | ⟨failed, front⟩
      · exact .inl (by rw [same])
      · exact .inr ⟨failed, (List.prefix_append_right_inj _).mpr front⟩
  · right
    rw [bind_of_error failed]
    refine ⟨rfl, front.trans ?_⟩
    cases done : y.result with
    | error e' =>
      have same : (y >>= g).log = y.log := log_bind_error done
      exact same ▸ List.prefix_rfl
    | ok a =>
      rw [bind_of_ok done]
      exact List.prefix_append _ _

theorem Below.lift {r r' : Except ε α} (same : r = .error e ∨ r = r') :
    Below e (lift r : Logged ω ε α) (lift r') := by
  rcases same with rfl | rfl
  · exact Below.fail e _
  · exact Below.refl e _

/-! ### Large bounds -/

/-- `P` holds of every bound that is large enough. -/
def Eventually (P : Nat → Prop) : Prop := ∃ enough, ∀ fuel ≥ enough, P fuel

theorem Eventually.always {P : Nat → Prop} (all : ∀ fuel, P fuel) : Eventually P :=
  ⟨0, fun fuel _ => all fuel⟩

theorem Eventually.imp {P Q : Nat → Prop} (first : Eventually P) (weaker : ∀ fuel, P fuel → Q fuel) :
    Eventually Q := by
  obtain ⟨enough, holds⟩ := first
  exact ⟨enough, fun fuel more => weaker fuel (holds fuel more)⟩

theorem Eventually.and {P Q : Nat → Prop} (first : Eventually P) (second : Eventually Q) :
    Eventually fun fuel => P fuel ∧ Q fuel := by
  obtain ⟨enough, holds⟩ := first
  obtain ⟨enough', holds'⟩ := second
  refine ⟨max enough enough', fun fuel more => ⟨holds fuel ?_, holds' fuel ?_⟩⟩
  · exact Nat.le_trans (Nat.le_max_left ..) more
  · exact Nat.le_trans (Nat.le_max_right ..) more

/-- One more round than is large enough. -/
theorem Eventually.next {P : Nat → Prop} (later : Eventually fun fuel => P (fuel + 1)) :
    Eventually P := by
  obtain ⟨enough, holds⟩ := later
  refine ⟨enough + 1, fun fuel more => ?_⟩
  obtain ⟨fuel, rfl⟩ : ∃ f, fuel = f + 1 := ⟨fuel - 1, by omega⟩
  exact holds fuel (Nat.le_of_succ_le_succ more)

/-! ### Loops -/

/-- A round says where the next one starts, if there is one. The loop returns the state in
which it ends. -/
def loop (round : Nat → σ → Logged ω ε (Option σ)) (e : ε) : Nat → σ → Logged ω ε σ
  | 0, _ => fail e
  | fuel + 1, s => do
    match ← round fuel s with
    | none => return s
    | some s' => loop round e fuel s'

variable {round : Nat → σ → Logged ω ε (Option σ)} {fuel fuel' k : Nat} {s s' s'' : σ}

/-- One round of the loop, and what follows it. -/
theorem loop_next (next : (round fuel s).result = .ok (some s')) :
    loop round e (fuel + 1) s =
      ⟨(round fuel s).log ++ (loop round e fuel s').log, (loop round e fuel s').result⟩ := by
  rw [loop, bind_of_ok next]

theorem loop_last (last : (round fuel s).result = .ok none) :
    loop round e (fuel + 1) s = ⟨(round fuel s).log, .ok s⟩ := by
  rw [loop, bind_of_ok last, log_pure, result_pure, List.append_nil]

theorem loop_failed {e' : ε} (failed : (round fuel s).result = .error e') :
    loop round e (fuel + 1) s = ⟨(round fuel s).log, .error e'⟩ := by
  rw [loop, bind_of_error failed]

/-- A round leads from one state to another, for some bound. -/
def Next (round : Nat → σ → Logged ω ε (Option σ)) (s s' : σ) : Prop :=
  ∃ fuel, (round fuel s).result = .ok (some s')

/-- The loop is at `s'` after `k` rounds. -/
inductive Rounds (round : Nat → σ → Logged ω ε (Option σ)) : Nat → σ → σ → Prop
  | start {s : σ} : Rounds round 0 s s
  | step {k : Nat} {s s' s'' : σ} : Rounds round k s s' → Next round s' s'' →
      Rounds round (k + 1) s s''

theorem Rounds.head (first : Next round s s') (rest : Rounds round k s' s'') :
    Rounds round (k + 1) s s'' := by
  induction rest with
  | start => exact .step .start first
  | step _ next ih => exact .step (ih first) next

/-- A round ends the loop, with its end or by a failure of its own. -/
def Ends (round : Nat → σ → Logged ω ε (Option σ)) (e : ε) (s : σ) : Prop :=
  ∃ fuel, (round fuel s).result ≠ .error e ∧ ∀ s', (round fuel s).result ≠ .ok (some s')

section Bounds

variable (mono : ∀ {fuel fuel' : Nat} (s : σ), fuel ≤ fuel' →
  Below e (round fuel s) (round fuel' s))

include mono

theorem loop_below (more : fuel ≤ fuel') (s : σ) :
    Below e (loop round e fuel s) (loop round e fuel' s) := by
  induction fuel generalizing fuel' s with
  | zero => exact Below.fail e _
  | succ fuel ih =>
    obtain ⟨fuel', rfl⟩ : ∃ f, fuel' = f + 1 := ⟨fuel' - 1, by omega⟩
    rw [loop, loop]
    refine (mono s (by omega)).bind fun next => ?_
    cases next with
    | none => exact Below.refl e _
    | some s' => exact ih (by omega) s'

/-- What a round has found with one bound it finds with every larger one. -/
theorem round_settled (settled : (round fuel s).result ≠ .error e) (more : fuel ≤ fuel') :
    round fuel' s = round fuel s := ((mono s more).eq settled).symm

theorem Next.result_eq (next : Next round s s') :
    ∃ enough, ∀ fuel ≥ enough, (round fuel s).result = .ok (some s') := by
  obtain ⟨enough, done⟩ := next
  refine ⟨enough, fun fuel more => ?_⟩
  rw [round_settled mono (by simp [done]) more, done]

theorem Next.unique (left : Next round s s') (right : Next round s s'') : s' = s'' := by
  obtain ⟨f, left⟩ := left.result_eq mono
  obtain ⟨f', right⟩ := right.result_eq mono
  have same := (left (max f f') (Nat.le_max_left f f')).symm.trans
    (right (max f f') (Nat.le_max_right f f'))
  exact Option.some.inj (Except.ok.inj same)

/-- A loop does not go on for ever if a round ends it. -/
theorem loop_ends_iff : (∃ fuel, (loop round e fuel s).result ≠ .error e) ↔
    ∃ k s', Rounds round k s s' ∧ Ends round e s' := by
  constructor
  · rintro ⟨fuel, ended⟩
    induction fuel generalizing s with
    | zero => exact absurd rfl ended
    | succ fuel ih =>
      by_cases next : ∃ s₁, (round fuel s).result = .ok (some s₁)
      · obtain ⟨s₁, done⟩ := next
        rw [loop_next done] at ended
        obtain ⟨k, s', rounds, ends⟩ := ih ended
        exact ⟨k + 1, s', rounds.head ⟨fuel, done⟩, ends⟩
      · refine ⟨0, s, .start, fuel, fun failed => ?_, fun s' done => next ⟨s', done⟩⟩
        rw [loop_failed failed] at ended
        exact ended rfl
  · rintro ⟨k, s', rounds, fuel, settled, last⟩
    have here : ∃ fuel, (loop round e fuel s').result ≠ .error e := by
      refine ⟨fuel + 1, ?_⟩
      cases done : (round fuel s').result with
      | error e' =>
        rw [loop_failed done]
        intro same
        cases same
        exact settled done
      | ok next =>
        cases next with
        | none =>
          rw [loop_last done]
          exact nofun
        | some s₁ => exact absurd done (last s₁)
    clear settled last
    induction rounds with
    | start => exact here
    | step _ next ih =>
      obtain ⟨f, ended⟩ := here
      obtain ⟨enough, done⟩ := next.result_eq mono
      refine ih ⟨max f enough + 1, ?_⟩
      rw [loop_next (done _ (Nat.le_max_right f enough))]
      rwa [← (loop_below mono (Nat.le_max_left f enough) _).eq ended]

end Bounds

end DedOS.Lib.Logged
