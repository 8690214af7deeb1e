import DedOS.Lib.Trace

/-!
# Runs seen through a projection

A state machine may be seen through a function of its states and a partial function of its
events. If every step is a step of a second machine or leaves its state alone, the history that
is seen is a run of the second machine.
-/

namespace DedOS.Lib

variable {σ ε τ δ : Type*}

/-- What is seen of an entry. -/
def Entry.seen (abs : σ → τ) (view : σ → ε → Option δ) (e : Entry σ ε) : Option (Entry τ δ) :=
  (view e.pre e.event).map fun d => ⟨abs e.pre, d, abs e.post⟩

/-- A step of the first machine as the second one sees it. -/
def Simulates (step : τ → δ → Option τ) (abs : σ → τ) (view : σ → ε → Option δ)
    (e : Entry σ ε) : Prop :=
  match view e.pre e.event with
  | none => abs e.post = abs e.pre
  | some d => step (abs e.pre) d = some (abs e.post)

variable {step₁ : σ → ε → Option σ} {init₁ : σ → Prop} {step₂ : τ → δ → Option τ}
  {init₂ : τ → Prop} {abs : σ → τ} {view : σ → ε → Option δ} {h : List (Entry σ ε)} {s : σ}

/-- The history that is seen is a run, when every entry in it is simulated. -/
theorem Run.seen (initial : ∀ s, init₁ s → init₂ (abs s))
    (simulates : ∀ e ∈ h, Simulates step₂ abs view e) (run : Run step₁ init₁ h s) :
    Run step₂ init₂ (h.filterMap (Entry.seen abs view)) (abs s) := by
  induction run with
  | start start => exact .start (initial _ start)
  | @step h s s' e before taken ih =>
    have rest := ih fun e member => simulates e (List.mem_cons_of_mem _ member)
    have here := simulates ⟨s, e, s'⟩ List.mem_cons_self
    simp only [Simulates] at here
    cases shown : view s e with
    | none =>
      rw [shown] at here
      have hidden : Entry.seen abs view ⟨s, e, s'⟩ = none := by simp [Entry.seen, shown]
      rw [List.filterMap_cons_none hidden, here]
      exact rest
    | some d =>
      rw [shown] at here
      have visible : Entry.seen abs view ⟨s, e, s'⟩ = some ⟨abs s, d, abs s'⟩ := by
        simp [Entry.seen, shown]
      rw [List.filterMap_cons_some visible]
      exact rest.step here

/-- A run has one state that it starts from. -/
theorem Run.from_start (run : Run step₁ init₁ h s) : ∃ s₀, init₁ s₀ ∧ Run step₁ (· = s₀) h s := by
  induction run with
  | start start => exact ⟨_, start, .start rfl⟩
  | step _ taken ih =>
    obtain ⟨s₀, start, rest⟩ := ih
    exact ⟨s₀, start, rest.step taken⟩

end DedOS.Lib
