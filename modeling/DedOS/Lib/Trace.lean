import Mathlib.Data.List.Basic

/-!
# Runs of a partial step function and their histories

A run starts in an initial state and records one entry for every event, most
recent first. Properties of every reachable state follow from one step lemma by
`Run.invariant`; properties that relate a state to its past follow from
`Run.history`.
-/

namespace DedOS.Lib

variable {σ ε : Type*}

structure Entry (σ ε : Type*) where
  pre : σ
  event : ε
  post : σ

inductive Run (step : σ → ε → Option σ) (init : σ → Prop) : List (Entry σ ε) → σ → Prop
  | start {s : σ} : init s → Run step init [] s
  | step {h : List (Entry σ ε)} {s s' : σ} {e : ε} :
      Run step init h s → step s e = some s' → Run step init (⟨s, e, s'⟩ :: h) s'

variable {step : σ → ε → Option σ} {init : σ → Prop} {h h₁ h₂ : List (Entry σ ε)} {s s' : σ}

/-- Induction along a run, for properties of the state and its history. -/
theorem Run.history {P : List (Entry σ ε) → σ → Prop}
    (initial : ∀ s, init s → P [] s)
    (preserved : ∀ h s e s', Run step init h s → P h s → step s e = some s' →
      P (⟨s, e, s'⟩ :: h) s')
    (run : Run step init h s) : P h s := by
  induction run with
  | start hs => exact initial _ hs
  | step before taken ih => exact preserved _ _ _ _ before ih taken

/-- The invariant rule: what holds initially and is preserved by every step holds
in every state a run reaches. -/
theorem Run.invariant {P : σ → Prop} (initial : ∀ s, init s → P s)
    (preserved : ∀ s e s', P s → step s e = some s' → P s')
    (run : Run step init h s) : P s :=
  run.history (P := fun _ s => P s) initial fun _ s e s' _ holds taken =>
    preserved s e s' holds taken

/-- The part of a run after one of its entries continues that entry's run. -/
theorem Run.suffix (run : Run step init (h₁ ++ h₂) s) : ∃ t, Run step init h₂ t := by
  induction h₁ generalizing s with
  | nil => exact ⟨s, run⟩
  | cons e h₁ ih =>
    cases run with
    | step before _ => exact ih before

theorem Run.append {t : σ} (first : Run step init h₁ s) (second : Run step (· = s) h₂ t) :
    Run step init (h₂ ++ h₁) t := by
  induction second with
  | start same => exact same ▸ first
  | step _ taken ih => exact ih.step taken

theorem Run.entry {e : Entry σ ε} (run : Run step init (e :: h) s) :
    Run step init h e.pre ∧ step e.pre e.event = some e.post ∧ e.post = s := by
  cases run with
  | step before taken => exact ⟨before, taken, rfl⟩

/-- Every entry of a run is a step taken from a state that a run reaches. -/
theorem Run.mem {e : Entry σ ε} (run : Run step init h s) (member : e ∈ h) :
    ∃ h', Run step init h' e.pre ∧ step e.pre e.event = some e.post := by
  obtain ⟨after, before, rfl⟩ := List.append_of_mem member
  obtain ⟨t, rest⟩ := run.suffix
  exact ⟨before, rest.entry.1, rest.entry.2.1⟩

/-- `P d mid e` holds of every entry `d`, every earlier entry `e` and the history `mid`
between the two. -/
def Pairs {α : Type*} (P : α → List α → α → Prop) (h : List α) : Prop :=
  ∀ later d mid e before, h = later ++ d :: (mid ++ e :: before) → P d mid e

/-- The part of `Pairs` about one later entry, going back from it. -/
def Since {α : Type*} (Q : List α → α → Prop) : List α → List α → Prop
  | _, [] => True
  | mid, e :: before => Q mid e ∧ Since Q (mid ++ [e]) before

theorem since_iff {α : Type*} {Q : List α → α → Prop} {near far : List α} :
    Since Q near far ↔ ∀ mid e before, far = mid ++ e :: before → Q (near ++ mid) e := by
  induction far generalizing near with
  | nil => simp [Since]
  | cons a far ih =>
    rw [Since, ih]
    constructor
    · rintro ⟨first, rest⟩ mid e before split
      cases mid with
      | nil =>
        obtain ⟨rfl, rfl⟩ := List.cons.inj split
        simpa using first
      | cons b mid =>
        obtain ⟨rfl, tail⟩ := List.cons.inj split
        simpa using rest mid e before tail
    · intro all
      refine ⟨by simpa using all [] a far rfl, fun mid e before split => ?_⟩
      simpa using all (a :: mid) e before (by rw [split, List.cons_append])

theorem pairs_nil {α : Type*} {P : α → List α → α → Prop} : Pairs P [] := by
  rintro later d mid e before split
  simp at split

theorem pairs_cons {α : Type*} {P : α → List α → α → Prop} {d : α} {h : List α} :
    Pairs P (d :: h) ↔ Since (P d) [] h ∧ Pairs P h := by
  rw [since_iff]
  constructor
  · intro all
    refine ⟨fun mid e before split => all [] d mid e before (by rw [split]; rfl), ?_⟩
    intro later d' mid e before split
    exact all (d :: later) d' mid e before (by rw [split, List.cons_append])
  · rintro ⟨first, rest⟩ later d' mid e before split
    cases later with
    | nil =>
      obtain ⟨rfl, tail⟩ := List.cons.inj split
      exact first mid e before tail
    | cons b later => exact rest later d' mid e before (List.cons.inj split).2

/-- The property passes to the end of a longer history. -/
theorem Pairs.of_append {α : Type*} {P : α → List α → α → Prop} {h₁ h₂ : List α}
    (all : Pairs P (h₁ ++ h₂)) : Pairs P h₁ := by
  rintro later d mid e before rfl
  exact all later d mid e (before ++ h₂) (by simp)

instance Since.decidable {α : Type*} (Q : List α → α → Prop) [∀ mid e, Decidable (Q mid e)] :
    (near far : List α) → Decidable (Since Q near far)
  | _, [] => instDecidableTrue
  | near, e :: far =>
    have := Since.decidable Q (near ++ [e]) far
    inferInstanceAs (Decidable (_ ∧ _))

instance Pairs.decidable {α : Type*} (P : α → List α → α → Prop) [∀ d mid e, Decidable (P d mid e)] :
    (h : List α) → Decidable (Pairs P h)
  | [] => isTrue pairs_nil
  | _ :: h =>
    have := Pairs.decidable P h
    decidable_of_iff _ pairs_cons.symm

/-- Perform a list of events, keeping the history. -/
def perform (step : σ → ε → Option σ) :
    List ε → List (Entry σ ε) → σ → Option (List (Entry σ ε) × σ)
  | [], h, s => some (h, s)
  | e :: es, h, s =>
    match step s e with
    | none => none
    | some s' => perform step es (⟨s, e, s'⟩ :: h) s'

theorem Run.perform {es : List ε} (run : Run step init h₁ s)
    (done : perform step es h₁ s = some (h₂, s')) : Run step init h₂ s' := by
  induction es generalizing h₁ s with
  | nil =>
    obtain ⟨rfl, rfl⟩ := Prod.mk.inj (Option.some.inj done)
    exact run
  | cons e es ih =>
    simp only [Lib.perform] at done
    split at done
    · cases done
    next t taken => exact ih (run.step taken) done

/-- Evaluate events in two parts, keeping the history of the second. -/
theorem Run.exists_of_perform_from (es₁ es₂ : List ε) (p : List (Entry σ ε) × σ → Bool)
    (start : init s) (holds : ((Lib.perform step es₁ [] s).bind fun r =>
      (Lib.perform step es₂ [] r.2).map p) = some true) :
    ∃ h₁ s₁ h₂ s₂, Run step init h₁ s₁ ∧ Run step (· = s₁) h₂ s₂ ∧ p (h₂, s₂) = true := by
  cases done₁ : Lib.perform step es₁ [] s with
  | none => simp [done₁] at holds
  | some r₁ =>
    cases done₂ : Lib.perform step es₂ [] r₁.2 with
    | none => simp [done₁, done₂] at holds
    | some r₂ =>
      simp only [done₁, Option.bind_some, done₂, Option.map_some, Option.some.injEq] at holds
      have second : Run step (· = r₁.2) [] r₁.2 := .start rfl
      exact ⟨r₁.1, r₁.2, r₂.1, r₂.2, (Run.start start).perform done₁, second.perform done₂, holds⟩

/-- Evaluate a list of events to exhibit a run that ends as `p` says. -/
theorem Run.exists_of_perform (es : List ε) (p : List (Entry σ ε) × σ → Bool) (start : init s)
    (holds : (Lib.perform step es [] s).map p = some true) :
    ∃ h s', Run step init h s' ∧ p (h, s') = true := by
  cases done : Lib.perform step es [] s with
  | none => simp [done] at holds
  | some last =>
    simp only [done, Option.map_some, Option.some.injEq] at holds
    exact ⟨last.1, last.2, (Run.start start).perform done, holds⟩

end DedOS.Lib
