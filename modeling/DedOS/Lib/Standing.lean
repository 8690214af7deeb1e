import Mathlib.Data.List.Basic

/-!
# What stands since

Some moments of a history bring a condition about and some end it. The condition stands when
a moment that brings it about has not been followed by one that ends it. Histories have the
latest moment first.
-/

namespace DedOS.Lib

variable {α : Type*} {sets : List α → α → Prop} {clears : α → Prop} {x : α} {past : List α}

/-- Something in the past set the condition and nothing has cleared it since. Whether a moment
sets it may depend on what came before. -/
def Standing (sets : List α → α → Prop) (clears : α → Prop) : List α → Prop
  | [] => False
  | x :: past => sets past x ∨ (¬ clears x ∧ Standing sets clears past)

instance decidableStanding [∀ past x, Decidable (sets past x)] [DecidablePred clears] :
    (past : List α) → Decidable (Standing sets clears past)
  | [] => inferInstanceAs (Decidable False)
  | x :: past =>
    have := decidableStanding past
    inferInstanceAs (Decidable (sets past x ∨ (¬ clears x ∧ Standing sets clears past)))

@[simp] theorem standing_nil : ¬ Standing sets clears [] := id

theorem standing_cons : Standing sets clears (x :: past) ↔
    sets past x ∨ (¬ clears x ∧ Standing sets clears past) := Iff.rfl

/-- A moment that does neither changes nothing. -/
theorem standing_skip (quiet : ¬ sets past x) (keeps : ¬ clears x) :
    Standing sets clears (x :: past) ↔ Standing sets clears past := by
  simp [standing_cons, quiet, keeps]

/-- Right after a moment that clears, the condition stands if that moment also sets it. -/
theorem standing_clear (clear : clears x) :
    Standing sets clears (x :: past) ↔ sets past x := by
  simp [standing_cons, clear]

/-- The condition stands exactly when the history splits at a moment that set it with no
moment that clears it afterwards. -/
theorem standing_iff : Standing sets clears past ↔
    ∃ later x before, past = later ++ x :: before ∧ sets before x ∧ ∀ y ∈ later, ¬ clears y := by
  induction past with
  | nil => simp
  | cons y past ih =>
    rw [standing_cons, ih]
    constructor
    · rintro (here | ⟨keeps, later, x, before, rfl, set, kept⟩)
      · exact ⟨[], y, past, rfl, here, by simp⟩
      · refine ⟨y :: later, x, before, rfl, set, ?_⟩
        simpa [keeps] using kept
    · rintro ⟨later, x, before, split, set, kept⟩
      cases later with
      | nil =>
        obtain ⟨rfl, rfl⟩ := List.cons.inj split
        exact Or.inl set
      | cons z later =>
        obtain ⟨rfl, rfl⟩ := List.cons.inj split
        simp only [List.mem_cons, forall_eq_or_imp] at kept
        exact Or.inr ⟨kept.1, later, x, before, rfl, set, kept.2⟩

end DedOS.Lib
