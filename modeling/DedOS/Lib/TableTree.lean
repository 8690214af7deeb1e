import Mathlib.Data.List.Basic
import Mathlib.Logic.Function.Basic

/-!
# Trees of tables

Tables `t : τ` have entries `T t i : ω`, and an entry may refer to a child table. `walk`
follows a path of indices from a root. The tables form a tree of depth `d` when no two paths
of at most `d` indices lead to the same table; then hanging a fresh, childless table into an
empty entry adds exactly one path (`walk_grow`), and the tables form a tree again
(`tree_grow`). Writes that keep the children on the way change no walk (`walk_congr`).
-/

namespace DedOS.Lib

variable {τ ι ω : Type*}

/-- The table that `path` leads to. -/
def walk (T : τ → ι → ω) (child : ω → Option τ) : τ → List ι → Option τ
  | t, [] => some t
  | t, i :: path =>
    match child (T t i) with
    | none => none
    | some u => walk T child u path

/-- No table is reached by two paths of at most `d` indices. -/
def TreeTables (T : τ → ι → ω) (child : ω → Option τ) (root : τ) (d : Nat) : Prop :=
  ∀ p q t, p.length ≤ d → q.length ≤ d → walk T child root p = some t →
    walk T child root q = some t → p = q

variable {T T' : τ → ι → ω} {child : ω → Option τ} {root t u : τ} {p q path : List ι} {i j : ι}
  {d : Nat}

@[simp] theorem walk_nil : walk T child t [] = some t := rfl

theorem walk_cons : walk T child t (i :: path) = (child (T t i)).bind fun u => walk T child u path := by
  rw [walk]
  cases child (T t i) <;> rfl

theorem walk_append : walk T child t (p ++ q) =
    (walk T child t p).bind fun u => walk T child u q := by
  induction p generalizing t with
  | nil => rfl
  | cons i p ih =>
    rw [List.cons_append, walk_cons, walk_cons]
    cases child (T t i) with
    | none => rfl
    | some u => exact ih

theorem walk_concat (here : walk T child root p = some t) :
    walk T child root (p ++ [i]) = child (T t i) := by
  rw [walk_append, here, Option.bind_some, walk_cons]
  cases child (T t i) <;> rfl

/-- Two ways to read children that agree on the tables a walk passes through. -/
theorem walk_agree {child' : ω → Option τ} (agree : ∀ before i after t, q = before ++ i :: after →
    walk T child root before = some t → child' (T' t i) = child (T t i)) :
    walk T' child' root q = walk T child root q := by
  induction q generalizing root with
  | nil => rfl
  | cons i q ih =>
    have first : child' (T' root i) = child (T root i) := agree [] i q root rfl rfl
    rw [walk_cons, walk_cons, first]
    cases next : child (T root i) with
    | none => rfl
    | some u =>
      apply ih
      intro before j after t split reached
      refine agree (i :: before) j after t (by rw [split, List.cons_append]) ?_
      rw [walk_cons, next]
      exact reached

/-- A walk depends on the children of the tables it passes through. -/
theorem walk_congr (agree : ∀ before i after t, q = before ++ i :: after →
    walk T child root before = some t → child (T' t i) = child (T t i)) :
    walk T' child root q = walk T child root q := walk_agree agree

/-- A walk that reads fewer children arrives where the other one does. -/
theorem walk_imp {child' : ω → Option τ} (fewer : ∀ w u, child' w = some u → child w = some u)
    (reached : walk T child' t path = some u) : walk T child t path = some u := by
  induction path generalizing t with
  | nil => exact reached
  | cons i path ih =>
    rw [walk_cons, Option.bind_eq_some_iff] at reached ⊢
    obtain ⟨v, next, rest⟩ := reached
    exact ⟨v, fewer _ v next, ih rest⟩

/-- Below an empty entry there is no table. -/
theorem walk_below_none (here : walk T child root p = some t) (empty : child (T t i) = none) :
    walk T child root (p ++ i :: q) = none := by
  rw [walk_append, here, Option.bind_some, walk_cons, empty]
  rfl

/-- Hanging the fresh table `u` into the empty entry `i` of `t`. -/
theorem walk_grow (tree : TreeTables T child root d) (here : walk T child root p = some t)
    (room : p.length < d) (empty : child (T t i) = none)
    (hung : child (T' t i) = some u) (childless : ∀ j, child (T' u j) = none)
    (same : ∀ q s j, q.length ≤ d → walk T child root q = some s → (s, j) ≠ (t, i) →
      child (T' s j) = child (T s j))
    [DecidableEq ι] (short : q.length ≤ d) :
    walk T' child root q = if q = p ++ [i] then some u else walk T child root q := by
  by_cases through : ∃ rest, q = p ++ i :: rest
  · obtain ⟨rest, rfl⟩ := through
    -- the way to `t` does not pass through the changed entry
    have toT : walk T' child root p = some t := by
      rw [← here]
      apply walk_congr
      intro before j after s split reached
      have before_lt : before.length < p.length := by
        rw [split, List.length_append, List.length_cons]
        omega
      apply same before s j (by omega) reached
      intro equal
      obtain ⟨rfl, rfl⟩ := Prod.mk.inj equal
      have paths := tree before p s (by omega) (by omega) reached here
      rw [paths] at before_lt
      exact Nat.lt_irrefl _ before_lt
    rw [walk_append, toT, Option.bind_some, walk_cons, hung, Option.bind_some]
    cases rest with
    | nil => simp
    | cons j rest =>
      have longer : p ++ i :: j :: rest ≠ p ++ [i] := by simp
      rw [walk_cons, childless, if_neg longer, walk_below_none here empty]
      rfl
  · have other : q ≠ p ++ [i] := fun equal => through ⟨[], equal⟩
    rw [if_neg other]
    apply walk_congr
    intro before j after s split reached
    have before_lt : before.length < q.length := by
      rw [split, List.length_append, List.length_cons]
      omega
    apply same before s j (by omega) reached
    intro equal
    obtain ⟨rfl, rfl⟩ := Prod.mk.inj equal
    have paths := tree before p s (by omega) (by omega) reached here
    exact through ⟨after, by rw [split, paths]⟩

/-- The grown tables form a tree again. -/
theorem tree_grow [DecidableEq ι] (tree : TreeTables T child root d)
    (fresh : ∀ q, q.length ≤ d → walk T child root q ≠ some u)
    (grown : ∀ q, q.length ≤ d → walk T' child root q =
      if q = path then some u else walk T child root q) : TreeTables T' child root d := by
  intro p q t short short' reached reached'
  rw [grown p short] at reached
  rw [grown q short'] at reached'
  split at reached
  next new =>
    obtain rfl := Option.some.inj reached
    split at reached'
    next new' => rw [new, new']
    · exact absurd reached' (fresh q short')
  · split at reached'
    next new' =>
      obtain rfl := Option.some.inj reached'
      exact absurd reached (fresh p short)
    · exact tree p q t short short' reached reached'

end DedOS.Lib
