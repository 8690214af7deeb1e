import Mathlib.Data.List.Basic

/-!
# Words between separators

`components sep l`: the pieces of `l` between separators, the empty ones left out. A leading,
trailing or repeated separator makes no difference.
-/

namespace DedOS.Lib

variable {α : Type*} [DecidableEq α] {sep : α} {name l l₁ l₂ : List α}

def components (sep : α) (l : List α) : List (List α) := (l.splitOn sep).filter (· ≠ [])

@[simp] theorem components_nil : components sep [] = [] := by
  simp [components]

/-- A separator splits the list of components. -/
@[simp] theorem components_append_cons :
    components sep (l₁ ++ sep :: l₂) = components sep l₁ ++ components sep l₂ := by
  simp [components, List.splitOn_append_cons_self]

@[simp] theorem components_sep_cons : components sep (sep :: l) = components sep l := by
  have split : components sep ([] ++ sep :: l) = components sep [] ++ components sep l :=
    components_append_cons
  simpa using split

/-- A word without separators is its own component. -/
theorem components_word (word : sep ∉ name) :
    components sep name = if name = [] then [] else [name] := by
  rw [components, List.splitOn_eq_singleton word]
  split <;> simp_all

/-- The word before the first separator, and what follows. -/
theorem exists_word (sep : α) (l : List α) :
    ∃ name rest, l = name ++ rest ∧ sep ∉ name ∧ (rest = [] ∨ ∃ l', rest = sep :: l') := by
  induction l with
  | nil => exact ⟨[], [], rfl, List.not_mem_nil, .inl rfl⟩
  | cons c l ih =>
    by_cases here : c = sep
    · exact ⟨[], c :: l, rfl, List.not_mem_nil, .inr ⟨l, by rw [here]⟩⟩
    · obtain ⟨name, rest, rfl, word, stop⟩ := ih
      exact ⟨c :: name, rest, rfl, by simp [word, Ne.symm here], stop⟩

/-- The word behind the last separator, and what comes before. -/
theorem exists_last_word (sep : α) (l : List α) :
    sep ∉ l ∨ ∃ dir base, l = dir ++ sep :: base ∧ sep ∉ base := by
  induction l with
  | nil => exact .inl List.not_mem_nil
  | cons c l ih =>
    rcases ih with plain | ⟨dir, base, rfl, last⟩
    · by_cases here : c = sep
      · exact .inr ⟨[], l, by rw [here]; rfl, plain⟩
      · exact .inl (by simp [plain, Ne.symm here])
    · exact .inr ⟨c :: dir, base, rfl, last⟩

theorem mem_components (h : name ∈ components sep l) :
    name ≠ [] ∧ sep ∉ name ∧ name.length ≤ l.length := by
  induction hn : l.length using Nat.strongRecOn generalizing l with
  | _ n ih =>
    by_cases inside : sep ∈ l
    · obtain ⟨l₁, l₂, rfl⟩ := List.append_of_mem inside
      rw [components_append_cons] at h
      rw [List.length_append, List.length_cons] at hn
      rcases List.mem_append.mp h with front | back
      · obtain ⟨some, plain, size⟩ := ih l₁.length (by omega) front rfl
        exact ⟨some, plain, by omega⟩
      · obtain ⟨some, plain, size⟩ := ih l₂.length (by omega) back rfl
        exact ⟨some, plain, by omega⟩
    · rw [components_word inside] at h
      split at h
      · cases h
      next some =>
        obtain rfl := List.mem_singleton.mp h
        exact ⟨some, inside, Nat.le_of_eq hn⟩

/-- The components of names joined by a separator are the names. -/
theorem components_intercalate {names : List (List α)}
    (words : ∀ name ∈ names, name ≠ [] ∧ sep ∉ name) :
    components sep ([sep].intercalate names) = names := by
  by_cases empty : names = []
  · simp [empty]
  · rw [components, List.splitOn_intercalate sep (fun l hl => (words l hl).2) empty]
    exact List.filter_eq_self.mpr fun l hl => by simpa using (words l hl).1

/-! ### Names joined by a separator -/

variable {names : List (List α)}

omit [DecidableEq α] in
/-- A joined list starts with its first name, up to a separator. -/
theorem intercalate_cons (sep : α) (name : List α) (names : List (List α)) :
    ∃ rest, [sep].intercalate (name :: names) = name ++ rest ∧
      (rest = [] ∨ ∃ l, rest = sep :: l) := by
  by_cases last : names = []
  · subst last
    exact ⟨[], by simp, .inl rfl⟩
  · exact ⟨sep :: [sep].intercalate names, by simp [List.intercalate_cons_of_ne_nil last],
      .inr ⟨_, rfl⟩⟩

omit [DecidableEq α] in
/-- A joined list ends with its last name. -/
theorem intercalate_concat (sep : α) (names : List (List α)) (name : List α) :
    ∃ front, [sep].intercalate (names ++ [name]) = front ++ name := by
  induction names with
  | nil => exact ⟨[], by simp⟩
  | cons n names ih =>
    obtain ⟨front, rest⟩ := ih
    have some : names ++ [name] ≠ [] := by simp
    exact ⟨n ++ [sep] ++ front, by simp [List.intercalate_cons_of_ne_nil some, rest]⟩

omit [DecidableEq α] in
theorem mem_intercalate {c : α} (h : c ∈ [sep].intercalate names) :
    c = sep ∨ ∃ n ∈ names, c ∈ n := by
  induction names with
  | nil => simp at h
  | cons n names ih =>
    by_cases last : names = []
    · subst last
      exact .inr ⟨n, by simp, by simpa using h⟩
    rw [List.intercalate_cons_of_ne_nil last, List.append_assoc, List.mem_append,
      List.mem_append] at h
    rcases h with first | sep | rest
    · exact .inr ⟨n, by simp, first⟩
    · exact .inl (by simpa using sep)
    · rcases ih rest with h | ⟨m, member, inside⟩
      · exact .inl h
      · exact .inr ⟨m, by simp [member], inside⟩

end DedOS.Lib
