import Mathlib.Data.List.Basic

/-!
# Texts of fields and lines

A field ends at the first occurrence of its delimiter, a line at the first occurrence of the
line's. Whatever is written with neither of them inside is found again.
-/

namespace DedOS.Lib

variable {α β : Type*} [DecidableEq α] {d : α} {front rest : List α}

/-- What stands in front of the first `d`, and what stands behind it. -/
def readUntil (d : α) : List α → Option (List α × List α)
  | [] => none
  | c :: text =>
    if c = d then some ([], text)
    else (readUntil d text).map fun parts => (c :: parts.1, parts.2)

theorem readUntil_append (inside : d ∉ front) :
    readUntil d (front ++ d :: rest) = some (front, rest) := by
  induction front with
  | nil => simp [readUntil]
  | cons c front ih =>
    obtain ⟨first, others⟩ := List.ne_and_not_mem_of_not_mem_cons inside
    simp [readUntil, Ne.symm first, ih others]

theorem dropPrefix_append (front rest : List α) :
    (front ++ rest).dropPrefix? front = some rest :=
  List.dropPrefix?_append_of_beq rest (beq_self_eq_true front)

/-- A field behind a word of its own. -/
def readField (word : List α) (d : α) (text : List α) : Option (List α × List α) :=
  (text.dropPrefix? word).bind (readUntil d)

theorem readField_append {word : List α} (inside : d ∉ front) :
    readField word d (word ++ (front ++ d :: rest)) = some (front, rest) := by
  rw [readField, dropPrefix_append, Option.bind_some, readUntil_append inside]

/-- The items of a text, one in each line. -/
def readLines (d : α) (read : List α → Option β) (text : List α) : Option (List β) :=
  (text.splitOn d).dropLast.mapM read

variable {write : β → List α} {read : List α → Option β} {items : List β}

theorem splitOn_lines (plain : ∀ item ∈ items, d ∉ write item) :
    (items.flatMap fun item => write item ++ [d]).splitOn d = items.map write ++ [[]] := by
  induction items with
  | nil => rfl
  | cons item items ih =>
    obtain ⟨first, others⟩ := List.forall_mem_cons.mp plain
    rw [List.flatMap_cons, List.append_assoc, List.singleton_append,
      List.splitOn_append_cons_self_of_not_mem first, ih others, List.map_cons, List.cons_append]

/-- What is written line by line is read line by line. -/
theorem readLines_flatMap (plain : ∀ item ∈ items, d ∉ write item)
    (reads : ∀ item ∈ items, read (write item) = some item) :
    readLines d read (items.flatMap fun item => write item ++ [d]) = some items := by
  rw [readLines, splitOn_lines plain, List.dropLast_concat, List.mapM_map]
  induction items with
  | nil => rfl
  | cons item items ih =>
    obtain ⟨first, others⟩ := List.forall_mem_cons.mp reads
    have rest := ih (fun item member => plain item (List.mem_cons_of_mem _ member)) others
    simp only [List.mapM_cons, Function.comp_apply, first, rest]
    rfl

end DedOS.Lib
