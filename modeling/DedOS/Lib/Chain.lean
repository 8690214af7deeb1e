import Mathlib.Data.List.Nodup
import Mathlib.Logic.Function.Basic

/-!
# Singly linked lists threaded through a link map

`Seg next head l stop`: following `next` from `head` visits the nodes of `l` in
order and arrives at `stop`. `Chain next head l` is the segment that ends the
list. A finite chain is automatically free of cycles and repetitions, so the
representation predicate alone carries acyclicity.
-/

namespace DedOS.Lib

variable {α : Type*}

inductive Seg (next : α → Option α) : Option α → List α → Option α → Prop
  | nil (stop : Option α) : Seg next stop [] stop
  | cons {a : α} {l : List α} {stop : Option α} :
      Seg next (next a) l stop → Seg next (some a) (a :: l) stop

/-- The whole list that starts at `head`. -/
def Chain (next : α → Option α) (head : Option α) (l : List α) : Prop :=
  Seg next head l none

variable {next next' : α → Option α} {head stop : Option α} {l l₁ l₂ : List α} {a p : α}

@[simp] theorem seg_nil : Seg next head [] stop ↔ head = stop := by
  constructor
  · intro h
    cases h
    rfl
  · rintro rfl
    exact .nil head

@[simp] theorem seg_cons :
    Seg next head (a :: l) stop ↔ head = some a ∧ Seg next (next a) l stop := by
  constructor
  · intro h
    cases h with
    | cons tail => exact ⟨rfl, tail⟩
  · rintro ⟨rfl, tail⟩
    exact .cons tail

@[simp] theorem chain_nil : Chain next head [] ↔ head = none := seg_nil

@[simp] theorem chain_cons :
    Chain next head (a :: l) ↔ head = some a ∧ Chain next (next a) l := seg_cons

theorem seg_append :
    Seg next head (l₁ ++ l₂) stop ↔ ∃ mid, Seg next head l₁ mid ∧ Seg next mid l₂ stop := by
  induction l₁ generalizing head with
  | nil => simp
  | cons a l ih => simp [ih, and_assoc]

theorem chain_append :
    Chain next head (l₁ ++ l₂) ↔ ∃ mid, Seg next head l₁ mid ∧ Chain next mid l₂ := seg_append

/-- A segment only depends on the links of its own nodes. -/
theorem Seg.congr (agree : ∀ x ∈ l, next' x = next x) (h : Seg next head l stop) :
    Seg next' head l stop := by
  induction h with
  | nil stop => exact .nil stop
  | @cons a l stop tail ih =>
    refine .cons ?_
    rw [agree a List.mem_cons_self]
    exact ih fun x hx => agree x (List.mem_cons_of_mem a hx)

theorem Chain.congr (agree : ∀ x ∈ l, next' x = next x) (h : Chain next head l) :
    Chain next' head l := Seg.congr agree h

/-- The nodes of a chain are determined by its head. -/
theorem Chain.unique (h₁ : Chain next head l₁) (h₂ : Chain next head l₂) : l₁ = l₂ := by
  induction l₁ generalizing head l₂ with
  | nil =>
    obtain rfl := chain_nil.mp h₁
    cases l₂ with
    | nil => rfl
    | cons b l₂ => simp at h₂
  | cons a l ih =>
    obtain ⟨rfl, tail₁⟩ := chain_cons.mp h₁
    cases l₂ with
    | nil => simp at h₂
    | cons b l₂ =>
      obtain ⟨same, tail₂⟩ := chain_cons.mp h₂
      obtain rfl := Option.some.inj same
      rw [ih tail₁ tail₂]

/-- A chain that ends cannot come back to a node it has visited. -/
theorem Chain.nodup (h : Chain next head l) : l.Nodup := by
  induction l generalizing head with
  | nil => exact List.nodup_nil
  | cons a l ih =>
    obtain ⟨rfl, tail⟩ := chain_cons.mp h
    refine List.nodup_cons.mpr ⟨?_, ih tail⟩
    intro again
    obtain ⟨before, after, rfl⟩ := List.append_of_mem again
    obtain ⟨mid, _, rest⟩ := seg_append.mp tail
    obtain ⟨rfl, _⟩ := seg_cons.mp rest
    -- the same head would start both the list and a proper suffix of it
    have lengths := congrArg List.length (Chain.unique h rest)
    simp at lengths
    omega

variable [DecidableEq α]

instance Seg.decidable : (head : Option α) → (l : List α) → (stop : Option α) →
    Decidable (Seg next head l stop)
  | _, [], _ => decidable_of_iff _ seg_nil.symm
  | _, a :: l, stop =>
    have := Seg.decidable (next a) l stop
    decidable_of_iff _ seg_cons.symm

instance : Decidable (Chain next head l) := Seg.decidable head l none

/-- Setting a link outside a chain leaves the chain alone. -/
theorem Chain.update_notMem {dest : Option α} (h : Chain next head l) (out : a ∉ l) :
    Chain (Function.update next a dest) head l :=
  h.congr fun _ hx => Function.update_of_ne (ne_of_mem_of_not_mem hx out) _ _

/-- Pushing a node at the head. -/
theorem Chain.push (h : Chain next head l) (out : a ∉ l) :
    Chain (Function.update next a head) (some a) (a :: l) := by
  refine chain_cons.mpr ⟨rfl, ?_⟩
  rw [Function.update_self]
  exact h.update_notMem out

/-- Redirecting the last link of a segment moves where it stops. -/
theorem Seg.relink {before : List α} {dest : Option α}
    (front : Seg next head (before ++ [p]) stop) (fresh : p ∉ before) :
    Seg (Function.update next p dest) head (before ++ [p]) dest := by
  obtain ⟨mid, left, last⟩ := seg_append.mp front
  obtain ⟨rfl, _⟩ := seg_cons.mp last
  refine seg_append.mpr ⟨some p, ?_, ?_⟩
  · exact left.congr fun _ hx => Function.update_of_ne (ne_of_mem_of_not_mem hx fresh) _ _
  · simp

end DedOS.Lib
