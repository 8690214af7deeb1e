import Mathlib.Data.List.Find
import Mathlib.Data.List.Induction
import Mathlib.Logic.Function.Basic

/-!
# Trees of named nodes

The children of a node are a list that is searched from the front for a name, so that a
child hides the later ones of its name. Adding a child at the front changes what its own
path leads to and cuts off what lay below that path, and no other path.
-/

namespace DedOS.Lib

structure NameTree (α N : Type*) where
  kids : α → List α
  name : α → N

namespace NameTree

variable {α N : Type*} [DecidableEq N] {t : NameTree α N} {root a b : α} {n : N} {ns ms dir : List N}

/-- The first child of that name. -/
def child (t : NameTree α N) (a : α) (n : N) : Option α := (t.kids a).find? (t.name · = n)

def walk (t : NameTree α N) : α → List N → Option α
  | a, [] => some a
  | a, n :: ns =>
    match t.child a n with
    | none => none
    | some b => walk t b ns

@[simp] theorem walk_nil : t.walk a [] = some a := rfl

theorem walk_cons_none (h : t.child a n = none) : t.walk a (n :: ns) = none := by
  simp [walk, h]

theorem walk_cons_some (h : t.child a n = some b) : t.walk a (n :: ns) = t.walk b ns := by
  simp [walk, h]

theorem walk_append : t.walk a (ns ++ ms) = (t.walk a ns).bind (t.walk · ms) := by
  induction ns generalizing a with
  | nil => rfl
  | cons n ns ih =>
    cases h : t.child a n with
    | none => simp [walk, h]
    | some b => simp [walk, h, ih]

theorem walk_concat : t.walk a (ns ++ [n]) = (t.walk a ns).bind (t.child · n) := by
  rw [walk_append]
  congr
  funext b
  cases h : t.child b n <;> simp [walk, h]

theorem child_some (h : t.child a n = some b) : b ∈ t.kids a ∧ t.name b = n :=
  ⟨List.mem_of_find?_eq_some h, by simpa using List.find?_some h⟩

/-- No node has two parents, and the root has none. -/
structure Rooted (t : NameTree α N) (root : α) : Prop where
  parent : ∀ {a b i}, i ∈ t.kids a → i ∈ t.kids b → a = b
  top : ∀ a, root ∉ t.kids a

/-- Only one path leads to a node. -/
theorem Rooted.walk_injective (rooted : t.Rooted root) (left : t.walk root ns = some a)
    (right : t.walk root ms = some a) : ns = ms := by
  -- from the last name backwards: a node determines its name and its parent
  induction ns using List.reverseRecOn generalizing a ms with
  | nil =>
    obtain rfl := Option.some.inj left
    cases ms using List.reverseRecOn with
    | nil => rfl
    | append_singleton ms m =>
      rw [walk_concat] at right
      obtain ⟨b, _, last⟩ := Option.bind_eq_some_iff.mp right
      exact absurd (child_some last).1 (rooted.top b)
  | append_singleton ns n ih =>
    rw [walk_concat] at left
    obtain ⟨b, front, last⟩ := Option.bind_eq_some_iff.mp left
    cases ms using List.reverseRecOn with
    | nil =>
      obtain rfl := Option.some.inj right
      exact absurd (child_some last).1 (rooted.top b)
    | append_singleton ms m =>
      rw [walk_concat] at right
      obtain ⟨b', front', last'⟩ := Option.bind_eq_some_iff.mp right
      obtain rfl := rooted.parent (child_some last).1 (child_some last').1
      rw [ih front front', ← (child_some last).2, (child_some last').2]

/-- `a` is not in the tree yet. -/
structure Fresh (t : NameTree α N) (root a : α) : Prop where
  root : a ≠ root
  kids : ∀ b, a ∉ t.kids b

theorem Fresh.ne_of_walk (fresh : t.Fresh root a) (h : t.walk root ns = some b) : b ≠ a := by
  rintro rfl
  cases ns using List.reverseRecOn with
  | nil => exact fresh.root (Option.some.inj h).symm
  | append_singleton ns n =>
    rw [walk_concat] at h
    obtain ⟨c, _, last⟩ := Option.bind_eq_some_iff.mp h
    exact fresh.kids c (child_some last).1

variable [DecidableEq α] {parent : α}

/-- `a` becomes the first child of `parent`, without children of its own. -/
def insert (t : NameTree α N) (parent a : α) (n : N) : NameTree α N where
  kids := Function.update (Function.update t.kids parent (a :: t.kids parent)) a []
  name := Function.update t.name a n

omit [DecidableEq N] in
theorem insert_kids : (t.insert parent a n).kids =
    Function.update (Function.update t.kids parent (a :: t.kids parent)) a [] := rfl

omit [DecidableEq N] in
theorem insert_name : (t.insert parent a n).name = Function.update t.name a n := rfl

omit [DecidableEq N] in
theorem mem_kids_insert {i : α} (member : i ∈ (t.insert parent a n).kids b) :
    i = a ∧ b = parent ∨ i ∈ t.kids b := by
  simp only [insert, Function.update_apply] at member
  split at member
  · cases member
  · split at member
    next same =>
      rcases List.mem_cons.mp member with new | member
      · exact .inl ⟨new, same⟩
      · exact .inr (same ▸ member)
    · exact .inr member

omit [DecidableEq N] in
theorem Rooted.insert (rooted : t.Rooted root) (fresh : t.Fresh root a) :
    (t.insert parent a n).Rooted root := by
  constructor
  · intro b c i left right
    rcases mem_kids_insert left with ⟨rfl, rfl⟩ | left'
    · rcases mem_kids_insert right with ⟨_, rfl⟩ | right'
      · rfl
      · exact absurd right' (fresh.kids c)
    · rcases mem_kids_insert right with ⟨rfl, rfl⟩ | right'
      · exact absurd left' (fresh.kids b)
      · exact rooted.parent left' right'
  · intro b member
    rcases mem_kids_insert member with ⟨new, _⟩ | member
    · exact fresh.root new.symm
    · exact rooted.top b member

theorem child_insert_new {m : N} : (t.insert parent a n).child a m = none := by
  simp [child, insert]

/-- The parent shows the new child under its name and the old children under any other. -/
theorem child_insert_parent {m : N} (fresh : t.Fresh root a) (other : parent ≠ a) :
    (t.insert parent a n).child parent m = if m = n then some a else t.child parent m := by
  have names : ∀ i ∈ t.kids parent, Function.update t.name a n i = t.name i := by
    intro i member
    exact Function.update_of_ne (ne_of_mem_of_not_mem member (fresh.kids parent)) _ _
  have rest : (t.kids parent).find? (Function.update t.name a n · = m) = t.child parent m :=
    List.find?_congr fun i member => by rw [names i member]
  by_cases same : m = n
  · simp [child, insert, Function.update_of_ne other, same]
  · simp only [child, insert, Function.update_of_ne other, Function.update_self, if_neg same]
    rw [List.find?_cons_of_neg (by simpa using Ne.symm same)]
    exact rest

theorem child_insert_other {m : N} (fresh : t.Fresh root a) (other : b ≠ a) (away : b ≠ parent) :
    (t.insert parent a n).child b m = t.child b m := by
  have same : (t.insert parent a n).kids b = t.kids b := by
    simp [insert, Function.update_of_ne other, Function.update_of_ne away]
  rw [child, child, same]
  apply List.find?_congr
  intro i member
  have name : (t.insert parent a n).name i = t.name i :=
    Function.update_of_ne (ne_of_mem_of_not_mem member (fresh.kids b)) _ _
  rw [name]

/-- What the paths lead to after an insertion at the node that `dir` leads to. -/
theorem walk_insert (ns : List N) (n : N) (rooted : t.Rooted root) (fresh : t.Fresh root a)
    (found : t.walk root dir = some parent) :
    (t.insert parent a n).walk root ns =
      if ns = dir ++ [n] then some a
      else if dir ++ [n] <+: ns then none
      else t.walk root ns := by
  induction ns using List.reverseRecOn with
  | nil => simp
  | append_singleton ns m ih =>
    rw [walk_concat, ih, walk_concat]
    by_cases at_place : ns = dir ++ [n]
    · -- the new node has no children
      rw [if_pos at_place, at_place, if_neg (by simp), if_pos (List.prefix_append _ _)]
      exact child_insert_new
    rw [if_neg at_place]
    by_cases below : dir ++ [n] <+: ns
    · have longer : ¬ ns ++ [m] = dir ++ [n] := by
        rintro same
        have lengths := congrArg List.length same
        have short := below.length_le
        simp at lengths short
        omega
      rw [if_pos below, if_neg longer, if_pos (below.trans (List.prefix_append _ _))]
      rfl
    -- the path stops above the new node or beside it
    rw [if_neg below]
    have beside : ¬ (dir ++ [n] <+: ns ++ [m] ∧ ns ++ [m] ≠ dir ++ [n]) := by
      rintro ⟨front, differ⟩
      rcases List.prefix_concat_iff.mp front with same | front
      · exact differ same.symm
      · exact below front
    cases here : t.walk root ns with
    | none =>
      have outside : ¬ ns ++ [m] = dir ++ [n] := by
        intro same
        rw [(List.append_inj' same rfl).1, found] at here
        cases here
      rw [if_neg outside, if_neg (fun front => beside ⟨front, outside⟩)]
      rfl
    | some b =>
      have old : b ≠ a := fresh.ne_of_walk here
      by_cases same : b = parent
      · subst same
        obtain rfl := rooted.walk_injective here found
        simp only [Option.bind_some, List.append_cancel_left_eq, List.cons.injEq, and_true]
        rw [child_insert_parent fresh old]
        split
        · rfl
        next differ =>
          have apart : ¬ ns ++ [m] = ns ++ [n] := by simpa using differ
          rw [if_neg (fun front => beside ⟨front, apart⟩)]
      · have outside : ¬ ns ++ [m] = dir ++ [n] := by
          intro equal
          rw [(List.append_inj' equal rfl).1, found] at here
          exact same (Option.some.inj here).symm
        rw [if_neg outside, if_neg (fun front => beside ⟨front, outside⟩)]
        exact child_insert_other fresh old same

end NameTree

end DedOS.Lib
