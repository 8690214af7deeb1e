import DedOS.Fs.Outcome

/-!
# `tmpfs_add_entry`

An entry goes to the front of the children of its parent directory, or of the root when there
is no such directory.
-/

namespace DedOS

open Lib

theorem strrchrFrom_none {c : UInt8} {l : List UInt8} {i : Nat} {last : Option Nat} (none : c ∉ l) :
    strrchrFrom c l i last = last := by
  induction l generalizing i with
  | nil => rfl
  | cons b l ih =>
    have other : ¬ b = c := fun same => none (by simp [same])
    rw [strrchrFrom, if_neg other]
    exact ih fun member => none (by simp [member])

theorem strrchrFrom_last {c : UInt8} {dir base : List UInt8} {i : Nat} {last : Option Nat}
    (none : c ∉ base) : strrchrFrom c (dir ++ c :: base) i last = some (i + dir.length) := by
  induction dir generalizing i last with
  | nil =>
    rw [List.nil_append, strrchrFrom, if_pos rfl]
    exact strrchrFrom_none none
  | cons b dir ih =>
    rw [List.cons_append, strrchrFrom, ih, List.length_cons]
    congr 1
    omega

/-- The two ways in which `tmpfs_add_entry` splits its path. -/
theorem strrchr_cases (path : CString) :
    slash ∉ path.bytes ∧ strrchr path slash = none ∨
    ∃ last base, strrchr path slash = some last ∧ path.bytes.drop (last + 1) = base ∧
      path.bytes = (path.cut last).bytes ++ slash :: base ∧ slash ∉ base ∧ last < path.length := by
  rcases exists_last_word slash path.bytes with plain | ⟨dir, base, split, last⟩
  · exact .inl ⟨plain, strrchrFrom_none plain⟩
  · refine .inr ⟨dir.length, base, ?_, ?_, ?_, last, ?_⟩
    · rw [strrchr, split, strrchrFrom_last last, Nat.zero_add]
    · simp [split]
    · simp [CString.cut, split]
    · simp [CString.length, split]

namespace Tmpfs

variable {t : Names} {s s' : Tmpfs} {path : CString} {name data base : List UInt8}
  {flags : UInt32} {parent fuel i : Nat} {new : TmpfsNode}

/-! ### A new child -/

/-- The node that `tmpfs_create_file` or `tmpfs_create_dir` makes. -/
def entry (name data : List UInt8) (flags : UInt32) (next : Option Nat) : TmpfsNode :=
  if flags &&& vfsDirectory ≠ 0 then ⟨name, vfsDirectory, 0, [], next, none⟩
  else ⟨name, vfsFile, data.length, data, next, none⟩

/-- A node becomes the first child of `parent`. -/
def enter (s : Tmpfs) (parent : Nat) (new : TmpfsNode) : Tmpfs :=
  { s with
    node := Function.update (Function.update s.node s.nodes new) parent
      { s.node parent with children := some s.nodes }
    nodes := s.nodes + 1 }

theorem enter_new (other : parent < s.nodes) : (s.enter parent new).node s.nodes = new := by
  simp [enter, Function.update_of_ne other.ne']

theorem enter_parent :
    (s.enter parent new).node parent = { s.node parent with children := some s.nodes } := by
  simp [enter]

theorem enter_other (away : i ≠ parent) (old : i ≠ s.nodes) :
    (s.enter parent new).node i = s.node i := by
  simp [enter, Function.update_of_ne away, Function.update_of_ne old]

theorem look_enter (parent : Nat) (new : TmpfsNode) (old : i < s.nodes) : look ((s.enter parent new).node i) = look (s.node i) := by
  by_cases here : i = parent
  · subst here
    rw [enter_parent]
    rfl
  · rw [enter_other here old.ne]

/-- What does not look at the first child holds of every node after `new` is entered. -/
theorem forall_enter (here : parent < s.nodes) {P : TmpfsNode → Prop}
    (blind : ∀ n c, P n → P { n with children := c }) (at_new : P new)
    (old : ∀ i < s.nodes, P (s.node i)) : ∀ i < s.nodes + 1, P ((s.enter parent new).node i) := by
  intro i small
  by_cases at_parent : i = parent
  · subst at_parent
    rw [enter_parent]
    exact blind _ _ (old i here)
  by_cases last : i = s.nodes
  · subst last
    rwa [enter_new here]
  · rw [enter_other at_parent last]
    exact old i (by omega)

/-- The new node is linked in front of the children of its parent; the other links stay. -/
theorem next_enter (here : parent < s.nodes) (next : new.next = (s.node parent).children) :
    (fun i => ((s.enter parent new).node i).next) =
      Function.update (fun i => (s.node i).next) s.nodes (s.node parent).children := by
  funext i
  by_cases last : i = s.nodes
  · subst last
    rw [enter_new here, Function.update_self, next]
  rw [Function.update_of_ne last]
  by_cases at_parent : i = parent
  · subst at_parent
    rw [enter_parent]
  · rw [enter_other at_parent last]

/-- A name that is too long for its field overflows it. -/
theorem tmpfsCreate_overflow (data : List UInt8) (flags : UInt32)
    (dir : (s.node parent).flags = vfsDirectory) (large : ¬ name.length ≤ nameMax) :
    tmpfsCreate parent name data flags s = .error .overflow := by
  have full : name.length ≥ 128 := Nat.lt_of_not_le large
  have crash : ∀ data, tmpfsCreateFile parent name data s = .error .overflow := by
    intro data
    rw [tmpfsCreateFile, if_neg (not_not.mpr dir), if_pos full]
  rw [tmpfsCreate, tmpfsCreateDir, crash, crash]
  split <;> rfl

theorem tmpfsCreate_eq (dir : (s.node parent).flags = vfsDirectory) (here : parent < s.nodes)
    (room : name.length ≤ nameMax) :
    tmpfsCreate parent name data flags s =
      .ok (some s.nodes, s.enter parent (entry name data flags (s.node parent).children)) := by
  have fits : ¬ name.length ≥ 128 := by unfold nameMax at room; omega
  have other : parent ≠ s.nodes := here.ne
  rw [tmpfsCreate, entry]
  by_cases kind : flags &&& vfsDirectory ≠ 0
  · rw [if_pos kind, if_pos kind, tmpfsCreateDir, tmpfsCreateFile, if_neg (not_not.mpr dir),
      if_neg fits]
    simp only [ok_bind, enter, pure, Except.pure]
    congr 3
    -- the flags are set after the node has been linked
    funext i
    by_cases at_new : i = s.nodes
    · subst at_new
      simp [Function.update_of_ne other.symm]
    · rw [Function.update_of_ne at_new]
      by_cases at_parent : i = parent
      · subst at_parent
        simp [Function.update_of_ne other]
      · simp [Function.update_of_ne at_parent, Function.update_of_ne at_new]
  · rw [if_neg kind, if_neg kind, tmpfsCreateFile, if_neg (not_not.mpr dir), if_neg fits]
    simp [enter, Function.update_of_ne other]

theorem Holds.fresh (holds : Holds t s) : t.Fresh rootInternal s.nodes where
  root := holds.rootAllocated.ne'
  kids b member := absurd (holds.younger b _ member).2 (Nat.lt_irrefl _)

theorem Holds.enter (holds : Holds t s) (here : parent < s.nodes)
    (dir : (s.node parent).flags = vfsDirectory)
    (kind : new.flags = vfsFile ∨ new.flags = vfsDirectory) (sized : new.size = new.data.length)
    (fits : new.name.length ≤ nameMax) (next : new.next = (s.node parent).children)
    (children : new.children = none) :
    Holds (t.insert parent s.nodes new.name) (s.enter parent new) := by
  have fresh := holds.fresh
  -- every field but the links is as before, except in the new node
  have each : ∀ {P : TmpfsNode → Prop}, (∀ n c, P n → P { n with children := c }) → P new →
      (∀ i < s.nodes, P (s.node i)) → ∀ i < s.nodes + 1, P ((s.enter parent new).node i) :=
    forall_enter here
  have links := next_enter here next
  constructor
  case name =>
    intro i small
    by_cases last : i = s.nodes
    · subst last
      rw [enter_new here, NameTree.insert_name, Function.update_self]
    · have same : (look ((s.enter parent new).node i)).name = (look (s.node i)).name :=
        congrArg Seen.name (look_enter parent new (by change i < s.nodes + 1 at small; omega))
      rw [NameTree.insert_name, Function.update_of_ne last]
      exact (holds.name i (by change i < s.nodes + 1 at small; omega)).trans same.symm
  case chain =>
    intro d small
    rw [links]
    by_cases last : d = s.nodes
    · subst last
      simp [NameTree.insert, enter_new here, children]
    have old : d < s.nodes := by change d < s.nodes + 1 at small; omega
    have out := fresh.kids d
    by_cases at_parent : d = parent
    · subst at_parent
      rw [enter_parent, NameTree.insert_kids, Function.update_of_ne last, Function.update_self]
      exact (holds.chain d old).push out
    · rw [enter_other at_parent last, NameTree.insert_kids, Function.update_of_ne last,
        Function.update_of_ne at_parent]
      exact (holds.chain d old).update_notMem out
  case younger =>
    intro d i member
    change d < i ∧ i < s.nodes + 1
    rcases NameTree.mem_kids_insert member with ⟨rfl, rfl⟩ | member
    · exact ⟨here, Nat.lt_succ_self _⟩
    · have := holds.younger d i member
      omega
  case parent => exact (holds.rooted.insert fresh).parent
  case leaf =>
    intro d file
    by_cases last : d = s.nodes
    · subst last
      simp [NameTree.insert]
    by_cases at_parent : d = parent
    · subst at_parent
      rw [enter_parent] at file
      exact absurd dir file
    · rw [enter_other at_parent last] at file
      rw [NameTree.insert_kids, Function.update_of_ne last, Function.update_of_ne at_parent]
      exact holds.leaf d file
  case flags =>
    exact each (P := fun n => n.flags = vfsFile ∨ n.flags = vfsDirectory) (fun _ _ h => h) kind
      holds.flags
  case sized => exact each (P := fun n => n.size = n.data.length) (fun _ _ h => h) sized holds.sized
  case fits => exact each (P := fun n => n.name.length ≤ nameMax) (fun _ _ h => h) fits holds.fits
  case root =>
    have same := congrArg Seen.flags (look_enter parent new holds.rootAllocated)
    exact same.trans holds.root
  case rootAllocated => exact holds.rootAllocated.trans (Nat.lt_succ_self _)
  case rootVnode =>
    have same := look_enter parent new holds.rootAllocated
    refine holds.rootVnode.trans ?_
    simp only [look, Seen.mk.injEq] at same
    simp [vnodeOf, same.1, same.2.1, same.2.2.1]
  case vnodeAllocated => exact holds.vnodeAllocated

/-! ### The parent directory -/

/-- The directory that an entry is put in: its names, its node and the name of the entry. -/
inductive Chosen (t : Names) (s : Tmpfs) (path : CString) :
    List (List UInt8) → Nat → List UInt8 → Prop
  | plain : slash ∉ path.bytes → strrchr path slash = none →
      Chosen t s path [] rootInternal path.bytes
  | inside (last : Nat) {i : Nat} {base : List UInt8} : strrchr path slash = some last →
      path.bytes.drop (last + 1) = base → path.bytes = (path.cut last).bytes ++ slash :: base →
      slash ∉ base → last < path.length → target t (path.cut last) = some i →
      (s.node i).flags = vfsDirectory → Chosen t s path (path.cut last).names i base
  | fallback (last : Nat) {base : List UInt8} : strrchr path slash = some last →
      path.bytes.drop (last + 1) = base → path.bytes = (path.cut last).bytes ++ slash :: base →
      slash ∉ base → last < path.length →
      (∀ i, target t (path.cut last) = some i → (s.node i).flags ≠ vfsDirectory) →
      Chosen t s path [] rootInternal base

variable {dir : List (List UInt8)}

theorem exists_chosen (t : Names) (s : Tmpfs) (path : CString) :
    ∃ dir parent base, Chosen t s path dir parent base := by
  rcases strrchr_cases path with ⟨plain, none⟩ | ⟨last, base, found, behind, split, word, inside⟩
  · exact ⟨_, _, _, .plain plain none⟩
  by_cases some : ∃ i, target t (path.cut last) = some i ∧ (s.node i).flags = vfsDirectory
  · obtain ⟨i, target, flags⟩ := some
    exact ⟨_, _, _, .inside last found behind split word inside target flags⟩
  · refine ⟨_, _, _, .fallback last found behind split word inside fun i target flags => ?_⟩
    exact some ⟨i, target, flags⟩

theorem Chosen.found (chosen : Chosen t s path dir parent base) (holds : Holds t s) :
    t.walk rootInternal dir = some parent ∧ (s.node parent).flags = vfsDirectory ∧
      parent < s.nodes := by
  cases chosen with
  | plain => exact ⟨rfl, holds.root, holds.rootAllocated⟩
  | fallback => exact ⟨rfl, holds.root, holds.rootAllocated⟩
  | inside last _ _ _ _ _ found flags =>
    rw [target] at found
    split at found
    · cases found
    · exact ⟨found, flags, holds.walk_lt holds.rootAllocated found⟩

theorem cut_short {n : Nat} (short : path.length ≤ 255) : (path.cut n).length ≤ 255 := by
  simp only [CString.length, CString.cut, List.length_take] at short ⊢
  omega

/-- After the lookup of the parent, `tmpfs_add_entry` creates a node in the chosen directory. -/
theorem tmpfsAddEntry_eq (fuel : Nat) (data : List UInt8) (flags : UInt32) (holds : Holds t s)
    (short : path.length ≤ 255) (chosen : Chosen t s path dir parent base)
    (enough : s.nodes + 256 ≤ fuel) :
    ∃ s₁, Looked s s₁ ∧
      tmpfsAddEntry fuel path data flags s = tmpfsCreate parent base data flags s₁ := by
  have fits : ¬ path.length ≥ 256 := by omega
  rw [tmpfsAddEntry, if_neg fits]
  cases chosen with
  | plain plain none => exact ⟨s, Looked.refl s, by simp [none]⟩
  | inside last found behind split word inside target_i dir_i =>
    obtain ⟨vnode, s₁, done, look, shows⟩ := vfsFindPath_spec _ holds (cut_short short) enough
    refine ⟨s₁, look, ?_⟩
    rw [target_i] at shows
    cases shows with
    | node made copy here =>
      -- the directory part names a directory
      have flag : (s₁.vnodeOf parent).flags &&& vfsDirectory ≠ 0 := by
        rw [look.vnodeOf, vnodeOf, dir_i]
        exact (directory_flag (.inr rfl)).mpr rfl
      simp only [found, behind, done, copy, if_pos flag, ok_bind]
      rfl
  | fallback last found behind split word inside no_dir =>
    obtain ⟨vnode, s₁, done, look, shows⟩ := vfsFindPath_spec _ holds (cut_short short) enough
    refine ⟨s₁, look, ?_⟩
    -- it names nothing, or a file: the entry goes to the root
    cases target_i : target t (path.cut last) with
    | none =>
      rw [target_i] at shows
      cases shows
      simp [found, behind, done]
    | some i =>
      rw [target_i] at shows
      cases shows with
      | node made copy here =>
        have kind := (holds.looked look).flags i here
        have flag : ¬ (s₁.vnodeOf i).flags &&& vfsDirectory ≠ 0 := by
          rw [vnodeOf, directory_flag kind, look.node]
          exact no_dir i target_i
        simp only [found, behind, done, copy, if_neg flag, ok_bind]

theorem tmpfsAddEntry_mono (fuel' : Nat) {r : Option Nat × Tmpfs}
    (done : tmpfsAddEntry fuel path data flags s = .ok r) (more : fuel ≤ fuel') :
    tmpfsAddEntry fuel' path data flags s = .ok r := by
  rw [tmpfsAddEntry] at done ⊢
  split at done
  · cases done
  next fits =>
  rw [if_neg fits]
  cases slashes : strrchr path slash with
  | none => simpa [slashes] using done
  | some last =>
    simp only [slashes] at done ⊢
    obtain ⟨⟨vnode, s₁⟩, search, done⟩ := bind_eq_ok.mp done
    exact bind_eq_ok.mpr ⟨_, vfsFindPath_mono search more, done⟩

end Tmpfs

end DedOS
