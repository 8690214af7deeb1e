import DedOS.Fs.PathLookup

/-!
# The vnodes of a lookup

Every round of `vfs_find_path` makes a vnode and closes the one before. `lookup_balanced_iff`:
the lookup frees all it makes but the one returned, unless its path goes through a file.
-/

namespace DedOS

open Lib

namespace Tmpfs

variable {t : Names} {s s' : Tmpfs} {path : CString} {v i : Nat} {name : List UInt8}
  {names : List (List UInt8)} {found : Option Nat} {h : List (Entry Tmpfs TmpfsCall)}

/-- Every vnode made between `s` and `s'` was freed once, the returned one excepted, and no
other vnode was. -/
def Balanced (s : Tmpfs) (found : Option Nat) (s' : Tmpfs) : Prop :=
  ∃ frees, s'.freed = frees ++ s.freed ∧ vfsRoot ∉ frees ∧
    (∀ v ∈ frees, s.vnodes ≤ v ∧ v < s'.vnodes) ∧
    ∀ v, s.vnodes ≤ v → v < s'.vnodes → frees.count v = if found = some v then 0 else 1

def LeaksNothing (path : CString) (s : Tmpfs) : Prop :=
  ∃ fuel found s', vfsFindPath fuel path s = .ok (found, s') ∧ Balanced s found s'

/-- The names use a file as a directory: some of them, not all, lead to it. -/
def ThroughFile (s : Tmpfs) (names : List (List UInt8)) : Prop :=
  ∃ front name rest i, names = front ++ name :: rest ∧ Follows s rootInternal front (some i) ∧
    (s.node i).flags ≠ vfsDirectory

/-- `ThroughFile`, from the node `i` on. -/
def Blocked (t : Names) (s : Tmpfs) (i : Nat) (names : List (List UInt8)) : Prop :=
  ∃ front name rest j, names = front ++ name :: rest ∧ t.walk i front = some j ∧
    (s.node j).flags ≠ vfsDirectory

theorem not_blocked_nil : ¬ Blocked t s i [] := by
  rintro ⟨front, name, rest, j, split, _⟩
  simp at split

theorem blocked_cons : Blocked t s i (name :: names) ↔
    (s.node i).flags ≠ vfsDirectory ∨ ∃ j, t.child i name = some j ∧ Blocked t s j names := by
  constructor
  · rintro ⟨front, name', rest, j, split, walk, file⟩
    cases front with
    | nil =>
      obtain rfl := Option.some.inj walk
      exact .inl file
    | cons first front =>
      obtain ⟨rfl, rfl⟩ := List.cons.inj split
      right
      cases step : t.child i name with
      | none =>
        rw [NameTree.walk_cons_none step] at walk
        cases walk
      | some k =>
        rw [NameTree.walk_cons_some step] at walk
        exact ⟨k, rfl, front, name', rest, j, rfl, walk, file⟩
  · rintro (file | ⟨j, step, front, name', rest, k, rfl, walk, file⟩)
    · exact ⟨[], name, names, i, rfl, rfl, file⟩
    · refine ⟨name :: front, name', rest, k, rfl, ?_, file⟩
      rw [NameTree.walk_cons_some step]
      exact walk

theorem blocked_looked (look : Looked s s') : Blocked t s' i names ↔ Blocked t s i names := by
  simp only [Blocked, look.node]

theorem throughFile_iff (grown : Grown t s) :
    ThroughFile s names ↔ Blocked t s rootInternal names := by
  simp only [ThroughFile, Blocked, follows_iff grown grown.rootAllocated, eq_comm]

/-- The vnodes that the loop has to see to: the current one and those it makes. -/
def Owned (v : Nat) (s s' : Tmpfs) (u : Nat) : Prop :=
  u = v ∧ v ≠ vfsRoot ∨ s.vnodes ≤ u ∧ u < s'.vnodes

/-- The vnodes of a descent: freed, returned or lost. -/
structure Ledger (v : Nat) (s : Tmpfs) (found : Option Nat) (s' : Tmpfs) (lost : Option Nat)
    (frees : List Nat) : Prop where
  freed : s'.freed = frees ++ s.freed
  once : ∀ u, (Owned v s s' u ∧ found ≠ some u ∧ lost ≠ some u) → frees.count u = 1
  never : ∀ u, ¬ (Owned v s s' u ∧ found ≠ some u ∧ lost ≠ some u) → frees.count u = 0
  handed : ∀ u, found = some u → u = v ∨ s.vnodes ≤ u
  lost : ∀ u, lost = some u → found = none ∧ Owned v s s' u

/-- What `vfs_close(v)` frees. -/
def closed (v : Nat) : List Nat := if v = vfsRoot then [] else [v]

theorem vfsClose_freed (v : Nat) (s : Tmpfs) : (vfsClose v s).freed = closed v ++ s.freed := by
  unfold vfsClose closed
  split <;> rfl

@[simp] theorem vfsClose_vnodes (v : Nat) (s : Tmpfs) : (vfsClose v s).vnodes = s.vnodes := by
  unfold vfsClose
  split <;> rfl

theorem count_closed (v u : Nat) :
    (closed v).count u = if u = v ∧ v ≠ vfsRoot then 1 else 0 := by
  unfold closed
  by_cases root : v = vfsRoot
  · simp [root]
  · simp only [root, if_false, List.count_singleton, beq_iff_eq, ne_eq, not_false_eq_true,
      and_true]
    exact if_congr eq_comm rfl rfl

/-- A round that goes down: the directory's vnode is freed, the child's is handed on. -/
theorem Ledger.down {j : Nat} {lost : Option Nat} {frees : List Nat} (made : v < s.vnodes)
    (rooted : vfsRoot < s.vnodes)
    (rest : Ledger s.vnodes (vfsClose v (tmpfsCreateVnode j s).2) found s' lost frees)
    (more : s.vnodes < s'.vnodes) : Ledger v s found s' lost (frees ++ closed v) := by
  have vnodes : (vfsClose v (tmpfsCreateVnode j s).2).vnodes = s.vnodes + 1 := vfsClose_vnodes v _
  have fresh : s.vnodes ≠ vfsRoot := rooted.ne'
  have owned : ∀ u, Owned s.vnodes (vfsClose v (tmpfsCreateVnode j s).2) s' u ↔
      s.vnodes ≤ u ∧ u < s'.vnodes := by
    intro u
    rw [Owned, vnodes]
    omega
  -- the current vnode is older than all the others
  have current : found ≠ some v ∧ lost ≠ some v ∧ frees.count v = 0 := by
    refine ⟨fun same => ?_, fun same => ?_, rest.never v fun mine => ?_⟩
    · have := rest.handed v same
      omega
    · have := (owned v).mp (rest.lost v same).2
      omega
    · have := (owned v).mp mine.1
      omega
  constructor
  case freed =>
    rw [rest.freed, vfsClose_freed, List.append_assoc]
    rfl
  case once =>
    rintro u ⟨mine, kept, held⟩
    rw [List.count_append, count_closed]
    rcases mine with ⟨rfl, other⟩ | new
    · rw [current.2.2, if_pos ⟨rfl, other⟩]
    · have young : u ≠ v := by omega
      rw [rest.once u ⟨(owned u).mpr new, kept, held⟩, if_neg fun both => young both.1]
  case never =>
    intro u out
    rw [List.count_append, count_closed]
    by_cases same : u = v
    · subst same
      have root : u = vfsRoot := by
        by_contra other
        exact out ⟨.inl ⟨rfl, other⟩, current.1, current.2.1⟩
      rw [current.2.2, if_neg fun both => both.2 root]
    · rw [if_neg fun both => same both.1, rest.never u fun mine =>
        out ⟨.inr ((owned u).mp mine.1), mine.2⟩]
  case handed =>
    intro u same
    have := rest.handed u same
    omega
  case lost =>
    intro u same
    exact ⟨(rest.lost u same).1, .inr ((owned u).mp (rest.lost u same).2)⟩

/-- Only a descent that a file blocks loses a vnode, that of the file. -/
theorem Descends.ledger (descent : Descends t s v i names found s') (made : v < s.vnodes)
    (rooted : vfsRoot < s.vnodes) (top : v = vfsRoot → (s.node i).flags = vfsDirectory) :
    ∃ lost frees, Ledger v s found s' lost frees ∧ (lost = none ↔ ¬ Blocked t s i names) := by
  induction descent with
  | @here s v i =>
    -- the vnode is returned, and no other one is owed
    have empty : ∀ u, ¬ (Owned v s s u ∧ some v ≠ some u ∧ (none : Option Nat) ≠ some u) := by
      rintro u ⟨⟨rfl, _⟩ | new, kept, _⟩
      · exact kept rfl
      · omega
    refine ⟨none, [], ⟨rfl, fun u mine => absurd mine (empty u), fun _ _ => rfl, ?_, ?_⟩, ?_⟩
    · exact fun u same => .inl (Option.some.inj same).symm
    · exact fun u same => by cases same
    · simp [not_blocked_nil]
  | @file s v i name names file =>
    -- the vnode of the file is neither returned nor closed
    have other : v ≠ vfsRoot := fun root => file (top root)
    have empty : ∀ u, ¬ (Owned v s s u ∧ (none : Option Nat) ≠ some u ∧ some v ≠ some u) := by
      rintro u ⟨⟨rfl, _⟩ | new, _, held⟩
      · exact held rfl
      · omega
    refine ⟨some v, [], ⟨rfl, fun u mine => absurd mine (empty u), fun _ _ => rfl, ?_, ?_⟩, ?_⟩
    · exact fun u same => by cases same
    · intro u same
      obtain rfl := Option.some.inj same
      exact ⟨rfl, .inl ⟨rfl, other⟩⟩
    · have blocked : Blocked t s i (name :: names) := blocked_cons.mpr (.inl file)
      simp [blocked]
  | @missing s v i name names dir step =>
    -- `vfs_close` frees it before `NULL` is returned
    have owned : ∀ u, (Owned v s (vfsClose v s) u ∧ (none : Option Nat) ≠ some u ∧
        (none : Option Nat) ≠ some u) ↔ u = v ∧ v ≠ vfsRoot := by
      intro u
      simp only [Owned, vfsClose_vnodes, ne_eq, reduceCtorEq, not_false_eq_true, and_true]
      omega
    refine ⟨none, closed v, ⟨vfsClose_freed v s, ?_, ?_, ?_, ?_⟩, ?_⟩
    · intro u mine
      rw [count_closed, if_pos ((owned u).mp mine)]
    · intro u out
      rw [count_closed, if_neg fun mine => out ((owned u).mpr mine)]
    · exact fun u same => by cases same
    · exact fun u same => by cases same
    · have free : ¬ Blocked t s i (name :: names) := by
        rw [blocked_cons]
        simp [dir, step]
      simp [free]
  | @down s s' v i j name names found dir step descent ih =>
    have vnodes : (vfsClose v (tmpfsCreateVnode j s).2).vnodes = s.vnodes + 1 := vfsClose_vnodes v _
    have more := descent.looked.vnodes
    rw [vnodes] at more ih
    -- the child takes the place of its parent, which is closed
    obtain ⟨lost, frees, rest, blocked⟩ := ih (Nat.lt_succ_self _) (Nat.lt_succ_of_lt rooted)
      fun root => absurd root rooted.ne'
    refine ⟨lost, frees ++ closed v, rest.down made rooted more, ?_⟩
    rw [blocked, blocked_cons, blocked_looked (looked_step v j s)]
    simp [dir, step]

/-- A lookup frees every vnode it makes but the returned one, unless its path uses a file as a
directory: that way out of the loop does not close the current vnode. -/
theorem lookup_balanced_iff (run : TmpfsRuns h s) (nonempty : path.bytes ≠ [])
    (short : path.length ≤ 255) :
    LeaksNothing path s ↔
      ¬ ThroughFile s ((components slash path.bytes).map (List.take 127)) := by
  obtain ⟨t, grown⟩ := grown_of_run run
  obtain ⟨found, s', done, descent⟩ := vfsFindPath_descends (s.nodes + 256) grown.toHolds short
    nonempty le_rfl
  have rooted := grown.vnodeAllocated
  obtain ⟨lost, frees, ledger, blocked⟩ := descent.ledger rooted rooted fun _ => grown.root
  have owned : ∀ u, Owned vfsRoot s s' u ↔ s.vnodes ≤ u ∧ u < s'.vnodes := fun u => by
    simp [Owned]
  have through : ThroughFile s ((components slash path.bytes).map (List.take 127)) ↔
      Blocked t s rootInternal path.names := throughFile_iff grown
  rw [through, ← blocked]
  constructor
  · rintro ⟨fuel', found', s'', done', frees', freed, _, _, each⟩
    have one := vfsFindPath_mono done (le_max_left _ fuel')
    have two := vfsFindPath_mono done' (le_max_right (s.nodes + 256) _)
    rw [one] at two
    cases two
    rw [ledger.freed] at freed
    obtain rfl := List.append_cancel_right freed
    -- a lost vnode would not be counted
    cases gone : lost with
    | none => rfl
    | some u =>
      obtain ⟨null, mine⟩ := ledger.lost u gone
      obtain ⟨new, made⟩ := (owned u).mp mine
      have counted := each u new made
      rw [ledger.never u fun kept => kept.2.2 gone, if_neg (by simp [null])] at counted
      cases counted
  · rintro rfl
    have members : ∀ v ∈ frees, s.vnodes ≤ v ∧ v < s'.vnodes := by
      intro v member
      by_contra out
      have zero := ledger.never v fun kept => out ((owned v).mp kept.1)
      exact List.count_eq_zero.mp zero member
    refine ⟨_, found, s', done, frees, ledger.freed, fun member => ?_, members, ?_⟩
    · have := (members _ member).1
      omega
    · intro v new made
      split
      next same => exact ledger.never v fun kept => kept.2.1 same
      next other => exact ledger.once v ⟨(owned v).mpr ⟨new, made⟩, other, by simp⟩

/-- `"a"` is a file. -/
def leafTree : Tmpfs := tmpfsInit.enter rootInternal (entry [0x61] [1] vfsFile none)

theorem run_leafTree : ∃ h, TmpfsRuns h leafTree := by
  have step : tmpfsStep tmpfsInit (.createFile rootInternal ⟨[0x61], by decide⟩ [1]) =
      some leafTree := rfl
  exact ⟨_, .step (.start rfl) step⟩

theorem lookup_balanced_iff_leaf : ∃ path, path.bytes = [slash, 0x61] ∧
    (LeaksNothing path leafTree ↔
      ¬ ThroughFile leafTree ((components slash path.bytes).map (List.take 127))) := by
  obtain ⟨h, run⟩ := run_leafTree
  exact ⟨⟨[slash, 0x61], by decide⟩, rfl, lookup_balanced_iff run (by decide) (by decide)⟩

/-- `"/a/b"` -/
def belowLeaf : CString := ⟨[slash, 0x61, slash, 0x62], by decide⟩

/-- Below the file `"a"` the lookup returns NULL and leaves the vnode of the file allocated. -/
theorem file_vnode_leaks : ∃ h, TmpfsRuns h leafTree ∧ ¬ LeaksNothing belowLeaf leafTree := by
  obtain ⟨h, run⟩ := run_leafTree
  refine ⟨h, run, ?_⟩
  rintro ⟨fuel, found, s', done, frees, freed, _, _, each⟩
  have shown : ∃ s₁, vfsFindPath 10 belowLeaf leafTree = .ok (none, s₁) ∧ s₁.freed = [] ∧
      s₁.vnodes = 2 := ⟨_, rfl, rfl, rfl⟩
  obtain ⟨s₁, done₁, freed₁, vnodes⟩ := shown
  have one := vfsFindPath_mono done (le_max_left fuel 10)
  have two := vfsFindPath_mono done₁ (le_max_right fuel 10)
  rw [one] at two
  cases two
  obtain rfl : frees = [] := (List.append_eq_nil_iff.mp (freed.symm.trans freed₁)).1
  have counted := each 1 (by decide) (by rw [vnodes]; decide)
  simp at counted

end Tmpfs

end DedOS
