import DedOS.Fs.Tmpfs
import DedOS.Lib.Chain
import DedOS.Lib.NameTree
import Mathlib.Data.List.Perm.Subperm

/-!
# The tree of a tmpfs

`Holds t s`: the child lists of `s` are those of the tree `t`. A child is younger than its
parent, so no path is longer than the number of nodes.
-/

namespace DedOS

open Lib

/-- A name fits in its field, with the terminator. -/
def nameMax : Nat := 127

theorem strcmp_eq_zero {a b : List UInt8} : strcmp a b = 0 ↔ a = b := by
  induction a generalizing b with
  | nil => cases b <;> simp [strcmp]
  | cons c a ih =>
    cases b with
    | nil => simp [strcmp]
    | cons d b =>
      by_cases same : c = d
      · simp [strcmp, same, ih]
      · simp only [strcmp, ne_eq, same, not_false_eq_true, ↓reduceIte, List.cons.injEq, false_and,
          iff_false]
        split <;> decide

/-- The test of a vnode's flags, for nodes that are files or directories. -/
theorem directory_flag {flags : UInt32} (kind : flags = vfsFile ∨ flags = vfsDirectory) :
    flags &&& vfsDirectory ≠ 0 ↔ flags = vfsDirectory := by
  rcases kind with rfl | rfl <;> decide

/-- A sequence that ends well has a first part that ends well. -/
theorem bind_eq_ok {α β : Type} {x : Except Fault α} {f : α → Except Fault β} {b : β} :
    (x >>= f) = .ok b ↔ ∃ a, x = .ok a ∧ f a = .ok b := by
  cases x <;> simp

namespace Tmpfs

abbrev Names := NameTree Nat (List UInt8)

structure Holds (t : Names) (s : Tmpfs) : Prop where
  name : ∀ i < s.nodes, t.name i = (s.node i).name
  chain : ∀ d < s.nodes, Chain (fun i => (s.node i).next) (s.node d).children (t.kids d)
  younger : ∀ d, ∀ i ∈ t.kids d, d < i ∧ i < s.nodes
  parent : ∀ {d e i}, i ∈ t.kids d → i ∈ t.kids e → d = e
  leaf : ∀ d, (s.node d).flags ≠ vfsDirectory → t.kids d = []
  flags : ∀ i < s.nodes, (s.node i).flags = vfsFile ∨ (s.node i).flags = vfsDirectory
  sized : ∀ i < s.nodes, (s.node i).size = (s.node i).data.length
  fits : ∀ i < s.nodes, (s.node i).name.length ≤ nameMax
  root : (s.node rootInternal).flags = vfsDirectory
  rootAllocated : rootInternal < s.nodes
  rootVnode : s.vnode vfsRoot = s.vnodeOf rootInternal
  vnodeAllocated : vfsRoot < s.vnodes

/-- What a lookup may have changed: vnodes are made and freed. -/
structure Looked (s s' : Tmpfs) : Prop where
  node : s'.node = s.node
  nodes : s'.nodes = s.nodes
  vnodes : s.vnodes ≤ s'.vnodes
  vnode : ∀ v < s.vnodes, s'.vnode v = s.vnode v

variable {t : Names} {s s' s'' : Tmpfs} {path : CString} {name : List UInt8} {i fuel fuel' v : Nat}

theorem Holds.rooted (holds : Holds t s) : t.Rooted rootInternal where
  parent := holds.parent
  top a member := absurd (holds.younger a _ member).1 (Nat.not_lt_zero a)

theorem Holds.child_lt (holds : Holds t s) {j : Nat} (h : t.child i name = some j) :
    i < j ∧ j < s.nodes := holds.younger i j (NameTree.child_some h).1

theorem Holds.walk_lt (holds : Holds t s) {names : List (List UInt8)} {j : Nat} (here : i < s.nodes)
    (h : t.walk i names = some j) : j < s.nodes := by
  induction names generalizing i with
  | nil => exact Option.some.inj h ▸ here
  | cons n names ih =>
    cases step : t.child i n with
    | none => simp [NameTree.walk_cons_none step] at h
    | some k => exact ih (holds.child_lt step).2 (by rwa [NameTree.walk_cons_some step] at h)

theorem Holds.kids_length (holds : Holds t s) {d : Nat} (here : d < s.nodes) :
    (t.kids d).length ≤ s.nodes := by
  have all : t.kids d ⊆ List.range s.nodes :=
    fun i member => List.mem_range.mpr (holds.younger d i member).2
  simpa using (List.subperm_of_subset (holds.chain d here).nodup all).length_le

theorem Looked.refl (s : Tmpfs) : Looked s s := ⟨rfl, rfl, le_rfl, fun _ _ => rfl⟩

theorem Looked.trans (first : Looked s s') (second : Looked s' s'') : Looked s s'' where
  node := second.node.trans first.node
  nodes := second.nodes.trans first.nodes
  vnodes := first.vnodes.trans second.vnodes
  vnode v old := (second.vnode v (old.trans_le first.vnodes)).trans (first.vnode v old)

theorem Looked.vnodeOf (look : Looked s s') (i : Nat) : s'.vnodeOf i = s.vnodeOf i := by
  simp [Tmpfs.vnodeOf, look.node]

theorem Holds.looked (holds : Holds t s) (look : Looked s s') : Holds t s' := by
  obtain ⟨_, _, vnode, vnodes, freed⟩ := s'
  obtain ⟨rfl, rfl, more, kept⟩ := look
  exact {
    name := holds.name
    chain := holds.chain
    younger := holds.younger
    parent := holds.parent
    leaf := holds.leaf
    flags := holds.flags
    sized := holds.sized
    fits := holds.fits
    root := holds.root
    rootAllocated := holds.rootAllocated
    rootVnode := (kept _ holds.vnodeAllocated).trans holds.rootVnode
    vnodeAllocated := holds.vnodeAllocated.trans_le more }

theorem looked_close (v : Nat) (s : Tmpfs) : Looked s (vfsClose v s) := by
  unfold vfsClose
  split
  · exact Looked.refl s
  · exact ⟨rfl, rfl, le_rfl, fun _ _ => rfl⟩

theorem looked_create (i : Nat) (s : Tmpfs) : Looked s (tmpfsCreateVnode i s).2 where
  node := rfl
  nodes := rfl
  vnodes := Nat.le_succ _
  vnode _ old := Function.update_of_ne old.ne _ _

/-- The pointer that a lookup returns: a vnode of the node, or NULL. -/
inductive Shows (s : Tmpfs) : Option Nat → Option Nat → Prop
  | null : Shows s none none
  | node {v i : Nat} : v < s.vnodes → s.vnode v = s.vnodeOf i → i < s.nodes →
      Shows s (some v) (some i)

theorem Shows.looked {found target : Option Nat} (shows : Shows s found target)
    (look : Looked s s') : Shows s' found target := by
  cases shows with
  | null => exact .null
  | node made copy here =>
    refine .node (made.trans_le look.vnodes) ?_ (look.nodes ▸ here)
    rw [look.vnode _ made, copy, look.vnodeOf]

theorem Holds.showsRoot (holds : Holds t s) : Shows s (some vfsRoot) (some rootInternal) :=
  .node holds.vnodeAllocated holds.rootVnode holds.rootAllocated

/-! ### `tmpfs_finddir` -/

/-- What `tmpfs_finddir` returns when its search ends at that node. -/
def handOut (s : Tmpfs) : Option Nat → Option Nat × Tmpfs
  | none => (none, s)
  | some i => (some s.vnodes, (tmpfsCreateVnode i s).2)

theorem looked_handOut (s : Tmpfs) (target : Option Nat) : Looked s (s.handOut target).2 := by
  cases target with
  | none => exact Looked.refl s
  | some i => exact looked_create i s

theorem shows_handOut (target : Option Nat) (inside : ∀ i, target = some i → i < s.nodes) :
    Shows (s.handOut target).2 (s.handOut target).1 target := by
  cases target with
  | none => exact .null
  | some i =>
    refine .node (Nat.lt_succ_self _) ?_ (inside i rfl)
    simp [handOut, tmpfsCreateVnode, vnodeOf]

theorem finddirFrom_eq (name : List UInt8) {l : List Nat} {head : Option Nat}
    (chain : Chain (fun i => (s.node i).next) head l) (enough : l.length ≤ fuel) :
    finddirFrom name fuel head s =
      .ok (s.handOut (l.find? fun i => (s.node i).name = name)) := by
  induction l generalizing head fuel with
  | nil =>
    obtain rfl := chain_nil.mp chain
    simp [finddirFrom, handOut]
  | cons i l ih =>
    obtain ⟨rfl, rest⟩ := chain_cons.mp chain
    obtain ⟨fuel, rfl⟩ : ∃ f, fuel = f + 1 := ⟨fuel - 1, by simp at enough; omega⟩
    rw [finddirFrom]
    by_cases same : (s.node i).name = name
    · rw [if_pos (strcmp_eq_zero.mpr same), List.find?_cons_of_pos (by simpa using same)]
      rfl
    · rw [if_neg (mt strcmp_eq_zero.mp same), List.find?_cons_of_neg (by simpa using same)]
      exact ih rest (by simpa using enough)

/-- A directory is searched for the first child of the name. -/
theorem tmpfsFinddir_eq (name : List UInt8) (fuel : Nat) (holds : Holds t s)
    (copy : s.vnode v = s.vnodeOf i) (here : i < s.nodes) (enough : s.nodes ≤ fuel) :
    tmpfsFinddir fuel v name s = .ok (s.handOut (t.child i name)) := by
  have device : (s.vnode v).device = i := by rw [copy]; rfl
  rw [tmpfsFinddir, device]
  split
  next file =>
    -- a file has no children
    rw [NameTree.child, holds.leaf i file]
    rfl
  · have same : t.child i name = (t.kids i).find? fun i => (s.node i).name = name :=
      List.find?_congr fun j member => by rw [holds.name j (holds.younger i j member).2]
    rw [same]
    exact finddirFrom_eq name (holds.chain i here) ((holds.kids_length here).trans enough)

theorem tmpfsFinddir_spec (name : List UInt8) (fuel : Nat) (holds : Holds t s)
    (copy : s.vnode v = s.vnodeOf i) (here : i < s.nodes) (enough : s.nodes ≤ fuel) :
    ∃ found s', tmpfsFinddir fuel v name s = .ok (found, s') ∧ Looked s s' ∧
      Shows s' found (t.child i name) :=
  ⟨_, _, tmpfsFinddir_eq name fuel holds copy here enough, looked_handOut s _,
    shows_handOut _ fun _ step => (holds.child_lt step).2⟩

/-! ### Bounds on the rounds -/

theorem finddirFrom_mono {head : Option Nat} {r : Option Nat × Tmpfs}
    (done : finddirFrom name fuel head s = .ok r) (more : fuel ≤ fuel') :
    finddirFrom name fuel' head s = .ok r := by
  induction fuel generalizing head fuel' with
  | zero =>
    cases head with
    | none => simpa [finddirFrom] using done
    | some i => simp [finddirFrom] at done
  | succ fuel ih =>
    obtain ⟨fuel', rfl⟩ : ∃ f, fuel' = f + 1 := ⟨fuel' - 1, by omega⟩
    cases head with
    | none => simpa [finddirFrom] using done
    | some i =>
      rw [finddirFrom] at done ⊢
      split at done
      next same => rwa [if_pos same]
      next differ =>
        rw [if_neg differ]
        exact ih done (by omega)

theorem tmpfsFinddir_mono {r : Option Nat × Tmpfs} (done : tmpfsFinddir fuel v name s = .ok r)
    (more : fuel ≤ fuel') : tmpfsFinddir fuel' v name s = .ok r := by
  rw [tmpfsFinddir] at done ⊢
  split at done
  next file => rwa [if_pos file]
  next dir =>
    rw [if_neg dir]
    exact finddirFrom_mono done more

theorem nextName_mono {cursor : UInt8} {r : List UInt8 × UInt8}
    (done : nextName path fuel cursor name = .ok r) (more : fuel ≤ fuel') :
    nextName path fuel' cursor name = .ok r := by
  induction fuel generalizing cursor name fuel' with
  | zero => cases done
  | succ fuel ih =>
    obtain ⟨fuel', rfl⟩ : ∃ f, fuel' = f + 1 := ⟨fuel' - 1, by omega⟩
    rw [nextName, bind_eq_ok] at done ⊢
    obtain ⟨c, read, done⟩ := done
    refine ⟨c, read, ?_⟩
    split at done
    next stop => rwa [if_pos stop]
    next inside =>
      rw [if_neg inside]
      exact ih done (by omega)

/-- The ways through a round of the outer loop of `vfs_find_path` that returns `r`. -/
inductive FindRound (path : CString) (fuel : Nat) (cursor : UInt8) (v : Nat) (s : Tmpfs)
    (r : Option Nat × Tmpfs) : Prop
  /-- the path ends here -/
  | last (read : path.get cursor.toNat = .ok 0) (result : r = (some v, s))
  /-- an empty piece: the loop goes on behind the slash -/
  | slash {c : UInt8} {cursor' cursor'' : UInt8} (read : path.get cursor.toNat = .ok c)
    (inside : c ≠ 0) (piece : nextName path fuel cursor [] = .ok ([], cursor'))
    (skipped : skipSlash path cursor' = .ok cursor'')
    (rest : findFrom path fuel cursor'' v s = .ok r)
  /-- a file in the middle of the path -/
  | file {c : UInt8} {name : List UInt8} {cursor' : UInt8} (read : path.get cursor.toNat = .ok c)
    (inside : c ≠ 0) (piece : nextName path fuel cursor [] = .ok (name, cursor'))
    (named : name ≠ []) (leaf : (s.vnode v).flags &&& vfsDirectory = 0) (result : r = (none, s))
  /-- a name that the directory does not have -/
  | missing {c : UInt8} {name : List UInt8} {cursor' : UInt8} {s₁ : Tmpfs}
    (read : path.get cursor.toNat = .ok c) (inside : c ≠ 0)
    (piece : nextName path fuel cursor [] = .ok (name, cursor')) (named : name ≠ [])
    (dir : (s.vnode v).flags &&& vfsDirectory ≠ 0)
    (search : tmpfsFinddir fuel v name s = .ok (none, s₁)) (result : r = (none, vfsClose v s₁))
  /-- a name that leads on -/
  | down {c : UInt8} {name : List UInt8} {cursor' cursor'' : UInt8} {w : Nat} {s₁ : Tmpfs}
    (read : path.get cursor.toNat = .ok c) (inside : c ≠ 0)
    (piece : nextName path fuel cursor [] = .ok (name, cursor')) (named : name ≠ [])
    (dir : (s.vnode v).flags &&& vfsDirectory ≠ 0)
    (search : tmpfsFinddir fuel v name s = .ok (some w, s₁))
    (skipped : skipSlash path cursor' = .ok cursor'')
    (rest : findFrom path fuel cursor'' w (vfsClose v s₁) = .ok r)

theorem findRound_of_ok {cursor : UInt8} {r : Option Nat × Tmpfs}
    (done : findFrom path (fuel + 1) cursor v s = .ok r) : FindRound path fuel cursor v s r := by
  rw [findFrom] at done
  obtain ⟨c, read, done⟩ := bind_eq_ok.mp done
  split at done
  next last =>
    subst last
    exact .last read (Except.ok.inj done).symm
  next inside =>
  obtain ⟨⟨name, cursor'⟩, piece, done⟩ := bind_eq_ok.mp done
  dsimp only at done
  split at done
  next empty =>
    subst empty
    obtain ⟨cursor'', skipped, rest⟩ := bind_eq_ok.mp done
    exact .slash read inside piece skipped rest
  next named =>
  split at done
  next leaf => exact .file read inside piece named leaf (Except.ok.inj done).symm
  next dir =>
  obtain ⟨⟨next, s₁⟩, search, done⟩ := bind_eq_ok.mp done
  cases next with
  | none => exact .missing read inside piece named dir search (Except.ok.inj done).symm
  | some w =>
    obtain ⟨cursor'', skipped, rest⟩ := bind_eq_ok.mp done
    exact .down read inside piece named dir search skipped rest

theorem FindRound.ok {cursor : UInt8} {r : Option Nat × Tmpfs}
    (round : FindRound path fuel cursor v s r) : findFrom path (fuel + 1) cursor v s = .ok r := by
  rw [findFrom]
  cases round with
  | last read result => simp [read, result, pure, Except.pure]
  | slash read inside piece skipped rest => simp [read, inside, piece, skipped, rest]
  | file read inside piece named leaf result =>
    simp [read, inside, piece, named, leaf, result, pure, Except.pure]
  | missing read inside piece named dir search result =>
    simp [read, inside, piece, named, dir, search, result, pure, Except.pure]
  | down read inside piece named dir search skipped rest =>
    simp [read, inside, piece, named, dir, search, skipped, rest]

theorem findFrom_mono {cursor : UInt8} {r : Option Nat × Tmpfs}
    (done : findFrom path fuel cursor v s = .ok r) (more : fuel ≤ fuel') :
    findFrom path fuel' cursor v s = .ok r := by
  induction fuel generalizing cursor v s fuel' with
  | zero => cases done
  | succ fuel ih =>
    obtain ⟨fuel', rfl⟩ : ∃ f, fuel' = f + 1 := ⟨fuel' - 1, by omega⟩
    have more' : fuel ≤ fuel' := by omega
    apply FindRound.ok
    cases findRound_of_ok done with
    | last read result => exact .last read result
    | slash read inside piece skipped rest =>
      exact .slash read inside (nextName_mono piece more') skipped (ih rest more')
    | file read inside piece named leaf result =>
      exact .file read inside (nextName_mono piece more') named leaf result
    | missing read inside piece named dir search result =>
      have search' := tmpfsFinddir_mono search more'
      exact .missing read inside (nextName_mono piece more') named dir search' result
    | down read inside piece named dir search skipped rest =>
      have search' := tmpfsFinddir_mono search more'
      exact .down read inside (nextName_mono piece more') named dir search' skipped (ih rest more')

theorem vfsFindPath_mono {r : Option Nat × Tmpfs} (done : vfsFindPath fuel path s = .ok r)
    (more : fuel ≤ fuel') : vfsFindPath fuel' path s = .ok r := by
  rw [vfsFindPath, bind_eq_ok] at done ⊢
  obtain ⟨c, read, done⟩ := done
  refine ⟨c, read, ?_⟩
  split at done
  next empty => rwa [if_pos empty]
  next some =>
  rw [if_neg some]
  split at done
  next rooted =>
    rw [if_pos rooted, bind_eq_ok]
    obtain ⟨d, read', done⟩ := bind_eq_ok.mp done
    refine ⟨d, read', ?_⟩
    split at done
    next last => rwa [if_pos last]
    next longer =>
      rw [if_neg longer]
      exact findFrom_mono done more
  next relative =>
    rw [if_neg relative]
    exact findFrom_mono done more

end Tmpfs

end DedOS
