import DedOS.Fs.Entries

/-!
# Every tmpfs tree

The trees that the functions of `tmpfs.c` build, with lookups and closes in between. Every
new child goes to the front, so the list of a directory runs from the newest child to the
oldest.
-/

namespace DedOS

open Lib

namespace Tmpfs

/-- The calls that change a tmpfs or its vnodes, evaluated with a bound on the rounds of a
loop. -/
inductive TmpfsCall where
  | createFile (parent : Nat) (name : CString) (data : List UInt8)
  | createDir (parent : Nat) (name : CString)
  | addEntry (fuel : Nat) (path : CString) (data : List UInt8) (flags : UInt32)
  | findPath (fuel : Nat) (path : CString)
  | close (vnode : Nat)

/-- The state after a call that returns. -/
def returned : Except Fault (Option Nat × Tmpfs) → Option Tmpfs
  | .ok (_, s) => some s
  | .error _ => none

/-- A size is a `size_t`, and a pointer to a node is one that tmpfs has handed out. -/
def tmpfsStep (s : Tmpfs) : TmpfsCall → Option Tmpfs
  | .createFile parent name data =>
    if parent < s.nodes ∧ data.length < 2 ^ 64 then
      returned (tmpfsCreateFile parent name.bytes data s)
    else none
  | .createDir parent name =>
    if parent < s.nodes then returned (tmpfsCreateDir parent name.bytes s) else none
  | .addEntry fuel path data flags =>
    if data.length < 2 ^ 64 then returned (tmpfsAddEntry fuel path data flags s) else none
  | .findPath fuel path => returned (vfsFindPath fuel path s)
  | .close vnode => some (vfsClose vnode s)

abbrev TmpfsRuns : List (Entry Tmpfs TmpfsCall) → Tmpfs → Prop := Run tmpfsStep (· = tmpfsInit)

/-- The invariant of the trees that tmpfs builds. -/
structure Grown (t : Names) (s : Tmpfs) : Prop extends Holds t s where
  newest : ∀ d, (t.kids d).Pairwise (· > ·)
  sizes : ∀ i < s.nodes, (s.node i).size < 2 ^ 64

variable {t : Names} {s s' : Tmpfs} {path : CString} {name data : List UInt8} {flags : UInt32}
  {cursor : UInt8} {fuel parent v i : Nat} {found : Option Nat} {c : TmpfsCall}
  {h : List (Entry Tmpfs TmpfsCall)}

theorem returned_eq_some {r : Except Fault (Option Nat × Tmpfs)} (done : returned r = some s') :
    ∃ found, r = .ok (found, s') := by
  cases r with
  | error => cases done
  | ok r => exact ⟨r.1, congrArg _ (Prod.ext rfl (Option.some.inj done))⟩

/-! ### Lookups leave the tree alone -/

theorem finddirFrom_looked {head : Option Nat}
    (done : finddirFrom name fuel head s = .ok (found, s')) : Looked s s' := by
  induction fuel generalizing head with
  | zero =>
    cases head with
    | none =>
      rw [finddirFrom] at done
      cases done
      exact Looked.refl _
    | some i => cases done
  | succ fuel ih =>
    cases head with
    | none =>
      rw [finddirFrom] at done
      cases done
      exact Looked.refl _
    | some i =>
      rw [finddirFrom] at done
      split at done
      · cases done
        exact looked_create i s
      · exact ih done

theorem tmpfsFinddir_looked (done : tmpfsFinddir fuel v name s = .ok (found, s')) :
    Looked s s' := by
  rw [tmpfsFinddir] at done
  split at done
  · cases done
    exact Looked.refl _
  · exact finddirFrom_looked done

theorem findFrom_looked (done : findFrom path fuel cursor v s = .ok (found, s')) :
    Looked s s' := by
  induction fuel generalizing cursor v s with
  | zero => cases done
  | succ fuel ih =>
    cases findRound_of_ok done with
    | last _ result =>
      cases result
      exact Looked.refl _
    | slash _ _ _ _ rest => exact ih rest
    | file _ _ _ _ _ result =>
      cases result
      exact Looked.refl _
    -- the vnode of the parent is closed on both ways out
    | missing _ _ _ _ _ search result =>
      cases result
      exact (tmpfsFinddir_looked search).trans (looked_close v _)
    | down _ _ _ _ _ search _ rest =>
      exact ((tmpfsFinddir_looked search).trans (looked_close v _)).trans (ih rest)

theorem vfsFindPath_looked (done : vfsFindPath fuel path s = .ok (found, s')) : Looked s s' := by
  rw [vfsFindPath] at done
  obtain ⟨c, _, done⟩ := bind_eq_ok.mp done
  split at done
  · cases done
    exact Looked.refl _
  split at done
  · obtain ⟨d, _, done⟩ := bind_eq_ok.mp done
    split at done
    · cases done
      exact Looked.refl _
    · exact findFrom_looked done
  · exact findFrom_looked done

/-! ### The invariant -/

theorem Grown.looked (grown : Grown t s) (look : Looked s s') : Grown t s' where
  toHolds := grown.toHolds.looked look
  newest := grown.newest
  sizes i small := by
    rw [look.node]
    exact grown.sizes i (look.nodes ▸ small)

theorem newest_insert (holds : Holds t s) (newest : ∀ d, (t.kids d).Pairwise (· > ·))
    (name : List UInt8) (d : Nat) :
    ((t.insert parent s.nodes name).kids d).Pairwise (· > ·) := by
  rw [NameTree.insert_kids, Function.update_apply, Function.update_apply]
  split
  · exact List.Pairwise.nil
  split
  next same =>
    subst same
    exact List.pairwise_cons.mpr ⟨fun i member => (holds.younger d i member).2, newest d⟩
  · exact newest d

/-- An addition keeps the invariant: only the new node has a size that was not there before. -/
theorem Grown.insert (flags : UInt32) (grown : Grown t s) (after : Holds (t.insert parent s.nodes name) s')
    (old : ∀ i < s.nodes, look (s'.node i) = look (s.node i))
    (new : look (s'.node s.nodes) = look (entry name data flags none))
    (nodes : s'.nodes = s.nodes + 1) (sized : data.length < 2 ^ 64) :
    Grown (t.insert parent s.nodes name) s' where
  toHolds := after
  newest := newest_insert grown.toHolds grown.newest name
  sizes i small := by
    by_cases last : i = s.nodes
    · subst last
      have size : (s'.node s.nodes).size = (entry name data flags none).size :=
        congrArg Seen.size new
      rw [size, entry]
      split
      · exact Nat.two_pow_pos 64
      · exact sized
    · have inside : i < s.nodes := by omega
      have size : (s'.node i).size = (s.node i).size := congrArg Seen.size (old i inside)
      rw [size]
      exact grown.sizes i inside

theorem Grown.create (grown : Grown t s) (here : parent < s.nodes)
    (sized : data.length < 2 ^ 64)
    (done : tmpfsCreate parent name data flags s = .ok (found, s')) : ∃ t', Grown t' s' := by
  by_cases dir : (s.node parent).flags = vfsDirectory
  · by_cases room : name.length ≤ nameMax
    · rw [tmpfsCreate_eq dir here room] at done
      cases done
      obtain ⟨kind, size, label, next, children⟩ :=
        entry_holds name data flags (s.node parent).children
      have after := grown.toHolds.enter here dir kind size (label.symm ▸ room) next children
      rw [label] at after
      refine ⟨_, grown.insert flags after (fun i old => look_enter _ _ old) ?_ rfl sized⟩
      rw [enter_new here, look_entry]
    · -- the name does not fit in its field
      rw [tmpfsCreate_overflow data flags dir room] at done
      cases done
  · -- no entry is made in a file
    have refused : ∀ data, tmpfsCreateFile parent name data s = .ok (none, s) := by
      intro data
      rw [tmpfsCreateFile, if_pos dir]
    rw [tmpfsCreate, tmpfsCreateDir, refused, refused] at done
    split at done <;> cases done <;> exact ⟨t, grown⟩

theorem tmpfsStep_grown (grown : ∃ t, Grown t s) (step : tmpfsStep s c = some s') :
    ∃ t, Grown t s' := by
  obtain ⟨t, grown⟩ := grown
  cases c with
  | createFile parent name data =>
    rw [tmpfsStep] at step
    split at step
    next fits =>
      obtain ⟨found, done⟩ := returned_eq_some step
      -- a file is created as `tmpfs_create` does it
      have file : tmpfsCreate parent name.bytes data vfsFile s = .ok (found, s') := by
        rwa [tmpfsCreate, if_neg (by decide)]
      exact grown.create fits.1 fits.2 file
    · cases step
  | createDir parent name =>
    rw [tmpfsStep] at step
    split at step
    next fits =>
      obtain ⟨found, done⟩ := returned_eq_some step
      have dir : tmpfsCreate parent name.bytes [] vfsDirectory s = .ok (found, s') := by
        rwa [tmpfsCreate, if_pos (by decide)]
      have sized : ([] : List UInt8).length < 2 ^ 64 := Nat.two_pow_pos 64
      exact grown.create fits sized dir
    · cases step
  | addEntry fuel path data flags =>
    rw [tmpfsStep] at step
    split at step
    next sized =>
      obtain ⟨found, done⟩ := returned_eq_some step
      obtain ⟨dir, parent, base, chosen⟩ := exists_chosen t s path
      -- the entry is made under the parent that the path names
      have add := added_of_ok grown.toHolds done chosen
      exact ⟨_, grown.insert flags add.after add.old add.new add.nodes sized⟩
    · cases step
  | findPath fuel path =>
    obtain ⟨found, done⟩ := returned_eq_some step
    exact ⟨t, grown.looked (vfsFindPath_looked done)⟩
  | close v =>
    obtain rfl : vfsClose v s = s' := Option.some.inj step
    exact ⟨t, grown.looked (looked_close v s)⟩

theorem grown_of_run (run : TmpfsRuns h s) : ∃ t, Grown t s := by
  refine Run.invariant (P := fun s => ∃ t, Grown t s) ?_ ?_ run
  · rintro s rfl
    refine ⟨_, tmpfsInit_holds, fun d => List.Pairwise.nil, fun i _ => ?_⟩
    exact Nat.two_pow_pos 64
  · intro s c s' grown step
    exact tmpfsStep_grown grown step

end Tmpfs

end DedOS
