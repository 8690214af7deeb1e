import DedOS.Fs.Lookup

/-!
# What a lookup shows its caller

`Leads s path o`: `vfs_find_path(path)` returns NULL or a node, and `o` is what can be seen of
it: name, flags, size and the result of every `vfs_read`.
-/

namespace DedOS

open Lib

namespace Tmpfs

structure Seen where
  name : List UInt8
  flags : UInt32
  size : Nat
  read : Nat → Nat → Except Fault (Nat × List UInt8)

def seen (s : Tmpfs) (v : Nat) : Seen where
  name := (s.vnode v).name
  flags := (s.vnode v).flags
  size := (s.vnode v).size
  read := s.vfsRead v

def Leads (s : Tmpfs) (path : CString) (o : Option Seen) : Prop :=
  ∃ fuel found s', vfsFindPath fuel path s = .ok (found, s') ∧ o = found.map s'.seen

variable {t : Names} {s s' : Tmpfs} {path q : CString} {o o' : Option Seen} {fuel i v : Nat}

/-- A lookup has one outcome. -/
theorem Leads.unique (left : Leads s path o) (right : Leads s path o') : o = o' := by
  obtain ⟨f, found, s₁, done, rfl⟩ := left
  obtain ⟨f', found', s₂, done', rfl⟩ := right
  have one := vfsFindPath_mono done (le_max_left f f')
  have two := vfsFindPath_mono done' (le_max_right f f')
  rw [one] at two
  cases two
  rfl

/-- What a node's vnodes show. -/
def look (node : TmpfsNode) : Seen where
  name := node.name
  flags := node.flags
  size := node.size
  read offset size :=
    if offset ≥ node.size then .ok (0, [])
    else
      let size := if wrap64 (offset + size) > node.size then node.size - offset else size
      if offset + size ≤ node.data.length then .ok (size, (node.data.drop offset).take size)
      else .error .outOfBounds

theorem vfsRead_eq (copy : s.vnode v = s.vnodeOf i) : s.vfsRead v = (look (s.node i)).read := by
  funext offset size
  rw [vfsRead, tmpfsRead, copy]
  rfl

theorem Shows.seen {found target : Option Nat} (shows : Shows s found target) :
    found.map s.seen = target.map fun i => look (s.node i) := by
  cases shows with
  | null => rfl
  | node made copy here =>
    rw [Option.map_some, Option.map_some, Tmpfs.seen, vfsRead_eq copy, copy]
    rfl

theorem vfsFindPath_sound {found : Option Nat} (holds : Holds t s) (short : path.length ≤ 255)
    (done : vfsFindPath fuel path s = .ok (found, s')) :
    Looked s s' ∧ Shows s' found (target t path) := by
  obtain ⟨found', s'', done', look, shows⟩ := vfsFindPath_spec (fuel + s.nodes + 256)
    holds short (by omega)
  rw [vfsFindPath_mono done (by omega)] at done'
  cases done'
  exact ⟨look, shows⟩

theorem leads_iff (holds : Holds t s) (short : path.length ≤ 255) :
    Leads s path o ↔ o = (target t path).map fun i => look (s.node i) := by
  constructor
  · rintro ⟨fuel, found, s', done, rfl⟩
    obtain ⟨look, shows⟩ := vfsFindPath_sound holds short done
    rw [shows.seen, look.node]
  · rintro rfl
    obtain ⟨found, s', done, look, shows⟩ := vfsFindPath_spec _ holds short le_rfl
    exact ⟨_, found, s', done, by rw [shows.seen, look.node]⟩

theorem leads_long_iff (holds : Holds t s) (long : 256 ≤ path.length) :
    Leads s path o ↔ o = none ∧ Mixed path := by
  constructor
  · rintro ⟨fuel, found, s', done, rfl⟩
    obtain ⟨rfl, mixed⟩ := (vfsFindPath_long holds long).mp ⟨fuel, s', done⟩
    exact ⟨rfl, mixed⟩
  · rintro ⟨rfl, mixed⟩
    obtain ⟨fuel, s', done⟩ := (vfsFindPath_long holds long).mpr ⟨rfl, mixed⟩
    exact ⟨fuel, none, s', done, rfl⟩

/-- There is a path with these names, and it leads to a directory. -/
def IsDirectory (s : Tmpfs) (names : List (List UInt8)) : Prop :=
  ∃ (q : CString) (seen : Seen), q.names = names ∧ Leads s q (some seen) ∧
    seen.flags = vfsDirectory

theorem IsDirectory.walk {names : List (List UInt8)} (holds : Holds t s)
    (dir : IsDirectory s names) :
    ∃ i, t.walk rootInternal names = some i ∧ (s.node i).flags = vfsDirectory := by
  obtain ⟨q, shown, rfl, leads, flags⟩ := dir
  rcases Nat.lt_or_ge q.length 256 with short | long
  · have found := (leads_iff holds (Nat.le_of_lt_succ short)).mp leads
    rw [target] at found
    split at found
    · cases found
    cases here : t.walk rootInternal q.names with
    | none => simp [here] at found
    | some i =>
      simp only [here, Option.map_some, Option.some.injEq] at found
      exact ⟨i, rfl, by rw [← flags, found]; rfl⟩
  · -- a long path leads to no node
    have found := (leads_long_iff holds long).mp leads
    cases found.1

theorem isDirectory_of_walk (holds : Holds t s) (short : q.length ≤ 255) (nonempty : q.bytes ≠ [])
    (found : t.walk rootInternal q.names = some i) (dir : (s.node i).flags = vfsDirectory) :
    IsDirectory s q.names := by
  refine ⟨q, look (s.node i), rfl, ?_, dir⟩
  rw [leads_iff holds short, target_eq_walk nonempty, found]
  rfl

end Tmpfs

end DedOS
