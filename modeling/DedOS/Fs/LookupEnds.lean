import DedOS.Fs.TmpfsRun

/-!
# A lookup returns

`lookup_ends_iff`: the loops of `vfs_find_path` end, and nothing behind the terminator is
read, for every path of at most 255 bytes. On a longer path the cursor wraps before it is at
the terminator, and the lookup only ends by not finding a name.
-/

namespace DedOS

open Lib

namespace Tmpfs

variable {s s' : Tmpfs} {path : CString} {cursor : UInt8} {fuel v : Nat}
  {name : List UInt8} {found : Option Nat} {e : Fault} {h : List (Entry Tmpfs TmpfsCall)}

/-- The lookup returns, and no read of it, however many rounds it makes, is behind the
terminator of the path. -/
def LookupEnds (path : CString) (s : Tmpfs) : Prop :=
  (∃ fuel found s', vfsFindPath fuel path s = .ok (found, s')) ∧
    ∀ fuel, vfsFindPath fuel path s ≠ .error .outOfBounds

theorem get_inside {n : Nat} (inside : n ≤ path.length) :
    ∃ c, path.get n = .ok c ∧ (c = 0 ∨ n < path.length) := by
  have size : n < (path.bytes ++ [0]).length := by
    simpa [CString.length] using Nat.lt_succ_of_le inside
  refine ⟨(path.bytes ++ [0])[n], ?_, ?_⟩
  · rw [CString.get, List.getElem?_eq_getElem size]
  · rcases Nat.lt_or_eq_of_le inside with before | last
    · exact .inr before
    · left
      simp [last, CString.length]

/-- The cursor stays inside when it steps over a byte of the path, wrapped or not. -/
theorem cursor_step (inside : cursor.toNat < path.length) :
    (cursor + 1).toNat ≤ path.length := by
  rw [UInt8.toNat_add]
  have small := Nat.mod_le (cursor.toNat + (1 : UInt8).toNat) (2 ^ 8)
  simp only [UInt8.reduceToNat] at small ⊢
  omega

theorem nextName_inside (fuel : Nat) (name : List UInt8) (inside : cursor.toNat ≤ path.length) :
    nextName path fuel cursor name = .error .endless ∨
    ∃ name' cursor', nextName path fuel cursor name = .ok (name', cursor') ∧
      cursor'.toNat ≤ path.length := by
  induction fuel generalizing cursor name with
  | zero => exact .inl rfl
  | succ fuel ih =>
    obtain ⟨c, read, ends⟩ := get_inside inside
    rw [nextName, read, ok_bind]
    by_cases stop : c = slash ∨ c = 0
    · rw [if_pos stop]
      exact .inr ⟨name, cursor, rfl, inside⟩
    · rw [if_neg stop]
      exact ih _ (cursor_step (ends.resolve_left fun zero => stop (.inr zero)))

theorem skipSlash_inside (inside : cursor.toNat ≤ path.length) :
    ∃ cursor', skipSlash path cursor = .ok cursor' ∧ cursor'.toNat ≤ path.length := by
  obtain ⟨c, read, ends⟩ := get_inside inside
  rw [skipSlash, read]
  by_cases sep : c = slash
  · have before := ends.resolve_left (by rw [sep]; decide)
    exact ⟨cursor + 1, by simp [sep, pure, Except.pure], cursor_step before⟩
  · exact ⟨cursor, by simp [sep, pure, Except.pure], inside⟩

theorem finddirFrom_error {head : Option Nat} (failed : finddirFrom name fuel head s = .error e) :
    e = .endless := by
  induction fuel generalizing head with
  | zero =>
    cases head with
    | none => cases failed
    | some i =>
      cases failed
      rfl
  | succ fuel ih =>
    cases head with
    | none => cases failed
    | some i =>
      rw [finddirFrom] at failed
      split at failed
      · cases failed
      · exact ih failed

theorem tmpfsFinddir_error (failed : tmpfsFinddir fuel v name s = .error e) : e = .endless := by
  rw [tmpfsFinddir] at failed
  split at failed
  · cases failed
  · exact finddirFrom_error failed

/-- With the cursor inside the path the loops can only run out of rounds. -/
theorem findFrom_error (inside : cursor.toNat ≤ path.length)
    (failed : findFrom path fuel cursor v s = .error e) : e = .endless := by
  induction fuel generalizing cursor v s with
  | zero =>
    cases failed
    rfl
  | succ fuel ih =>
    obtain ⟨c, read, _⟩ := get_inside inside
    rw [findFrom, read, ok_bind] at failed
    split at failed
    · cases failed
    rcases nextName_inside fuel [] inside with
      endless | ⟨name, cursor₁, piece, inside₁⟩
    · rw [endless] at failed
      cases failed
      rfl
    -- every cursor of the loop is inside the path
    obtain ⟨cursor₂, skipped, inside₂⟩ := skipSlash_inside inside₁
    rw [piece, ok_bind] at failed
    dsimp only at failed
    split at failed
    · rw [skipped] at failed
      exact ih inside₂ failed
    split at failed
    · cases failed
    cases search : tmpfsFinddir fuel v name s with
    | error e' =>
      obtain rfl := tmpfsFinddir_error search
      rw [search] at failed
      cases failed
      rfl
    | ok r =>
      rw [search, ok_bind] at failed
      rcases r with ⟨_ | w, s₁⟩
      · cases failed
      · dsimp only at failed
        rw [skipped] at failed
        exact ih inside₂ failed

theorem vfsFindPath_error (failed : vfsFindPath fuel path s = .error e) : e = .endless := by
  obtain ⟨c, read, ends⟩ := get_inside (Nat.zero_le path.length)
  rw [vfsFindPath, read, ok_bind] at failed
  split at failed
  · cases failed
  next some =>
  have one : (1 : UInt8).toNat ≤ path.length := ends.resolve_left some
  split at failed
  · obtain ⟨d, read', _⟩ := get_inside one
    rw [show path.get 1 = _ from read', ok_bind] at failed
    split at failed
    · cases failed
    · exact findFrom_error one failed
  · exact findFrom_error (Nat.zero_le _) failed

/-- A lookup ends for paths of at most 255 bytes, and for the longer ones whose first 256
bytes hold a slash and another byte: there the cursor, which wraps to 0, comes to the end of
some name again and again, until one is missing in the tree. -/
theorem lookup_ends_iff (run : TmpfsRuns h s) (path : CString) :
    LookupEnds path s ↔ path.length ≤ 255 ∨ Mixed path := by
  obtain ⟨t, grown⟩ := grown_of_run run
  have inside : ∀ fuel, vfsFindPath fuel path s ≠ .error .outOfBounds := by
    intro fuel failed
    cases vfsFindPath_error failed
  constructor
  · rintro ⟨⟨fuel, found, s', done⟩, _⟩
    rcases Nat.lt_or_ge path.length 256 with short | long
    · exact .inl (Nat.le_of_lt_succ short)
    · exact .inr ((vfsFindPath_long grown.toHolds long).mp ⟨fuel, s', done⟩).2
  · intro shape
    refine ⟨?_, inside⟩
    rcases Nat.lt_or_ge path.length 256 with short | long
    · obtain ⟨found, s', done, _⟩ := vfsFindPath_spec (s.nodes + 256) grown.toHolds
        (Nat.le_of_lt_succ short) le_rfl
      exact ⟨_, found, s', done⟩
    · have mixed := shape.resolve_left (by omega)
      obtain ⟨fuel, s', done⟩ := (vfsFindPath_long grown.toHolds long).mpr ⟨rfl, mixed⟩
      exact ⟨fuel, none, s', done⟩

theorem lookup_ends_iff_init :
    LookupEnds ⟨[slash, 0x61], by decide⟩ tmpfsInit ↔
      (⟨[slash, 0x61], by decide⟩ : CString).length ≤ 255 ∨ Mixed ⟨[slash, 0x61], by decide⟩ :=
  lookup_ends_iff (.start rfl) _

/-- 256 times the letter `a`. -/
def endlessPath : CString where
  bytes := List.replicate 256 0x61
  nonzero member := absurd (List.eq_of_mem_replicate member) (by decide)

/-- The inner loop never meets the terminator, whose index is the cursor's wrap. -/
theorem long_name_never_ends : ¬ LookupEnds endlessPath tmpfsInit := by
  rintro ⟨⟨fuel, found, s', done⟩, _⟩
  have long : 256 ≤ endlessPath.length := (List.length_replicate ..).ge
  obtain ⟨_, slash_free, _⟩ := (vfsFindPath_long tmpfsInit_holds long).mp ⟨fuel, s', done⟩
  obtain ⟨k, hit⟩ := slash_free
  have letter : byteAt endlessPath k = 0x61 := List.getD_replicate _ k.toNat_lt
  exact absurd (letter.symm.trans hit) (by decide)

end Tmpfs

end DedOS
