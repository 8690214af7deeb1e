import DedOS.Fs.Tree
import DedOS.Lib.Path

/-!
# `vfs_find_path`

The cursor is a `uint8_t`. On a path of at most 255 bytes the lookup walks down the
components, each cut to 127 bytes. On a longer path the cursor never meets the terminator, so
no lookup returns a node.
-/

namespace DedOS

open Lib

namespace CString

variable {path : CString} {cursor : UInt8} {c : UInt8} {l rest : List UInt8}

/-- The part of the path from the cursor on. -/
def At (path : CString) (cursor : UInt8) (rest : List UInt8) : Prop :=
  ∃ front, path.bytes = front ++ rest ∧ cursor.toNat = front.length

theorem At.get (pos : path.At cursor rest) :
    path.get cursor.toNat = .ok (rest.head?.getD 0) := by
  obtain ⟨front, split, at_front⟩ := pos
  rw [CString.get, split, at_front, List.append_assoc, List.getElem?_append_right le_rfl]
  cases rest <;> simp

theorem At.ne_zero (pos : path.At cursor (c :: l)) : c ≠ 0 := by
  rintro rfl
  obtain ⟨front, split, _⟩ := pos
  exact path.nonzero (by rw [split]; simp)

theorem At.next (pos : path.At cursor (c :: l)) (short : path.length ≤ 255) :
    path.At (cursor + 1) l := by
  obtain ⟨front, split, at_front⟩ := pos
  refine ⟨front ++ [c], by simp [split], ?_⟩
  have size : front.length + (l.length + 1) ≤ 255 := by
    simpa [CString.length, split] using short
  rw [UInt8.toNat_add, at_front]
  simp
  omega

end CString

/-- A lookup reads the components of a path, each cut to fit in `name`. -/
def CString.names (path : CString) : List (List UInt8) :=
  (components slash path.bytes).map (List.take nameMax)

namespace Tmpfs

variable {t : Names} {s s' : Tmpfs} {path : CString} {cursor : UInt8} {i fuel v : Nat}
  {name word rest : List UInt8}

/-- The end of the path or a slash. -/
def Stop (rest : List UInt8) : Prop := rest = [] ∨ ∃ l, rest = slash :: l

theorem nextName_spec (name : List UInt8) (fuel : Nat) (short : path.length ≤ 255) (pos : path.At cursor (word ++ rest))
    (plain : slash ∉ word) (stop : Stop rest) (room : name.length ≤ nameMax)
    (enough : word.length < fuel) :
    ∃ cursor', nextName path fuel cursor name = .ok ((name ++ word).take nameMax, cursor') ∧
      path.At cursor' rest := by
  induction word generalizing cursor name fuel with
  | nil =>
    obtain ⟨fuel, rfl⟩ : ∃ f, fuel = f + 1 := ⟨fuel - 1, by simp at enough; omega⟩
    refine ⟨cursor, ?_, pos⟩
    rw [nextName, pos.get]
    have full : name.take nameMax = name := List.take_of_length_le room
    rcases stop with rfl | ⟨l, rfl⟩ <;> simp [full, pure, Except.pure]
  | cons c word ih =>
    obtain ⟨fuel, rfl⟩ : ∃ f, fuel = f + 1 := ⟨fuel - 1, by simp at enough; omega⟩
    have inside : ¬ (c = slash ∨ c = 0) := by
      rintro (rfl | zero)
      · simp at plain
      · exact pos.ne_zero zero
    rw [nextName, pos.get]
    simp only [List.cons_append, List.head?_cons, Option.getD_some, ok_bind, if_neg inside]
    have plain' : slash ∉ word := fun member => plain (by simp [member])
    have enough' : word.length < fuel := by simpa using enough
    -- a full name keeps its bytes and drops this one
    by_cases full : name.length < 127
    · rw [if_pos full]
      have room' : (name ++ [c]).length ≤ nameMax := by
        rw [List.length_append, nameMax, List.length_singleton]
        omega
      simpa using ih _ _ (pos.next short) plain' room' enough'
    · rw [if_neg full]
      obtain ⟨cursor', done, pos'⟩ := ih _ _ (pos.next short) plain' room enough'
      refine ⟨cursor', ?_, pos'⟩
      have exact_fit : name.length = nameMax := by unfold nameMax at room ⊢; omega
      rw [done, ← exact_fit, List.take_left, List.take_left]

theorem skipSlash_spec (short : path.length ≤ 255) (pos : path.At cursor rest)
    (stop : Stop rest) :
    ∃ cursor', skipSlash path cursor = .ok cursor' ∧ path.At cursor' rest.tail := by
  rw [skipSlash, pos.get]
  rcases stop with rfl | ⟨l, rfl⟩
  · exact ⟨cursor, by simp [slash, pure, Except.pure], pos⟩
  · exact ⟨cursor + 1, by simp [pure, Except.pure], pos.next short⟩

theorem components_piece (plain : slash ∉ word) (stop : Stop rest) :
    components slash (word ++ rest) =
      (if word = [] then [] else [word]) ++ components slash rest.tail := by
  rcases stop with rfl | ⟨l, rfl⟩
  · simp [components_word plain]
  · rw [components_append_cons, components_word plain]
    rfl

/-- The rounds of a lookup from the node `i`, whose vnode is `v`: each takes one name. -/
inductive Descends (t : Names) :
    Tmpfs → Nat → Nat → List (List UInt8) → Option Nat → Tmpfs → Prop
  | here {s : Tmpfs} {v i : Nat} : Descends t s v i [] (some v) s
  | file {s : Tmpfs} {v i : Nat} {name : List UInt8} {names : List (List UInt8)} :
      (s.node i).flags ≠ vfsDirectory → Descends t s v i (name :: names) none s
  | missing {s : Tmpfs} {v i : Nat} {name : List UInt8} {names : List (List UInt8)} :
      (s.node i).flags = vfsDirectory → t.child i name = none →
      Descends t s v i (name :: names) none (vfsClose v s)
  | down {s s' : Tmpfs} {v i j : Nat} {name : List UInt8} {names : List (List UInt8)}
      {found : Option Nat} : (s.node i).flags = vfsDirectory → t.child i name = some j →
      Descends t (vfsClose v (tmpfsCreateVnode j s).2) s.vnodes j names found s' →
      Descends t s v i (name :: names) found s'

/-- A round that goes down hands the loop the vnode it has made. -/
theorem Shows.step {j : Nat} (holds : Holds t s) (step : t.child i name = some j) (v : Nat) :
    Shows (vfsClose v (tmpfsCreateVnode j s).2) (some s.vnodes) (some j) := by
  have made : Shows (tmpfsCreateVnode j s).2 (some s.vnodes) (some j) :=
    shows_handOut (some j) fun k same => by
      cases same
      exact (holds.child_lt step).2
  exact made.looked (looked_close v _)

theorem looked_step (v i : Nat) (s : Tmpfs) : Looked s (vfsClose v (tmpfsCreateVnode i s).2) :=
  (looked_create i s).trans (looked_close v _)

theorem Descends.looked {names : List (List UInt8)} {found : Option Nat}
    (descent : Descends t s v i names found s') : Looked s s' := by
  induction descent with
  | here => exact Looked.refl _
  | file => exact Looked.refl _
  | missing => exact looked_close _ _
  | down _ _ _ ih => exact (looked_step _ _ _).trans ih

/-- A lookup ends at the node that the names lead to. -/
theorem Descends.shows {names : List (List UInt8)} {found : Option Nat}
    (descent : Descends t s v i names found s') (holds : Holds t s)
    (shows : Shows s (some v) (some i)) : Shows s' found (t.walk i names) := by
  induction descent with
  | here => exact shows
  | @file s v i name names file =>
    have childless : t.child i name = none := by simp [NameTree.child, holds.leaf i file]
    rw [NameTree.walk_cons_none childless]
    exact .null
  | missing _ step =>
    rw [NameTree.walk_cons_none step]
    exact .null
  | down _ step _ ih =>
    rw [NameTree.walk_cons_some step]
    exact ih (holds.looked (looked_step _ _ _)) (Shows.step holds step _)

/-- The outer loop walks down the components that are left. -/
theorem findFrom_descends (holds : Holds t s) (short : path.length ≤ 255)
    (pos : path.At cursor rest) (shows : Shows s (some v) (some i))
    (enough : s.nodes + rest.length < fuel) :
    ∃ found s', findFrom path fuel cursor v s = .ok (found, s') ∧
      Descends t s v i ((components slash rest).map (List.take nameMax)) found s' := by
  induction fuel generalizing cursor rest v i s with
  | zero => omega
  | succ fuel ih =>
    obtain ⟨_, copy, here⟩ : v < s.vnodes ∧ s.vnode v = s.vnodeOf i ∧ i < s.nodes := by
      cases shows with
      | node made copy here => exact ⟨made, copy, here⟩
    have read := pos.get
    -- the path ends here, or a word and its slash are next
    by_cases last : rest = []
    · subst last
      exact ⟨some v, s, (FindRound.last read rfl).ok, .here⟩
    obtain ⟨word, tail, rfl, plain, stop⟩ := exists_word slash rest
    have go_on : (word ++ tail).head?.getD 0 ≠ 0 := by
      cases whole : word ++ tail with
      | nil => exact absurd whole last
      | cons c l =>
        rw [whole] at pos
        exact pos.ne_zero
    have size : word.length + tail.length = (word ++ tail).length := by simp
    obtain ⟨cursor₁, piece, pos₁⟩ := nextName_spec [] fuel short pos plain stop
      (Nat.zero_le _) (by omega)
    obtain ⟨cursor₂, skipped, pos₂⟩ := skipSlash_spec short pos₁ stop
    rw [List.nil_append] at piece
    rw [components_piece plain stop]
    by_cases empty : word = []
    · -- a slash that ends no component
      subst empty
      have shorter : s.nodes + tail.tail.length < fuel := by
        have some : tail ≠ [] := by simpa using last
        have pos_tail := List.length_pos_of_ne_nil some
        simp only [List.length_tail]
        omega
      obtain ⟨found, s', done, descent⟩ := ih holds pos₂ shows shorter
      exact ⟨found, s', (FindRound.slash read go_on piece skipped done).ok, descent⟩
    have named : word.take nameMax ≠ [] := by simp [empty, nameMax]
    have shorter : s.nodes + tail.tail.length < fuel := by
      have pos_word := List.length_pos_of_ne_nil empty
      simp only [List.length_tail]
      omega
    simp only [if_neg empty, List.cons_append, List.nil_append, List.map_cons]
    have kind : (s.vnode v).flags &&& vfsDirectory = 0 ↔ (s.node i).flags ≠ vfsDirectory := by
      rw [copy, vnodeOf, ne_eq, ← directory_flag (holds.flags i here), not_not]
    -- a file in the middle of the path
    by_cases file : (s.vnode v).flags &&& vfsDirectory = 0
    · have round := FindRound.file read go_on piece named file rfl
      exact ⟨none, s, round.ok, .file (kind.mp file)⟩
    have dir : (s.node i).flags = vfsDirectory := not_not.mp (mt kind.mpr file)
    have search := tmpfsFinddir_eq (word.take nameMax) fuel holds copy here (by omega)
    -- the child is looked up and the directory closed
    cases step : t.child i (word.take nameMax) with
    | none =>
      rw [step] at search
      exact ⟨none, _, (FindRound.missing read go_on piece named file search rfl).ok,
        .missing dir step⟩
    | some j =>
      rw [step] at search
      have same : (vfsClose v (tmpfsCreateVnode j s).2).nodes = s.nodes := (looked_step v j s).nodes
      obtain ⟨found, s', done, descent⟩ := ih (holds.looked (looked_step v j s)) pos₂
        (Shows.step holds step v) (by rw [same]; exact shorter)
      have round := FindRound.down read go_on piece named file search skipped done
      exact ⟨found, s', round.ok, .down dir step descent⟩

/-- What a path of at most 255 bytes leads to. -/
def target (t : Names) (path : CString) : Option Nat :=
  if path.bytes = [] then none else t.walk rootInternal path.names

theorem target_eq_walk (nonempty : path.bytes ≠ []) :
    target t path = t.walk rootInternal path.names := if_neg nonempty

/-- The lookup of a path of 1 to 255 bytes walks down its components from the root. -/
theorem vfsFindPath_descends (fuel : Nat) (holds : Holds t s) (short : path.length ≤ 255)
    (nonempty : path.bytes ≠ []) (enough : s.nodes + 256 ≤ fuel) :
    ∃ found s', vfsFindPath fuel path s = .ok (found, s') ∧
      Descends t s vfsRoot rootInternal path.names found s' := by
  have start : path.At 0 path.bytes := ⟨[], rfl, rfl⟩
  have size : path.bytes.length ≤ 255 := short
  rw [vfsFindPath, show path.get 0 = _ from start.get]
  cases whole : path.bytes with
  | nil => exact absurd whole nonempty
  | cons c l =>
    rw [whole] at start size
    have inside : ¬ c = 0 := start.ne_zero
    simp only [List.head?_cons, Option.getD_some, ok_bind, if_neg inside]
    by_cases rooted : c = slash
    · subst rooted
      have second := start.next short
      rw [if_pos rfl, show path.get 1 = _ from second.get, CString.names, whole,
        components_sep_cons, ok_bind]
      cases l with
      | nil => exact ⟨some vfsRoot, s, by simp [pure, Except.pure], .here⟩
      | cons d l =>
        rw [if_neg (by simpa using second.ne_zero)]
        exact findFrom_descends holds short second holds.showsRoot (by simp at size ⊢; omega)
    · rw [if_neg rooted, CString.names, whole]
      exact findFrom_descends holds short start holds.showsRoot (by omega)

theorem vfsFindPath_spec (fuel : Nat) (holds : Holds t s) (short : path.length ≤ 255)
    (enough : s.nodes + 256 ≤ fuel) :
    ∃ found s', vfsFindPath fuel path s = .ok (found, s') ∧ Looked s s' ∧
      Shows s' found (target t path) := by
  by_cases empty : path.bytes = []
  · refine ⟨none, s, ?_, Looked.refl s, ?_⟩
    · simp [vfsFindPath, CString.get, empty, pure, Except.pure]
    · rw [target, if_pos empty]
      exact .null
  · obtain ⟨found, s', done, descent⟩ := vfsFindPath_descends fuel holds short empty enough
    rw [target_eq_walk empty]
    exact ⟨found, s', done, descent.looked, descent.shows holds holds.showsRoot⟩

/-! ### Paths of more than 255 bytes -/

/-- The byte under the cursor, in a path where it never reaches the terminator. -/
def byteAt (path : CString) (cursor : UInt8) : UInt8 := path.bytes.getD cursor.toNat 0

/-- The bytes that the cursor can reach are neither all slashes nor all others. -/
def Mixed (path : CString) : Prop := (∃ k, byteAt path k = slash) ∧ ∃ k, byteAt path k ≠ slash

theorem get_long (long : 256 ≤ path.length) (cursor : UInt8) :
    path.get cursor.toNat = .ok (byteAt path cursor) ∧ byteAt path cursor ≠ 0 := by
  have inside : cursor.toNat < path.bytes.length := lt_of_lt_of_le cursor.toNat_lt long
  constructor
  · rw [CString.get, List.getElem?_append_left inside, byteAt, List.getD_eq_getElem _ _ inside,
      List.getElem?_eq_getElem inside]
  · rw [byteAt, List.getD_eq_getElem _ _ inside]
    intro zero
    exact path.nonzero (zero ▸ List.getElem_mem inside)

/-- Every position is reached from the cursor in less than 256 rounds. -/
theorem exists_distance (cursor k : UInt8) : ∃ d ≤ 255, cursor + UInt8.ofNat d = k := by
  refine ⟨(k - cursor).toNat, Nat.le_of_lt_succ (k - cursor).toNat_lt, ?_⟩
  rw [UInt8.ofNat_toNat]
  grind

theorem add_ofNat_succ (cursor : UInt8) (d : Nat) :
    cursor + UInt8.ofNat (d + 1) = cursor + 1 + UInt8.ofNat d := by
  rw [UInt8.ofNat_add]
  grind

/-- The inner loop stops at a slash ahead, with a name unless it stands on a slash. -/
theorem nextName_wraps {d : Nat} (name : List UInt8) (fuel : Nat) (long : 256 ≤ path.length)
    (ahead : byteAt path (cursor + UInt8.ofNat d) = slash) (enough : d < fuel) :
    ∃ name' cursor', nextName path fuel cursor name = .ok (name', cursor') ∧
      (name ≠ [] ∨ byteAt path cursor ≠ slash → name' ≠ []) := by
  induction d generalizing cursor name fuel with
  | zero =>
    obtain ⟨fuel, rfl⟩ : ∃ f, fuel = f + 1 := ⟨fuel - 1, by omega⟩
    have here : byteAt path cursor = slash := by simpa using ahead
    refine ⟨name, cursor, ?_, by simp [here]⟩
    simp [nextName, (get_long long cursor).1, here, pure, Except.pure]
  | succ d ih =>
    obtain ⟨fuel, rfl⟩ : ∃ f, fuel = f + 1 := ⟨fuel - 1, by omega⟩
    rw [nextName, (get_long long cursor).1, ok_bind]
    by_cases here : byteAt path cursor = slash
    · refine ⟨name, cursor, by simp [here, pure, Except.pure], by simp [here]⟩
    · rw [if_neg (by simp [here, (get_long long cursor).2])]
      rw [add_ofNat_succ] at ahead
      obtain ⟨name', cursor', done, named⟩ := ih
        (if name.length < 127 then name ++ [byteAt path cursor] else name) fuel ahead (by omega)
      refine ⟨name', cursor', done, fun _ => named (.inl ?_)⟩
      split
      · simp
      next full =>
        rintro rfl
        simp at full

/-- With a slash and another byte in reach the lookup goes down until a name is missing. -/
theorem findFrom_wraps {e : Nat} (fuel : Nat) (holds : Holds t s) (long : 256 ≤ path.length)
    (mixed : Mixed path) (shows : Shows s (some v) (some i))
    (ahead : byteAt path (cursor + UInt8.ofNat e) ≠ slash) (near : e ≤ 255)
    (enough : 256 + s.nodes + 257 * (s.nodes - i) + e < fuel) :
    ∃ s', findFrom path fuel cursor v s = .ok (none, s') := by
  induction fuel generalizing cursor v i s e with
  | zero => omega
  | succ fuel ih =>
    obtain ⟨_, copy, here⟩ : v < s.vnodes ∧ s.vnode v = s.vnodeOf i ∧ i < s.nodes := by
      cases shows with
      | node made copy here => exact ⟨made, copy, here⟩
    obtain ⟨⟨k, hit⟩, m, miss⟩ := mixed
    obtain ⟨d, d_small, at_k⟩ := exists_distance cursor k
    obtain ⟨name, cursor', piece, named⟩ := nextName_wraps (d := d) [] fuel long
      (by rw [at_k]; exact hit) (by omega)
    obtain ⟨read, inside⟩ := get_long long cursor
    by_cases on_slash : byteAt path cursor = slash
    · -- one step towards the next name
      obtain ⟨fuel, rfl⟩ : ∃ f, fuel = f + 1 := ⟨fuel - 1, by omega⟩
      obtain ⟨e, rfl⟩ : ∃ e', e = e' + 1 := by
        cases e with
        | zero => simp [on_slash] at ahead
        | succ e' => exact ⟨e', rfl⟩
      have stay : nextName path (fuel + 1) cursor [] = .ok ([], cursor) := by
        simp [nextName, read, on_slash, pure, Except.pure]
      have skip : skipSlash path cursor = .ok (cursor + 1) := by
        simp [skipSlash, read, on_slash, pure, Except.pure]
      rw [add_ofNat_succ] at ahead
      obtain ⟨s', done⟩ := ih holds shows ahead (by omega) (by omega)
      exact ⟨s', (FindRound.slash read inside stay skip done).ok⟩
    have some_name := named (.inr on_slash)
    by_cases file : (s.vnode v).flags &&& vfsDirectory = 0
    · exact ⟨s, (FindRound.file read inside piece some_name file rfl).ok⟩
    obtain ⟨next, s₁, search, look, shows₁⟩ := tmpfsFinddir_spec name fuel holds copy here (by omega)
    have look' := look.trans (looked_close v s₁)
    have shows' := shows₁.looked (looked_close v s₁)
    cases next with
    | none => exact ⟨_, (FindRound.missing read inside piece some_name file search rfl).ok⟩
    | some w =>
      cases step : t.child i name with
      | none =>
        rw [step] at shows'
        cases shows'
      | some j =>
        -- a child is younger than its parent
        rw [step] at shows'
        have down := holds.child_lt step
        obtain ⟨e', e'_small, at_m⟩ := exists_distance
          (if byteAt path cursor' = slash then cursor' + 1 else cursor') m
        have skip : skipSlash path cursor' =
            .ok (if byteAt path cursor' = slash then cursor' + 1 else cursor') := by
          simp [skipSlash, (get_long long cursor').1, pure, Except.pure]
        have same : (vfsClose v s₁).nodes = s.nodes := look'.nodes
        have less : 256 + (vfsClose v s₁).nodes + 257 * ((vfsClose v s₁).nodes - j) + e' < fuel := by
          rw [same]
          omega
        obtain ⟨s₂, done⟩ := ih (e := e') (holds.looked look') shows'
          (by rw [at_m]; exact miss) e'_small less
        exact ⟨s₂, (FindRound.down read inside piece some_name file search skip done).ok⟩

/-- The lookup of a long path returns at most NULL. -/
theorem findFrom_long {found : Option Nat} (long : 256 ≤ path.length)
    (done : findFrom path fuel cursor v s = .ok (found, s')) : found = none := by
  induction fuel generalizing cursor v s with
  | zero => cases done
  | succ fuel ih =>
    cases findRound_of_ok done with
    | last read =>
      -- the terminator is out of the cursor's reach
      rw [(get_long long cursor).1] at read
      exact absurd (Except.ok.inj read) (get_long long cursor).2
    | slash _ _ _ _ rest => exact ih rest
    | file _ _ _ _ _ result => exact congrArg Prod.fst result
    | missing _ _ _ _ _ _ result => exact congrArg Prod.fst result
    | down _ _ _ _ _ _ _ rest => exact ih rest

theorem nextName_no_slash (long : 256 ≤ path.length) (none : ∀ k, byteAt path k ≠ slash) :
    nextName path fuel cursor name = .error .endless := by
  induction fuel generalizing cursor name with
  | zero => rfl
  | succ fuel ih =>
    rw [nextName, (get_long long cursor).1, ok_bind,
      if_neg (by simp [none cursor, (get_long long cursor).2])]
    exact ih

theorem findFrom_no_slash (long : 256 ≤ path.length) (none : ∀ k, byteAt path k ≠ slash) :
    findFrom path fuel cursor v s = .error .endless := by
  cases fuel with
  | zero => rfl
  | succ fuel =>
    rw [findFrom, (get_long long cursor).1, ok_bind, if_neg (get_long long cursor).2,
      nextName_no_slash long none]
    rfl

theorem findFrom_slashes (long : 256 ≤ path.length) (all : ∀ k, byteAt path k = slash) :
    findFrom path fuel cursor v s = .error .endless := by
  induction fuel generalizing cursor with
  | zero => rfl
  | succ fuel ih =>
    rw [findFrom, (get_long long cursor).1, ok_bind, if_neg (get_long long cursor).2]
    cases fuel with
    | zero => rfl
    | succ fuel =>
      have stay : nextName path (fuel + 1) cursor [] = .ok ([], cursor) := by
        simp [nextName, (get_long long cursor).1, all cursor, pure, Except.pure]
      rw [stay, ok_bind]
      simpa [skipSlash, (get_long long cursor).1, pure, Except.pure] using ih

/-- A long path goes into the loop at one of its first two bytes. -/
theorem vfsFindPath_long_start (long : 256 ≤ path.length) :
    ∃ cursor, ∀ fuel s, vfsFindPath fuel path s = findFrom path fuel cursor vfsRoot s := by
  have first := get_long long 0
  have second := get_long long 1
  by_cases rooted : byteAt path 0 = slash
  · refine ⟨1, fun fuel s => ?_⟩
    rw [vfsFindPath, show path.get 0 = _ from first.1, ok_bind, if_neg first.2, if_pos rooted,
      show path.get 1 = _ from second.1, ok_bind, if_neg second.2]
  · refine ⟨0, fun fuel s => ?_⟩
    rw [vfsFindPath, show path.get 0 = _ from first.1, ok_bind, if_neg first.2, if_neg rooted]

/-- The lookup of a long path returns NULL or does not return, whatever the tree. -/
theorem vfsFindPath_long (holds : Holds t s) (long : 256 ≤ path.length) {found : Option Nat} :
    (∃ fuel s', vfsFindPath fuel path s = .ok (found, s')) ↔ found = none ∧ Mixed path := by
  obtain ⟨cursor, start⟩ := vfsFindPath_long_start long
  constructor
  · rintro ⟨fuel, s', done⟩
    rw [start] at done
    refine ⟨findFrom_long long done, ?_, ?_⟩
    · by_contra none
      rw [findFrom_no_slash long (not_exists.mp none)] at done
      cases done
    · by_contra none
      have all : ∀ k, byteAt path k = slash := fun k => not_not.mp (not_exists.mp none k)
      rw [findFrom_slashes long all] at done
      cases done
  · rintro ⟨rfl, mixed⟩
    obtain ⟨m, miss⟩ := mixed.2
    obtain ⟨e, near, at_m⟩ := exists_distance cursor m
    obtain ⟨s', done⟩ := findFrom_wraps (e := e) (256 + s.nodes + 257 * s.nodes + 256) holds
      long mixed holds.showsRoot (by rw [at_m]; exact miss) near (by unfold rootInternal; omega)
    exact ⟨_, s', by rw [start]; exact done⟩

end Tmpfs

end DedOS
