import DedOS.Fs.AddEntry
import DedOS.Lib.Trace

/-!
# Runs of `tmpfs_add_entry`

What an addition changes for lookups: its own place shows the new entry, nothing is left below
that place, and every other path leads where it did.
-/

namespace DedOS

open Lib

namespace Tmpfs

/-- `tmpfs_add_entry(path, data, size, flags)`, evaluated with a bound on the rounds of a loop. -/
structure AddCall where
  fuel : Nat
  path : CString
  data : List UInt8
  flags : UInt32

def addStep (s : Tmpfs) (e : AddCall) : Option Tmpfs :=
  match tmpfsAddEntry e.fuel e.path e.data e.flags s with
  | .ok (_, s') => some s'
  | .error _ => none

/-- `tmpfs_add_entry` returns a node. -/
def Adds (s : Tmpfs) (path : CString) (data : List UInt8) (flags : UInt32) (s' : Tmpfs) : Prop :=
  ∃ fuel node, tmpfsAddEntry fuel path data flags s = .ok (some node, s')

variable {t : Names} {s s' : Tmpfs} {path q : CString} {data base : List UInt8}
  {flags : UInt32} {parent fuel : Nat} {dir : List (List UInt8)} {o : Option Seen}
  {h : List (Entry Tmpfs AddCall)}

/-- What the tree is after an addition. -/
structure Added (t : Names) (s : Tmpfs) (dir : List (List UInt8)) (parent : Nat)
    (base data : List UInt8) (flags : UInt32) (s' : Tmpfs) : Prop where
  before : Holds t s
  found : t.walk rootInternal dir = some parent
  after : Holds (t.insert parent s.nodes base) s'
  old : ∀ i < s.nodes, look (s'.node i) = look (s.node i)
  new : look (s'.node s.nodes) = look (entry base data flags none)
  nodes : s'.nodes = s.nodes + 1

theorem look_entry (next : Option Nat) :
    look (entry base data flags next) = look (entry base data flags none) := by
  unfold entry
  split <;> rfl

theorem entry_holds (base data : List UInt8) (flags : UInt32) (next : Option Nat) :
    let n := entry base data flags next
    (n.flags = vfsFile ∨ n.flags = vfsDirectory) ∧ n.size = n.data.length ∧ n.name = base ∧
      n.next = next ∧ n.children = none := by
  unfold entry
  split <;> simp

theorem added (data : List UInt8) (flags : UInt32) (holds : Holds t s) (short : path.length ≤ 255)
    (chosen : Chosen t s path dir parent base) (room : base.length ≤ nameMax)
    (enough : s.nodes + 256 ≤ fuel) :
    ∃ node s', tmpfsAddEntry fuel path data flags s = .ok (some node, s') ∧
      Added t s dir parent base data flags s' := by
  obtain ⟨s₁, look₁, step⟩ := tmpfsAddEntry_eq fuel data flags holds short chosen enough
  obtain ⟨found, is_dir, here⟩ := chosen.found holds
  have holds₁ := holds.looked look₁
  rw [← look₁.node] at is_dir
  rw [← look₁.nodes] at here
  refine ⟨_, _, step.trans (tmpfsCreate_eq is_dir here room), holds, found, ?_, ?_, ?_,
    congrArg (· + 1) look₁.nodes⟩
  · obtain ⟨kind, sized, name, next, children⟩ :=
      entry_holds base data flags (s₁.node parent).children
    have fits := name.symm ▸ room
    have after := holds₁.enter here is_dir kind sized fits next children
    rwa [name, look₁.nodes] at after
  · intro i old
    rw [← look₁.nodes] at old
    rw [look_enter _ _ old, look₁.node]
  · rw [← look₁.nodes, enter_new here, look_entry]

/-- A call that returns has added its entry. -/
theorem added_of_ok {r : Option Nat × Tmpfs} (holds : Holds t s)
    (done : tmpfsAddEntry fuel path data flags s = .ok r)
    (chosen : Chosen t s path dir parent base) : Added t s dir parent base data flags r.2 := by
  have short : path.length ≤ 255 := by
    by_contra long
    rw [tmpfsAddEntry, if_pos (by omega)] at done
    cases done
  have done' := tmpfsAddEntry_mono (fuel + s.nodes + 256) done (by omega)
  have room : base.length ≤ nameMax := by
    by_contra long
    obtain ⟨s₁, look₁, step⟩ := tmpfsAddEntry_eq (fuel + s.nodes + 256) data flags holds short
      chosen (by omega)
    obtain ⟨_, is_dir, _⟩ := chosen.found holds
    rw [step, tmpfsCreate_overflow data flags (look₁.node ▸ is_dir) long] at done'
    cases done'
  obtain ⟨node, s', step, result⟩ := added data flags holds short chosen room
    (show s.nodes + 256 ≤ fuel + s.nodes + 256 by omega)
  rw [done'] at step
  cases step
  exact result

/-! ### Lookups after an addition -/

theorem target_insert (add : Added t s dir parent base data flags s') :
    target (t.insert parent s.nodes base) q =
      if q.names = dir ++ [base] then some s.nodes
      else if dir ++ [base] <+: q.names then none
      else target t q := by
  have walk := NameTree.walk_insert q.names base add.before.rooted add.before.fresh add.found
  unfold target
  split
  next empty =>
    simp [CString.names, empty]
  · exact walk

theorem Added.leads_at (add : Added t s dir parent base data flags s') (short : q.length ≤ 255)
    (place : q.names = dir ++ [base]) : Leads s' q (some (look (entry base data flags none))) := by
  rw [leads_iff add.after short, target_insert add, if_pos place, Option.map_some, add.new]

theorem Added.leads_below (add : Added t s dir parent base data flags s')
    (short : q.length ≤ 255) (below : dir ++ [base] <+: q.names) (deeper : q.names ≠ dir ++ [base]) :
    Leads s' q none := by
  rw [leads_iff add.after short, target_insert add, if_neg deeper, if_pos below]
  rfl

theorem Added.leads_other (add : Added t s dir parent base data flags s')
    (other : ¬ dir ++ [base] <+: q.names) : Leads s' q o ↔ Leads s q o := by
  rcases Nat.lt_or_ge q.length 256 with short | long
  · have short := Nat.le_of_lt_succ short
    have differ : q.names ≠ dir ++ [base] := fun same => other (same ▸ List.prefix_rfl)
    rw [leads_iff add.after short, leads_iff add.before short, target_insert add, if_neg differ,
      if_neg other]
    have same : (target t q).map (fun i => look (s'.node i)) =
        (target t q).map fun i => look (s.node i) := by
      cases found : target t q with
      | none => rfl
      | some i =>
        rw [target] at found
        split at found
        · cases found
        · rw [Option.map_some, Option.map_some,
            add.old i (add.before.walk_lt add.before.rootAllocated found)]
    rw [same]
  · rw [leads_long_iff add.after long, leads_long_iff add.before long]

/-! ### Every tmpfs that can be reached -/

theorem tmpfsInit_holds : Holds ⟨fun _ => [], fun _ => [slash]⟩ tmpfsInit where
  name _ _ := rfl
  chain _ _ := chain_nil.mpr rfl
  younger _ _ member := absurd member List.not_mem_nil
  parent member := absurd member List.not_mem_nil
  leaf _ _ := rfl
  flags _ _ := .inr rfl
  sized _ _ := rfl
  fits _ _ := by simp [tmpfsInit, nameMax]
  root := rfl
  rootAllocated := by decide
  rootVnode := rfl
  vnodeAllocated := by decide

theorem addStep_holds {e : AddCall} (holds : ∃ t, Holds t s) (step : addStep s e = some s') :
    ∃ t, Holds t s' := by
  obtain ⟨t, holds⟩ := holds
  obtain ⟨dir, parent, base, chosen⟩ := exists_chosen t s e.path
  rw [addStep] at step
  split at step
  next s₁ done =>
    cases step
    exact ⟨_, (added_of_ok holds done chosen).after⟩
  · cases step

theorem holds_of_run (run : Run addStep (· = tmpfsInit) h s) : ∃ t, Holds t s := by
  refine Run.invariant (P := fun s => ∃ t, Holds t s) ?_ (fun _ _ _ => addStep_holds) run
  rintro _ rfl
  exact ⟨_, tmpfsInit_holds⟩

/-! ### Paths of entries -/

/-- The path has a last component and does not end in a slash. -/
def Named (path : CString) : Prop := path.bytes ≠ [] ∧ path.bytes.getLast? ≠ some slash

/-- Where an entry appears: in the directory of its path, or in the root if there is none. -/
inductive Place (s : Tmpfs) (path : CString) : List (List UInt8) → Prop
  | inside {dir : List (List UInt8)} {base : List UInt8} : path.names = dir ++ [base] →
      IsDirectory s dir → Place s path (dir ++ [base])
  | fallback {dir : List (List UInt8)} {base : List UInt8} : path.names = dir ++ [base] →
      ¬ IsDirectory s dir → Place s path [base]

theorem names_word (plain : slash ∉ base) (nonempty : base ≠ []) (bytes : path.bytes = base) :
    path.names = [base.take nameMax] := by
  rw [CString.names, bytes, components_word plain, if_neg nonempty]
  rfl

theorem names_split {front : CString} (plain : slash ∉ base) (nonempty : base ≠ [])
    (bytes : path.bytes = front.bytes ++ slash :: base) :
    path.names = front.names ++ [base.take nameMax] := by
  rw [CString.names, CString.names, bytes, components_append_cons, components_word plain,
    if_neg nonempty, List.map_append]
  rfl

/-- What the code looks up as the parent are the components before the last. -/
theorem Chosen.names (chosen : Chosen t s path dir parent base) (holds : Holds t s)
    (short : path.length ≤ 255) (nonempty : base ≠ []) :
    ∃ front, path.names = front ++ [base.take nameMax] ∧ (IsDirectory s front → dir = front) ∧
      (¬ IsDirectory s front → dir = []) := by
  cases chosen with
  | plain plain _ => exact ⟨[], names_word plain nonempty rfl, fun _ => rfl, fun _ => rfl⟩
  | inside last _ _ split word _ found flags =>
    refine ⟨_, names_split word nonempty split, fun _ => rfl, fun none => ?_⟩
    rw [target] at found
    split at found
    · cases found
    next some => exact absurd (isDirectory_of_walk holds (cut_short short) some found flags) none
  | fallback last _ _ split word _ no_dir =>
    refine ⟨_, names_split word nonempty split, fun is_dir => ?_, fun _ => rfl⟩
    obtain ⟨i, found, flags⟩ := is_dir.walk holds
    by_cases empty : (path.cut last).bytes = []
    · simp [CString.names, empty]
    · exact absurd flags (no_dir i (by rw [target_eq_walk empty, found]))

theorem named_split {front : List UInt8} (plain : slash ∉ base)
    (bytes : path.bytes = front ++ slash :: base) : base ≠ [] ↔ Named path := by
  unfold Named
  rw [bytes]
  cases base with
  | nil => simp
  | cons c base =>
    have last : (front ++ slash :: c :: base).getLast? = (c :: base).getLast? := by
      rw [List.getLast?_append_of_ne_nil _ (by simp), List.getLast?_cons_cons]
    rw [last]
    simp only [ne_eq, reduceCtorEq, not_false_eq_true, List.append_eq_nil_iff, and_false, true_and,
      true_iff]
    intro ends
    exact plain (List.mem_of_getLast? ends)

/-- Only a path that names an entry gives it a name. -/
theorem Chosen.named (chosen : Chosen t s path dir parent base) : base ≠ [] ↔ Named path := by
  cases chosen with
  | plain plain _ =>
    refine ⟨fun some => ⟨some, fun last => plain ?_⟩, fun named => named.1⟩
    exact List.mem_of_getLast? last
  | inside last _ _ split word => exact named_split word split
  | fallback last _ _ split word => exact named_split word split

/-- At most 255 bytes, and components that fit in a name. -/
structure WellFormed (path : CString) : Prop where
  short : path.length ≤ 255
  fits : ∀ name ∈ components slash path.bytes, name.length ≤ nameMax

theorem WellFormed.names (formed : WellFormed path) : path.names = components slash path.bytes := by
  have whole : ∀ name ∈ components slash path.bytes, name.take nameMax = id name :=
    fun name member => List.take_of_length_le (formed.fits name member)
  rw [CString.names, List.map_congr_left whole, List.map_id]

theorem Chosen.fits (chosen : Chosen t s path dir parent base) (formed : WellFormed path) :
    base.length ≤ nameMax := by
  by_cases empty : base = []
  · simp [empty]
  -- the name of the entry is the last component
  apply formed.fits
  cases chosen with
  | plain plain _ => simp [components_word plain, empty]
  | inside last _ _ split word => simp [split, components_word word, empty]
  | fallback last _ _ split word => simp [split, components_word word, empty]

theorem exists_adds (data : List UInt8) (flags : UInt32) (holds : Holds t s)
    (formed : WellFormed path) : ∃ s', Adds s path data flags s' := by
  obtain ⟨dir, parent, base, chosen⟩ := exists_chosen t s path
  obtain ⟨node, s', done, _⟩ := added data flags holds formed.short chosen (chosen.fits formed) le_rfl
  exact ⟨s', _, node, done⟩

theorem Adds.added (add : Adds s path data flags s') (holds : Holds t s)
    (chosen : Chosen t s path dir parent base) : Added t s dir parent base data flags s' := by
  obtain ⟨fuel, node, done⟩ := add
  exact added_of_ok holds done chosen

/-- The new node as its caller sees it. -/
structure ShowsEntry (name data : List UInt8) (flags : UInt32) (seen : Seen) : Prop where
  called : seen.name = name
  kind : seen.flags = flags
  file : flags = vfsFile → seen.size = data.length ∧
    seen.read 0 data.length = .ok (data.length, data)

theorem showsEntry (base data : List UInt8) (kind : flags = vfsFile ∨ flags = vfsDirectory) :
    ShowsEntry base data flags (look (entry base data flags none)) := by
  rcases kind with rfl | rfl
  · have plain : entry base data vfsFile none = ⟨base, vfsFile, data.length, data, none, none⟩ :=
      if_neg (by decide)
    rw [plain]
    refine ⟨rfl, rfl, fun _ => ⟨rfl, ?_⟩⟩
    have no_wrap : ¬ wrap64 data.length > data.length := Nat.not_lt.mpr (Nat.mod_le _ _)
    simp only [look, Nat.zero_add, if_neg no_wrap, le_refl, if_pos, List.drop_zero, List.take_length]
    split
    next empty =>
      obtain rfl := List.eq_nil_of_length_eq_zero (Nat.le_zero.mp empty)
      rfl
    · rfl
  · have dir : entry base data vfsDirectory none = ⟨base, vfsDirectory, 0, [], none, none⟩ :=
      if_pos (by decide)
    rw [dir]
    exact ⟨rfl, rfl, fun wrong => absurd wrong (by decide)⟩

theorem isDirectory_root (holds : Holds t s) : IsDirectory s [] := by
  have root : CString.names ⟨[slash], by decide⟩ = [] := by
    rw [CString.names, components_sep_cons, components_nil, List.map_nil]
  rw [← root]
  apply isDirectory_of_walk holds (by decide) (by decide) (i := rootInternal)
  · rw [root]
    rfl
  · exact holds.root

/-! ### Additions seen through lookups -/

/-- A new entry whose parent is there is found under its path and reads back. -/
theorem add_entry_found (run : Run addStep (· = tmpfsInit) h s) (formed : WellFormed path)
    (named : Named path)
    (parent : IsDirectory s (components slash path.bytes).dropLast ∨
      (components slash path.bytes).dropLast = [])
    (kind : flags = vfsFile ∨ flags = vfsDirectory) (data : List UInt8) :
    (∃ s', Adds s path data flags s') ∧
    ∀ s', Adds s path data flags s' → ∃ name seen, Leads s' path (some seen) ∧
      (components slash path.bytes).getLast? = some name ∧ ShowsEntry name data flags seen := by
  obtain ⟨t, holds⟩ := holds_of_run run
  refine ⟨exists_adds data flags holds formed, fun s' add => ?_⟩
  obtain ⟨dir, node, base, chosen⟩ := exists_chosen t s path
  have result := add.added holds chosen
  obtain ⟨front, names, there, _⟩ := chosen.names holds formed.short (chosen.named.mpr named)
  rw [List.take_of_length_le (chosen.fits formed)] at names
  have parts : components slash path.bytes = front ++ [base] := formed.names.symm.trans names
  rw [parts, List.dropLast_concat] at parent
  have is_dir : IsDirectory s front := by
    rcases parent with is_dir | rfl
    · exact is_dir
    · exact isDirectory_root holds
  obtain rfl := there is_dir
  exact ⟨base, _, result.leads_at formed.short names, by simp [parts], showsEntry base data kind⟩

def binPath : CString := ⟨[0x62], by decide⟩
def binShPath : CString := ⟨[0x2F, 0x62, 0x2F, 0x2F, 0x73], by decide⟩

/-- `"b"` with `tmpfs_create_dir` -/
def binTree : Tmpfs := tmpfsInit.enter rootInternal (entry [0x62] [] vfsDirectory none)

theorem run_binTree : ∃ h, Run addStep (· = tmpfsInit) h binTree := by
  have create : tmpfsCreate rootInternal [0x62] [] vfsDirectory tmpfsInit = .ok (some 1, binTree) :=
    tmpfsCreate_eq rfl (by decide) (by decide)
  have add : tmpfsAddEntry 0 binPath [] vfsDirectory tmpfsInit = .ok (some 1, binTree) := create
  have step : addStep tmpfsInit ⟨0, binPath, [], vfsDirectory⟩ = some binTree := by
    rw [addStep, add]
  exact ⟨_, .step (.start rfl) step⟩

theorem binTree_directory : IsDirectory binTree [[0x62]] := by
  refine ⟨binPath, _, by decide, ⟨10, some 1, _, rfl, rfl⟩, by decide⟩

theorem add_entry_found_bin : ∃ s', Adds binTree binShPath [7, 8] vfsFile s' ∧
    ∃ seen, Leads s' binShPath (some seen) ∧ seen.read 0 2 = .ok (2, [7, 8]) := by
  obtain ⟨h, run⟩ := run_binTree
  have formed : WellFormed binShPath := ⟨by decide, by decide⟩
  obtain ⟨⟨s', add⟩, found⟩ := add_entry_found run formed ⟨by decide, by decide⟩
    (.inl binTree_directory) (.inl rfl) [7, 8]
  obtain ⟨name, seen, leads, _, shown⟩ := found s' add
  exact ⟨s', add, seen, leads, (shown.file rfl).2⟩

/-- An addition changes the outcome of a lookup at its place and below only. -/
theorem add_entry_elsewhere (run : Run addStep (· = tmpfsInit) h s) (formed : WellFormed path)
    (kind : flags = vfsFile ∨ flags = vfsDirectory) (data : List UInt8) :
    (∃ s', Adds s path data flags s') ∧
    ∀ s', Adds s path data flags s' →
      (¬ Named path → ∀ q o, Leads s' q o ↔ Leads s q o) ∧
      (Named path → ∃ place, Place s path place ∧
        (∀ q o, ¬ place <+: q.names → (Leads s' q o ↔ Leads s q o)) ∧
        (∀ q, q.length ≤ 255 → q.names = place → ∃ seen, Leads s' q (some seen) ∧
          some seen.name = place.getLast? ∧ ShowsEntry seen.name data flags seen) ∧
        ∀ q, q.length ≤ 255 → place <+: q.names → q.names ≠ place → Leads s' q none) := by
  obtain ⟨t, holds⟩ := holds_of_run run
  refine ⟨exists_adds data flags holds formed, fun s' add => ?_⟩
  obtain ⟨dir, node, base, chosen⟩ := exists_chosen t s path
  have result := add.added holds chosen
  constructor
  · intro unnamed q o
    -- no path has a component without bytes
    have nameless : base = [] := not_not.mp (mt chosen.named.mp unnamed)
    apply result.leads_other
    rintro ⟨rest, place⟩
    have member : [] ∈ q.names := by simp [← place, nameless]
    obtain ⟨name, inside, cut⟩ := List.mem_map.mp member
    exact (mem_components inside).1 (by simpa [nameMax] using cut)
  · intro named
    obtain ⟨front, names, there, fallback⟩ :=
      chosen.names holds formed.short (chosen.named.mpr named)
    rw [List.take_of_length_le (chosen.fits formed)] at names
    refine ⟨dir ++ [base], ?_, fun q o other => result.leads_other other, fun q short at_place => ?_,
      fun q short below deeper => result.leads_below short below deeper⟩
    · by_cases is_dir : IsDirectory s front
      · rw [there is_dir]
        exact .inside names is_dir
      · rw [fallback is_dir]
        exact .fallback names is_dir
    · have shown := showsEntry base data kind
      refine ⟨_, result.leads_at short at_place, by simp [shown.called], ?_⟩
      rwa [shown.called]

def filePath : CString := ⟨[0x2F, 0x61], by decide⟩
def orphanPath : CString := ⟨[0x78, 0x2F, 0x61], by decide⟩

/-- A root with the file `"/a"`. -/
def fileTree : Tmpfs := tmpfsInit.enter rootInternal (entry [0x61] [1] vfsFile none)

/-- The same after `"x/a"`, without a directory `x`. -/
def orphanTree : Tmpfs := fileTree.enter rootInternal (entry [0x61] [2, 3] vfsFile (some 1))

theorem run_fileTree : ∃ h, Run addStep (· = tmpfsInit) h fileTree := by
  have step : addStep tmpfsInit ⟨2, filePath, [1], vfsFile⟩ = some fileTree := rfl
  exact ⟨_, .step (.start rfl) step⟩

/-- An entry whose parent is missing hides the entry of the root that has its name. -/
theorem orphan_hides_file : ¬ ∀ (h : List (Entry Tmpfs AddCall)) (s s' : Tmpfs) (path : CString)
    (data : List UInt8) (flags : UInt32), Run addStep (· = tmpfsInit) h s → WellFormed path →
    (flags = vfsFile ∨ flags = vfsDirectory) → Adds s path data flags s' →
    ∀ (q : CString), components slash q.bytes ≠ components slash path.bytes →
      ∀ o, Leads s' q o ↔ Leads s q o := by
  intro claim
  obtain ⟨h, run⟩ := run_fileTree
  have add : Adds fileTree orphanPath [2, 3] vfsFile orphanTree := ⟨10, 2, rfl⟩
  have before : Leads fileTree filePath _ := ⟨10, some 1, _, rfl, rfl⟩
  have after : Leads orphanTree filePath _ := ⟨10, some 1, _, rfl, rfl⟩
  have same := (claim h _ _ orphanPath [2, 3] vfsFile run ⟨by decide, by decide⟩ (.inl rfl) add
    filePath (by decide) _).mpr before
  -- the file had one byte and now has two
  have sizes := congrArg (Option.map Seen.size) (after.unique same)
  revert sizes
  decide

theorem add_entry_elsewhere_orphan : ∃ s', Adds fileTree orphanPath [2, 3] vfsFile s' ∧
    ∀ o, Leads s' binPath o ↔ Leads fileTree binPath o := by
  obtain ⟨h, run⟩ := run_fileTree
  have formed : WellFormed orphanPath := ⟨by decide, by decide⟩
  obtain ⟨⟨s', add⟩, result⟩ := add_entry_elsewhere run formed (.inl rfl) [2, 3]
  obtain ⟨place, here, other, _⟩ := (result s' add).2 ⟨by decide, by decide⟩
  refine ⟨s', add, fun o => other binPath o ?_⟩
  have last : place.getLast? = orphanPath.names.getLast? := by
    cases here with
    | inside names _ => rw [names]
    | fallback names _ => simp [names]
  have name : orphanPath.names.getLast? = some [0x61] := by decide
  have bin : binPath.names = [[0x62]] := by decide
  rw [name] at last
  rw [bin]
  rintro ⟨rest, front⟩
  cases place with
  | nil => simp at last
  | cons n place => simp_all

end Tmpfs

end DedOS
