import DedOS.Fs.TmpfsRun

/-!
# Where a lookup leads

`find_path_follows`: a lookup ends at the node that its components lead to, child by child,
when each of them is cut to the 127 bytes that `name` has room for.
-/

namespace DedOS

open Lib

namespace Tmpfs

variable {t : Names} {s s' : Tmpfs} {path : CString} {v i : Nat} {name : List UInt8}
  {names : List (List UInt8)} {found : Option Nat} {h : List (Entry Tmpfs TmpfsCall)}

/-- `j` is the child of the directory `i` that was most recently added under that name. -/
def Latest (s : Tmpfs) (i : Nat) (name : List UInt8) (j : Nat) : Prop :=
  ∃ l, Chain (fun k => (s.node k).next) (s.node i).children l ∧ j ∈ l ∧ (s.node j).name = name ∧
    ∀ k ∈ l, (s.node k).name = name → k ≤ j

/-- No child of the directory `i` has that name. -/
def Missing (s : Tmpfs) (i : Nat) (name : List UInt8) : Prop :=
  ∃ l, Chain (fun k => (s.node k).next) (s.node i).children l ∧ ∀ k ∈ l, (s.node k).name ≠ name

/-- Following children by their names from the node `i` ends at a node, or nowhere. -/
inductive Follows (s : Tmpfs) : Nat → List (List UInt8) → Option Nat → Prop
  | here {i : Nat} : Follows s i [] (some i)
  | file {i : Nat} {name : List UInt8} {names : List (List UInt8)} :
      (s.node i).flags ≠ vfsDirectory → Follows s i (name :: names) none
  | missing {i : Nat} {name : List UInt8} {names : List (List UInt8)} :
      (s.node i).flags = vfsDirectory → Missing s i name → Follows s i (name :: names) none
  | child {i j : Nat} {name : List UInt8} {names : List (List UInt8)} {o : Option Nat} :
      (s.node i).flags = vfsDirectory → Latest s i name j → Follows s j names o →
      Follows s i (name :: names) o

theorem child_latest (grown : Grown t s) (here : i < s.nodes) {j : Nat}
    (step : t.child i name = some j) : Latest s i name j := by
  have names : ∀ k ∈ t.kids i, t.name k = (s.node k).name :=
    fun k member => grown.name k (grown.younger i k member).2
  obtain ⟨member, named⟩ := NameTree.child_some step
  refine ⟨t.kids i, grown.chain i here, member, (names j member).symm.trans named, ?_⟩
  intro k inside same
  -- the search has passed the younger children, and the list goes on with the older ones
  obtain ⟨front, back, split, before⟩ := (List.find?_eq_some_iff_append.mp step).2
  have order := grown.newest i
  have name_k := names k inside
  rw [split] at order inside
  rcases List.mem_append.mp inside with passed | rest
  · have differs := before k passed
    simp [name_k, same] at differs
  · rcases List.mem_cons.mp rest with rfl | older
    · exact le_rfl
    · have below := (List.pairwise_cons.mp (List.pairwise_append.mp order).2.1).1 k older
      exact Nat.le_of_lt below

theorem Latest.unique {j k : Nat} (left : Latest s i name j) (right : Latest s i name k) :
    j = k := by
  obtain ⟨l, chain, member, named, latest⟩ := left
  obtain ⟨l', chain', member', named', latest'⟩ := right
  obtain rfl := chain.unique chain'
  exact Nat.le_antisymm (latest' j member named) (latest k member' named')

theorem child_eq_none_iff (grown : Grown t s) (here : i < s.nodes) :
    t.child i name = none ↔ Missing s i name := by
  have names : ∀ k ∈ t.kids i, t.name k = (s.node k).name :=
    fun k member => grown.name k (grown.younger i k member).2
  rw [NameTree.child, List.find?_eq_none]
  constructor
  · intro absent
    refine ⟨t.kids i, grown.chain i here, fun k member same => ?_⟩
    exact absent k member (by simpa [names k member] using same)
  · rintro ⟨l, chain, absent⟩ k member
    obtain rfl := chain.unique (grown.chain i here)
    simpa [names k member] using absent k member

theorem child_eq_some_iff (grown : Grown t s) (here : i < s.nodes) {j : Nat} :
    t.child i name = some j ↔ Latest s i name j := by
  constructor
  · exact child_latest grown here
  · intro latest
    cases step : t.child i name with
    | none =>
      obtain ⟨l, chain, absent⟩ := (child_eq_none_iff grown here).mp step
      obtain ⟨l', chain', member, named, _⟩ := latest
      obtain rfl := chain.unique chain'
      exact absurd named (absent j member)
    | some k => rw [latest.unique (child_latest grown here step)]

/-- The walk down the tree is what following the children finds. -/
theorem follows_iff (grown : Grown t s) (here : i < s.nodes) {o : Option Nat} :
    Follows s i names o ↔ o = t.walk i names := by
  constructor
  · intro follows
    induction follows with
    | here => rfl
    | @file i name names file =>
      -- a file has no children
      have childless : t.child i name = none := by simp [NameTree.child, grown.leaf i file]
      rw [NameTree.walk_cons_none childless]
    | missing _ absent =>
      rw [NameTree.walk_cons_none ((child_eq_none_iff grown here).mpr absent)]
    | child _ latest _ ih =>
      have step := (child_eq_some_iff grown here).mpr latest
      rw [NameTree.walk_cons_some step]
      exact ih (grown.child_lt step).2
  · rintro rfl
    induction names generalizing i with
    | nil => exact .here
    | cons name names ih =>
      cases step : t.child i name with
      | none =>
        rw [NameTree.walk_cons_none step]
        by_cases dir : (s.node i).flags = vfsDirectory
        · exact .missing dir ((child_eq_none_iff grown here).mp step)
        · exact .file dir
      | some j =>
        rw [NameTree.walk_cons_some step]
        have dir : (s.node i).flags = vfsDirectory := by
          by_contra file
          have member := (NameTree.child_some step).1
          rw [grown.leaf i file] at member
          cases member
        exact .child dir (child_latest grown here step) (ih (grown.child_lt step).2)

/-- `vfs_find_path(path)` returns a vnode of the node that following `names` from the root
ends at, `vfs_root` itself when there are no names, or NULL when it ends nowhere. -/
def FindsBy (names : List (List UInt8)) (path : CString) (s : Tmpfs) : Prop :=
  ∃ fuel found s' o, vfsFindPath fuel path s = .ok (found, s') ∧
    Follows s rootInternal names o ∧ Shows s' found o ∧ (names = [] → found = some vfsRoot)

theorem Descends.root (descent : Descends t s v i [] found s') : found = some v := by
  cases descent
  rfl

theorem Grown.findsBy (grown : Grown t s) (nonempty : path.bytes ≠ [])
    (short : path.length ≤ 255) : FindsBy path.names path s := by
  obtain ⟨found, s', done, descent⟩ := vfsFindPath_descends (s.nodes + 256) grown.toHolds short
    nonempty le_rfl
  refine ⟨_, found, s', _, done, (follows_iff grown grown.rootAllocated).mpr rfl,
    descent.shows grown.toHolds grown.showsRoot, fun none => ?_⟩
  rw [none] at descent
  exact descent.root

/-- The lookup of a path of 1 to 255 bytes follows its components, each cut to 127 bytes. -/
theorem find_path_follows (run : TmpfsRuns h s) (nonempty : path.bytes ≠ [])
    (short : path.length ≤ 255) :
    FindsBy ((components slash path.bytes).map (List.take 127)) path s := by
  obtain ⟨t, grown⟩ := grown_of_run run
  exact grown.findsBy nonempty short

theorem Shows.unique {o o' : Option Nat} (left : Shows s found o) (right : Shows s found o') :
    o = o' := by
  cases left with
  | null =>
    cases right
    rfl
  | node _ copy _ =>
    cases right with
    | node _ copy' _ =>
      -- a vnode knows its node
      exact congrArg (fun v => some (Vnode.device v)) (copy.symm.trans copy')

/-- One lookup cannot follow two lists of names to different ends. -/
theorem FindsBy.agree {names' : List (List UInt8)} (left : FindsBy names path s)
    (right : FindsBy names' path s) :
    ∃ o, Follows s rootInternal names o ∧ Follows s rootInternal names' o := by
  obtain ⟨fuel, found, s₁, o, done, follows, shows, _⟩ := left
  obtain ⟨fuel', found', s₂, o', done', follows', shows', _⟩ := right
  have one := vfsFindPath_mono done (le_max_left fuel fuel')
  have two := vfsFindPath_mono done' (le_max_right fuel fuel')
  rw [one] at two
  cases two
  obtain rfl := shows.unique shows'
  exact ⟨o, follows, follows'⟩

theorem find_path_follows_bin :
    FindsBy ((components slash binShPath.bytes).map (List.take 127)) binShPath tmpfsInit :=
  find_path_follows (.start rfl) (by decide) (by decide)

/-- A name of 127 bytes, the longest that fits. -/
def longName : CString where
  bytes := List.replicate 127 0x61
  nonzero member := absurd (List.eq_of_mem_replicate member) (by decide)

/-- A path with one component, a byte longer than `longName`. -/
def longerPath : CString where
  bytes := List.replicate 128 0x61
  nonzero member := absurd (List.eq_of_mem_replicate member) (by decide)

def longNameTree : Tmpfs := tmpfsInit.enter rootInternal (entry longName.bytes [] vfsFile none)

theorem run_longNameTree : ∃ h, TmpfsRuns h longNameTree := by
  have create : tmpfsCreate rootInternal longName.bytes [] vfsFile tmpfsInit =
      .ok (some 1, longNameTree) :=
    tmpfsCreate_eq rfl (by decide) (List.length_replicate ..).le
  rw [tmpfsCreate, if_neg (by decide)] at create
  have step : tmpfsStep tmpfsInit (.createFile rootInternal longName []) = some longNameTree := by
    rw [tmpfsStep, if_pos (by decide), create]
    rfl
  exact ⟨_, .step (.start rfl) step⟩

/-- The root has one child. -/
theorem longNameTree_children :
    Chain (fun k => (longNameTree.node k).next) (longNameTree.node rootInternal).children [1] :=
  chain_cons.mpr ⟨rfl, chain_nil.mpr rfl⟩

/-- The file with the name of 127 bytes is found under a name of 128 bytes. -/
theorem longer_name_finds_file : ¬ ∀ (h : List (Entry Tmpfs TmpfsCall)) (s : Tmpfs)
    (path : CString), TmpfsRuns h s → path.bytes ≠ [] → path.length ≤ 255 →
    FindsBy (components slash path.bytes) path s := by
  intro claim
  obtain ⟨h, run⟩ := run_longNameTree
  obtain ⟨t, grown⟩ := grown_of_run run
  have some : longerPath.bytes ≠ [] := List.cons_ne_nil _ _
  have short : longerPath.length ≤ 255 := by
    rw [CString.length, longerPath, List.length_replicate]
    decide
  have plain : slash ∉ longerPath.bytes := fun member =>
    absurd (List.eq_of_mem_replicate member) (by decide)
  have whole : components slash longerPath.bytes = [longerPath.bytes] := by
    rw [components_word plain, if_neg some]
  have cut : longerPath.bytes.take nameMax = longName.bytes := List.take_replicate ..
  obtain ⟨o, uncut, follows⟩ := (claim h _ _ run some short).agree (grown.findsBy some short)
  rw [whole] at uncut
  rw [CString.names, whole, List.map_singleton, cut] at follows
  have dir : (longNameTree.node rootInternal).flags = vfsDirectory := rfl
  have name : (longNameTree.node 1).name = longName.bytes := rfl
  -- cut to 127 bytes the component names the file
  have found : Follows longNameTree rootInternal [longName.bytes] (Option.some 1) := by
    refine .child dir ⟨[1], longNameTree_children, List.mem_singleton.mpr rfl, name, ?_⟩ .here
    intro k member _
    exact (List.mem_singleton.mp member).le
  -- taken exactly it names nothing
  have nothing : Follows longNameTree rootInternal [longerPath.bytes] none := by
    refine .missing dir ⟨[1], longNameTree_children, fun k member same => ?_⟩
    rw [List.mem_singleton.mp member, name] at same
    have lengths := congrArg List.length same
    rw [longName, longerPath, List.length_replicate, List.length_replicate] at lengths
    cases lengths
  have here := grown.rootAllocated
  rw [follows_iff grown here] at uncut follows found nothing
  have ends := found.trans (follows.symm.trans (uncut.trans nothing.symm))
  cases ends

end Tmpfs

end DedOS
