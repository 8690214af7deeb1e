import DedOS.Fs.MemoryEntries
import DedOS.Fs.TmpfsRun

/-!
# Runs of tmpfs in the kernel's memory

Calls of tmpfs and of the VFS in any order, with calls on the heap by everybody else in
between. Every run is a run of `Tmpfs`, and memory stands for its last state, however the heap
has reused the blocks of closed vnodes (`tmpfs_in_memory`).
-/

namespace DedOS

open Lib HeapRun NodeMemory

/-- `own` are the blocks that tmpfs has taken and not given back, and `opened` the vnodes that
lookups have handed out and nobody has closed. -/
structure FileMemory where
  memory : SlabState
  roots : Roots
  own : List Block
  opened : List Nat

namespace FileMemory

inductive Event where
  | addEntry (fuel : Nat) (path : CString) (data : List UInt8) (flags : UInt32)
  | findPath (fuel : Nat) (path : CString)
  | close (node : Nat)
  /-- a call of somebody else, who owns no block of tmpfs -/
  | heap (e : HeapEvent)

/-- The call frees or writes a block of tmpfs. -/
def touches (s : FileMemory) : HeapEvent → Bool
  | .call (.kfree b) => b ∈ s.own
  | .call (.write b _ _) => b ∈ s.own
  | _ => false

/-- After a call of tmpfs it owns what is left of its blocks and those that are new. -/
def after (s : FileMemory) (memory : SlabState) : FileMemory :=
  { s with
    memory := memory
    own := memory.blocks.filter fun b => b ∈ s.own ∨ b ∉ s.memory.blocks }

/-- Sizes are of type `size_t`, and vnodes are closed once. -/
def step (code : TmpfsCode) (s : FileMemory) : Event → Option FileMemory
  | .addEntry fuel path data flags =>
    if data.length < 2 ^ 64 then
      (tmpfsAddEntry code s.roots fuel path data flags s.memory).map fun r => s.after r.2
    else none
  | .findPath fuel path =>
    (vfsFindPath code s.roots fuel path s.memory).map fun r =>
      { s.after r.2 with
        opened := if r.1 = 0 ∨ r.1 = s.roots.vfsRoot then s.opened else r.1 :: s.opened }
  | .close node =>
    if node = 0 ∨ node = s.roots.vfsRoot ∨ node ∈ s.opened then
      (vfsClose s.roots node s.memory).map fun memory =>
        { s.after memory with opened := s.opened.erase node }
    else none
  | .heap e =>
    if s.touches e then none
    else (HeapRun.step s.memory e).map fun memory => { s with memory := memory }

/-- `tmpfs_init` has returned; the heap had been in use before. -/
def Booted (code : TmpfsCode) (s : FileMemory) : Prop :=
  ∃ s₀ h₀, Run HeapRun.step HeapRun.Started h₀ s₀ ∧ HeapRun.AllFit h₀ ∧
    tmpfsInit code s₀ = some (s.roots, s.memory) ∧
    s.own = s.memory.blocks.filter (fun b => b ∉ s₀.blocks) ∧ s.opened = []

abbrev Runs (code : TmpfsCode) : List (Entry FileMemory Event) → FileMemory → Prop :=
  Run (step code) (Booted code)

/-- Large requests, also those for data, get pages without a wrap of `kernel_heap_vaddr`. -/
def Roomy (e : Entry FileMemory Event) : Prop :=
  match e.event with
  | .addEntry _ _ data _ => Room e.pre.memory data
  | .heap he => HeapRun.FitsEvent e.pre.memory he
  | _ => True

/-- The same call, on pointers and on numbers. -/
inductive SameCall (p : Places) : Event → Tmpfs.TmpfsCall → Prop
  | addEntry {fuel : Nat} {path : CString} {data : List UInt8} {flags : UInt32} :
      SameCall p (.addEntry fuel path data flags) (.addEntry fuel path data flags)
  | findPath {fuel : Nat} {path : CString} : SameCall p (.findPath fuel path) (.findPath fuel path)
  | close {v : Nat} : SameCall p (.close (p.vnode v)) (.close v)

/-- The two histories have the same calls of tmpfs, in the same order. -/
inductive Mirrors (p : Places) :
    List (Entry FileMemory Event) → List (Entry Tmpfs Tmpfs.TmpfsCall) → Prop
  | nil : Mirrors p [] []
  | call {h h' x x'} : SameCall p x.event x'.event → Mirrors p h h' → Mirrors p (x :: h) (x' :: h')
  | heap {h h' x e} : x.event = .heap e → Mirrors p h h' → Mirrors p (x :: h) h'
  | null {h h' x} : x.event = .close 0 → Mirrors p h h' → Mirrors p (x :: h) h'

variable {code : TmpfsCode} {p p' : Places} {a a' : Tmpfs} {s s' : FileMemory} {v : Nat}
  {h : List (Entry FileMemory Event)} {h' : List (Entry Tmpfs Tmpfs.TmpfsCall)} {b : Block}
  {e : HeapEvent} {memory : SlabState} {event : Event} {call : Tmpfs.TmpfsCall}

/-- Vnodes stay where they are, so the calls stay the same. -/
theorem Mirrors.moved (mirrors : Mirrors p h h')
    (same : ∀ x ∈ h', ∀ v, x.event = .close v → p'.vnode v = p.vnode v) : Mirrors p' h h' := by
  induction mirrors with
  | nil => exact .nil
  | @call h h' x x' here _ ih =>
    refine .call ?_ (ih fun y member => same y (List.mem_cons_of_mem _ member))
    obtain ⟨pre, event, post⟩ := x
    obtain ⟨pre', call, post'⟩ := x'
    cases here with
    | addEntry => exact .addEntry
    | findPath => exact .findPath
    | @close v =>
      have here := same _ List.mem_cons_self v rfl
      change SameCall p' (.close (p.vnode v)) (.close v)
      rw [← here]
      exact .close
  | heap isHeap _ ih => exact .heap isHeap (ih same)
  | null isNull _ ih => exact .null isNull (ih same)

/-- What relates a run in memory to the run of `Tmpfs` with the same calls. -/
structure Reflects (code : TmpfsCode) (h : List (Entry FileMemory Event)) (s : FileMemory)
    (h' : List (Entry Tmpfs Tmpfs.TmpfsCall)) (p : Places) (a : Tmpfs) : Prop where
  run : Tmpfs.TmpfsRuns h' a
  mirrors : Mirrors p h h'
  represents : Represents code s.roots p a s.memory
  /-- the blocks of others are not those of tmpfs -/
  foreign : ∀ b ∈ s.memory.blocks, b ∉ s.own → Foreign p a b
  /-- vnodes that were handed out are open, and are not the root -/
  opened : ∀ node ∈ s.opened, ∃ v, (Item.vnode v).InUse a ∧ v ≠ vfsRoot ∧ p.vnode v = node
  once : s.opened.Nodup
  closed : ∀ x ∈ h', ∀ v, x.event = .close v → v < a.vnodes

theorem mem_after (member : b ∈ (s.after memory).memory.blocks) (other : b ∉ (s.after memory).own) :
    b ∈ s.memory.blocks ∧ b ∉ s.own := by
  have both : ¬ (b ∈ s.own ∨ b ∉ s.memory.blocks) := by
    intro mine
    exact other (List.mem_filter.mpr ⟨member, by simpa using mine⟩)
  rw [not_or, not_not] at both
  exact ⟨both.2, both.1⟩

/-- A call of tmpfs that the other machine makes too. -/
theorem Reflects.follow {opened : List Nat} (call : Tmpfs.TmpfsCall)
    (reflects : Reflects code h s h' p a) (follows : Follows code s.roots p a s.memory p' a' memory)
    (taken : Tmpfs.tmpfsStep a call = some a') (same : SameCall p' event call)
    (closes : ∀ v, call = .close v → v < a'.vnodes)
    (stillOpen : ∀ node ∈ opened, ∃ v, (Item.vnode v).InUse a' ∧ v ≠ vfsRoot ∧ p'.vnode v = node)
    (once : opened.Nodup) {post : FileMemory}
    (isPost : post = { s.after memory with opened := opened }) :
    Reflects code (⟨s, event, post⟩ :: h) post (⟨a, call, a'⟩ :: h') p' a' := by
  subst isPost
  have stays : ∀ x ∈ h', ∀ v, x.event = .close v → p'.vnode v = p.vnode v :=
    fun x member v isClose => follows.moved.vnode v (reflects.closed x member v isClose)
  refine ⟨reflects.run.step taken, .call same (reflects.mirrors.moved stays), follows.represents,
    ?_, stillOpen, once, ?_⟩
  · intro b live other
    obtain ⟨old, notMine⟩ := mem_after (s := s) live other
    exact (follows.others b old (reflects.foreign b old notMine)).2
  · intro x member v isClose
    rcases List.mem_cons.mp member with rfl | member
    · exact closes v isClose
    · exact (reflects.closed x member v isClose).trans_le follows.moved.vnodes

/-- Open vnodes stay open where nothing frees them. -/
theorem Reflects.stillOpen (reflects : Reflects code h s h' p a) (moved : Extends p a p' a')
    (kept : ∀ u < a.vnodes, u ∉ a.freed → u ∉ a'.freed) :
    ∀ node ∈ s.opened, ∃ v, (Item.vnode v).InUse a' ∧ v ≠ vfsRoot ∧ p'.vnode v = node := by
  intro node member
  obtain ⟨v, inUse, other, place⟩ := reflects.opened node member
  have below : v < a.vnodes := inUse.1
  exact ⟨v, ⟨below.trans_le moved.vnodes, kept v below inUse.2⟩, other,
    (moved.vnode v below).trans place⟩

/-- Blocks of others keep their bytes while tmpfs is called. -/
def Spares (x : Entry FileMemory Event) : Prop :=
  (∀ e, x.event ≠ .heap e) →
    ∀ b ∈ x.pre.memory.blocks, b ∉ x.pre.own → Spared b x.pre.memory x.post.memory

theorem Reflects.spares (reflects : Reflects code h s h' p a)
    (follows : Follows code s.roots p a s.memory p' a' s'.memory) : Spares ⟨s, event, s'⟩ :=
  fun _ b live other => (follows.others b live (reflects.foreign b live other)).1

/-- What has come of a step. -/
def Reflected (code : TmpfsCode) (h : List (Entry FileMemory Event)) (s s' : FileMemory)
    (event : Event) : Prop :=
  (∃ h' p a, Reflects code (⟨s, event, s'⟩ :: h) s' h' p a) ∧ Spares ⟨s, event, s'⟩

theorem Reflects.addEntry {fuel : Nat} {path : CString} {data : List UInt8} {flags : UInt32}
    (reflects : Reflects code h s h' p a) (room : Room s.memory data)
    (taken : step code s (.addEntry fuel path data flags) = some s') :
    Reflected code h s s' (.addEntry fuel path data flags) := by
  rw [step] at taken
  split at taken
  next word =>
    obtain ⟨⟨w, memory⟩, done, rfl⟩ := Option.map_eq_some_iff.mp taken
    obtain ⟨found, a', p', result, added⟩ :=
      tmpfsAddEntry_refines reflects.represents word room done
    have abstract : Tmpfs.tmpfsStep a (.addEntry fuel path data flags) = some a' := by
      rw [Tmpfs.tmpfsStep, if_pos word, result]
      rfl
    exact ⟨⟨_, p', a', reflects.follow _ added.follows abstract .addEntry (by simp)
      (reflects.stillOpen added.follows.moved added.kept) reflects.once rfl⟩,
      reflects.spares added.follows⟩
  · cases taken

theorem Reflects.findPath {fuel : Nat} {path : CString} (reflects : Reflects code h s h' p a)
    (taken : step code s (.findPath fuel path) = some s') :
    Reflected code h s s' (.findPath fuel path) := by
  obtain ⟨⟨w, memory⟩, done, rfl⟩ := Option.map_eq_some_iff.mp taken
  obtain ⟨found, a', p', result, search⟩ := vfsFindPath_refines reflects.represents done
  have rep := search.follows.represents
  have abstract : Tmpfs.tmpfsStep a (.findPath fuel path) = some a' := by
    rw [Tmpfs.tmpfsStep, result]
    rfl
  have still := reflects.stillOpen search.follows.moved search.kept_all
  refine ⟨⟨_, p', a', reflects.follow _ search.follows abstract .findPath (by simp) ?_ ?_ rfl⟩,
    reflects.spares search.follows⟩
  · intro node member
    split at member
    · exact still node member
    next handed =>
      rcases List.mem_cons.mp member with rfl | member
      · -- the vnode that was handed out
        rw [not_or] at handed
        cases found with
        | none => exact absurd search.address handed.1
        | some u =>
          refine ⟨u, (search.open' u rfl).1, ?_, search.address.symm⟩
          rintro rfl
          exact handed.2 (search.address.trans rep.vfsRoot.symm)
      · exact still node member
  · split
    · exact reflects.once
    next handed =>
      refine List.nodup_cons.mpr ⟨fun member => ?_, reflects.once⟩
      rw [not_or] at handed
      obtain ⟨v, inUse, other, place⟩ := reflects.opened _ member
      obtain ⟨v', inUse', other', place'⟩ := still _ member
      -- its number is larger than those of the others
      cases found with
      | none => exact handed.1 search.address
      | some u =>
        obtain ⟨isOpen, begun⟩ := search.open' u rfl
        have same : v' = u := rep.vnode_injective inUse' isOpen (place'.trans search.address)
        have old : p'.vnode v = p'.vnode u := by
          rw [search.follows.moved.vnode v inUse.1, place]
          exact search.address
        have kept : (Item.vnode v).InUse a' :=
          ⟨inUse.1.trans_le search.follows.moved.vnodes, search.kept_all v inUse.1 inUse.2⟩
        have eq : v = u := rep.vnode_injective kept isOpen old
        rcases begun with root | new
        · exact other (eq.trans (Option.some.inj root))
        · have below := inUse.1
          omega

theorem Reflects.close {node : Nat} (reflects : Reflects code h s h' p a)
    (taken : step code s (.close node) = some s') : Reflected code h s s' (.close node) := by
  have rep := reflects.represents
  rw [step] at taken
  split at taken
  next allowed =>
    obtain ⟨memory, done, rfl⟩ := Option.map_eq_some_iff.mp taken
    by_cases null : node = 0
    · -- nothing is closed
      rw [vfsClose, if_pos null] at done
      obtain rfl := Option.some.inj done
      refine ⟨⟨h', p, a, reflects.run, .null (by rw [null]) reflects.mirrors, rep, ?_, ?_, ?_,
        reflects.closed⟩, reflects.spares (.refl rep)⟩
      · intro b live other
        obtain ⟨old, notMine⟩ := mem_after (s := s) live other
        exact reflects.foreign b old notMine
      · exact fun node member => reflects.opened node (List.mem_of_mem_erase member)
      · exact reflects.once.erase node
    · obtain ⟨v, inUse, rfl⟩ : ∃ v, (Item.vnode v).InUse a ∧ p.vnode v = node := by
        rcases allowed with isNull | isRoot | member
        · exact absurd isNull null
        · exact ⟨vfsRoot, rep.shaped.vfsRoot, rep.vfsRoot.symm.trans isRoot.symm⟩
        · obtain ⟨v, inUse, _, place⟩ := reflects.opened node member
          exact ⟨v, inUse, place⟩
      obtain ⟨follows, _⟩ := vfsClose_refines rep inUse done
      refine ⟨⟨_, p, _, reflects.follow (.close v) follows rfl .close ?_ ?_
        (reflects.once.erase _) rfl⟩, reflects.spares follows⟩
      · intro u same
        obtain rfl : v = u := by simpa using same
        exact inUse.1.trans_le follows.moved.vnodes
      · intro other member
        rw [reflects.once.mem_erase_iff] at member
        obtain ⟨u, inUse', notRoot, rfl⟩ := reflects.opened other member.2
        refine ⟨u, ⟨inUse'.1.trans_le follows.moved.vnodes, fun isFreed => ?_⟩, notRoot, rfl⟩
        rcases freed_close u isFreed with rfl | isFreed
        · exact member.1 rfl
        · exact inUse'.2 isFreed
  · cases taken

/-- Others do not touch the blocks of tmpfs, and are handed other blocks. -/
theorem Reflects.heap (reflects : Reflects code h s h' p a)
    (fits : HeapRun.FitsEvent s.memory e) (taken : step code s (.heap e) = some s') :
    Reflected code h s s' (.heap e) := by
  have rep := reflects.represents
  rw [step] at taken
  split at taken
  · cases taken
  next quiet =>
    obtain ⟨memory, done, rfl⟩ := Option.map_eq_some_iff.mp taken
    have mine : ∀ x, x.InUse a → p.block a x ∈ s.own := by
      intro x inUse
      by_contra other
      exact reflects.foreign _ (rep.object x inUse).live other x inUse rfl
    have spared : ∀ x, x.InUse a → Spared (p.block a x) s.memory memory := by
      intro x inUse
      apply rep.good.spared fits done
      · rintro rfl
        exact quiet (by simpa [touches] using mine x inUse)
      · rintro offset value rfl
        exact quiet (by simpa [touches] using mine x inUse)
    have rep' : Represents code s.roots p a memory := { rep with
      good := rep.good.step fits done
      object := fun x inUse => (rep.object x inUse).spared (spared x inUse) }
    refine ⟨⟨h', p, a, reflects.run, .heap rfl reflects.mirrors, rep', ?_, reflects.opened,
      reflects.once, reflects.closed⟩, fun none => absurd rfl (none e)⟩
    intro b live other x inUse same
    exact other (same ▸ mine x inUse)

theorem Reflects.step (reflects : Reflects code h s h' p a) (roomy : Roomy ⟨s, event, s'⟩)
    (taken : FileMemory.step code s event = some s') : Reflected code h s s' event := by
  cases event with
  | addEntry => exact reflects.addEntry roomy taken
  | findPath => exact reflects.findPath taken
  | close => exact reflects.close taken
  | heap => exact reflects.heap roomy taken

theorem Booted.reflects (booted : Booted code s) :
    ∃ p, Reflects code [] s [] p Tmpfs.tmpfsInit := by
  obtain ⟨s₀, h₀, before, fits, done, own, opened⟩ := booted
  obtain ⟨p, rep, others⟩ := tmpfsInit_represents (HeapRun.run_good before fits) done
  refine ⟨p, .start rfl, .nil, rep, ?_, by simp [opened], by simp [opened], by simp⟩
  intro b live other
  rw [own, List.mem_filter, not_and] at other
  have old : b ∈ s₀.blocks := by simpa using other live
  exact (others b old).2

theorem reflects_of_run (run : Runs code h s) (roomy : ∀ x ∈ h, Roomy x) :
    (∃ h' p a, Reflects code h s h' p a) ∧ ∀ x ∈ h, Spares x := by
  induction run with
  | start booted =>
    obtain ⟨p, reflects⟩ := booted.reflects
    exact ⟨⟨[], p, _, reflects⟩, by simp⟩
  | step before taken ih =>
    obtain ⟨⟨h', p, a, reflects⟩, spares⟩ :=
      ih fun x member => roomy x (List.mem_cons_of_mem _ member)
    obtain ⟨reflected, here⟩ := reflects.step (roomy _ List.mem_cons_self) taken
    refine ⟨reflected, fun x member => ?_⟩
    rcases List.mem_cons.mp member with rfl | member
    · exact here
    · exact spares x member

/-- What the callers of the VFS see. -/
structure Answers (code : TmpfsCode) (p : Places) (a : Tmpfs) (s : FileMemory) : Prop where
  /-- vnodes that were handed out and not closed are vnodes of the tree -/
  opened : ∀ node ∈ s.opened, ∃ v, (Item.vnode v).InUse a ∧ p.vnode v = node
  /-- a lookup that returns finds what the path leads to -/
  find : ∀ fuel path node memory,
    vfsFindPath code s.roots fuel path s.memory = some (node, memory) →
    ∃ found a' p', Tmpfs.vfsFindPath fuel path a = .ok (found, a') ∧
      node = pointer p'.vnode found ∧ Represents code s.roots p' a' memory
  /-- a read gets the bytes that the file has -/
  read : ∀ v, (Item.vnode v).InUse a → ∀ offset size r, a.vfsRead v offset size = .ok r →
    vfsRead code s.memory (p.vnode v) offset size = some r

/-- Every run in memory has the calls of a run of `Tmpfs`, and memory holds the nodes, the data
and the open vnodes of its last state. Lookups and reads answer as they do there, and no call
of tmpfs changes a byte of anybody else. -/
theorem tmpfs_in_memory (run : Runs code h s) (roomy : ∀ x ∈ h, Roomy x) :
    (∃ h' p a, Tmpfs.TmpfsRuns h' a ∧ Mirrors p h h' ∧ Represents code s.roots p a s.memory ∧
      Answers code p a s) ∧ ∀ x ∈ h, Spares x := by
  obtain ⟨⟨h', p, a, reflects⟩, spares⟩ := reflects_of_run run roomy
  have rep := reflects.represents
  refine ⟨⟨h', p, a, reflects.run, reflects.mirrors, rep, ?_, ?_, ?_⟩, spares⟩
  · intro node member
    obtain ⟨v, inUse, _, place⟩ := reflects.opened node member
    exact ⟨v, inUse, place⟩
  · intro fuel path node memory done
    obtain ⟨found, a', p', result, search⟩ := vfsFindPath_refines rep done
    exact ⟨found, a', p', result, search.address, search.follows.represents⟩
  · exact fun v inUse offset size r done => vfsRead_refines rep inUse done

/-! ### A file is made and looked up -/

def sampleCode : TmpfsCode where
  tmpfsRead := 0xffffffff80001000
  tmpfsFinddir := 0xffffffff80002000
  nonnull := by decide

/-- `a` -/
def samplePath : CString := ⟨[0x61], by decide⟩

theorem tmpfs_in_memory_one_file : ∃ h s, Runs sampleCode h s ∧ s.opened.length = 1 ∧
    (∃ h' p a, Tmpfs.TmpfsRuns h' a ∧ Mirrors p h h' ∧
      Represents sampleCode s.roots p a s.memory ∧ Answers sampleCode p a s) ∧
    ∀ x ∈ h, Spares x := by
  have evaluated : ((heapInit bareHeap).bind fun heap =>
      (tmpfsInit sampleCode ⟨heap, [], []⟩).bind fun booted =>
      (tmpfsAddEntry sampleCode booted.1 4 samplePath [1, 2, 3] 0 booted.2).bind fun added =>
      (vfsFindPath sampleCode booted.1 4 samplePath added.2).map fun found =>
        decide ¬ (found.1 = 0 ∨ found.1 = booted.1.vfsRoot)) = some true := by
    decide +kernel
  obtain ⟨heap, initialised, evaluated⟩ := Option.bind_eq_some_iff.mp evaluated
  obtain ⟨⟨roots, memory⟩, booted, evaluated⟩ := Option.bind_eq_some_iff.mp evaluated
  obtain ⟨⟨node, memory₁⟩, added, evaluated⟩ := Option.bind_eq_some_iff.mp evaluated
  obtain ⟨⟨vnode, memory₂⟩, found, handed⟩ := Option.map_eq_some_iff.mp evaluated
  have handed : ¬ (vnode = 0 ∨ vnode = roots.vfsRoot) := of_decide_eq_true handed
  obtain ⟨s, isS⟩ : ∃ s : FileMemory,
      s = ⟨memory, roots, memory.blocks.filter fun b => b ∉ ([] : List Block), []⟩ := ⟨_, rfl⟩
  have started : Booted sampleCode s := by
    subst isS
    have ready : HeapRun.Started ⟨heap, [], []⟩ :=
      ⟨bareHeap, booted_bareHeap, initialised, rfl, rfl⟩
    exact ⟨⟨heap, [], []⟩, [], .start ready, by simp [HeapRun.AllFit], booted, rfl, rfl⟩
  have small : ([1, 2, 3] : List UInt8).length < 2 ^ 64 := by decide
  have first : FileMemory.step sampleCode s (.addEntry 4 samplePath [1, 2, 3] 0) =
      some (s.after memory₁) := by
    rw [FileMemory.step, if_pos small, isS, added]
    rfl
  have second : FileMemory.step sampleCode (s.after memory₁) (.findPath 4 samplePath) =
      some { (s.after memory₁).after memory₂ with opened := [vnode] } := by
    rw [FileMemory.step]
    simp [after, isS, found, handed]
  have run := ((Run.start started).step first).step second
  refine ⟨_, _, run, rfl, tmpfs_in_memory run fun x member => ?_⟩
  simp only [List.mem_cons, List.not_mem_nil, or_false] at member
  rcases member with rfl | rfl
  · trivial
  · exact .inl (by decide)

end FileMemory

end DedOS
