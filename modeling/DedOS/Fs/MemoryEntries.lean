import DedOS.Fs.MemoryLookup

/-!
# Adding entries in memory

`tmpfs_create_file` takes a node and its data from the heap, fills them in and links the node
into the list of its directory. `tmpfs_add_entry` does so in the directory that its lookup
finds.
-/

namespace DedOS

open Lib HeapRun

namespace NodeMemory

variable {code : TmpfsCode} {roots : Roots} {p p' p'' : Places} {a a' a'' : Tmpfs}
  {s₀ s s' s'' : SlabState} {i v w parent fuel : Nat} {name data : List UInt8} {path : CString}
  {flags : UInt32} {found : Option Nat} {rest : Fields}

/-- The heap has addresses left for the data of a large file. -/
def Room (s : SlabState) (data : List UInt8) : Prop :=
  data.length ≤ slab1024 ∨
    Fits s.heap data.length ∧ data.length + allocHeaderSize + 4095 < 2 ^ 64

theorem Room.of_vaddr (room : Room s data) (same : s'.heap.heapVaddr = s.heap.heapVaddr) :
    Room s' data := by
  unfold Room Fits at *
  rwa [same]

/-- The data of a file is in a new block, unless the file is empty. -/
structure DataMade (s₀ s : SlabState) (w : Nat) (data : List UInt8) (ptr : Nat) : Prop where
  empty : data = [] → ptr = 0
  fresh : data ≠ [] → Fresh s₀ s ⟨ptr, data.length⟩ [(0, data)]
  other : (⟨ptr, data.length⟩ : Block) ≠ ⟨w, tmpfsNodeSize⟩

theorem storeData_made (node : Fresh s₀ s ⟨w, tmpfsNodeSize⟩ ((dataAt, leBytes 8 0) :: rest))
    (beside : ∀ f ∈ rest, f.1 + f.2.length ≤ dataAt ∨ dataAt + 8 ≤ f.1) (room : Room s data)
    (done : storeData w data s = some s') : ∃ ptr, DataMade s₀ s' w data ptr ∧
      Fresh s₀ s' ⟨w, tmpfsNodeSize⟩ ((dataAt, leBytes 8 ptr) :: rest) := by
  rw [storeData] at done
  split at done
  next empty =>
    obtain rfl := Option.some.inj done
    subst empty
    refine ⟨0, ⟨fun _ => rfl, fun some => absurd rfl some, ?_⟩, node⟩
    simp [tmpfsNodeSize]
  next filled =>
    simp only [Option.bind_eq_bind, Option.bind_eq_some_iff, Prod.exists] at done
    obtain ⟨ptr, s₁, gotten, s₂, linked, done⟩ := done
    split at done
    · cases done
    next nonnull =>
    have good := node.untouched.good
    have word : data.length < 2 ^ 64 := by
      rcases room with small | large
      · dsimp only [slab1024] at small
        omega
      · omega
    have asked := request_spec good word (room.imp_right And.left) gotten
    have made := asked.made nonnull (room.imp_right And.right)
    have differ : (⟨ptr, data.length⟩ : Block) ≠ ⟨w, tmpfsNodeSize⟩ := made.ne node.object.live
    -- the pointer is stored in the node, and the bytes in the new block
    have node₁ := node.later asked.untouched List.not_mem_nil (by simp)
    have members : Fresh s₀ s₁ ⟨w, tmpfsNodeSize⟩ rest :=
      node₁.sub fun f member => List.mem_cons_of_mem _ member
    have node₂ := members.member (by decide) linked beside
    have own : Untouched [⟨w, tmpfsNodeSize⟩] s₁ s₂ :=
      (node₁.object.filled node₁.untouched.good
        (by rw [length_leBytes]; simp [dataAt, tmpfsNodeSize]) linked).untouched
    have new : ∀ b ∈ [(⟨w, tmpfsNodeSize⟩ : Block)], b ∉ s₀.blocks := by
      intro b member
      obtain rfl := List.mem_singleton.mp member
      exact node.new
    have data₂ := (made.since node.untouched).later own (by simpa using differ) new
    have data₃ := data₂.fill (by simp) done (by simp)
    have bytes : Untouched [⟨ptr, data.length⟩] s₂ s' :=
      (data₂.object.filled data₂.untouched.good (by simp) done).untouched
    refine ⟨ptr, ⟨fun empty => absurd empty filled, fun _ => data₃, differ⟩, ?_⟩
    refine node₂.later bytes (by simpa using Ne.symm differ) fun b member => ?_
    obtain rfl := List.mem_singleton.mp member
    exact data₂.new

/-- What `tmpfs_create_file` has done when it is about to link the node into its directory. -/
structure NodeMade (s s' : SlabState) (new : TmpfsNode) (w ptr next : Nat) : Prop where
  nonnull : w ≠ 0
  short : new.name.length ≤ nameMax
  data : DataMade s s' w new.data ptr
  node : Fresh s s' ⟨w, tmpfsNodeSize⟩ (nodeFields new ptr next 0)

theorem tmpfsCreateFile_made {dir : TmpfsNode} {q ptr' next' children : Nat} (good : Good s)
    (object : Object s ⟨q, tmpfsNodeSize⟩ (nodeFields dir ptr' next' children))
    (isDir : dir.flags = vfsDirectory) (next : Option Nat) (room : Room s data)
    (done : tmpfsCreateFile q name data s = some (w, s')) :
    ∃ s₁ ptr, NodeMade s s₁ ⟨name, vfsFile, data.length, data, next, none⟩ w ptr children ∧
      fill ⟨q, tmpfsNodeSize⟩ childrenAt (leBytes 8 w) s₁ = some s' := by
  have bounds := good.ptr_bounds object.live (by simp [tmpfsNodeSize])
  have small : tmpfsNodeSize ≤ slab1024 := by decide
  have flags : peekFlags s (q + flagsAt) = some vfsDirectory :=
    peekFlags_of object (by simp [nodeFields, isDir])
  simp only [tmpfsCreateFile, if_neg bounds.1, flags, Option.bind_eq_bind, Option.bind_some,
    ne_eq, not_true_eq_false, if_false, Option.bind_eq_some_iff, Prod.exists] at done
  obtain ⟨w', s₁, gotten, done⟩ := done
  split at done
  · cases done
  next allowed =>
  rw [not_or, Nat.not_le] at allowed
  obtain ⟨nonnull, short⟩ := allowed
  have short : name.length ≤ 127 := Nat.le_of_lt_succ short
  simp only [Option.bind_eq_some_iff, Option.some.injEq, Prod.mk.injEq] at done
  obtain ⟨s₂, cleared, s₃, named, s₄, flagged, s₅, sized, s₆, stored, children', read, s₇, chained,
    s₈, linked, rfl, rfl⟩ := done
  have made := (request_spec good (by decide) (.inl small) gotten).made nonnull (.inl small)
  have fresh₂ := made.fill (by simp) cleared (by simp)
  -- `data` and `children` stay null from `memset`
  have zeros : Fresh s s₂ ⟨w', tmpfsNodeSize⟩ [(dataAt, leBytes 8 0), (childrenAt, leBytes 8 0)] :=
    fresh₂.zero (n := 8) (by simp [dataAt, childrenAt, tmpfsNodeSize])
  have fresh₃ := zeros.fill (by simp [tmpfsNodeSize]; omega) named
    (by simp [dataAt, childrenAt]; omega)
  have fresh₄ := fresh₃.member (by decide) flagged (by simp [flagsAt, dataAt, childrenAt]; omega)
  have fresh₅ := fresh₄.member (by decide) sized
    (by simp [flagsAt, sizeAt, dataAt, childrenAt]; omega)
  have before : Fresh s s₅ ⟨w', tmpfsNodeSize⟩ ((dataAt, leBytes 8 0) ::
      [(sizeAt, leBytes 8 data.length), (flagsAt, leBytes 4 vfsFile.toNat), (0, name ++ [0]),
        (childrenAt, leBytes 8 0)]) := by
    refine fresh₅.sub fun f member => ?_
    simp only [List.mem_cons, List.not_mem_nil, or_false] at member
    rcases member with rfl | rfl | rfl | rfl | rfl
    all_goals simp
  have room₅ : Room s₅ data := room.of_vaddr (by
    rw [fill_vaddr sized, fill_vaddr flagged, fill_vaddr named, fill_vaddr cleared,
      request_vaddr small gotten])
  obtain ⟨ptr, dataMade, fresh₆⟩ := storeData_made before
    (by simp [flagsAt, sizeAt, dataAt, childrenAt]; omega) room₅ stored
  obtain rfl : leBytes 8 children = children' := Option.some.inj <|
    ((object.spared fresh₆.untouched.all).peekNumber (by simp [nodeFields])).symm.trans read
  have fresh₇ := fresh₆.member (by decide) chained
    (by simp [flagsAt, sizeAt, dataAt, nextAt, childrenAt]; omega)
  have own : Untouched [⟨w', tmpfsNodeSize⟩] s₆ s₇ :=
    (fresh₆.object.filled fresh₆.untouched.good
      (by rw [length_leBytes]; simp [nextAt, tmpfsNodeSize]) chained).untouched
  refine ⟨s₇, ptr, ⟨nonnull, short, ⟨dataMade.empty, fun filled => ?_, dataMade.other⟩,
    fresh₇.sub fun f member => ?_⟩, linked⟩
  · refine (dataMade.fresh filled).later own (by simpa using dataMade.other) fun b member => ?_
    obtain rfl := List.mem_singleton.mp member
    exact fresh₆.new
  · simp only [nodeFields, List.mem_cons, List.not_mem_nil, or_false] at member
    rcases member with rfl | rfl | rfl | rfl | rfl | rfl
    all_goals simp

/-- The node is there, and no list has it yet. -/
def unlinked (a : Tmpfs) (new : TmpfsNode) : Tmpfs :=
  { a with node := Function.update a.node a.nodes new, nodes := a.nodes + 1 }

theorem unlinked_old (new : TmpfsNode) (old : i < a.nodes) : (unlinked a new).node i = a.node i :=
  Function.update_of_ne old.ne _ _

theorem unlinked_new (new : TmpfsNode) : (unlinked a new).node a.nodes = new :=
  Function.update_self _ _ _

theorem Shaped.unlinked {new : TmpfsNode} (shaped : Shaped a)
    (named : 0 ∉ new.name ∧ new.name.length ≤ nameMax)
    (size : new.size = new.data.length ∧ new.size < 2 ^ 64)
    (next : ∀ j, new.next = some j → j < a.nodes) (children : new.children = none) :
    Shaped (unlinked a new) := by
  -- what holds of the old nodes and of the new one holds of all
  have each : ∀ {P : TmpfsNode → Prop}, (∀ i < a.nodes, P (a.node i)) → P new →
      ∀ i < a.nodes + 1, P ((NodeMemory.unlinked a new).node i) := by
    intro P old at_new i below
    by_cases last : i = a.nodes
    · rw [last, unlinked_new]
      exact at_new
    · have small : i < a.nodes := by omega
      rw [unlinked_old new small]
      exact old i small
  have more : ∀ {j}, j < a.nodes → j < a.nodes + 1 := fun below => Nat.lt_succ_of_lt below
  exact {
    name := each (P := fun n => 0 ∉ n.name ∧ n.name.length ≤ nameMax) shaped.name named
    size := each (P := fun n => n.size = n.data.length ∧ n.size < 2 ^ 64) shaped.size size
    next := each (P := fun n => ∀ j, n.next = some j → j < a.nodes + 1)
      (fun i below j link => more (shaped.next i below j link)) (fun j link => more (next j link))
    children := each (P := fun n => ∀ j, n.children = some j → j < a.nodes + 1)
      (fun i below j link => more (shaped.children i below j link)) (by simp [children])
    device := fun v below => more (shaped.device v below)
    freed := shaped.freed
    rootInternal := more shaped.rootInternal
    vfsRoot := shaped.vfsRoot }

theorem pointer_congr {f g : Nat → Nat} {head : Option Nat}
    (same : ∀ j, head = some j → f j = g j) : pointer f head = pointer g head := by
  cases head with
  | none => rfl
  | some j => exact same j rfl

/-- The new node is at `w` and its data at `ptr`. -/
def Places.withNode (p : Places) (i w ptr : Nat) : Places :=
  { p with node := Function.update p.node i w, data := Function.update p.data i ptr }

section WithNode

variable {ptr : Nat} {new : TmpfsNode}

@[simp] theorem Places.withNode_node : (p.withNode i w ptr).node i = w := by simp [withNode]

@[simp] theorem Places.withNode_data : (p.withNode i w ptr).data i = ptr := by simp [withNode]

theorem Places.withNode_node_old {k : Nat} (old : k < i) :
    (p.withNode i w ptr).node k = p.node k := by
  simp [withNode, Function.update_of_ne old.ne]

theorem Places.withNode_data_old {k : Nat} (old : k < i) :
    (p.withNode i w ptr).data k = p.data k := by
  simp [withNode, Function.update_of_ne old.ne]

theorem inUse_unlinked {x : Item} (inUse : x.InUse (unlinked a new)) :
    x.InUse a ∨ x = .node a.nodes ∨ x = .data a.nodes ∧ new.data ≠ [] := by
  cases x with
  | node i =>
    by_cases last : i = a.nodes
    · exact .inr (.inl (by rw [last]))
    · have below : i < a.nodes + 1 := inUse
      have old : i < a.nodes := by omega
      exact .inl old
  | data i =>
    have filled := inUse.2
    by_cases last : i = a.nodes
    · rw [last, unlinked_new] at filled
      exact .inr (.inr ⟨by rw [last], filled⟩)
    · have below : i < a.nodes + 1 := inUse.1
      have old : i < a.nodes := by omega
      rw [unlinked_old new old] at filled
      exact .inl ⟨old, filled⟩
  | vnode v => exact .inl inUse

/-- An old item is where it was. -/
theorem block_unlinked {x : Item} (old : x.InUse a) :
    (p.withNode a.nodes w ptr).block (unlinked a new) x = p.block a x := by
  cases x with
  | node i =>
    have below : i < a.nodes := old
    simp [Places.block, Places.withNode_node_old below]
  | data i => simp [Places.block, Places.withNode_data_old old.1, unlinked_old new old.1]
  | vnode v => rfl

/-- The links of an old item lead to old nodes, so its members stay. -/
theorem fields_unlinked {x : Item} (shaped : Shaped a) (old : x.InUse a) :
    (p.withNode a.nodes w ptr).fields code (unlinked a new) x = p.fields code a x := by
  cases x with
  | node i =>
    have below : i < a.nodes := old
    have next : pointer (p.withNode a.nodes w ptr).node (a.node i).next =
        pointer p.node (a.node i).next :=
      pointer_congr fun j link => Places.withNode_node_old (shaped.next i below j link)
    have children : pointer (p.withNode a.nodes w ptr).node (a.node i).children =
        pointer p.node (a.node i).children :=
      pointer_congr fun j link => Places.withNode_node_old (shaped.children i below j link)
    simp only [Places.fields, Places.fieldsOf, unlinked_old new below,
      Places.withNode_data_old below, next, children]
  | data i => simp [Places.fields, unlinked_old new old.1]
  | vnode v => simp [Places.fields, unlinked, Places.withNode_node_old (shaped.device v old.1)]

theorem block_newNode : (p.withNode a.nodes w ptr).block (unlinked a new) (.node a.nodes) =
    ⟨w, tmpfsNodeSize⟩ := by
  simp [Places.block]

theorem block_newData : (p.withNode a.nodes w ptr).block (unlinked a new) (.data a.nodes) =
    ⟨ptr, new.data.length⟩ := by
  simp [Places.block, unlinked_new]

theorem fields_newNode (empty : new.data = [] → ptr = 0)
    (next : ∀ j, new.next = some j → j < a.nodes) (children : new.children = none) :
    (p.withNode a.nodes w ptr).fields code (unlinked a new) (.node a.nodes) =
      nodeFields new ptr (pointer p.node new.next) 0 := by
  have data : (if new.data = [] then 0 else (p.withNode a.nodes w ptr).data a.nodes) = ptr := by
    split
    next none => exact (empty none).symm
    · simp
  have link : pointer (p.withNode a.nodes w ptr).node new.next = pointer p.node new.next :=
    pointer_congr fun j link => Places.withNode_node_old (next j link)
  simp only [Places.fields, Places.fieldsOf, unlinked_new, data, link, children, pointer_none]

/-- Memory with the new node stands for the tree with it. -/
theorem NodeMade.follows (rep : Represents code roots p a s)
    (made : NodeMade s s' new w ptr (pointer p.node new.next)) (plain : 0 ∉ new.name)
    (size : new.size = new.data.length ∧ new.size < 2 ^ 64)
    (next : ∀ j, new.next = some j → j < a.nodes) (children : new.children = none) :
    Follows code roots p a s (p.withNode a.nodes w ptr) (unlinked a new) s' := by
  have shaped := rep.shaped.unlinked ⟨plain, made.short⟩ size next children
  refine rep.extend made.node.untouched shaped ?_ ?_ ?_
  · exact ⟨Nat.le_succ _, le_rfl, fun i old => Places.withNode_node_old old, fun _ _ => rfl⟩
  · intro x inUse
    rcases inUse_unlinked inUse with old | rfl | ⟨rfl, filled⟩
    · exact .inl ⟨old, block_unlinked old, fields_unlinked rep.shaped old⟩
    · right
      rw [block_newNode, fields_newNode made.data.empty next children]
      exact ⟨made.node.new, made.node.object⟩
    · right
      have fresh := made.data.fresh filled
      rw [block_newData]
      exact ⟨fresh.new, by simpa [Places.fields, unlinked_new] using fresh.object⟩
  · intro x y inUse inUse' fresh same
    -- only the node and its data are in new blocks, and these are two
    have newly : ∀ x : Item, x.InUse (unlinked a new) →
        (p.withNode a.nodes w ptr).block (unlinked a new) x ∉ s.blocks →
        x = .node a.nodes ∨ x = .data a.nodes := by
      intro x inUse fresh
      rcases inUse_unlinked inUse with old | isNode | ⟨isData, _⟩
      · rw [block_unlinked old] at fresh
        exact absurd (rep.object x old).live fresh
      · exact .inl isNode
      · exact .inr isData
    have fresh' := same ▸ fresh
    rcases newly x inUse fresh with rfl | rfl <;> rcases newly y inUse' fresh' with rfl | rfl
    · rfl
    · rw [block_newNode, block_newData] at same
      exact absurd same.symm made.data.other
    · rw [block_newNode, block_newData] at same
      exact absurd same made.data.other
    · rfl

end WithNode

/-! ### `tmpfs_create_file` and `tmpfs_create_dir` -/

/-- What a call that makes a node has done. -/
structure Created (code : TmpfsCode) (roots : Roots) (p : Places) (a : Tmpfs) (s : SlabState)
    (p' : Places) (a' : Tmpfs) (s' : SlabState) (found : Option Nat) (w : Nat) : Prop where
  follows : Follows code roots p a s p' a' s'
  freed : a'.freed = a.freed
  address : w = pointer p'.node found
  made : ∀ i, found = some i → i < a'.nodes

theorem Shaped.setNode {n : TmpfsNode} (shaped : Shaped a) (here : i < a.nodes)
    (name : n.name = (a.node i).name) (size : n.size = (a.node i).size)
    (data : n.data = (a.node i).data) (next : n.next = (a.node i).next)
    (children : ∀ j, n.children = some j → j < a.nodes) :
    Shaped { a with node := Function.update a.node i n } := by
  have each : ∀ {P : TmpfsNode → Prop}, (∀ k < a.nodes, P (a.node k)) → (P (a.node i) → P n) →
      ∀ k < a.nodes, P (Function.update a.node i n k) := by
    intro P old at_i k below
    by_cases same : k = i
    · rw [same, Function.update_self]
      exact at_i (old i here)
    · rw [Function.update_of_ne same]
      exact old k below
  exact { shaped with
    name := each (P := fun n => 0 ∉ n.name ∧ n.name.length ≤ nameMax) shaped.name
      (by rw [name]; exact id)
    size := each (P := fun n => n.size = n.data.length ∧ n.size < 2 ^ 64) shaped.size
      (by rw [size, data]; exact id)
    next := each (P := fun n => ∀ j, n.next = some j → j < a.nodes) shaped.next
      (by rw [next]; exact id)
    children := each (P := fun n => ∀ j, n.children = some j → j < a.nodes) shaped.children
      fun _ => children }

section Members

variable (rep : Represents code roots p a s) (here : i < a.nodes)

include rep here

theorem Represents.setChildren (head : Option Nat) (inside : ∀ j, head = some j → j < a.nodes)
    (done : fill ⟨p.node i, tmpfsNodeSize⟩ childrenAt (leBytes 8 (pointer p.node head)) s =
      some s') :
    Follows code roots p a s p { a with
      node := Function.update a.node i { a.node i with children := head } } s' := by
  have fits : (a.node i).name.length ≤ 127 := (rep.shaped.name i here).2
  refine rep.setNode here rfl (rep.shaped.setNode here rfl rfl rfl rfl inside) done
    (by simp [childrenAt, tmpfsNodeSize])
    [(0, (a.node i).name ++ [0]), (flagsAt, leBytes 4 (a.node i).flags.toNat),
      (sizeAt, leBytes 8 (a.node i).size),
      (dataAt, leBytes 8 (if (a.node i).data = [] then 0 else p.data i)),
      (nextAt, leBytes 8 (pointer p.node (a.node i).next))] ?_ ?_
  · simp only [Places.fieldsOf, nodeFields, List.mem_cons, List.not_mem_nil, or_false]
    rintro f (rfl | rfl | rfl | rfl | rfl)
    all_goals simp [flagsAt, sizeAt, dataAt, nextAt, childrenAt]
    omega
  · intro f member
    simp only [Places.fieldsOf, nodeFields, List.mem_cons, List.not_mem_nil, or_false] at member
    rcases member with rfl | rfl | rfl | rfl | rfl | rfl
    all_goals simp

theorem Represents.setFlags (flags : UInt32)
    (done : fill ⟨p.node i, tmpfsNodeSize⟩ flagsAt (leBytes 4 flags.toNat) s = some s') :
    Follows code roots p a s p { a with
      node := Function.update a.node i { a.node i with flags := flags } } s' := by
  have fits : (a.node i).name.length ≤ 127 := (rep.shaped.name i here).2
  refine rep.setNode here rfl
    (rep.shaped.setNode here rfl rfl rfl rfl (rep.shaped.children i here)) done
    (by simp [flagsAt, tmpfsNodeSize])
    [(0, (a.node i).name ++ [0]), (sizeAt, leBytes 8 (a.node i).size),
      (dataAt, leBytes 8 (if (a.node i).data = [] then 0 else p.data i)),
      (nextAt, leBytes 8 (pointer p.node (a.node i).next)),
      (childrenAt, leBytes 8 (pointer p.node (a.node i).children))] ?_ ?_
  · simp only [Places.fieldsOf, nodeFields, List.mem_cons, List.not_mem_nil, or_false]
    rintro f (rfl | rfl | rfl | rfl | rfl)
    all_goals simp [flagsAt, sizeAt, dataAt, nextAt, childrenAt]
    omega
  · intro f member
    simp only [Places.fieldsOf, nodeFields, List.mem_cons, List.not_mem_nil, or_false] at member
    rcases member with rfl | rfl | rfl | rfl | rfl | rfl
    all_goals simp

end Members

theorem tmpfsCreateFile_refines (rep : Represents code roots p a s) (here : parent < a.nodes)
    (plain : 0 ∉ name) (word : data.length < 2 ^ 64) (room : Room s data)
    (done : tmpfsCreateFile (p.node parent) name data s = some (w, s')) :
    ∃ found a' p', Tmpfs.tmpfsCreateFile parent name data a = .ok (found, a') ∧
      Created code roots p a s p' a' s' found w := by
  by_cases dir : (a.node parent).flags = vfsDirectory
  · obtain ⟨s₁, ptr, made, linked⟩ := tmpfsCreateFile_made rep.good (rep.node here) dir
      (a.node parent).children room done
    have short : ¬ name.length ≥ 128 := Nat.not_le.mpr (Nat.lt_succ_of_le made.short)
    have before := made.follows rep plain ⟨rfl, word⟩ (rep.shaped.children parent here) rfl
    have place : (p.withNode a.nodes w ptr).node a.nodes = w := Places.withNode_node
    have inside : parent < a.nodes + 1 := Nat.lt_succ_of_lt here
    rw [← before.moved.node parent here] at linked
    have points : fill ⟨(p.withNode a.nodes w ptr).node parent, tmpfsNodeSize⟩ childrenAt
        (leBytes 8 (pointer (p.withNode a.nodes w ptr).node (some a.nodes))) s₁ = some s' := by
      rw [pointer_some, place]
      exact linked
    -- the node becomes the first child
    have after := before.represents.setChildren inside (some a.nodes) (fun j same => by
      obtain rfl := Option.some.inj same
      exact Nat.lt_succ_self _) points
    refine ⟨some a.nodes, _, _, ?_, before.trans after, rfl, place.symm, ?_⟩
    · rw [Tmpfs.tmpfsCreateFile, if_neg (not_not.mpr dir), if_neg short]
      rfl
    · intro i same
      obtain rfl := Option.some.inj same
      exact Nat.lt_succ_self _
  · -- the parent is no directory
    simp only [tmpfsCreateFile, if_neg (rep.node_bounds here).1, rep.node_flags here,
      Option.bind_eq_bind, Option.bind_some, ne_eq, dir, not_false_eq_true, if_true] at done
    obtain ⟨rfl, rfl⟩ := Prod.mk.inj (Option.some.inj done)
    exact ⟨none, a, p, if_pos dir, .refl rep, rfl, rfl, by simp⟩

theorem tmpfsCreateDir_refines (rep : Represents code roots p a s) (here : parent < a.nodes)
    (plain : 0 ∉ name) (done : tmpfsCreateDir (p.node parent) name s = some (w, s')) :
    ∃ found a' p', Tmpfs.tmpfsCreateDir parent name a = .ok (found, a') ∧
      Created code roots p a s p' a' s' found w := by
  simp only [tmpfsCreateDir, Option.bind_eq_bind, Option.bind_eq_some_iff, Prod.exists] at done
  obtain ⟨w', s₁, created, done⟩ := done
  have word : ([] : List UInt8).length < 2 ^ 64 := Nat.two_pow_pos 64
  have room : Room s [] := .inl (Nat.zero_le _)
  obtain ⟨found, a₁, p₁, result, before⟩ :=
    tmpfsCreateFile_refines rep here plain word room created
  rw [Tmpfs.tmpfsCreateDir, result, ok_bind]
  cases found with
  | none =>
    have null : w' = 0 := before.address
    rw [if_pos null] at done
    obtain ⟨rfl, rfl⟩ := Prod.mk.inj (Option.some.inj done)
    exact ⟨none, a₁, p₁, rfl, null ▸ before⟩
  | some i =>
    have address : w' = p₁.node i := before.address
    have inside := before.made i rfl
    have rep₁ := before.follows.represents
    rw [if_neg (address ▸ (rep₁.node_bounds inside).1), Option.bind_eq_some_iff] at done
    obtain ⟨s₂, flagged, done⟩ := done
    obtain ⟨rfl, rfl⟩ := Prod.mk.inj (Option.some.inj done)
    rw [address] at flagged
    have after := rep₁.setFlags inside vfsDirectory flagged
    exact ⟨some i, _, p₁, rfl, before.follows.trans after, before.freed, address, before.made⟩

theorem tmpfsCreate_refines (rep : Represents code roots p a s) (here : parent < a.nodes)
    (plain : 0 ∉ name) (word : data.length < 2 ^ 64) (room : Room s data)
    (done : tmpfsCreate (p.node parent) name data flags s = some (w, s')) :
    ∃ found a' p', Tmpfs.tmpfsCreate parent name data flags a = .ok (found, a') ∧
      Created code roots p a s p' a' s' found w := by
  rw [tmpfsCreate] at done
  rw [Tmpfs.tmpfsCreate]
  split at done
  next dir =>
    rw [if_pos dir]
    exact tmpfsCreateDir_refines rep here plain done
  next file =>
    rw [if_neg file]
    exact tmpfsCreateFile_refines rep here plain word room done

/-! ### `tmpfs_add_entry` -/

/-- Open vnodes stay open while an entry is added. -/
structure Added (code : TmpfsCode) (roots : Roots) (p : Places) (a : Tmpfs) (s : SlabState)
    (p' : Places) (a' : Tmpfs) (s' : SlabState) (found : Option Nat) (w : Nat) : Prop where
  follows : Follows code roots p a s p' a' s'
  kept : ∀ u < a.vnodes, u ∉ a.freed → u ∉ a'.freed
  address : w = pointer p'.node found

theorem Created.added (created : Created code roots p a s p' a' s' found w) :
    Added code roots p a s p' a' s' found w :=
  ⟨created.follows, fun _ _ unfreed => created.freed ▸ unfreed, created.address⟩

/-- A lookup from the root closes no vnode that was open. -/
theorem Found.kept_all (result : Found code roots (some DedOS.vfsRoot) p a s p' a' s' found w) :
    ∀ u < a.vnodes, u ∉ a.freed → u ∉ a'.freed := by
  intro u below unfreed
  by_cases root : u = DedOS.vfsRoot
  · exact root ▸ result.follows.represents.shaped.vfsRoot.2
  · exact result.kept u below (by simpa using root) unfreed

/-- `current_parent` in `Tmpfs.tmpfsAddEntry`. -/
def parentOf (a : Tmpfs) : Option Nat → Nat
  | none => DedOS.rootInternal
  | some v =>
    if (a.vnode v).flags &&& vfsDirectory ≠ 0 then (a.vnode v).device else DedOS.rootInternal

theorem currentParent_refines {q : Nat} (rep : Represents code roots p a s)
    (inUse : ∀ v, found = some v → (Item.vnode v).InUse a)
    (chosen : currentParent roots (pointer p.vnode found) s = some q) :
    parentOf a found < a.nodes ∧ q = p.node (parentOf a found) := by
  cases found with
  | none =>
    rw [currentParent, pointer_none, if_pos rfl, rep.rootInternal] at chosen
    exact ⟨rep.shaped.rootInternal, (Option.some.inj chosen).symm⟩
  | some v =>
    have open' := inUse v rfl
    simp only [currentParent, pointer_some, if_neg (rep.vnode_ne_zero open'),
      rep.vnode_flags open', rep.vnode_device open', Option.bind_eq_bind,
      Option.bind_some] at chosen
    rw [parentOf]
    split at chosen
    next dir =>
      rw [if_pos dir]
      exact ⟨rep.shaped.device v open'.1, (Option.some.inj chosen).symm⟩
    next file =>
      rw [if_neg file]
      rw [rep.rootInternal] at chosen
      exact ⟨rep.shaped.rootInternal, (Option.some.inj chosen).symm⟩

theorem tmpfsAddEntry_refines (rep : Represents code roots p a s) (word : data.length < 2 ^ 64)
    (room : Room s data) (done : tmpfsAddEntry code roots fuel path data flags s = some (w, s')) :
    ∃ found a' p', Tmpfs.tmpfsAddEntry fuel path data flags a = .ok (found, a') ∧
      Added code roots p a s p' a' s' found w := by
  rw [tmpfsAddEntry] at done
  split at done
  · cases done
  next short =>
  rw [Tmpfs.tmpfsAddEntry, if_neg short]
  cases last : strrchr path slash with
  | none =>
    simp only [last] at done ⊢
    rw [rep.rootInternal] at done
    obtain ⟨found, a', p', result, created⟩ :=
      tmpfsCreate_refines rep rep.shaped.rootInternal path.nonzero word room done
    exact ⟨found, a', p', result, created.added⟩
  | some lastSlash =>
    simp only [last, Option.bind_eq_bind, Option.bind_eq_some_iff, Prod.exists] at done ⊢
    obtain ⟨node, s₁, searched, q, chosen, done⟩ := done
    obtain ⟨vnode, a₁, p₁, result, search⟩ := vfsFindPath_refines rep searched
    have rep₁ := search.follows.represents
    have plain : 0 ∉ path.bytes.drop (lastSlash + 1) := fun member =>
      path.nonzero (List.mem_of_mem_drop member)
    rw [search.address] at chosen
    obtain ⟨here, rfl⟩ := currentParent_refines rep₁ (fun v same => (search.open' v same).1) chosen
    obtain ⟨found, a', p', created, last⟩ :=
      tmpfsCreate_refines rep₁ here plain word (room.of_vaddr search.vaddr) done
    refine ⟨found, a', p', ?_, search.follows.trans last.follows, ?_, last.address⟩
    · rw [result, ok_bind]
      dsimp only
      rw [← created]
      cases vnode <;> rfl
    · intro u below unfreed
      rw [last.freed]
      exact search.kept_all u below unfreed

/-! ### `tmpfs_init` -/

/-- The node of the root, when `tmpfs_init` has filled it in. -/
theorem rootNode_fresh {r : Nat} {s₁ s₂ s₃ s₄ : SlabState} (good : Good s)
    (gotten : request tmpfsNodeSize s = some (r, s₁)) (nonnull : r ≠ 0)
    (cleared : fill ⟨r, tmpfsNodeSize⟩ 0 (List.replicate tmpfsNodeSize 0) s₁ = some s₂)
    (named : fill ⟨r, tmpfsNodeSize⟩ 0 [slash, 0] s₂ = some s₃)
    (flagged : fill ⟨r, tmpfsNodeSize⟩ flagsAt (leBytes 4 vfsDirectory.toNat) s₃ = some s₄) :
    Fresh s s₄ ⟨r, tmpfsNodeSize⟩
      (nodeFields ⟨[slash], vfsDirectory, 0, [], none, none⟩ 0 0 0) := by
  have small : tmpfsNodeSize ≤ slab1024 := by decide
  have asked := (request_spec good (by decide) (.inl small) gotten).made nonnull (.inl small)
  have fresh₂ := asked.fill (by simp) cleared (by simp)
  have zeros : Fresh s s₂ ⟨r, tmpfsNodeSize⟩ [(sizeAt, leBytes 8 0), (dataAt, leBytes 8 0),
      (nextAt, leBytes 8 0), (childrenAt, leBytes 8 0)] :=
    fresh₂.zero (n := 8) (by simp [sizeAt, dataAt, nextAt, childrenAt, tmpfsNodeSize])
  have fresh₃ := zeros.fill (by simp [tmpfsNodeSize]) named
    (by simp [sizeAt, dataAt, nextAt, childrenAt])
  have fresh₄ := fresh₃.member (by decide) flagged
    (by simp [flagsAt, sizeAt, dataAt, nextAt, childrenAt])
  refine fresh₄.sub fun f member => ?_
  simp only [nodeFields, List.mem_cons, List.not_mem_nil, or_false] at member
  rcases member with rfl | rfl | rfl | rfl | rfl | rfl
  all_goals simp

theorem tmpfsInit_represents (good : Good s) (done : tmpfsInit code s = some (roots, s')) :
    ∃ p, Represents code roots p Tmpfs.tmpfsInit s' ∧
      ∀ b ∈ s.blocks, Spared b s s' ∧ Foreign p Tmpfs.tmpfsInit b := by
  simp only [tmpfsInit, Option.bind_eq_bind, Option.bind_eq_some_iff, Prod.exists] at done
  obtain ⟨r, s₁, gotten, done⟩ := done
  split at done
  · cases done
  next nonnull =>
  simp only [Option.bind_eq_some_iff, Option.some.injEq, Prod.mk.injEq, Prod.exists] at done
  obtain ⟨s₂, cleared, s₃, named, s₄, flagged, w, s₅, made, rfl, rfl⟩ := done
  have node := rootNode_fresh good gotten nonnull cleared named flagged
  obtain ⟨_, _, vnode⟩ := tmpfsCreateVnode_fresh DedOS.rootInternal node.untouched.good node.object
    (by simp [slash, nameMax]) made
  have node' := node.object.spared vnode.untouched.all
  have differ : (⟨w, vfsNodeSize⟩ : Block) ≠ ⟨r, tmpfsNodeSize⟩ := vnode.ne node.object.live
  have items : ∀ x : Item, x.InUse Tmpfs.tmpfsInit → x = .node 0 ∨ x = .vnode 0 := by
    rintro (i | i | v) inUse
    · exact .inl (congrArg Item.node (Nat.lt_one_iff.mp inUse))
    · exact absurd rfl inUse.2
    · exact .inr (congrArg Item.vnode (Nat.lt_one_iff.mp inUse.1))
  refine ⟨⟨fun _ => r, fun _ => 0, fun _ => w⟩, ?_, ?_⟩
  · refine ⟨?_, vnode.untouched.good, ?_, ?_, rfl, rfl⟩
    · exact {
        name := fun _ _ => by simp [Tmpfs.tmpfsInit, slash, nameMax]
        size := fun _ _ => ⟨rfl, Nat.two_pow_pos 64⟩
        next := by simp [Tmpfs.tmpfsInit]
        children := by simp [Tmpfs.tmpfsInit]
        device := fun _ _ => Nat.one_pos
        freed := by simp [Tmpfs.tmpfsInit]
        rootInternal := Nat.one_pos
        vfsRoot := ⟨Nat.one_pos, by simp [Tmpfs.tmpfsInit]⟩ }
    · intro x inUse
      rcases items x inUse with rfl | rfl
      · exact node'
      · exact vnode.object
    · intro x y inUse inUse' same
      rcases items x inUse with rfl | rfl <;> rcases items y inUse' with rfl | rfl
      · rfl
      · exact absurd same.symm differ
      · exact absurd same differ
      · rfl
  · intro b live
    have before := node.untouched.all live
    refine ⟨node.untouched.all.trans vnode.untouched.all, fun x inUse => ?_⟩
    rcases items x inUse with rfl | rfl
    · exact node.ne live
    · exact vnode.ne before.1

end NodeMemory

end DedOS
