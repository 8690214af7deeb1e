import DedOS.Fs.Represents

/-!
# The calls of tmpfs in memory

Each function on the bytes of nodes and vnodes does what the function of `Tmpfs` does on their
numbers: if it returns, so does the other one, with the same bound on the rounds, and the new
memory stands for the new state.
-/

namespace DedOS

open Lib HeapRun

namespace NodeMemory

variable {code : TmpfsCode} {roots : Roots} {p p' : Places} {a a' : Tmpfs} {s s' : SlabState}
  {i j v w offset size fuel : Nat} {name data bytes : List UInt8} {b : Block} {n : TmpfsNode}
  {head found : Option Nat}

/-! ### Reading -/

section Reading

variable (rep : Represents code roots p a s)

include rep

theorem Represents.node (here : i < a.nodes) :
    Object s ⟨p.node i, tmpfsNodeSize⟩ (p.fieldsOf i (a.node i)) := rep.object (.node i) here

theorem Represents.vnode (inUse : (Item.vnode v).InUse a) : Object s ⟨p.vnode v, vfsNodeSize⟩
    (vnodeFields code (a.vnode v) (p.node (a.vnode v).device)) := rep.object (.vnode v) inUse

theorem Represents.node_bounds (here : i < a.nodes) : p.node i ≠ 0 ∧ p.node i < 2 ^ 64 :=
  rep.good.ptr_bounds (rep.node here).live (by simp [tmpfsNodeSize])

theorem Represents.vnode_ne_zero (inUse : (Item.vnode v).InUse a) : p.vnode v ≠ 0 :=
  (rep.good.ptr_bounds (rep.vnode inUse).live (by simp [vfsNodeSize])).1

theorem Represents.vnode_injective (inUse : (Item.vnode v).InUse a)
    (inUse' : (Item.vnode w).InUse a) (same : p.vnode v = p.vnode w) : v = w := by
  have items := rep.apart (.vnode v) (.vnode w) inUse inUse' (by simp [Places.block, same])
  simpa using items

/-- A pointer is null only where there is nothing to point to. -/
theorem Represents.pointer_bounds (inside : ∀ j, head = some j → j < a.nodes) :
    (pointer p.node head = 0 ↔ head = none) ∧ pointer p.node head < 2 ^ 64 := by
  cases head with
  | none => simp [pointer]
  | some j =>
    have bounds := rep.node_bounds (inside j rfl)
    exact ⟨by simp [pointer, bounds.1], bounds.2⟩

theorem Represents.node_flags (here : i < a.nodes) :
    peekFlags s (p.node i + flagsAt) = some (a.node i).flags :=
  peekFlags_of (rep.node here) (by simp [Places.fieldsOf, nodeFields])

theorem Represents.node_next (here : i < a.nodes) :
    peekWord s 8 (p.node i + nextAt) = some (pointer p.node (a.node i).next) :=
  (rep.node here).peekLong (by simp [Places.fieldsOf, nodeFields])
    (rep.pointer_bounds (rep.shaped.next i here)).2

theorem Represents.node_children (here : i < a.nodes) :
    peekWord s 8 (p.node i + childrenAt) = some (pointer p.node (a.node i).children) :=
  (rep.node here).peekLong (by simp [Places.fieldsOf, nodeFields])
    (rep.pointer_bounds (rep.shaped.children i here)).2

theorem Represents.node_size (here : i < a.nodes) :
    peekWord s 8 (p.node i + sizeAt) = some (a.node i).size :=
  (rep.node here).peekLong (by simp [Places.fieldsOf, nodeFields]) (rep.shaped.size i here).2

theorem Represents.node_name (here : i < a.nodes) (plain : 0 ∉ name) :
    compareName s (p.node i) name = some (strcmp (a.node i).name name) := by
  have stored := ((rep.node here).stored (0, (a.node i).name ++ [0])
    (by simp [Places.fieldsOf, nodeFields])).2
  exact compareName_of stored (rep.shaped.name i here).1 plain

theorem Represents.vnode_flags (inUse : (Item.vnode v).InUse a) :
    peekFlags s (p.vnode v + flagsAt) = some (a.vnode v).flags :=
  peekFlags_of (rep.vnode inUse) (by simp [vnodeFields])

theorem Represents.vnode_device (inUse : (Item.vnode v).InUse a) :
    peekWord s 8 (p.vnode v + deviceAt) = some (p.node (a.vnode v).device) :=
  (rep.vnode inUse).peekLong (by simp [vnodeFields])
    (rep.node_bounds (rep.shaped.device v inUse.1)).2

theorem Represents.vnode_finddir (inUse : (Item.vnode v).InUse a) :
    peekPointer s (p.vnode v + finddirAt) = some code.tmpfsFinddir :=
  peekPointer_of (rep.vnode inUse) (by simp [vnodeFields])

theorem Represents.vnode_read (inUse : (Item.vnode v).InUse a) :
    peekPointer s (p.vnode v + readAt) = some code.tmpfsRead :=
  peekPointer_of (rep.vnode inUse) (by simp [vnodeFields])

/-- The bytes of a file lie in the block that its node points to. -/
theorem Represents.node_data (here : i < a.nodes) (within : offset < (a.node i).data.length)
    (fits : offset + size ≤ (a.node i).data.length) :
    peekWord s 8 (p.node i + dataAt) = some (p.data i) ∧
      peekBytes s size (p.data i + offset) = some (((a.node i).data.drop offset).take size) := by
  have nonempty : 0 < (a.node i).data.length := by omega
  have some_data : (a.node i).data ≠ [] := List.ne_nil_of_length_pos nonempty
  have block := rep.object (.data i) ⟨here, some_data⟩
  have bounds := rep.good.ptr_bounds block.live nonempty
  refine ⟨(rep.node here).peekLong (by simp [Places.fieldsOf, nodeFields, some_data]) bounds.2, ?_⟩
  have parts : (a.node i).data = (a.node i).data.take offset ++
      (((a.node i).data.drop offset).take size ++ ((a.node i).data.drop offset).drop size) := by
    simp
  have stored : Stored s (p.block a (.data i)) 0 (a.node i).data :=
    (block.stored (0, (a.node i).data) (by simp [Places.fields])).2
  rw [parts] at stored
  have part := (stored_append.mp (stored_append.mp stored).2).1.peekBytes
  have before : ((a.node i).data.take offset).length = offset := by
    rw [List.length_take]
    omega
  have length : (((a.node i).data.drop offset).take size).length = size := by
    rw [List.length_take, List.length_drop]
    omega
  rw [before, length, Nat.zero_add] at part
  exact part

/-- Reading a vnode copies the bytes that the file has. -/
theorem vfsRead_refines {r : Nat × List UInt8} (inUse : (Item.vnode v).InUse a)
    (done : a.vfsRead v offset size = .ok r) : vfsRead code s (p.vnode v) offset size = some r := by
  have here := rep.shaped.device v inUse.1
  have sized := (rep.shaped.size _ here).1
  rw [Tmpfs.vfsRead, Tmpfs.tmpfsRead] at done
  simp only [vfsRead, rep.vnode_read inUse, Option.bind_eq_bind, Option.bind_some,
    if_neg code.nonnull, if_true, tmpfsRead, rep.vnode_device inUse, rep.node_size here]
  dsimp only at done
  split at done
  next past =>
    rw [if_pos past]
    exact congrArg some (Except.ok.inj done)
  next within =>
    rw [if_neg within]
    generalize (if wrap64 (offset + size) > (a.node (a.vnode v).device).size then
      (a.node (a.vnode v).device).size - offset else size) = m at done ⊢
    by_cases fits : offset + m ≤ (a.node (a.vnode v).device).data.length
    · rw [if_pos fits] at done
      obtain ⟨ptr, part⟩ := rep.node_data here (by omega) fits
      rw [ptr, Option.bind_some, part]
      exact congrArg some (Except.ok.inj done)
    · rw [if_neg fits] at done
      cases done

end Reading

/-! ### New items -/

/-- Old items stay where they are and as they are, and the others are in new blocks. -/
theorem Represents.extend (rep : Represents code roots p a s) (untouched : Untouched [] s s')
    (shaped : Shaped a') (moved : Extends p a p' a')
    (items : ∀ x, x.InUse a' →
      (x.InUse a ∧ p'.block a' x = p.block a x ∧ p'.fields code a' x = p.fields code a x) ∨
      (p'.block a' x ∉ s.blocks ∧ Object s' (p'.block a' x) (p'.fields code a' x)))
    (differ : ∀ x y, x.InUse a' → y.InUse a' → p'.block a' x ∉ s.blocks →
      p'.block a' x = p'.block a' y → x = y) : Follows code roots p a s p' a' s' where
  represents := by
    refine ⟨shaped, untouched.good, fun x inUse => ?_, fun x y inUse inUse' same => ?_, ?_, ?_⟩
    · rcases items x inUse with ⟨old, block, fields⟩ | ⟨_, object⟩
      · rw [block, fields]
        exact (rep.object x old).spared untouched.all
      · exact object
    · by_cases new : p'.block a' x ∈ s.blocks
      · by_cases new' : p'.block a' y ∈ s.blocks
        · -- two old ones
          obtain ⟨old, block, _⟩ := (items x inUse).resolve_right fun h => h.1 new
          obtain ⟨old', block', _⟩ := (items y inUse').resolve_right fun h => h.1 new'
          exact rep.apart x y old old' (block.symm.trans (same.trans block'))
        · exact (differ y x inUse' inUse new' same.symm).symm
      · exact differ x y inUse inUse' new same
    · rw [rep.rootInternal, moved.node _ rep.shaped.rootInternal]
    · rw [rep.vfsRoot, moved.vnode _ rep.shaped.vfsRoot.1]
  moved := moved
  others b live foreign := by
    refine ⟨untouched.all, fun x inUse same => ?_⟩
    rcases items x inUse with ⟨old, block, _⟩ | ⟨new, _⟩
    · exact foreign x old (block.symm.trans same)
    · exact new (same ▸ live)

/-- The new vnode is at `w`. -/
def Places.withVnode (p : Places) (v w : Nat) : Places :=
  { p with vnode := Function.update p.vnode v w }

@[simp] theorem Places.withVnode_vnode : (p.withVnode v w).vnode v = w := by simp [withVnode]

theorem Places.withVnode_vnode_ne {k : Nat} (other : k ≠ v) :
    (p.withVnode v w).vnode k = p.vnode k := by
  simp [withVnode, Function.update_of_ne other]

theorem Shaped.createVnode (shaped : Shaped a) (here : i < a.nodes) :
    Shaped (Tmpfs.tmpfsCreateVnode i a).2 where
  name := shaped.name
  size := shaped.size
  next := shaped.next
  children := shaped.children
  device := by
    intro v below
    by_cases last : v = a.vnodes
    · simpa [Tmpfs.tmpfsCreateVnode, Tmpfs.vnodeOf, last] using here
    · have old : v < a.vnodes := by
        change v < a.vnodes + 1 at below
        omega
      simpa [Tmpfs.tmpfsCreateVnode, Function.update_of_ne last] using shaped.device v old
  freed v member := (shaped.freed v member).trans (Nat.lt_succ_self _)
  rootInternal := shaped.rootInternal
  vfsRoot := ⟨shaped.vfsRoot.1.trans (Nat.lt_succ_self _), shaped.vfsRoot.2⟩

theorem inUse_createVnode {x : Item} (inUse : x.InUse (Tmpfs.tmpfsCreateVnode i a).2) :
    x = .vnode a.vnodes ∨ x.InUse a ∧ x ≠ .vnode a.vnodes := by
  cases x with
  | node k => exact .inr ⟨inUse, by simp⟩
  | data k => exact .inr ⟨inUse, by simp⟩
  | vnode k =>
    by_cases last : k = a.vnodes
    · exact .inl (by rw [last])
    · have below : k < a.vnodes + 1 := inUse.1
      exact .inr ⟨⟨by omega, inUse.2⟩, by simpa using last⟩

theorem block_createVnode {x : Item} (other : x ≠ .vnode a.vnodes) :
    (p.withVnode a.vnodes w).block (Tmpfs.tmpfsCreateVnode i a).2 x = p.block a x := by
  cases x with
  | node k => rfl
  | data k => rfl
  | vnode k =>
    have differ : k ≠ a.vnodes := by simpa using other
    simp [Places.block, Places.withVnode_vnode_ne differ]

theorem fields_createVnode {x : Item} (other : x ≠ .vnode a.vnodes) :
    (p.withVnode a.vnodes w).fields code (Tmpfs.tmpfsCreateVnode i a).2 x =
      p.fields code a x := by
  cases x with
  | node k => rfl
  | data k => rfl
  | vnode k =>
    have differ : k ≠ a.vnodes := by simpa using other
    simp [Places.fields, Places.withVnode, Tmpfs.tmpfsCreateVnode, Function.update_of_ne differ]

theorem tmpfsCreateVnode_refines (rep : Represents code roots p a s) (here : i < a.nodes)
    (done : tmpfsCreateVnode code (p.node i) s = some (w, s')) :
    ∃ p', Follows code roots p a s p' (Tmpfs.tmpfsCreateVnode i a).2 s' ∧
      p'.vnode a.vnodes = w ∧ s'.heap.heapVaddr = s.heap.heapVaddr := by
  obtain ⟨_, vaddr, fresh⟩ := tmpfsCreateVnode_fresh i rep.good (rep.node here)
    (rep.shaped.name i here) done
  refine ⟨p.withVnode a.vnodes w, ?_, Places.withVnode_vnode, vaddr⟩
  refine rep.extend fresh.untouched (rep.shaped.createVnode here) ?_ ?_ ?_
  · exact ⟨le_rfl, Nat.le_succ _, fun _ _ => rfl,
      fun v old => Places.withVnode_vnode_ne (Nat.ne_of_lt old)⟩
  · intro x inUse
    rcases inUse_createVnode inUse with rfl | ⟨old, other⟩
    · right
      simpa [Places.block, Places.fields, Places.withVnode, Tmpfs.tmpfsCreateVnode,
        Tmpfs.vnodeOf] using And.intro fresh.new fresh.object
    · exact .inl ⟨old, block_createVnode other, fields_createVnode other⟩
  · intro x y inUse inUse' new same
    -- only the vnode is in a new block
    have is_new : ∀ x : Item, x.InUse (Tmpfs.tmpfsCreateVnode i a).2 →
        (p.withVnode a.vnodes w).block (Tmpfs.tmpfsCreateVnode i a).2 x ∉ s.blocks →
        x = .vnode a.vnodes := by
      intro x inUse new
      rcases inUse_createVnode inUse with last | ⟨old, other⟩
      · exact last
      · rw [block_createVnode other] at new
        exact absurd (rep.object x old).live new
    rw [is_new x inUse new, is_new y inUse' (same ▸ new)]

/-! ### Items in place -/

/-- A call that makes no new item. -/
theorem Represents.rewrite {own : List Block} (rep : Represents code roots p a s)
    (untouched : Untouched own s s') (shaped : Shaped a') (moved : Extends p a p a')
    (mine : ∀ b ∈ own, ∃ x, x.InUse a ∧ p.block a x = b)
    (items : ∀ x, x.InUse a' → x.InUse a ∧ p.block a' x = p.block a x ∧
      (p.block a x ∉ own ∧ p.fields code a' x = p.fields code a x ∨
        Object s' (p.block a x) (p.fields code a' x))) : Follows code roots p a s p a' s' where
  represents := by
    refine ⟨shaped, untouched.good, fun x inUse => ?_, fun x y inUse inUse' same => ?_,
      rep.rootInternal, rep.vfsRoot⟩
    · obtain ⟨old, block, ⟨other, fields⟩ | object⟩ := items x inUse
      · rw [block, fields]
        exact (rep.object x old).spared (untouched.spared _ other)
      · rwa [block]
    · obtain ⟨old, block, _⟩ := items x inUse
      obtain ⟨old', block', _⟩ := items y inUse'
      exact rep.apart x y old old' (block.symm.trans (same.trans block'))
  moved := moved
  others b live foreign := by
    refine ⟨untouched.spared b fun member => ?_, fun x inUse same => ?_⟩
    · obtain ⟨x, inUse, same⟩ := mine b member
      exact foreign x inUse same
    · obtain ⟨old, block, _⟩ := items x inUse
      exact foreign x old (block.symm.trans same)

theorem vfsClose_refines (rep : Represents code roots p a s) (inUse : (Item.vnode v).InUse a)
    (done : vfsClose roots (p.vnode v) s = some s') :
    Follows code roots p a s p (Tmpfs.vfsClose v a) s' ∧
      s'.heap.heapVaddr = s.heap.heapVaddr := by
  rw [vfsClose, if_neg (rep.vnode_ne_zero inUse)] at done
  rw [Tmpfs.vfsClose]
  by_cases root : v = DedOS.vfsRoot
  · rw [if_pos (by rw [rep.vfsRoot, root])] at done
    obtain rfl := Option.some.inj done
    rw [if_pos root]
    exact ⟨.refl rep, rfl⟩
  · have other : p.vnode v ≠ roots.vfsRoot := by
      intro same
      rw [rep.vfsRoot] at same
      exact root (rep.vnode_injective inUse rep.shaped.vfsRoot same)
    rw [if_neg other] at done
    rw [if_neg root]
    have live : p.block a (.vnode v) ∈ s.blocks := (rep.object _ inUse).live
    refine ⟨rep.rewrite (.kfree rep.good live done) ?_ ?_ ?_ ?_, kfree_vaddr done⟩
    · exact { rep.shaped with
        freed := by
          intro u member
          rcases List.mem_cons.mp member with rfl | member
          · exact inUse.1
          · exact rep.shaped.freed u member
        vfsRoot := ⟨rep.shaped.vfsRoot.1, by
          simp [Ne.symm root, rep.shaped.vfsRoot.2]⟩ }
    · exact ⟨le_rfl, le_rfl, fun _ _ => rfl, fun _ _ => rfl⟩
    · intro b member
      obtain rfl := List.mem_singleton.mp member
      exact ⟨.vnode v, inUse, rfl⟩
    · intro x inUse'
      have old : x.InUse a := by
        cases x with
        | node i => exact inUse'
        | data i => exact inUse'
        | vnode u => exact ⟨inUse'.1, fun member => inUse'.2 (List.mem_cons_of_mem _ member)⟩
      refine ⟨old, by cases x <;> rfl, .inl ⟨fun member => ?_, by cases x <;> rfl⟩⟩
      -- the block that is freed belongs to the vnode that is closed
      obtain rfl := rep.apart x (.vnode v) old inUse (List.mem_singleton.mp member)
      exact inUse'.2 List.mem_cons_self

/-- A member of a node is written. -/
theorem Represents.setNode (rep : Represents code roots p a s) (here : i < a.nodes)
    (data : n.data = (a.node i).data)
    (shaped : Shaped { a with node := Function.update a.node i n })
    (done : fill ⟨p.node i, tmpfsNodeSize⟩ offset bytes s = some s')
    (room : offset + bytes.length ≤ tmpfsNodeSize) (rest : Fields)
    (kept : ∀ f ∈ rest, f ∈ p.fieldsOf i (a.node i) ∧
      (f.1 + f.2.length ≤ offset ∨ offset + bytes.length ≤ f.1))
    (fields : ∀ f ∈ p.fieldsOf i n, f ∈ (offset, bytes) :: rest) :
    Follows code roots p a s p { a with node := Function.update a.node i n } s' := by
  have object := rep.node here
  have others := object.sub fun f member => (kept f member).1
  have written := others.fill rep.good room done fun f member => (kept f member).2
  have untouched := (object.filled rep.good room done).untouched
  have same_data : ∀ k, (Function.update a.node i n k).data = (a.node k).data := by
    intro k
    by_cases at_i : k = i
    · subst at_i
      rw [Function.update_self, data]
    · rw [Function.update_of_ne at_i]
  refine rep.rewrite untouched shaped ⟨le_rfl, le_rfl, fun _ _ => rfl, fun _ _ => rfl⟩ ?_ ?_
  · intro b member
    obtain rfl := List.mem_singleton.mp member
    exact ⟨.node i, here, rfl⟩
  · intro x inUse
    have old : x.InUse a := by
      cases x with
      | node k => exact inUse
      | data k => exact ⟨inUse.1, same_data k ▸ inUse.2⟩
      | vnode u => exact inUse
    have block : p.block { a with node := Function.update a.node i n } x = p.block a x := by
      cases x with
      | node k => rfl
      | data k => simp [Places.block, same_data]
      | vnode u => rfl
    refine ⟨old, block, ?_⟩
    have elsewhere : x ≠ .node i → p.block a x ∉ [(⟨p.node i, tmpfsNodeSize⟩ : Block)] := by
      intro other member
      exact other (rep.apart x (.node i) old here (List.mem_singleton.mp member))
    cases x with
    | node k =>
      by_cases at_i : k = i
      · subst at_i
        right
        refine written.sub fun f member => fields f ?_
        simpa [Places.fields] using member
      · refine .inl ⟨elsewhere (by simpa using at_i), ?_⟩
        simp [Places.fields, Function.update_of_ne at_i]
    | data k =>
      refine .inl ⟨elsewhere (by simp), ?_⟩
      simp [Places.fields, same_data]
    | vnode u => exact .inl ⟨elsewhere (by simp), rfl⟩

end NodeMemory

end DedOS
