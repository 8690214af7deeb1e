import DedOS.Fs.NodeMemory
import DedOS.Fs.Tree

/-!
# What the memory of tmpfs stands for

`Represents code roots p a s`: every node, every file's data and every open vnode of `a` has a
block of its own in `s`, at the address that `p` gives, with its members in it. Closed vnodes
have no block, and their addresses may be in use again.
-/

namespace DedOS

open Lib HeapRun

namespace NodeMemory

/-- The addresses of the nodes, of their data and of the vnodes. -/
structure Places where
  node : Nat → Nat
  data : Nat → Nat
  vnode : Nat → Nat

inductive Item where
  | node (i : Nat)
  | data (i : Nat)
  | vnode (v : Nat)

/-- An empty file has no data. -/
def Item.InUse (a : Tmpfs) : Item → Prop
  | .node i => i < a.nodes
  | .data i => i < a.nodes ∧ (a.node i).data ≠ []
  | .vnode v => v < a.vnodes ∧ v ∉ a.freed

/-- A pointer to what the number stands for, or null. -/
def pointer (address : Nat → Nat) : Option Nat → Nat
  | none => 0
  | some i => address i

@[simp] theorem pointer_none (address : Nat → Nat) : pointer address none = 0 := rfl

@[simp] theorem pointer_some (address : Nat → Nat) (i : Nat) :
    pointer address (some i) = address i := rfl

abbrev Fields := List (Nat × List UInt8)

def nodeFields (n : TmpfsNode) (data next children : Nat) : Fields :=
  [(0, n.name ++ [0]), (flagsAt, leBytes 4 n.flags.toNat), (sizeAt, leBytes 8 n.size),
    (dataAt, leBytes 8 data), (nextAt, leBytes 8 next), (childrenAt, leBytes 8 children)]

def vnodeFields (code : TmpfsCode) (v : Vnode) (device : Nat) : Fields :=
  [(0, v.name ++ [0]), (flagsAt, leBytes 4 v.flags.toNat), (sizeAt, leBytes 8 v.size),
    (deviceAt, leBytes 8 device), (readAt, leBytes 8 code.tmpfsRead.toNat),
    (finddirAt, leBytes 8 code.tmpfsFinddir.toNat)]

namespace Places

def block (p : Places) (a : Tmpfs) : Item → Block
  | .node i => ⟨p.node i, tmpfsNodeSize⟩
  | .data i => ⟨p.data i, (a.node i).data.length⟩
  | .vnode v => ⟨p.vnode v, vfsNodeSize⟩

/-- The members of a node whose number is `i`. -/
def fieldsOf (p : Places) (i : Nat) (n : TmpfsNode) : Fields :=
  nodeFields n (if n.data = [] then 0 else p.data i) (pointer p.node n.next)
    (pointer p.node n.children)

def fields (code : TmpfsCode) (p : Places) (a : Tmpfs) : Item → Fields
  | .node i => p.fieldsOf i (a.node i)
  | .data i => [(0, (a.node i).data)]
  | .vnode v => vnodeFields code (a.vnode v) (p.node (a.vnode v).device)

end Places

/-- What fits in the members of nodes and vnodes. -/
structure Shaped (a : Tmpfs) : Prop where
  name : ∀ i < a.nodes, 0 ∉ (a.node i).name ∧ (a.node i).name.length ≤ nameMax
  size : ∀ i < a.nodes, (a.node i).size = (a.node i).data.length ∧ (a.node i).size < 2 ^ 64
  next : ∀ i < a.nodes, ∀ j, (a.node i).next = some j → j < a.nodes
  children : ∀ i < a.nodes, ∀ j, (a.node i).children = some j → j < a.nodes
  device : ∀ v < a.vnodes, (a.vnode v).device < a.nodes
  freed : ∀ v ∈ a.freed, v < a.vnodes
  rootInternal : DedOS.rootInternal < a.nodes
  vfsRoot : (Item.vnode DedOS.vfsRoot).InUse a

structure Represents (code : TmpfsCode) (roots : Roots) (p : Places) (a : Tmpfs) (s : SlabState) :
    Prop where
  shaped : Shaped a
  good : Good s
  object : ∀ x, x.InUse a → Object s (p.block a x) (p.fields code a x)
  apart : ∀ x y, x.InUse a → y.InUse a → p.block a x = p.block a y → x = y
  rootInternal : roots.rootInternal = p.node DedOS.rootInternal
  vfsRoot : roots.vfsRoot = p.vnode DedOS.vfsRoot

/-- A block that tmpfs does not have in use. -/
def Foreign (p : Places) (a : Tmpfs) (b : Block) : Prop := ∀ x, x.InUse a → p.block a x ≠ b

/-- Nothing moves, and nothing is forgotten. -/
structure Extends (p : Places) (a : Tmpfs) (p' : Places) (a' : Tmpfs) : Prop where
  nodes : a.nodes ≤ a'.nodes
  vnodes : a.vnodes ≤ a'.vnodes
  node : ∀ i < a.nodes, p'.node i = p.node i
  vnode : ∀ v < a.vnodes, p'.vnode v = p.vnode v

/-- A call leads from one state of tmpfs to another, in memory too. The blocks of others stay
as they are. -/
structure Follows (code : TmpfsCode) (roots : Roots) (p : Places) (a : Tmpfs) (s : SlabState)
    (p' : Places) (a' : Tmpfs) (s' : SlabState) : Prop where
  represents : Represents code roots p' a' s'
  moved : Extends p a p' a'
  others : ∀ b ∈ s.blocks, Foreign p a b → Spared b s s' ∧ Foreign p' a' b

variable {code : TmpfsCode} {roots : Roots} {p p' p'' : Places} {a a' a'' : Tmpfs}
  {s s' s'' : SlabState} {i j v w n offset size : Nat} {name bytes : List UInt8} {b b' : Block}
  {fields : Fields}

theorem Extends.refl : Extends p a p a := ⟨le_rfl, le_rfl, fun _ _ => rfl, fun _ _ => rfl⟩

theorem Extends.trans (first : Extends p a p' a') (second : Extends p' a' p'' a'') :
    Extends p a p'' a'' where
  nodes := first.nodes.trans second.nodes
  vnodes := first.vnodes.trans second.vnodes
  node i old := (second.node i (old.trans_le first.nodes)).trans (first.node i old)
  vnode v old := (second.vnode v (old.trans_le first.vnodes)).trans (first.vnode v old)

theorem Follows.refl (rep : Represents code roots p a s) : Follows code roots p a s p a s :=
  ⟨rep, .refl, fun _ live foreign => ⟨fun _ => ⟨live, fun _ _ => rfl⟩, foreign⟩⟩

theorem Follows.trans (first : Follows code roots p a s p' a' s')
    (second : Follows code roots p' a' s' p'' a'' s'') :
    Follows code roots p a s p'' a'' s'' where
  represents := second.represents
  moved := first.moved.trans second.moved
  others b live foreign := by
    obtain ⟨spared, foreign'⟩ := first.others b live foreign
    obtain ⟨spared', foreign''⟩ := second.others b (spared live).1 foreign'
    exact ⟨spared.trans spared', foreign''⟩

/-! ### Reading members -/

theorem peekFlags_of {flags : UInt32} (object : Object s ⟨i, size⟩ fields)
    (field : (offset, leBytes 4 flags.toNat) ∈ fields) :
    peekFlags s (i + offset) = some flags := by
  have fits : flags.toNat < 256 ^ 4 := flags.toNat_lt
  simp [peekFlags, object.peekWord field fits]

theorem peekPointer_of {address : UInt64} (object : Object s ⟨i, size⟩ fields)
    (field : (offset, leBytes 8 address.toNat) ∈ fields) :
    peekPointer s (i + offset) = some address := by
  have fits : address.toNat < 256 ^ 8 := address.toNat_lt
  simp [peekPointer, object.peekWord field fits]

/-- On a stored string the loop computes what `strcmp` computes. -/
theorem compareName_of {text : List UInt8} (stored : Stored s b offset (text ++ [0]))
    (plain : 0 ∉ text) (plainName : 0 ∉ name) :
    compareName s (b.ptr + offset) name = some (strcmp text name) := by
  induction text generalizing offset name with
  | nil =>
    have here : peek s (b.ptr + offset) = some 0 := stored 0 (Nat.succ_pos _)
    cases name with
    | nil => simp [compareName, here, strcmp]
    | cons d name =>
      have differ : (0 : UInt8) ≠ d := fun same => plainName (by simp [same])
      have less : (0 : UInt8) < d := UInt8.pos_iff_ne_zero.mpr differ.symm
      simp [compareName, here, strcmp, differ, less]
  | cons c text ih =>
    have here : peek s (b.ptr + offset) = some c := stored 0 (Nat.succ_pos _)
    have nonzero : c ≠ 0 := fun same => plain (by simp [same])
    have later : Stored s b (offset + 1) (text ++ [0]) := by
      have split : Stored s b offset ([c] ++ (text ++ [0])) := stored
      exact (stored_append.mp split).2
    cases name with
    | nil => simp [compareName, here, strcmp, nonzero]
    | cons d name =>
      rw [compareName, here, Option.bind_eq_bind, Option.bind_some, strcmp, Nat.add_assoc,
        ih later (fun member => plain (by simp [member]))
          (fun member => plainName (by simp [member]))]
      split <;> rfl

/-- Copying a stored string into another block stores its bytes there one after the other. -/
theorem copyName_fill {from' room : Nat} {text : List UInt8} {more : Fields} (good : Good s)
    (target : Object s b fields) (source : Object s b' ((from', text ++ [0]) :: more))
    (other : b' ≠ b) (plain : 0 ∉ text) (fits : offset + text.length < b.size)
    (done : copyName b room offset (b'.ptr + from') s = some s') :
    fill b offset (text ++ [0]) s = some s' := by
  induction text generalizing offset from' room s fields more with
  | nil =>
    cases room with
    | zero => cases done
    | succ room =>
      have here : peek s (b'.ptr + from') = some 0 :=
        (source.stored _ List.mem_cons_self).2 0 (Nat.succ_pos _)
      simpa [copyName, here, fill] using done
  | cons c text ih =>
    cases room with
    | zero => cases done
    | succ room =>
      have here : peek s (b'.ptr + from') = some c :=
        (source.stored _ List.mem_cons_self).2 0 (Nat.succ_pos _)
      have nonzero : c ≠ 0 := fun same => plain (by simp [same])
      simp only [copyName, here, Option.bind_eq_bind, Option.bind_some, Option.bind_eq_some_iff,
        if_neg nonzero] at done
      obtain ⟨s₁, wrote, done⟩ := done
      rw [List.length_cons] at fits
      have first : fill b offset [c] s = some s₁ := by simp [fill, wrote]
      have one : offset + [c].length ≤ b.size := by
        rw [List.length_singleton]
        omega
      have filled := target.filled good one first
      have none : Object s b [] := target.sub (by simp)
      have target₁ := none.fill good one first (by simp)
      -- the rest of the string is still there
      have source₁ : Object s₁ b' ((from' + 1, text ++ [0]) :: more) := by
        have spared := source.spared (filled.untouched.spared b' (by simpa using other))
        refine ⟨spared.live, spared.inside, fun f member => ?_⟩
        rcases List.mem_cons.mp member with rfl | member
        · obtain ⟨inside, stored⟩ := spared.stored _ List.mem_cons_self
          have split : Stored s₁ b' from' ([c] ++ (text ++ [0])) := stored
          refine ⟨?_, (stored_append.mp split).2⟩
          simp only [List.length_append, List.length_cons] at inside ⊢
          omega
        · exact spared.stored f (List.mem_cons_of_mem _ member)
      rw [Nat.add_assoc] at done
      have fits₁ : offset + 1 + text.length < b.size := by omega
      have rest := ih filled.untouched.good target₁ source₁
        (fun member => plain (by simp [member])) fits₁ done
      simp [fill, wrote, rest]

/-- A vnode is a new block with what it copies from its node. -/
theorem tmpfsCreateVnode_fresh {node : TmpfsNode} {data next children : Nat} (device : Nat)
    (good : Good s) (object : Object s ⟨i, tmpfsNodeSize⟩ (nodeFields node data next children))
    (named : 0 ∉ node.name ∧ node.name.length ≤ nameMax)
    (done : tmpfsCreateVnode code i s = some (w, s')) :
    w ≠ 0 ∧ s'.heap.heapVaddr = s.heap.heapVaddr ∧ Fresh s s' ⟨w, vfsNodeSize⟩
      (vnodeFields code ⟨node.name, node.flags, node.size, device⟩ i) := by
  have nonempty : 0 < tmpfsNodeSize := by decide
  have bounds := good.ptr_bounds object.live nonempty
  have small : vfsNodeSize ≤ slab1024 := by decide
  have short : node.name.length ≤ 127 := named.2
  simp only [tmpfsCreateVnode, if_neg bounds.1, Option.bind_eq_bind, Option.bind_eq_some_iff,
    Prod.exists] at done
  obtain ⟨w', s₁, gotten, done⟩ := done
  split at done
  · cases done
  next nonnull =>
  simp only [Option.bind_eq_some_iff, Option.some.injEq, Prod.mk.injEq] at done
  obtain ⟨s₂, cleared, s₃, copied, flags, readFlags, s₄, storedFlags, size, readSize, s₅,
    storedSize, s₆, storedDevice, s₇, storedRead, s₈, storedFinddir, rfl, rfl⟩ := done
  have made := (request_spec good (by decide) (.inl small) gotten).made nonnull (.inl small)
  have fresh₂ := made.fill (by simp) cleared (by simp)
  have source := object.spared fresh₂.untouched.all
  have fits : 0 + node.name.length < vfsNodeSize := by
    dsimp only [vfsNodeSize]
    omega
  have filled := copyName_fill fresh₂.untouched.good fresh₂.object source
    (fresh₂.ne object.live).symm named.1 fits copied
  have room : 0 + (node.name ++ [0]).length ≤ vfsNodeSize := by
    rw [List.length_append, List.length_singleton]
    omega
  have cleared' : Fresh s s₂ ⟨w', vfsNodeSize⟩ [] := fresh₂.sub (by simp)
  have fresh₃ := cleared'.fill room filled (by simp)
  -- the members of the node are read while the vnode is written
  obtain rfl : leBytes 4 node.flags.toNat = flags := Option.some.inj <|
    ((object.spared fresh₃.untouched.all).peekNumber (by simp [nodeFields])).symm.trans readFlags
  have fresh₄ := fresh₃.member (by decide) storedFlags (by simp [flagsAt]; omega)
  obtain rfl : leBytes 8 node.size = size := Option.some.inj <|
    ((object.spared fresh₄.untouched.all).peekNumber (by simp [nodeFields])).symm.trans readSize
  have fresh₅ := fresh₄.member (by decide) storedSize (by simp [flagsAt, sizeAt]; omega)
  have fresh₆ := fresh₅.member (by decide) storedDevice (by simp [flagsAt, sizeAt, deviceAt]; omega)
  have fresh₇ := fresh₆.member (by decide) storedRead
    (by simp [flagsAt, sizeAt, deviceAt, readAt]; omega)
  have fresh₈ := fresh₇.member (by decide) storedFinddir
    (by simp [flagsAt, sizeAt, deviceAt, readAt, finddirAt]; omega)
  refine ⟨nonnull, ?_, fresh₈.sub fun f member => ?_⟩
  · rw [fill_vaddr storedFinddir, fill_vaddr storedRead, fill_vaddr storedDevice,
      fill_vaddr storedSize, fill_vaddr storedFlags, fill_vaddr filled, fill_vaddr cleared,
      request_vaddr small gotten]
  · simp only [vnodeFields, List.mem_cons, List.not_mem_nil, or_false] at member
    rcases member with rfl | rfl | rfl | rfl | rfl | rfl
    all_goals simp

end NodeMemory

end DedOS
