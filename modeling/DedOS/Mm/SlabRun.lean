import DedOS.Lib.Trace
import DedOS.Mm.PagingRun
import DedOS.Mm.SlabCalls

/-!
# Runs over the slab caches

`slabs_safe`: after `heap_init` every run of `kmalloc` and `kfree` of small blocks,
interleaved with writes of their holders and with other users of the frame allocator, keeps
the slabs in order, the live blocks apart, and the bytes of the live blocks as their holders
left them.
-/

namespace DedOS

open Lib

/-- The heap, the blocks that are out and the frames that others hold. -/
structure SlabState where
  heap : Heap
  blocks : List Block
  held : List Nat

inductive SlabEvent where
  | kmalloc (size : Nat)
  | kfree (block : Block)
  /-- the holder of a block writes one of its bytes -/
  | write (block : Block) (offset : Nat) (value : UInt8)
  /-- somebody else takes a frame -/
  | alloc
  /-- … gives it back -/
  | free (ptr : Nat)
  /-- … or writes a byte of it -/
  | poke (address : Nat) (value : UInt8)
  deriving DecidableEq

namespace SlabState

/-- Sizes a cache can serve; only live blocks are freed and written, only held frames freed
and written. -/
def Allowed (s : SlabState) : SlabEvent → Prop
  | .kmalloc size => 1 ≤ size ∧ size ≤ 1000
  | .kfree block => block ∈ s.blocks
  | .write block offset _ => block ∈ s.blocks ∧ offset < block.size
  | .alloc => True
  | .free ptr => ptr ∈ s.held
  | .poke address _ => ∃ f ∈ s.held, physToVirt s.heap.vm.hhdm f ≤ address ∧
      address < physToVirt s.heap.vm.hhdm f + pageSize

instance (s : SlabState) (e : SlabEvent) : Decidable (s.Allowed e) :=
  match e with
  | .kmalloc _ => inferInstanceAs (Decidable (_ ∧ _))
  | .kfree block => inferInstanceAs (Decidable (block ∈ s.blocks))
  | .write _ _ _ => inferInstanceAs (Decidable (_ ∧ _))
  | .alloc => instDecidableTrue
  | .free ptr => inferInstanceAs (Decidable (ptr ∈ s.held))
  | .poke address _ => inferInstanceAs (Decidable (∃ f ∈ s.held,
      physToVirt s.heap.vm.hhdm f ≤ address ∧ address < physToVirt s.heap.vm.hhdm f + pageSize))

def call (s : SlabState) : SlabEvent → Option SlabState
  | .kmalloc size => do
    let (ptr, heap) ← DedOS.kmalloc s.heap size
    some { s with heap := heap, blocks := if ptr = 0 then s.blocks else ⟨ptr, size⟩ :: s.blocks }
  | .kfree block => do
    let heap ← DedOS.kfree s.heap block.ptr
    some { s with heap := heap, blocks := s.blocks.erase block }
  | .write block offset value => do
    let vm ← s.heap.vm.write s.heap.cr3 1 (block.ptr + offset) value.toNat
    some { s with heap := { s.heap with vm := vm } }
  | .alloc => do
    let (ptr, pmm) ← pmmAlloc s.heap.vm.pmm
    some { s with heap := { s.heap with vm := { s.heap.vm with pmm := pmm } }
                  held := if ptr = 0 then s.held else ptr :: s.held }
  | .free ptr => do
    let pmm ← pmmFree ptr s.heap.vm.pmm
    some { s with heap := { s.heap with vm := { s.heap.vm with pmm := pmm } }
                  held := s.held.erase ptr }
  | .poke address value =>
    let mem := Function.update s.heap.vm.mem address value
    some { s with heap := { s.heap with vm := { s.heap.vm with mem := mem } } }

def step (s : SlabState) (e : SlabEvent) : Option SlabState :=
  if s.Allowed e then s.call e else none

/-- `heap_init` has created its six caches from a consistent allocator. -/
def Started (s : SlabState) : Prop :=
  ∃ before : Heap, before.vm.pmm.Ready ∧ before.vm.hhdm % pageSize = 0 ∧
    heapInit before = some s.heap ∧ (∀ c ∈ s.heap.caches, c.firstSlab ≠ 0) ∧
    s.blocks = [] ∧ s.held = []

/-- A frame somebody else holds. -/
structure OwnFrame (vm : Vm) (slab : Nat → Prop) (f : Nat) : Prop where
  frame : IsFrame f
  nonzero : f ≠ 0
  held : vm.pmm.Held f
  other : ¬ slab (physToVirt vm.hhdm f)

/-- The invariant, with the chains and free lists it is about. -/
structure Inv (s : SlabState) (chains free : Nat → List Nat) : Prop where
  heap : SlabHeap s.heap s.blocks chains free
  sizes : s.heap.caches.map SlabCache.objSize = slabSizes
  distinct : s.held.Nodup
  held : ∀ f ∈ s.held, OwnFrame s.heap.vm (IsSlab s.heap.caches chains) f

variable {s s' : SlabState} {e : SlabEvent} {chains free chains' free' : Nat → List Nat}
  {b : Block} {vm : Vm} {f : Nat}

theorem Started.inv (started : Started s) : ∃ chains free, Inv s chains free := by
  obtain ⟨before, ready, hhdm, done, created, none, alone⟩ := started
  obtain ⟨sizes, chains, free, heap⟩ := heapInit_spec ready hhdm done created
  refine ⟨chains, free, ?_, sizes, ?_, ?_⟩
  · rw [none]
    exact heap
  · rw [alone]
    exact List.nodup_nil
  · rw [alone]
    intro f member
    exact absurd member List.not_mem_nil

/-- Frames of others while the caches work. -/
theorem OwnFrame.call {heap : Heap} {kept : List Block}
    (own : OwnFrame heap.vm (IsSlab heap.caches chains) f)
    (call : SlabCall heap chains chains' kept vm) (ready : heap.vm.pmm.Ready) :
    OwnFrame vm (IsSlab heap.caches chains') f := by
  have notFree := own.held.not_free
  have others : vm.hhdm = heap.vm.hhdm ∧ vm.pmm.Held f := by
    rcases call.effect.pmm with same | ⟨g, taken⟩
    · rw [Vm.hhdm, same]
      exact ⟨rfl, own.held⟩
    · exact ⟨taken.hhdm, own.held.mono taken.same fun isFree =>
        notFree ((taken.others f).mp isFree).1⟩
  refine ⟨own.frame, own.nonzero, others.2, ?_⟩
  rw [others.1]
  intro slab
  rcases call.slabs _ slab with old | ⟨g, isFree, same⟩
  · exact own.other old
  · -- a new slab was a free frame
    rw [physToVirt_inj own.frame (ready.isFrame isFree) same] at notFree
    exact notFree isFree

/-- The state after a call, what happens to the bytes of the blocks that stay. -/
def Served (s : SlabState) (e : SlabEvent) : Prop :=
  ∃ s', s.call e = some s' ∧ (∃ chains free, Inv s' chains free) ∧
    ((∃ size, e = .kmalloc size) ∨ (∃ b, e = .kfree b) → ∀ b ∈ s.blocks, b ∈ s'.blocks →
      ∀ a, b.ptr ≤ a → a < b.ptr + b.size → s'.heap.vm.mem a = s.heap.vm.mem a)

theorem Inv.kmalloc {size : Nat} (inv : Inv s chains free) (allowed : s.Allowed (.kmalloc size)) :
    Served s (.kmalloc size) := by
  obtain ⟨low, high⟩ := allowed
  have fits : size + allocHeaderSize ≤ slab1024 := Nat.add_le_add_right high 24
  obtain ⟨p, vm, chains', free', done, heap, call⟩ :=
    kmalloc_small inv.heap inv.sizes (by omega) fits
  refine ⟨{ s with heap := { s.heap with vm := vm }
                   blocks := if p = 0 then s.blocks else ⟨p, size⟩ :: s.blocks }, ?_,
    ⟨chains', free', heap, inv.sizes, inv.distinct, ?_⟩, ?_⟩
  · simp only [SlabState.call, done, Option.bind_eq_bind, Option.bind_some]
  · intro f member
    exact (inv.held f member).call call inv.heap.ready
  · intro _ b isBlock _ a
    exact call.kept b isBlock a

theorem Inv.kfree (inv : Inv s chains free) (isBlock : b ∈ s.blocks) : Served s (.kfree b) := by
  obtain ⟨vm, free', done, heap, call⟩ := kfree_small inv.heap isBlock
  refine ⟨{ s with heap := { s.heap with vm := vm }, blocks := s.blocks.erase b }, ?_,
    ⟨chains, free', heap, inv.sizes, inv.distinct, ?_⟩, ?_⟩
  · simp only [SlabState.call, done, Option.bind_eq_bind, Option.bind_some]
  · intro f member
    exact (inv.held f member).call call inv.heap.ready
  · intro _ b' _ kept a
    exact call.kept b' kept a

/-- Events that are no calls of the heap say nothing about blocks. -/
theorem notCall {P : Prop} (other : (∀ size, e ≠ .kmalloc size) ∧ ∀ b, e ≠ .kfree b)
    (isCall : (∃ size, e = .kmalloc size) ∨ ∃ b, e = .kfree b) : P := by
  rcases isCall with ⟨size, same⟩ | ⟨b, same⟩
  · exact absurd same (other.1 size)
  · exact absurd same (other.2 b)

theorem Inv.write {offset : Nat} {value : UInt8} (inv : Inv s chains free) (isBlock : b ∈ s.blocks)
    (inside : offset < b.size) : Served s (.write b offset value) := by
  obtain ⟨vm, done, heap, effect⟩ := write_small inv.heap isBlock inside value
  refine ⟨{ s with heap := { s.heap with vm := vm } }, ?_,
    ⟨chains, free, heap, inv.sizes, inv.distinct, ?_⟩, notCall (by simp)⟩
  · simp only [SlabState.call, done, Option.bind_eq_bind, Option.bind_some]
  · intro f member
    have call : SlabCall s.heap chains chains [] vm :=
      ⟨effect, fun _ slab => .inl slab, fun b none => absurd none List.not_mem_nil, .refl _ chains⟩
    exact (inv.held f member).call call inv.heap.ready

theorem Inv.alloc_frame (inv : Inv s chains free) : Served s .alloc := by
  rcases inv.heap.ready.alloc with ⟨_, none⟩ | ⟨ptr, pmm, found, taken⟩
  · exact ⟨s, by simp [SlabState.call, none], ⟨chains, free, inv⟩, notCall (by simp)⟩
  · have hhdm : Vm.hhdm { s.heap.vm with pmm := pmm } = s.heap.vm.hhdm := taken.hhdm
    have isHeld : ∀ f, s.heap.vm.pmm.Held f → pmm.Held f := fun f held =>
      held.mono taken.same fun free => held.not_free ((taken.others f).mp free).1
    have heap := inv.heap.of_pages { s.heap.vm with pmm := pmm } taken.ready hhdm
      (fun A slab => (inv.heap.frame A slab).mono hhdm isHeld) fun _ _ _ _ _ => rfl
    refine ⟨{ s with heap := { s.heap with vm := { s.heap.vm with pmm := pmm } }
                     held := ptr :: s.held }, ?_,
      ⟨chains, free, heap, inv.sizes, ?_, ?_⟩, notCall (by simp)⟩
    · simp only [SlabState.call, found, Option.bind_eq_bind, Option.bind_some, if_neg taken.nonzero]
    · refine List.nodup_cons.mpr ⟨fun member => ?_, inv.distinct⟩
      exact (inv.held ptr member).held.not_free taken.free
    · intro f member
      rcases List.mem_cons.mp member with rfl | old
      · refine ⟨inv.heap.ready.isFrame taken.free, taken.nonzero, taken.held, ?_⟩
        rw [hhdm]
        intro slab
        exact (inv.heap.frame _ slab).ne_free inv.heap.ready taken.free rfl
      · have own := inv.held f old
        refine ⟨own.frame, own.nonzero, isHeld f own.held, ?_⟩
        rw [hhdm]
        exact own.other

theorem Inv.free_frame {ptr : Nat} (inv : Inv s chains free) (member : ptr ∈ s.held) :
    Served s (.free ptr) := by
  have own := inv.held ptr member
  obtain ⟨pmm, freed, given⟩ := inv.heap.ready.free own.held own.nonzero
  have hhdm : Vm.hhdm { s.heap.vm with pmm := pmm } = s.heap.vm.hhdm := given.same.hhdmOffset
  have isHeld : ∀ f, f ≠ ptr → s.heap.vm.pmm.Held f → pmm.Held f := by
    intro f differ held
    apply held.mono given.same
    intro isFree
    rcases (given.others f).mp isFree with before | same
    · exact held.not_free before
    · exact differ same
  have heap := inv.heap.of_pages { s.heap.vm with pmm := pmm } given.ready hhdm (by
    -- the frame given back is not a slab's
    intro A slab
    obtain ⟨nonnull, f, frame, held, rfl⟩ := inv.heap.frame A slab
    have differ : f ≠ ptr := by
      rintro rfl
      exact own.other slab
    exact ⟨nonnull, f, frame, isHeld f differ held, by rw [hhdm]⟩) fun _ _ _ _ _ => rfl
  refine ⟨{ s with heap := { s.heap with vm := { s.heap.vm with pmm := pmm } }
                   held := s.held.erase ptr }, ?_,
    ⟨chains, free, heap, inv.sizes, inv.distinct.erase _, ?_⟩, notCall (by simp)⟩
  · simp only [SlabState.call, freed, Option.bind_eq_bind, Option.bind_some]
  · intro f kept
    obtain ⟨differ, old⟩ := (inv.distinct.mem_erase_iff).mp kept
    have ownF := inv.held f old
    refine ⟨ownF.frame, ownF.nonzero, isHeld f differ ownF.held, ?_⟩
    rw [hhdm]
    exact ownF.other

theorem Inv.poke {address : Nat} {value : UInt8} (inv : Inv s chains free)
    (allowed : s.Allowed (.poke address value)) : Served s (.poke address value) := by
  obtain ⟨f, member, low, high⟩ := allowed
  have own := inv.held f member
  have heap := inv.heap.of_pages
    { s.heap.vm with mem := Function.update s.heap.vm.mem address value } inv.heap.ready rfl
    (fun A slab => (inv.heap.frame A slab).mono rfl fun _ held => held) (by
      -- the page of a slab is not the page that is written
      intro A slab a first last
      apply Function.update_of_ne
      have differ : A ≠ physToVirt s.heap.vm.hhdm f := by
        rintro rfl
        exact own.other slab
      have apart := page_apart (inv.heap.aligned slab)
        (physToVirt_aligned inv.heap.hhdm own.frame) differ
      omega)
  refine ⟨_, rfl, ⟨chains, free, heap, inv.sizes, inv.distinct, ?_⟩, notCall (by simp)⟩
  intro g isHeld
  have ownG := inv.held g isHeld
  exact ⟨ownG.frame, ownG.nonzero, ownG.held, ownG.other⟩

theorem Inv.served (inv : Inv s chains free) (allowed : s.Allowed e) : Served s e := by
  cases e with
  | kmalloc size => exact inv.kmalloc allowed
  | kfree block => exact inv.kfree allowed
  | write block offset value => exact inv.write allowed.1 allowed.2
  | alloc => exact inv.alloc_frame
  | free ptr => exact inv.free_frame allowed
  | poke address value => exact inv.poke allowed

theorem Run.inv {h : List (Entry SlabState SlabEvent)} (run : Run step Started h s) :
    ∃ chains free, Inv s chains free := by
  apply run.invariant (fun _ started => started.inv)
  rintro t e t' ⟨chains, free, inv⟩ taken
  unfold step at taken
  split at taken
  next allowed =>
    obtain ⟨t'', called, inv', _⟩ := inv.served allowed
    obtain rfl := Option.some.inj (called.symm.trans taken)
    exact inv'
  · cases taken

/-- The slab of objects of `o` bytes at `A`: its free list ends and, with the headers of the
live blocks in the page, takes up every slot once; the blocks stay clear of the slab header and
of the links. -/
def SlabInOrder (m : Memory) (blocks : List Block) (o A : Nat) : Prop :=
  ∃ objects, Chain (link m 0) (link m 8 A) objects ∧ objects.Nodup ∧
    (objects ++ liveIn blocks A).Perm (slots A o) ∧ (slots A o).Nodup ∧
    ∀ b ∈ blocks, (b.ptr + b.size ≤ A ∨ A + slabHeaderSize ≤ b.ptr) ∧
      ∀ x ∈ objects, b.ptr + b.size ≤ x ∨ x + 8 ≤ b.ptr

/-- What a run over the slab caches promises about the state it ends in. -/
structure SlabsSafe (s : SlabState) : Prop where
  /-- every chain of slabs ends, and its slabs are in order -/
  chains : ∀ c ∈ s.heap.caches, ∃ slabs, slabs.Nodup ∧
    Chain (link s.heap.vm.mem 16) (toPtr c.firstSlab) slabs ∧
    ∀ A ∈ slabs, SlabInOrder s.heap.vm.mem s.blocks c.objSize A
  disjoint : s.blocks.Pairwise fun b b' => b.ptr + b.size ≤ b'.ptr ∨ b'.ptr + b'.size ≤ b.ptr
  headers : ∀ b ∈ s.blocks, ∀ b' ∈ s.blocks,
    b.ptr + b.size ≤ b'.header ∨ b'.header + allocHeaderSize ≤ b.ptr
  /-- the mask of `kfree` finds a slab of some chain, and the block in one of its slots -/
  mask : ∀ b ∈ s.blocks, ∃ c ∈ s.heap.caches, ∃ slabs,
    Chain (link s.heap.vm.mem 16) (toPtr c.firstSlab) slabs ∧
    b.header &&& frameMask ∈ slabs ∧ b.header ∈ slots (b.header &&& frameMask) c.objSize
  /-- no call changes a byte of a block that stays -/
  kept : ∀ e s', s.step e = some s' → (∃ size, e = .kmalloc size) ∨ (∃ b, e = .kfree b) →
    ∀ b ∈ s.blocks, b ∈ s'.blocks → ∀ a, b.ptr ≤ a → a < b.ptr + b.size →
      s'.heap.vm.mem a = s.heap.vm.mem a
  /-- every call returns -/
  returns : ∀ e, s.Allowed e → (s.step e).isSome

/-- Live blocks have different headers. -/
theorem Inv.headers_pairwise (inv : Inv s chains free) :
    s.blocks.Pairwise fun b b' => b.header ≠ b'.header := by
  rw [List.pairwise_iff_forall_sublist]
  intro b b' two same
  have isBlock : b ∈ s.blocks := two.subset List.mem_cons_self
  obtain ⟨c, member, slab, _, _⟩ := inv.heap.owner isBlock
  have page := inv.heap.page c member _ slab
  have size := inv.heap.sized c member
  have nodup := (List.nodup_append.mp (page.nodup (by omega))).2.1
  -- both headers would be listed in the slab of `b`
  have listed := (two.map Block.header).filter fun h => h &&& frameMask = b.header &&& frameMask
  have twice : ([b, b'].map Block.header).filter
      (fun h => h &&& frameMask = b.header &&& frameMask) = [b.header, b.header] := by
    simp [same]
  rw [twice] at listed
  have pair := nodup.sublist listed
  simp at pair

theorem Inv.inOrder (inv : Inv s chains free) {c : SlabCache} (member : c ∈ s.heap.caches) {A : Nat}
    (slab : A ∈ chains c.objSize) : SlabInOrder s.heap.vm.mem s.blocks c.objSize A := by
  have page := inv.heap.page c member A slab
  have size := inv.heap.sized c member
  refine ⟨free A, page.chain, page.chain.nodup, page.slots, slots_nodup (by omega), ?_⟩
  intro b isBlock
  have ptr := (inv.heap.block b isBlock).1
  have offHeader := inv.heap.block_apart_header isBlock ⟨c, member, slab⟩
  dsimp only [allocHeaderSize] at ptr
  refine ⟨by omega, fun x isFree => ?_⟩
  have slot := page.mem_free isFree
  have differ := inv.heap.header_not_free isBlock member slab isFree
  have apart := inv.heap.block_apart isBlock member slab slot differ
  omega

theorem Inv.safe (inv : Inv s chains free) : SlabsSafe s := by
  -- the slabs of a cache are the chain at its `first_slab`
  have chain : ∀ c ∈ s.heap.caches,
      Chain (link s.heap.vm.mem 16) (toPtr c.firstSlab) (chains c.objSize) := by
    intro c member
    have whole := inv.heap.chain c member
    cases nodes : chains c.objSize with
    | nil => simp [nodes] at whole
    | cons A rest =>
      rw [nodes] at whole
      obtain rfl := Option.some.inj (chain_cons.mp whole).1
      have slab : c.firstSlab ∈ chains c.objSize := by
        rw [nodes]
        exact List.mem_cons_self
      have nonnull := (inv.heap.frame c.firstSlab ⟨c, member, slab⟩).nonnull
      rw [toPtr_of_ne nonnull]
      exact whole
  constructor
  case chains =>
    intro c member
    exact ⟨chains c.objSize, (chain c member).nodup, chain c member, fun A slab =>
      inv.inOrder member slab⟩
  case disjoint =>
    apply List.Pairwise.imp_of_mem _ inv.headers_pairwise
    intro b b' isBlock isBlock' differ
    -- two blocks are two objects, which do not overlap
    obtain ⟨c, member, slab, slot, fits⟩ := inv.heap.owner isBlock'
    have apart := inv.heap.block_apart isBlock member slab slot differ.symm
    have ptr := (inv.heap.block b isBlock).1
    have ptr' := (inv.heap.block b' isBlock').1
    dsimp only [allocHeaderSize] at ptr ptr' fits
    omega
  case headers =>
    -- blocks with the same header are one object
    intro b isBlock b' isBlock'
    have ptr := (inv.heap.block b isBlock).1
    have ptr' := (inv.heap.block b' isBlock').1
    by_cases same : b'.header = b.header
    · omega
    · obtain ⟨c, member, slab, slot, fits⟩ := inv.heap.owner isBlock'
      have apart := inv.heap.block_apart isBlock member slab slot same
      omega
  case mask =>
    intro b isBlock
    obtain ⟨c, member, slab, slot, _⟩ := inv.heap.owner isBlock
    exact ⟨c, member, chains c.objSize, chain c member, slab, slot⟩
  case kept =>
    intro e s' taken isCall
    unfold step at taken
    split at taken
    next allowed =>
      -- a call keeps the bytes of the blocks that stay
      obtain ⟨t, called, _, kept⟩ := inv.served allowed
      obtain rfl := Option.some.inj (called.symm.trans taken)
      exact kept isCall
    · cases taken
  case returns =>
    intro e allowed
    obtain ⟨t, called, _⟩ := inv.served allowed
    rw [step, if_pos allowed, called]
    rfl

theorem slabs_safe {s : SlabState} {h : List (Entry SlabState SlabEvent)}
    (run : Run step Started h s) : SlabsSafe s := by
  obtain ⟨chains, free, inv⟩ := Run.inv run
  exact inv.safe

end SlabState

/-- A heap before `heap_init`, with fourteen free frames. -/
def bareHeap : Heap :=
  { vm := emptyPagemap, caches := [], heapVaddr := 0xffffffff90000000, cr3 := 0x1000 }

open SlabState in
/-- Two blocks are taken from the first and the last cache. -/
theorem slabs_safe_two_blocks : ∃ h s, Run step Started h s ∧
    h.map Entry.event = [.kmalloc 1000, .kmalloc 1] ∧ SlabsSafe s := by
  have six : ((heapInit bareHeap).map fun heap => heap.caches.all (·.firstSlab ≠ 0)) = some true := by
    decide +kernel
  obtain ⟨heap, done, created⟩ := Option.map_eq_some_iff.mp six
  have ready := emptyPagemap_paging.ready
  have started : Started ⟨heap, [], []⟩ :=
    ⟨bareHeap, ready, emptyPagemap_paging.hhdm, done, by simpa using created, rfl, rfl⟩
  have start : Run step Started [] ⟨heap, [], []⟩ := .start started
  have small : ∀ t : SlabState, t.Allowed (.kmalloc 1) := fun _ => ⟨by decide, by decide⟩
  have large : ∀ t : SlabState, t.Allowed (.kmalloc 1000) := fun _ => ⟨by decide, by decide⟩
  obtain ⟨s₁, first⟩ := Option.isSome_iff_exists.mp ((slabs_safe start).returns _ (small _))
  obtain ⟨s₂, second⟩ := Option.isSome_iff_exists.mp
    ((slabs_safe (start.step first)).returns _ (large _))
  have run := (start.step first).step second
  exact ⟨_, s₂, run, rfl, slabs_safe run⟩

end DedOS
