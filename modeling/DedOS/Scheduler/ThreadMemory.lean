import DedOS.Scheduler.Kernel

/-!
# The memory calls of `thread_create`

`threadMemory_spec`: whatever `thread_create` gets from the heap, the blocks of everybody else
stay live with their bytes, and a new stack holds the address of `thread_exit` below its top.
With eight free frames left it gets a stack (`threadMemory_served`).
-/

namespace DedOS

open Lib HeapRun

namespace Kernel

variable {s s' s'' : SlabState} {threadExit : UInt64} {a : Allocated} {stack n : Nat}

theorem threadStackSize_toNat : threadStackSize.toNat = 4096 := rfl

/-- A stack begins behind the header of its first page, and `sp` is left 16 bytes below its end. -/
theorem initialSp_toNat (aligned : stack % pageSize = allocHeaderSize)
    (high : stack + 2 * pageSize ≤ 2 ^ 64 + allocHeaderSize) :
    (initialSp (UInt64.ofNat stack)).toNat = stack + 4080 := by
  dsimp only [pageSize, allocHeaderSize] at aligned high
  have mask : (~~~0xF : UInt64).toNat = (2 ^ (64 - 4) - 1) <<< 4 := by decide
  have below : stack < 2 ^ 64 := by omega
  have word : (UInt64.ofNat stack).toNat = stack := UInt64.toNat_ofNat_of_lt' below
  have top : (UInt64.ofNat stack + threadStackSize).toNat = stack + 4096 := by
    rw [UInt64.toNat_add, word, threadStackSize_toNat]
    omega
  rw [initialSp, UInt64.toNat_sub, UInt64.toNat_and, top, mask, and_mask (by omega) (by decide)]
  rw [show (8 : UInt64).toNat = 8 from rfl]
  omega

/-- A stack takes two pages, so all its bytes are there. -/
theorem pages_stack : pagesCount threadStackSize.toNat = 2 := by decide

theorem inside_stack {offset : Nat} (below : offset < threadStackSize.toNat) :
    Inside ⟨stack, threadStackSize.toNat⟩ offset := by
  refine ⟨below, .inr ?_⟩
  rw [pages_stack]
  rw [threadStackSize_toNat] at below
  dsimp only [allocHeaderSize, pageSize]
  omega

theorem stack_place (good : Good s) (fits : Fits s.heap threadStackSize.toNat)
    (asked : Requested threadStackSize.toNat s s' stack) (nonnull : stack ≠ 0) :
    stack % pageSize = allocHeaderSize ∧ stack + 2 * pageSize ≤ 2 ^ 64 + allocHeaderSize := by
  have placed := asked.blockPlaced good (by decide) fits nonnull
  have ptr := placed.ptr
  have start := placed.aligned
  have ends := placed.high
  rw [pages_stack] at ends
  constructor
  · dsimp only [pageSize, allocHeaderSize] at *
    omega
  · omega

/-- A new stack with the address of `thread_exit` on its top. -/
structure StackMade (threadExit : UInt64) (s s' : SlabState) (stack : Nat) : Prop where
  untouched : Untouched [] s s'
  live : (⟨stack, threadStackSize.toNat⟩ : Block) ∈ s'.blocks
  new : (⟨stack, threadStackSize.toNat⟩ : Block) ∉ s.blocks
  aligned : stack % pageSize = allocHeaderSize
  high : stack + 2 * pageSize ≤ 2 ^ 64 + allocHeaderSize
  above : ∀ n, Above n s.heap → Above (n + 2 * pageSize) s'.heap
  exit : ∀ i < 8, byteAt s'.heap ⟨stack, threadStackSize.toNat⟩ (4080 + i) =
    (leBytes 8 threadExit.toNat)[i]?

theorem stack_made (good : Good s) (fits : Fits s.heap threadStackSize.toNat)
    (asked : Requested threadStackSize.toNat s s' stack) (nonnull : stack ≠ 0)
    (filled : fill ⟨stack, threadStackSize.toNat⟩ ((initialSp (UInt64.ofNat stack)).toNat - stack)
      (leBytes 8 threadExit.toNat) s' = some s'') : StackMade threadExit s s'' stack := by
  obtain ⟨live, new⟩ := asked.fresh nonnull
  obtain ⟨aligned, high⟩ := stack_place good fits asked nonnull
  rw [initialSp_toNat aligned high, Nat.add_sub_cancel_left] at filled
  -- the eight bytes end eight bytes below the end of the block
  have pushed := fill_spec asked.untouched.good live (fun i below => by
    rw [length_leBytes] at below
    apply inside_stack
    rw [threadStackSize_toNat]
    omega) filled
  refine ⟨(asked.untouched.trans pushed.untouched).of_new ?_, pushed.blocks ▸ live, new, aligned,
    high, ?_, ?_⟩
  · intro b mine
    obtain rfl := List.mem_singleton.mp mine
    exact new
  · intro n past
    have moved := past.placed (asked.blockPlaced good (by decide) fits nonnull) fits.2.1
    rw [pages_stack] at moved
    unfold Above at *
    rwa [pushed.vaddr]
  · intro i below
    exact pushed.written i (by rwa [length_leBytes])

theorem StackMade.after (made : StackMade threadExit s' s'' stack) (before : Untouched [] s s') :
    StackMade threadExit s s'' stack :=
  { made with
    untouched := before.trans made.untouched
    new := fun was => made.new (before.all was).1
    above := fun n past => made.above n (before.above n past) }

/-- What `thread_create` does to memory when it has got both blocks. -/
structure Made (threadExit : UInt64) (s s' : SlabState) (object stack : Nat) : Prop where
  nonnull : object ≠ 0
  live : (⟨object, threadSize⟩ : Block) ∈ s'.blocks
  new : (⟨object, threadSize⟩ : Block) ∉ s.blocks
  stack : StackMade threadExit s s' stack

/-- `thread_create` leaves all live blocks alone, whether or not it gets what it asks for. -/
theorem threadMemory_spec (good : Good s) (fits : Fits s.heap threadStackSize.toNat)
    (done : threadMemory threadExit s = some (a, s')) :
    Untouched [] s s' ∧ ∀ stack, a.stack = some stack → Made threadExit s s' a.object stack := by
  simp only [threadMemory, Option.bind_eq_bind, Option.bind_eq_some_iff, Prod.exists] at done
  obtain ⟨object, s₁, gotObject, done⟩ := done
  have asked := request_spec good (by decide) (.inl (by decide)) gotObject
  split at done
  next null =>
    -- no `thread_t`
    obtain ⟨rfl, rfl⟩ := Prod.mk.inj (Option.some.inj done)
    exact ⟨asked.untouched, by simp⟩
  next nonnull =>
    obtain ⟨live, new⟩ := asked.fresh nonnull
    simp only [Option.bind_eq_some_iff, Prod.exists] at done
    obtain ⟨s₂, cleared, stack, s₃, gotStack, done⟩ := done
    have small : threadSize ≤ slab1024 := by decide
    have zeroed := fill_spec asked.untouched.good live (fun i below => by
      rw [List.length_replicate] at below
      exact ⟨(Nat.zero_add i).symm ▸ below, .inl small⟩) cleared
    have vaddr : s₂.heap.heapVaddr = s.heap.heapVaddr := by
      obtain ⟨heap, served, isHeap⟩ := asked.served
      obtain ⟨vm, same⟩ := kmalloc_small_changes small served
      rw [zeroed.vaddr, isHeap, same]
    have fits₂ : Fits s₂.heap threadStackSize.toNat := by
      unfold Fits at *
      rwa [vaddr]
    have good₂ := zeroed.untouched.good
    have askedStack := request_spec good₂ (by decide) (.inr fits₂) gotStack
    have only : ∀ b ∈ [(⟨object, threadSize⟩ : Block)], b ∉ s.blocks := by
      intro b mine
      obtain rfl := List.mem_singleton.mp mine
      exact new
    -- the `thread_t` was not live before, so nobody loses it
    have before : Untouched [] s s₂ := (asked.untouched.trans zeroed.untouched).of_new only
    have live₂ : (⟨object, threadSize⟩ : Block) ∈ s₂.blocks := zeroed.blocks ▸ live
    split at done
    next noStack =>
      simp only [Option.bind_eq_some_iff, Option.some.injEq, Prod.mk.injEq] at done
      obtain ⟨s₄, freed, rfl, rfl⟩ := done
      have both := before.trans askedStack.untouched
      have live₃ := (askedStack.untouched.all live₂).1
      exact ⟨(both.trans (.kfree both.good live₃ freed)).of_new only, by simp⟩
    next gotten =>
      simp only [Option.bind_eq_some_iff, Option.some.injEq, Prod.mk.injEq] at done
      obtain ⟨s₄, filled, rfl, rfl⟩ := done
      have made := stack_made good₂ fits₂ askedStack gotten filled
      refine ⟨before.trans made.untouched, fun stack' same => ?_⟩
      obtain rfl := Option.some.inj same
      exact ⟨nonnull, (made.untouched.all live₂).1, new, made.after before⟩

/-! ### With enough frames -/

/-- `thread_create` gets its stack where eight frames are left: two for the stack and at most
three tables for each of its pages. -/
theorem threadMemory_served {object : Nat} (good : Good s)
    (fits : Fits s.heap threadStackSize.toNat)
    (gotObject : request threadSize s = some (object, s')) (nonnull : object ≠ 0)
    (frames : 8 ≤ s'.heap.vm.pmm.freePages) :
    ∃ stack s'', threadMemory threadExit s = some (⟨object, some stack⟩, s'') := by
  have small : threadSize ≤ slab1024 := by decide
  have asked := request_spec good (by decide) (.inl small) gotObject
  obtain ⟨live, _⟩ := asked.fresh nonnull
  have vaddr : s'.heap.heapVaddr = s.heap.heapVaddr := by
    obtain ⟨heap, served, isHeap⟩ := asked.served
    obtain ⟨vm, same⟩ := kmalloc_small_changes small served
    rw [isHeap, same]
  have insideObject : ∀ i < (List.replicate threadSize (0 : UInt8)).length,
      Inside ⟨object, threadSize⟩ (0 + i) := by
    intro i below
    rw [List.length_replicate] at below
    exact ⟨(Nat.zero_add i).symm ▸ below, .inl small⟩
  obtain ⟨s₂, cleared⟩ := fill_served asked.untouched.good live insideObject fun i below => by
    obtain ⟨_, _, _, _, inv⟩ := asked.untouched.good
    rw [cell, inv.resolve_small (mem_smallBlocks.mpr ⟨live, small⟩) (insideObject i below).1]
    exact Option.some_ne_none _
  have zeroed := fill_spec asked.untouched.good live insideObject cleared
  have good₂ := zeroed.untouched.good
  have fits₂ : Fits s₂.heap threadStackSize.toNat := by
    unfold Fits at *
    rwa [zeroed.vaddr, vaddr]
  have enough : Enough s₂.heap threadStackSize.toNat := by
    have tables := Vm.needed_le s₂.heap.vm s₂.heap.cr3 s₂.heap.heapVaddr 0 2
    rw [Enough, pages_stack, zeroed.pmm]
    omega
  obtain ⟨stack, heap, served, gotten, mapped⟩ : ∃ p heap,
      kmalloc s₂.heap threadStackSize.toNat = some (p, heap) ∧ p ≠ 0 ∧
        AllMapped heap ⟨p, threadStackSize.toNat⟩ := by
    obtain ⟨_, _, _, _, inv⟩ := good₂
    exact inv.allMapped (by decide) fits₂ enough
  obtain ⟨s₃, gotStack, rfl⟩ : ∃ s₃, request threadStackSize.toNat s₂ = some (stack, s₃) ∧
      s₃.heap = heap := by
    rw [request, served]
    exact ⟨_, rfl, rfl⟩
  have askedStack := request_spec good₂ (by decide) (.inr fits₂) gotStack
  have good₃ := askedStack.untouched.good
  obtain ⟨liveStack, _⟩ := askedStack.fresh gotten
  obtain ⟨aligned, high⟩ := stack_place good₂ fits₂ askedStack gotten
  have insideStack : ∀ i < (leBytes 8 threadExit.toNat).length,
      Inside ⟨stack, threadStackSize.toNat⟩ (4080 + i) := by
    intro i below
    rw [length_leBytes] at below
    apply inside_stack
    rw [threadStackSize_toNat]
    omega
  obtain ⟨s₄, pushed⟩ := fill_served good₃ liveStack insideStack fun i below => by
    obtain ⟨_, _, _, _, inv⟩ := good₃
    have isLarge := mem_largeBlocks.mpr ⟨liveStack, (by decide : slab1024 < threadStackSize.toNat)⟩
    exact inv.cell_mapped isLarge mapped (insideStack i below)
  have offset : (initialSp (UInt64.ofNat stack)).toNat - stack = 4080 := by
    rw [initialSp_toNat aligned high, Nat.add_sub_cancel_left]
  exact ⟨stack, s₄, by
    simp [threadMemory, gotObject, nonnull, cleared, gotStack, gotten, offset, pushed]⟩

end Kernel

end DedOS
