import DedOS.Mm.Clients
import DedOS.Lib.Encoding
import DedOS.Scheduler.Context

/-!
# The scheduler on the heap

`thread_create` takes the `thread_t` and the stack of a thread from `kmalloc`, `thread_destroy`
gives them back, and everybody else uses the same heap. The members of a `thread_t` are those
of `Machine`; its block, the stack and what lies on the stack are in the heap's memory.
-/

namespace DedOS

open Lib

/-- `sizeof(thread_t)` -/
def threadSize : Nat := 240

/-- `object` is the address of the `thread_t` of each thread that was created. -/
structure Kernel where
  machine : Machine
  memory : SlabState
  object : Tid → Nat

namespace Kernel

def objectBlock (k : Kernel) (t : Tid) : Block := ⟨k.object t, threadSize⟩

def stackBlock (k : Kernel) (t : Tid) : Block :=
  ⟨(k.machine.sched.thread t).stack.toNat, threadStackSize.toNat⟩

/-- The blocks of the threads that were created. -/
def threadBlocks (k : Kernel) : List Block :=
  ((List.range k.machine.sched.nextTid).map Tid.thread).flatMap fun t =>
    [k.objectBlock t, k.stackBlock t]

/-- `sp` as `thread_create` leaves it. -/
def initialSp (stack : UInt64) : UInt64 := ((stack + threadStackSize) &&& ~~~0xF) - 8

/-- What `thread_create` comes to: its `thread_t` and its stack, as far as it got. -/
structure Allocated where
  object : Nat
  stack : Option Nat

/-- The memory of `thread_create`: the `thread_t`, cleared, and the stack with `thread_exit` on
its top. -/
def threadMemory (threadExit : UInt64) (s : SlabState) : Option (Allocated × SlabState) := do
  let (thread, s) ← HeapRun.request threadSize s
  if thread = 0 then some (⟨0, none⟩, s)
  else do
    let s ← HeapRun.fill ⟨thread, threadSize⟩ 0 (List.replicate threadSize 0) s
    let (stack, s) ← HeapRun.request threadStackSize.toNat s
    if stack = 0 then do
      let s ← s.call (.kfree ⟨thread, threadSize⟩)
      some (⟨thread, none⟩, s)
    else do
      let offset := (initialSp (UInt64.ofNat stack)).toNat - stack
      let s ← HeapRun.fill ⟨stack, threadStackSize.toNat⟩ offset (leBytes 8 threadExit.toNat) s
      some (⟨thread, some stack⟩, s)

def threadCreate (threadExit proc entry : UInt64) (k : Kernel) : Option Kernel := do
  let (allocated, memory) ← threadMemory threadExit k.memory
  let machine ← k.machine.step (.call (.create proc entry (allocated.object ≠ 0)
    (allocated.stack.map UInt64.ofNat)))
  some {
    machine := machine
    memory := memory
    object :=
      if allocated.stack.isSome then
        Function.update k.object (.thread k.machine.sched.nextTid) allocated.object
      else k.object }

/-- `kfree(thread->stack); kfree(thread);` -/
def threadDestroy (k : Kernel) (t : Tid) : Option Kernel := do
  let s ← k.memory.call (.kfree (k.stackBlock t))
  let s ← s.call (.kfree (k.objectBlock t))
  some { k with memory := s }

/-- The calls of `thread_destroy` on the threads, the first one first. -/
def destroyAll : List Tid → Kernel → Option Kernel
  | [], k => some k
  | t :: rest, k => do
    let k ← k.threadDestroy t
    destroyAll rest k

inductive Event where
  /-- a step of the scheduler's machine other than `thread_create` -/
  | sched (e : DedOS.Event)
  /-- `thread_create` -/
  | create (proc entry : UInt64)
  /-- a call of somebody else, who owns no thread's block -/
  | heap (e : HeapEvent)
  /-- the current thread writes a byte of its stack -/
  | push (offset : Nat) (value : UInt8)

def isCreate : DedOS.Event → Bool
  | .call (.create ..) => true
  | _ => false

/-- The call frees or writes a block of a thread. -/
def touches (k : Kernel) : HeapEvent → Bool
  | .call (.kfree b) => b ∈ k.threadBlocks
  | .call (.write b _ _) => b ∈ k.threadBlocks
  | _ => false

def step (threadExit : UInt64) (k : Kernel) : Event → Option Kernel
  | .sched e =>
    if isCreate e then none
    else do
      let machine ← k.machine.step e
      -- the reaping loop destroys the threads in the order in which it meets them
      let before := k.machine.sched.destroyed.length
      let dead := machine.sched.destroyed.take (machine.sched.destroyed.length - before)
      destroyAll dead.reverse { k with machine := machine }
  | .create proc entry => k.threadCreate threadExit proc entry
  | .heap e =>
    if k.touches e then none
    else (HeapRun.step k.memory e).map fun memory => { k with memory := memory }
  | .push offset value =>
    match k.machine.sched.current with
    | some (.thread n) =>
      (HeapRun.step k.memory (.call (.write (k.stackBlock (.thread n)) offset value))).map
        fun memory => { k with memory := memory }
    | _ => none

/-- The heap has been in use when the scheduler is initialised. -/
structure Booted (k : Kernel) : Prop where
  machine : k.machine.Booted
  memory : ∃ h, Run HeapRun.step HeapRun.Started h k.memory ∧ HeapRun.AllFit h

abbrev Runs (threadExit : UInt64) : List (Entry Kernel Event) → Kernel → Prop :=
  Run (step threadExit) Booted

/-- Large requests get pages without a wrap of `kernel_heap_vaddr`, also those for stacks. -/
def Roomy (e : Entry Kernel Event) : Prop :=
  match e.event with
  | .heap he => HeapRun.FitsEvent e.pre.memory he
  | .create _ _ => Fits e.pre.memory.heap threadStackSize.toNat
  | _ => True

end Kernel

end DedOS
