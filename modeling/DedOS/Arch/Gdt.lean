import DedOS.Arch.Idt
import DedOS.Lib.Encoding
import DedOS.Lib.Trace
import DedOS.Scheduler.Thread

/-!
# `gdt.c`

The descriptors that `gdt_init` writes, and what the processor makes of them: `gdt_load` and
`ltr` go through, gates and `iretq` find segments of the right kind, and the task state segment
is found at its address, so that an interrupt of ring 3 starts from the stack pointer that
`gdt_update_tss_rsp` was last given.
-/

namespace DedOS

open Lib

namespace Gdt

/-! ### `gdt.h` -/

def gdtPresent : UInt8 := 0x80
def gdtKernel : UInt8 := 0x00
def gdtUser : UInt8 := 0x60
def gdtS : UInt8 := 0x10
def gdtEx : UInt8 := 0x08
def gdtRw : UInt8 := 0x02
def gdtCode : UInt8 := gdtS ||| gdtEx
def gdtData : UInt8 := gdtS ||| gdtRw
def gdtGranularity : UInt8 := 0x80
def gdtLongmode : UInt8 := 0x20

/-- `sizeof(tss)` -/
def tssSize : Nat := 104

/-- `sizeof(gdt)` -/
def gdtSize : Nat := 56

/-! ### `gdt.c` -/

/-- `gdt` is the address of the table. -/
def gdtSetEntry (gdt i : Nat) (access granularity : UInt8) (m : Memory) : Memory :=
  let entry := gdt + 8 * i
  let m := store 2 m entry 0xFFFF
  let m := store 2 m (entry + 2) 0
  let m := store 1 m (entry + 4) 0
  let m := store 1 m (entry + 5) access.toNat
  let m := store 1 m (entry + 6) granularity.toNat
  store 1 m (entry + 7) 0

/-- The stores to `gdt[5]` and `gdt[6]`. -/
def gdtSetTss (gdt tss : Nat) (m : Memory) : Memory :=
  let tssLimit := tssSize - 1
  let entry := gdt + 8 * 5
  let m := store 2 m entry (tssLimit &&& 0xFFFF)
  let m := store 2 m (entry + 2) (tss &&& 0xFFFF)
  let m := store 1 m (entry + 4) (tss >>> 16 &&& 0xFF)
  let m := store 1 m (entry + 5) 0x89
  let m := store 1 m (entry + 6) (tssLimit >>> 16 &&& 0x0F)
  let m := store 1 m (entry + 7) (tss >>> 24 &&& 0xFF)
  let tssUpper := gdt + 8 * 6
  let m := store 4 m tssUpper (tss >>> 32)
  store 4 m (tssUpper + 4) 0

/-- The table as `gdt_init` leaves it. -/
def gdtFill (gdt tss : Nat) (m : Memory) : Memory :=
  let m := gdtSetEntry gdt 0 0x00 0x00 m
  let m := gdtSetEntry gdt 1 (gdtPresent ||| gdtKernel ||| gdtCode) (gdtGranularity ||| gdtLongmode) m
  let m := gdtSetEntry gdt 2 (gdtPresent ||| gdtKernel ||| gdtData) 0x00 m
  let m := gdtSetEntry gdt 3 (gdtPresent ||| gdtUser ||| gdtCode) (gdtGranularity ||| gdtLongmode) m
  let m := gdtSetEntry gdt 4 (gdtPresent ||| gdtUser ||| gdtData) 0x00 m
  gdtSetTss gdt tss m

/-- `tss.rsp0 = rsp` -/
def gdtUpdateTssRsp (tss : Nat) (rsp : UInt64) (m : Memory) : Memory := store 8 m (tss + 4) rsp.toNat

/-! ### The processor -/

/-- What the processor reads in eight bytes of the table. -/
structure Descriptor where
  limit : Nat
  base : Nat
  access : Nat
  flags : Nat
  deriving DecidableEq

namespace Descriptor

variable (d : Descriptor)

def present : Bool := d.access / 128 % 2 = 1
def ring : Nat := d.access / 32 % 4
/-- no gate and no task state segment -/
def segment : Bool := d.access / 16 % 2 = 1
def executable : Bool := d.access / 8 % 2 = 1
def conforming : Bool := d.access / 4 % 2 = 1
def writable : Bool := d.access / 2 % 2 = 1
def long : Bool := d.flags / 32 % 2 = 1
def big : Bool := d.flags / 64 % 2 = 1

/-- 64-bit code of a ring -/
def codeOf (ring : Nat) : Bool :=
  d.present && d.segment && d.executable && !d.conforming && d.ring = ring && d.long && !d.big

/-- data that a ring can write, and use as its stack -/
def dataOf (ring : Nat) : Bool :=
  d.present && d.segment && !d.executable && d.writable && d.ring = ring

/-- a 64-bit task state segment that is not in use -/
def freeTask : Bool := d.present && !d.segment && d.access % 16 = 9

end Descriptor

def decode (m : Memory) (a : Nat) : Descriptor where
  limit := load 2 m a + 2 ^ 16 * (load 1 m (a + 6) % 16)
  base := load 2 m (a + 2) + 2 ^ 16 * load 1 m (a + 4) + 2 ^ 24 * load 1 m (a + 7)
  access := load 1 m (a + 5)
  flags := load 1 m (a + 6)

/-- `gdtr` -/
structure Gdtr where
  limit : Nat
  base : Nat

/-- The descriptor that a selector names; `none` is a fault. -/
def descriptor (m : Memory) (gdtr : Gdtr) (selector : Nat) : Option Descriptor :=
  if selector / 8 = 0 ∨ gdtr.limit < selector / 8 * 8 + 7 then none
  else some (decode m (gdtr.base + selector / 8 * 8))

/-- The task register. -/
structure Task where
  base : Nat
  limit : Nat
  deriving DecidableEq

structure Segments where
  cs : Nat
  ss : Nat
  /-- `ds`, `es`, `fs` and `gs` -/
  data : Nat
  deriving DecidableEq

structure State where
  mem : Memory
  gdtr : Gdtr
  segments : Segments
  task : Option Task

/-- `gdt_load`, with the stack pointer it is entered with and the address of `.reload_CS`. -/
def gdtLoad (gdtr : Gdtr) (rsp reloadCs : UInt64) (s : State) : Option State := do
  let stack := Stack.pushAll ⟨s.mem, rsp⟩ [0x08, reloadCs]
  -- `retfq` takes the address and then the selector
  let selector := (stack.drop 1).top.toNat
  let code ← descriptor stack.mem gdtr selector
  let data ← descriptor stack.mem gdtr 0x10
  if code.codeOf 0 ∧ data.dataOf 0 then
    some { s with
      mem := stack.mem
      gdtr := gdtr
      segments := { cs := selector, ss := 0x10, data := 0x10 } }
  else none

/-- `ltr`. The upper half of the base is in the next eight bytes, and the descriptor is marked as
in use. -/
def ltr (selector : Nat) (s : State) : Option State := do
  let task ← descriptor s.mem s.gdtr selector
  let upper := s.gdtr.base + selector / 8 * 8 + 8
  if task.freeTask ∧ load 4 s.mem (upper + 4) / 256 % 32 = 0 ∧ selector / 8 * 8 + 15 ≤ s.gdtr.limit then
    some { s with
      mem := store 1 s.mem (s.gdtr.base + selector / 8 * 8 + 5) (task.access ||| 2)
      task := some { base := task.base + 2 ^ 32 * load 4 s.mem upper, limit := task.limit } }
  else none

/-- `gdt_init` -/
def gdtInit (gdt tss : Nat) (rsp reloadCs : UInt64) (s : State) : Option State := do
  let s := { s with mem := gdtFill gdt tss s.mem }
  let s ← gdtLoad { limit := gdtSize - 1, base := gdt } rsp reloadCs s
  ltr 0x28 s

/-- The stack pointer that an interrupt of ring 3 starts from. -/
def ring0Stack (s : State) : Option Nat := do
  let task ← s.task
  if task.limit < 11 then none else some (load 8 s.mem (task.base + 4))

variable {m m' : Memory} {gdt tss a i : Nat} {bytes : List UInt8} {access granularity : UInt8}
  {rsp reloadCs : UInt64} {s s' : State} {gdtr : Gdtr}

/-! ### The bytes of the table -/

def entryBytes (access granularity : UInt8) : List UInt8 :=
  [0xFF, 0xFF, 0, 0, 0, access, granularity, 0]

/-- The 16 bytes of the descriptor of the task state segment. -/
def taskBytes (access : UInt8) (tss : Nat) : List UInt8 :=
  leBytes 2 103 ++ leBytes 2 (tss &&& 0xFFFF) ++ leBytes 1 (tss >>> 16 &&& 0xFF) ++
    [access, 0] ++ leBytes 1 (tss >>> 24 &&& 0xFF) ++ leBytes 4 (tss >>> 32) ++
    leBytes 4 0

def tableBytes (access : UInt8) (tss : Nat) : List UInt8 :=
  entryBytes 0 0 ++ entryBytes 0x98 0xA0 ++ entryBytes 0x92 0 ++ entryBytes 0xF8 0xA0 ++
    entryBytes 0xF2 0 ++ taskBytes access tss

theorem gdtSetEntry_written (before : Written m gdt bytes m') (place : bytes.length = 8 * i) :
    Written m gdt (bytes ++ entryBytes access granularity)
      (gdtSetEntry gdt i access granularity m') := by
  have same : entryBytes access granularity = leBytes 2 0xFFFF ++ leBytes 2 0 ++ leBytes 1 0 ++
      leBytes 1 access.toNat ++ leBytes 1 granularity.toNat ++ leBytes 1 0 := by
    simp [entryBytes, leBytes]
  rw [same, ← List.append_assoc, ← List.append_assoc, ← List.append_assoc, ← List.append_assoc,
    ← List.append_assoc]
  -- one store for each member, in the order of their addresses
  refine Written.store (Written.store (Written.store (Written.store (Written.store (Written.store
    before ?_) ?_) ?_) ?_) ?_) ?_ <;>
    simp [place, Nat.add_assoc]

theorem gdtSetTss_written (before : Written m gdt bytes m') (place : bytes.length = 8 * 5) :
    Written m gdt (bytes ++ taskBytes 0x89 tss) (gdtSetTss gdt tss m') := by
  have same : taskBytes 0x89 tss = leBytes 2 (103 &&& 0xFFFF) ++ leBytes 2 (tss &&& 0xFFFF) ++
      leBytes 1 (tss >>> 16 &&& 0xFF) ++ leBytes 1 0x89 ++ leBytes 1 (103 >>> 16 &&& 0x0F) ++
      leBytes 1 (tss >>> 24 &&& 0xFF) ++ leBytes 4 (tss >>> 32) ++ leBytes 4 0 := by
    simp [taskBytes, leBytes]
  rw [same, ← List.append_assoc, ← List.append_assoc, ← List.append_assoc, ← List.append_assoc,
    ← List.append_assoc, ← List.append_assoc, ← List.append_assoc]
  refine Written.store (Written.store (Written.store (Written.store (Written.store (Written.store
    (Written.store (Written.store before ?_) ?_) ?_) ?_) ?_) ?_) ?_) ?_ <;>
    simp [place, Nat.add_assoc]

/-- `gdt_init` writes the 56 bytes of the table and no other. -/
theorem gdtFill_written (gdt tss : Nat) (m : Memory) :
    Written m gdt (tableBytes 0x89 tss) (gdtFill gdt tss m) := by
  exact gdtSetTss_written (gdtSetEntry_written (gdtSetEntry_written (gdtSetEntry_written
    (gdtSetEntry_written (gdtSetEntry_written .nil rfl) rfl) rfl) rfl) rfl) rfl

/-! ### What the processor reads -/

theorem decode_entry (here : BytesAt m a (entryBytes access granularity)) : decode m a = {
    limit := 0xFFFF + 2 ^ 16 * (granularity.toNat % 16)
    base := 0
    access := access.toNat
    flags := granularity.toNat } := by
  obtain ⟨b₀, b₁, b₂, b₃, b₄, b₅, b₆, b₇, _⟩ := here
  simp only [Nat.add_assoc, Nat.reduceAdd] at b₂ b₃ b₄ b₅ b₆ b₇
  simp [decode, load, b₀, b₁, b₂, b₃, b₄, b₅, b₆, b₇]

/-- The parts of the address of the task state segment come together again. -/
theorem decode_task (here : BytesAt m a (taskBytes access tss)) (word : tss < 2 ^ 64) :
    (decode m a).base + 2 ^ 32 * load 4 m (a + 8) = tss ∧ (decode m a).limit = 103 ∧
      (decode m a).access = access.toNat ∧ load 4 m (a + 8 + 4) = 0 := by
  simp only [taskBytes, bytesAt_append, List.length_append, length_leBytes, List.length_cons,
    List.length_nil, Nat.reduceAdd] at here
  obtain ⟨⟨⟨⟨⟨⟨limit, low⟩, mid⟩, flags⟩, high⟩, upper⟩, reserved⟩ := here
  have isLimit := load_leBytes_mod limit
  have isLow := load_leBytes_mod low
  have isMid := load_leBytes_mod mid
  have isHigh := load_leBytes_mod high
  have isUpper := load_leBytes_mod upper
  have isReserved := load_leBytes_mod reserved
  obtain ⟨isAccess, isFlags, _⟩ := flags
  rw [Nat.add_assoc] at isFlags
  have parts : (tss &&& 0xFFFF) = tss % 2 ^ 16 ∧ (tss >>> 16 &&& 0xFF) = tss / 2 ^ 16 % 2 ^ 8 ∧
      (tss >>> 24 &&& 0xFF) = tss / 2 ^ 24 % 2 ^ 8 := by
    refine ⟨Nat.and_two_pow_sub_one_eq_mod tss 16, ?_, ?_⟩
    · rw [Nat.shiftRight_eq_div_pow]
      exact Nat.and_two_pow_sub_one_eq_mod _ 8
    · rw [Nat.shiftRight_eq_div_pow]
      exact Nat.and_two_pow_sub_one_eq_mod _ 8
  rw [parts.1] at isLow
  rw [parts.2.1] at isMid
  rw [parts.2.2] at isHigh
  rw [Nat.shiftRight_eq_div_pow] at isUpper
  simp only [decode, Nat.add_assoc, Nat.reduceAdd, isLimit, isLow, isMid, isHigh, isUpper, isReserved]
  refine ⟨by omega, ?_, ?_, by simp⟩
  · simp [load, isFlags]
  · simp [load, isAccess]

/-! ### gdt_init -/

/-- The table, the task state segment and the stack of `gdt_init` do not overlap. -/
structure Layout (gdt tss : Nat) (rsp : UInt64) : Prop where
  word : tss < 2 ^ 64
  room : 16 ≤ rsp.toNat
  apart : gdt + gdtSize ≤ tss ∨ tss + tssSize ≤ gdt
  gdtStack : gdt + gdtSize ≤ rsp.toNat - 16 ∨ rsp.toNat ≤ gdt
  tssStack : tss + tssSize ≤ rsp.toNat - 16 ∨ rsp.toNat ≤ tss

/-- The table in memory, with the access byte of its task descriptor. -/
structure Table (gdt tss : Nat) (access : UInt8) (s : State) : Prop where
  gdtr : s.gdtr = { limit := 55, base := gdt }
  bytes : BytesAt s.mem gdt (tableBytes access tss)

/-- The five segments of the table, each at its selector. -/
theorem Table.segments (table : Table gdt tss access s) :
    descriptor s.mem s.gdtr 0x08 = some ⟨0xFFFF, 0, 0x98, 0xA0⟩ ∧
    descriptor s.mem s.gdtr 0x10 = some ⟨0xFFFF, 0, 0x92, 0⟩ ∧
    descriptor s.mem s.gdtr 0x1B = some ⟨0xFFFF, 0, 0xF8, 0xA0⟩ ∧
    descriptor s.mem s.gdtr 0x23 = some ⟨0xFFFF, 0, 0xF2, 0⟩ := by
  have bytes := table.bytes
  simp only [tableBytes, bytesAt_append, List.length_append] at bytes
  obtain ⟨⟨⟨⟨⟨_, kernelCode⟩, kernelData⟩, userCode⟩, userData⟩, _⟩ := bytes
  rw [table.gdtr]
  refine ⟨congrArg some (decode_entry kernelCode), congrArg some (decode_entry kernelData),
    congrArg some (decode_entry userCode), congrArg some (decode_entry userData)⟩

theorem Table.task (table : Table gdt tss access s) (word : tss < 2 ^ 64) :
    descriptor s.mem s.gdtr 0x28 = some (decode s.mem (gdt + 40)) ∧
    (decode s.mem (gdt + 40)).base + 2 ^ 32 * load 4 s.mem (gdt + 48) = tss ∧
      (decode s.mem (gdt + 40)).limit = 103 ∧ (decode s.mem (gdt + 40)).access = access.toNat ∧
      load 4 s.mem (gdt + 52) = 0 := by
  have bytes := table.bytes
  rw [tableBytes, bytesAt_append] at bytes
  obtain ⟨base, limit, isAccess, reserved⟩ := decode_task bytes.2 word
  refine ⟨by rw [table.gdtr]; rfl, base, limit, isAccess, reserved⟩

/-- `gdt_load` comes back with the segments of the kernel; it writes only below its stack. -/
theorem gdtLoad_spec (reloadCs : UInt64) (table : BytesAt s.mem gdt (tableBytes access tss))
    (room : 16 ≤ rsp.toNat) (apart : gdt + gdtSize ≤ rsp.toNat - 16 ∨ rsp.toNat ≤ gdt) :
    ∃ m, gdtLoad { limit := 55, base := gdt } rsp reloadCs s = some { s with
        mem := m
        gdtr := { limit := 55, base := gdt }
        segments := { cs := 0x08, ss := 0x10, data := 0x10 } } ∧
      BytesAt m gdt (tableBytes access tss) ∧
      ∀ x, x < rsp.toNat - 16 ∨ rsp.toNat ≤ x → m x = s.mem x := by
  have pushed : Stack.Pushed ⟨s.mem, rsp⟩ [0x08, reloadCs]
      (Stack.pushAll ⟨s.mem, rsp⟩ [0x08, reloadCs]) := Stack.pushAll_spec room
  have low : (Stack.pushAll ⟨s.mem, rsp⟩ [0x08, reloadCs]).sp.toNat = rsp.toNat - 16 := pushed.sp
  have selector : ((Stack.pushAll ⟨s.mem, rsp⟩ [0x08, reloadCs]).drop 1).top = 0x08 := by
    have high := rsp.toNat_lt
    refine Stack.top_drop pushed.words (Nat.lt_succ_self 1) ?_
    rw [low]
    simp only [List.length_reverse, List.length_cons, List.length_nil]
    omega
  have outside : ∀ x, x < rsp.toNat - 16 ∨ rsp.toNat ≤ x →
      (Stack.pushAll ⟨s.mem, rsp⟩ [0x08, reloadCs]).mem x = s.mem x := by
    intro x out
    exact pushed.outside x (low ▸ out)
  -- the table is not in the stack
  have kept : BytesAt (Stack.pushAll ⟨s.mem, rsp⟩ [0x08, reloadCs]).mem gdt (tableBytes access tss) := by
    refine table.moved fun i below => outside _ ?_
    have length : (tableBytes access tss).length = 56 := by
      simp [tableBytes, entryBytes, taskBytes]
    rw [length] at below
    dsimp only [gdtSize] at apart
    omega
  obtain ⟨code, data, _⟩ := Table.segments (s := { s with
    mem := (Stack.pushAll ⟨s.mem, rsp⟩ [0x08, reloadCs]).mem
    gdtr := { limit := 55, base := gdt } }) ⟨rfl, kept⟩
  refine ⟨_, ?_, kept, outside⟩
  rw [gdtLoad, selector]
  dsimp only at code data
  have eight : (0x08 : UInt64).toNat = 0x08 := rfl
  rw [eight, code, data]
  rfl

/-- `ltr` finds the task state segment where it is. -/
theorem ltr_spec (table : Table gdt tss 0x89 s) (word : tss < 2 ^ 64) : ltr 0x28 s = some { s with
    mem := store 1 s.mem (gdt + 45) 0x8B
    task := some { base := tss, limit := 103 } } := by
  obtain ⟨found, base, limit, isAccess, reserved⟩ := table.task word
  have free : (decode s.mem (gdt + 40)).freeTask = true := by
    simp [Descriptor.freeTask, Descriptor.present, Descriptor.segment, isAccess]
  have busy : (decode s.mem (gdt + 40)).access ||| 2 = 0x8B := by
    rw [isAccess]
    decide
  rw [ltr, found, table.gdtr]
  simp only [Option.bind_eq_bind, Option.bind_some, Nat.reduceDiv, Nat.reduceMul, Nat.reduceAdd,
    Nat.add_assoc, free, reserved, busy, limit, base]
  rfl

/-- The state that `gdt_init` leaves, and every one after it. -/
structure Ready (gdt tss : Nat) (s : State) : Prop where
  table : Table gdt tss 0x8B s
  segments : s.segments = { cs := 0x08, ss := 0x10, data := 0x10 }
  task : s.task = some { base := tss, limit := 103 }

theorem length_tableBytes : (tableBytes access tss).length = 56 := by
  simp [tableBytes, entryBytes, taskBytes]

theorem gdtInit_spec (layout : Layout gdt tss rsp) (reloadCs : UInt64) (s : State) :
    ∃ s', gdtInit gdt tss rsp reloadCs s = some s' ∧ Ready gdt tss s' ∧
      ∀ x, tss ≤ x → x < tss + tssSize → s'.mem x = s.mem x := by
  have apart := layout.apart
  have tssStack := layout.tssStack
  dsimp only [gdtSize, tssSize] at apart tssStack ⊢
  have filled := gdtFill_written gdt tss s.mem
  obtain ⟨m, loaded, table, below⟩ := gdtLoad_spec (s := { s with mem := gdtFill gdt tss s.mem })
    reloadCs filled.here layout.room layout.gdtStack
  have marked := ltr_spec (s := { s with
    mem := m
    gdtr := { limit := 55, base := gdt }
    segments := { cs := 0x08, ss := 0x10, data := 0x10 } }) ⟨rfl, table⟩ layout.word
  refine ⟨{
    mem := store 1 m (gdt + 45) 0x8B
    gdtr := { limit := 55, base := gdt }
    segments := { cs := 0x08, ss := 0x10, data := 0x10 }
    task := some { base := tss, limit := 103 } }, ?_, ⟨⟨rfl, ?_⟩, rfl, rfl⟩, ?_⟩
  · change (gdtLoad { limit := 55, base := gdt } rsp reloadCs _).bind (ltr 0x28) = _
    rw [loaded]
    exact marked
  · -- only the access byte of the task descriptor changes
    have split : ∀ access, tableBytes access tss = (entryBytes 0 0 ++ entryBytes 0x98 0xA0 ++
        entryBytes 0x92 0 ++ entryBytes 0xF8 0xA0 ++ entryBytes 0xF2 0 ++ leBytes 2 103 ++
        leBytes 2 (tss &&& 0xFFFF) ++ leBytes 1 (tss >>> 16 &&& 0xFF)) ++ ([access] ++ ((0 : UInt8) ::
        leBytes 1 (tss >>> 24 &&& 0xFF) ++ leBytes 4 (tss >>> 32) ++ leBytes 4 0)) := by
      intro access
      simp [tableBytes, taskBytes]
    rw [split] at table ⊢
    exact table.set (by simp [entryBytes])
  · intro x low high
    have outside := filled.outside x (by
      rw [length_tableBytes]
      omega)
    dsimp only at below ⊢
    rw [store_outside (by omega), below x (by omega), outside]

/-! ### Afterwards -/

inductive Event where
  /-- `gdt_update_tss_rsp` -/
  | update (rsp : UInt64)
  /-- a store of anybody else, who leaves the table and the task state segment alone -/
  | write (address : Nat) (value : UInt8)

def step (gdt tss : Nat) (s : State) : Event → Option State
  | .update rsp => some { s with mem := gdtUpdateTssRsp tss rsp s.mem }
  | .write address value =>
    if (gdt ≤ address ∧ address < gdt + gdtSize) ∨ (tss ≤ address ∧ address < tss + tssSize) then none
    else some { s with mem := Function.update s.mem address value }

/-- The stack pointer that `gdt_update_tss_rsp` was last given. -/
def lastRsp : List (Entry State Event) → UInt64
  | [] => 0
  | e :: h =>
    match e.event with
    | .update rsp => rsp
    | .write _ _ => lastRsp h

/-- What the processor finds by its tables. -/
structure SegmentsServe (h : List (Entry State Event)) (s : State) : Prop where
  /-- every gate of `idt_init` leads to 64-bit code of ring 0 -/
  gates : ∀ image idt v gate, v.toNat < 48 → (idtInit image idt v).gate = some gate →
    ∃ d, descriptor s.mem s.gdtr gate.selector.toNat = some d ∧ d.codeOf 0
  /-- `iretq` goes to code with a stack of ring 0 in the context of every new thread -/
  threads : ∀ entry stack, ∃ c d,
    descriptor s.mem s.gdtr (initialContext entry stack).cs.toNat = some c ∧ c.codeOf 0 ∧
    descriptor s.mem s.gdtr (initialContext entry stack).ss.toNat = some d ∧ d.dataOf 0
  /-- the selector that `scheduler_tick_irq` takes for user code, and the data beside it -/
  user : ∃ c d, descriptor s.mem s.gdtr 0x1B = some c ∧ c.codeOf 3 ∧
    descriptor s.mem s.gdtr 0x23 = some d ∧ d.dataOf 3
  /-- interrupts of ring 3 start from the stack that was set last -/
  stack : ring0Stack s = some (lastRsp h).toNat

/-- The invariant of the states after `gdt_init`. -/
structure Serving (gdt tss : Nat) (h : List (Entry State Event)) (s : State) : Prop where
  ready : Ready gdt tss s
  rsp : load 8 s.mem (tss + 4) = (lastRsp h).toNat

theorem Ready.write (ready : Ready gdt tss s)
    (same : ∀ x, gdt ≤ x → x < gdt + gdtSize → m x = s.mem x) :
    Ready gdt tss { s with mem := m } where
  table := by
    refine ⟨ready.table.gdtr, ready.table.bytes.moved fun i below => same _ (by omega) ?_⟩
    rw [length_tableBytes] at below
    dsimp only [gdtSize]
    omega
  segments := ready.segments
  task := ready.task

theorem Serving.step {h : List (Entry State Event)} {e : Event}
    (apart : gdt + gdtSize ≤ tss ∨ tss + tssSize ≤ gdt) (serving : Serving gdt tss h s)
    (taken : step gdt tss s e = some s') : Serving gdt tss (⟨s, e, s'⟩ :: h) s' := by
  cases e with
  | update rsp =>
    obtain rfl := Option.some.inj taken
    have word : rsp.toNat < 256 ^ 8 := rsp.toNat_lt
    dsimp only [tssSize] at apart
    refine ⟨serving.ready.write fun x low high => store_outside (by omega), ?_⟩
    exact load_store_same word
  | write address value =>
    unfold Gdt.step at taken
    dsimp only at taken
    split at taken
    · cases taken
    next outside =>
      obtain rfl := Option.some.inj taken
      rw [not_or] at outside
      dsimp only [tssSize] at outside
      refine ⟨serving.ready.write fun x low high => ?_, ?_⟩
      · have other : x ≠ address := by omega
        exact Function.update_of_ne other ..
      · have same : load 8 (Function.update s.mem address value) (tss + 4) =
            load 8 s.mem (tss + 4) := by
          apply load_congr
          intro x low high
          have other : x ≠ address := by omega
          exact Function.update_of_ne other ..
        rw [same]
        exact serving.rsp

theorem Serving.serve {h : List (Entry State Event)} (serving : Serving gdt tss h s) :
    SegmentsServe h s := by
  obtain ⟨kernelCode, kernelData, userCode, userData⟩ := serving.ready.table.segments
  refine ⟨fun image idt v gate listed found => ?_, fun entry stack => ?_, ?_, ?_⟩
  · rw [gate_idtInit listed] at found
    obtain rfl := Option.some.inj found
    exact ⟨_, kernelCode, rfl⟩
  · exact ⟨_, _, kernelCode, rfl, kernelData, rfl⟩
  · exact ⟨_, _, userCode, rfl, userData, rfl⟩
  · rw [ring0Stack, serving.ready.task]
    exact congrArg some serving.rsp

/-- `gdt_init` comes back from everywhere, and from then on gates, threads and interrupts of ring 3
find what they need, however often the stack of ring 0 is set and whatever else is written. -/
theorem segments_serve (layout : Layout gdt tss rsp) (reloadCs : UInt64) (s₀ : State)
    (static : load 8 s₀.mem (tss + 4) = 0) :
    ∃ s₁, gdtInit gdt tss rsp reloadCs s₀ = some s₁ ∧
      ∀ h s, Run (step gdt tss) (· = s₁) h s → SegmentsServe h s := by
  obtain ⟨s₁, done, ready, same⟩ := gdtInit_spec layout reloadCs s₀
  have zero : load 8 s₁.mem (tss + 4) = 0 := by
    rw [← static]
    apply load_congr
    intro x low high
    exact same x (by omega) (by
      dsimp only [tssSize]
      omega)
  refine ⟨s₁, done, fun h s run => ?_⟩
  have serving : Serving gdt tss h s := by
    refine Run.history ?_ ?_ run
    · rintro s rfl
      exact ⟨ready, zero⟩
    · intro h s e s' _ serving taken
      exact serving.step layout.apart taken
  exact serving.serve

/-- A table, a task state segment and a stack that are apart, in memory that is zero. -/
theorem segments_serve_zeros : ∃ s₁,
    gdtInit 0x1000 0x2000 0x9000 0x4000 ⟨fun _ => 0, ⟨0, 0⟩, ⟨0, 0, 0⟩, none⟩ = some s₁ ∧
      ∀ h s, Run (step 0x1000 0x2000) (· = s₁) h s → SegmentsServe h s :=
  segments_serve ⟨by decide, by decide, by decide, by decide, by decide⟩ 0x4000 _ (by simp [load])

end Gdt

end DedOS
