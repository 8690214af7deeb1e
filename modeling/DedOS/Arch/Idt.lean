import DedOS.Arch.Isr

/-!
# `idt.c`

The table of gates that `idt_init` builds, and what the processor does with it: it reads the
address of a stub back from the parts of an entry, saves the interrupted registers and goes on
at the stub. `interrupt_handled` takes an interrupt from the interrupted instruction through
`isr_handler` and back.
-/

namespace DedOS

open Lib

/-- `idt_entry_t` -/
structure IdtEntry where
  isrLow : UInt16
  kernelCs : UInt16
  ist : UInt8
  attributes : UInt8
  isrMid : UInt16
  isrHigh : UInt32
  reserved : UInt32
  deriving DecidableEq

/-- The table has an entry for every vector. -/
abbrev Idt := UInt8 → IdtEntry

/-- The entry that `idt_set_entry` writes. -/
def idtEntry (handler : UInt64) (flags : UInt8) : IdtEntry where
  isrLow := (handler &&& 0xFFFF).toUInt16
  kernelCs := 0x08
  ist := 0
  attributes := flags
  isrMid := ((handler >>> 16) &&& 0xFFFF).toUInt16
  isrHigh := ((handler >>> 32) &&& 0xFFFFFFFF).toUInt32
  reserved := 0

def idtSetEntry (vector : UInt8) (handler : UInt64) (flags : UInt8) (idt : Idt) : Idt :=
  Function.update idt vector (idtEntry handler flags)

namespace Isr

/-- Where the linker has put the code. -/
structure Image where
  address : Label → UInt64
  labelAt : UInt64 → Option Label
  labelAt_address : ∀ l, labelAt (address l) = some l

end Isr

open Isr

def isrStubTable (image : Image) : List UInt64 :=
  (List.finRange 32).map fun v => image.address (.isrStub v)

def irqStubTable (image : Image) : List UInt64 :=
  (List.finRange 16).map fun irq => image.address (.irqStub irq)

/-- A loop of `idt_init`, from `vector` on. -/
def setEntries : List UInt64 → UInt8 → Idt → Idt
  | [], _, idt => idt
  | handler :: table, vector, idt =>
    setEntries table (vector + 1) (idtSetEntry vector handler 0x8E idt)

/-- `idt_init`, up to `pic_init`. -/
def idtInit (image : Image) (idt : Idt) : Idt :=
  setEntries (irqStubTable image) 32 (setEntries (isrStubTable image) 0 idt)

/-! ### The processor -/

/-- What the processor makes of an entry. -/
structure Gate where
  offset : UInt64
  selector : UInt16
  deriving DecidableEq

/-- A present interrupt gate; its offset lies in the entry in three parts. -/
def IdtEntry.gate (e : IdtEntry) : Option Gate :=
  if e.attributes &&& 0x80 ≠ 0 ∧ e.attributes &&& 0x0F = 0x0E then some {
    offset := UInt64.ofNat
      (e.isrLow.toNat + 2 ^ 16 * e.isrMid.toNat + 2 ^ 32 * e.isrHigh.toNat)
    selector := e.kernelCs }
  else none

/-- What interrupts. -/
inductive Cause where
  | exception (v : Fin 32) (code : UInt64)
  | hardware (vector : UInt8)
  /-- `int $vector` -/
  | software (vector : UInt8)

/-- The exceptions for which the processor pushes an error code. -/
def errorCodes : List Nat := [8, 10, 11, 12, 13, 14, 17, 21, 29, 30]

namespace Cause

def vector : Cause → UInt8
  | exception v _ => UInt8.ofNat v
  | hardware vector => vector
  | software vector => vector

/-- The error code that is pushed. -/
def error : Cause → Option UInt64
  | exception v code => if v.val ∈ errorCodes then some code else none
  | hardware _ => none
  | software _ => none

/-- Devices and `int` use the vectors that are not exceptions. -/
def Legal : Cause → Prop
  | exception _ _ => True
  | hardware vector => 32 ≤ vector.toNat
  | software vector => 32 ≤ vector.toNat

instance : (cause : Cause) → Decidable cause.Legal
  | exception _ _ => instDecidableTrue
  | hardware vector => inferInstanceAs (Decidable (32 ≤ vector.toNat))
  | software vector => inferInstanceAs (Decidable (32 ≤ vector.toNat))

end Cause

namespace Isr

variable {σ : Type}

/-- The stack pointer an interrupt starts from: of ring 0, aligned. -/
def interruptStack (tssRsp0 : UInt64) (cpu : Cpu) : UInt64 :=
  (if cpu.cs &&& 3 = 0 then cpu.rsp else tssRsp0) &&& ~~~0xF

/-- The processor goes through a gate: it saves what `iretq` restores and masks interrupts. -/
def enter (gate : Gate) (tssRsp0 : UInt64) (error : Option UInt64) (s : State σ) : State σ :=
  let stack := Stack.pushAll ⟨s.mem, interruptStack tssRsp0 s.cpu⟩
    ([s.cpu.ss, s.cpu.rsp, s.cpu.rflags, s.cpu.cs, s.cpu.rip] ++ error.toList)
  { s with
    cpu := { s.cpu with
      rip := gate.offset
      cs := gate.selector.toUInt64
      rflags := s.cpu.rflags &&& ~~~0x14300
      rsp := stack.sp
      ss := if s.cpu.cs &&& 3 = 0 then s.cpu.ss else 0 }
    mem := stack.mem }

/-- An interrupt from its cause to the `iretq` that ends it. -/
def interrupt (image : Image) (idt : Idt) (tssRsp0 : UInt64) (handler : Handler σ)
    (callee : Callee) (fuel : Nat) (cause : Cause) (s : State σ) : Except Stop (State σ) :=
  match (idt cause.vector).gate with
  | none => .error .noGate
  | some gate =>
    match image.labelAt gate.offset with
    | none => .error .noCode
    | some l => exec handler callee fuel (code l) (enter gate tssRsp0 cause.error s)

end Isr

/-! ### The gates -/

section

variable {image : Image} {idt : Idt} {table : List UInt64} {first vector : UInt8}
  {handler : UInt64} {i : Nat}

/-- The processor reads back the address that `idt_set_entry` has taken apart. -/
theorem gate_idtEntry (handler : UInt64) :
    (idtEntry handler 0x8E).gate = some { offset := handler, selector := 0x08 } := by
  have mask₁₆ : ∀ x : Nat, x &&& 65535 = x % 65536 := fun x => Nat.and_two_pow_sub_one_eq_mod x 16
  have mask₃₂ : ∀ x : Nat, x &&& 4294967295 = x % 4294967296 := fun x =>
    Nat.and_two_pow_sub_one_eq_mod x 32
  have low : (idtEntry handler 0x8E).isrLow.toNat = handler.toNat % 2 ^ 16 := by
    simp [idtEntry, mask₁₆]
  have mid : (idtEntry handler 0x8E).isrMid.toNat = handler.toNat / 2 ^ 16 % 2 ^ 16 := by
    simp [idtEntry, mask₁₆, Nat.shiftRight_eq_div_pow]
  have high : (idtEntry handler 0x8E).isrHigh.toNat = handler.toNat / 2 ^ 32 % 2 ^ 32 := by
    simp [idtEntry, mask₃₂, Nat.shiftRight_eq_div_pow]
  have word := handler.toNat_lt
  have whole : handler.toNat % 2 ^ 16 + 2 ^ 16 * (handler.toNat / 2 ^ 16 % 2 ^ 16) +
      2 ^ 32 * (handler.toNat / 2 ^ 32 % 2 ^ 32) = handler.toNat := by
    omega
  have present : (0x8E : UInt8) &&& 0x80 ≠ 0 ∧ (0x8E : UInt8) &&& 0x0F = 0x0E := by decide
  rw [IdtEntry.gate, low, mid, high, whole, UInt64.ofNat_toNat]
  exact if_pos present

theorem toNat_succ {v : UInt8} (fits : v.toNat + 1 < 256) : (v + 1).toNat = v.toNat + 1 := by
  have one : (1 : UInt8).toNat = 1 := rfl
  rw [UInt8.toNat_add, one]
  omega

theorem setEntries_outside
    (outside : vector.toNat < first.toNat ∨ first.toNat + table.length ≤ vector.toNat)
    (fits : first.toNat + table.length ≤ 256) : setEntries table first idt vector = idt vector := by
  induction table generalizing first idt with
  | nil => rfl
  | cons handler table ih =>
    rw [List.length_cons] at outside fits
    have differ : vector ≠ first := by
      rintro rfl
      omega
    have other : idtSetEntry first handler 0x8E idt vector = idt vector :=
      Function.update_of_ne differ ..
    cases table with
    | nil => exact other
    | cons next table =>
      rw [List.length_cons] at outside fits
      have step : (first + 1).toNat = first.toNat + 1 := toNat_succ (by omega)
      rw [setEntries, ih, other]
      · rw [step, List.length_cons]
        omega
      · rw [step, List.length_cons]
        omega

theorem setEntries_inside (listed : table[i]? = some handler)
    (fits : first.toNat + table.length ≤ 256) :
    setEntries table first idt (first + UInt8.ofNat i) = idtEntry handler 0x8E := by
  induction table generalizing first idt i with
  | nil => cases listed
  | cons head table ih =>
    rw [List.length_cons] at fits
    rw [setEntries]
    cases i with
    | zero =>
      obtain rfl := Option.some.inj listed
      have here : first + UInt8.ofNat 0 = first := by simp
      rw [here]
      cases table with
      | nil => exact Function.update_self ..
      | cons next table =>
        rw [List.length_cons] at fits
        have step : (first + 1).toNat = first.toNat + 1 := toNat_succ (by omega)
        rw [setEntries_outside (by omega) (by rw [step, List.length_cons]; omega)]
        exact Function.update_self ..
    | succ i =>
      rw [List.getElem?_cons_succ] at listed
      have bound := (List.getElem?_eq_some_iff.mp listed).1
      have step : (first + 1).toNat = first.toNat + 1 := toNat_succ (by omega)
      have place : first + UInt8.ofNat (i + 1) = first + 1 + UInt8.ofNat i := by
        rw [UInt8.ofNat_add, UInt8.add_assoc, UInt8.add_comm 1]
        rfl
      rw [place]
      exact ih listed (by omega)

/-- The stub of a vector that `idt_init` has given one. -/
def stub (vector : UInt8) (listed : vector.toNat < 48) : Label :=
  if low : vector.toNat < 32 then .isrStub ⟨vector.toNat, low⟩
  else .irqStub ⟨vector.toNat - 32, by omega⟩

/-- Every vector below 48 has a gate to its own stub. -/
theorem gate_idtInit (listed : vector.toNat < 48) : (idtInit image idt vector).gate =
    some { offset := image.address (stub vector listed), selector := 0x08 } := by
  have firstLength : (isrStubTable image).length = 32 := by simp [isrStubTable]
  have secondLength : (irqStubTable image).length = 16 := by simp [irqStubTable]
  have offset : (32 : UInt8).toNat = 32 := rfl
  have zero : (0 : UInt8).toNat = 0 := rfl
  rw [idtInit, stub]
  split
  next low =>
    have member : (isrStubTable image)[vector.toNat]? =
        some (image.address (.isrStub ⟨vector.toNat, low⟩)) := by
      simp [isrStubTable, low]
    have written : setEntries (isrStubTable image) 0 idt (0 + UInt8.ofNat vector.toNat) =
        idtEntry (image.address (.isrStub ⟨vector.toNat, low⟩)) 0x8E :=
      setEntries_inside member (by omega)
    rw [UInt8.zero_add, UInt8.ofNat_toNat] at written
    rw [setEntries_outside (by omega) (by omega), written, gate_idtEntry]
  next high =>
    have small : vector.toNat - 32 < 16 := by omega
    have member : (irqStubTable image)[vector.toNat - 32]? =
        some (image.address (.irqStub ⟨vector.toNat - 32, small⟩)) := by
      simp [irqStubTable, small]
    have place : 32 + UInt8.ofNat (vector.toNat - 32) = vector := by
      apply UInt8.toNat_inj.mp
      rw [UInt8.toNat_add, UInt8.toNat_ofNat', offset]
      omega
    have written : setEntries (irqStubTable image) 32 (setEntries (isrStubTable image) 0 idt)
        (32 + UInt8.ofNat (vector.toNat - 32)) =
          idtEntry (image.address (.irqStub ⟨vector.toNat - 32, small⟩)) 0x8E :=
      setEntries_inside member (by omega)
    rw [place] at written
    rw [written, gate_idtEntry]

/-- The other entries stay as they were. -/
theorem idtInit_other (other : 48 ≤ vector.toNat) : idtInit image idt vector = idt vector := by
  have firstLength : (isrStubTable image).length = 32 := by simp [isrStubTable]
  have secondLength : (irqStubTable image).length = 16 := by simp [irqStubTable]
  have offset : (32 : UInt8).toNat = 32 := rfl
  have zero : (0 : UInt8).toNat = 0 := rfl
  rw [idtInit, setEntries_outside (by omega) (by omega), setEntries_outside (by omega) (by omega)]

end

/-! ### A whole interrupt -/

namespace Isr

variable {σ : Type} {handler : Handler σ} {callee : Callee} {s : State σ} {fuel : Nat}
  {image : Image} {idt : Idt} {tssRsp0 : UInt64} {cause : Cause}

/-- What the stub of a vector pushes. -/
def stubWords (vector : UInt8) : List UInt64 :=
  if vector.toNat ∈ errStubs then [UInt64.ofNat vector.toNat] else [0, UInt64.ofNat vector.toNat]

theorem errStubs_low {n : Nat} (member : n ∈ errStubs) : n < 32 := by
  revert n
  decide

/-- A stub pushes its words and goes on at `isr_common`. -/
theorem exec_stub (vector : UInt8) (listed : vector.toNat < 48) : ∃ left,
    exec handler callee (fuel + 3) (code (stub vector listed)) s =
      exec handler callee (fuel + left) (code .isrCommon)
        (s.setStack (s.stack.pushAll (stubWords vector))) := by
  rw [stubWords]
  by_cases low : vector.toNat < 32
  · have label : stub vector listed = .isrStub ⟨vector.toNat, low⟩ := dif_pos low
    rw [label, code]
    by_cases pushes : vector.toNat ∈ errStubs
    · refine ⟨1, ?_⟩
      rw [if_pos pushes, if_pos pushes, exec, exec]
      rfl
    · refine ⟨0, ?_⟩
      rw [if_neg pushes, if_neg pushes, exec, exec, exec]
      rfl
  · have label : stub vector listed = .irqStub ⟨vector.toNat - 32, by omega⟩ := dif_neg low
    have vectorWord : 32 + (vector.toNat - 32) = vector.toNat := by omega
    refine ⟨0, ?_⟩
    rw [label, code, if_neg fun pushes => low (errStubs_low pushes), exec, exec, exec, vectorWord]
    rfl

/-- The instructions of a stub and of `isr_common`. -/
def interruptLength : Nat := commonLength + 3

/-- The interrupt is handled as one with the frame `f`: `isr_handler` is given `f`, the
processor continues with the registers that it has left in the frame, and the memory above the
stack pointer of the interrupt is as before. -/
def HandledAs (image : Image) (idt : Idt) (tssRsp0 : UInt64) (handler : Handler σ)
    (callee : Callee) (cause : Cause) (s : State σ) (f : Registers) : Prop :=
  ∀ fuel ≥ interruptLength,
    match handler f s.world with
    | none => interrupt image idt tssRsp0 handler callee fuel cause s = .error .halted
    | some (f', world) => ∃ s', interrupt image idt tssRsp0 handler callee fuel cause s = .ok s' ∧
        Resumes s (interruptStack tssRsp0 s.cpu).toNat f' world s'

/-- What the processor and the stub push. -/
def entryWords (cause : Cause) (cpu : Cpu) : List UInt64 :=
  ([cpu.ss, cpu.rsp, cpu.rflags, cpu.cs, cpu.rip] ++ cause.error.toList) ++
    stubWords cause.vector

/-- The frame is the one whose tail has been pushed. -/
theorem handledAs_of_tail {f : Registers} {more : List UInt64} (listed : cause.vector.toNat < 48)
    (regs : s.cpu.reg = f.reg)
    (words : (entryWords cause s.cpu).reverse = frameTail f ++ more)
    (room : registersSize + 8 * more.length ≤ (interruptStack tssRsp0 s.cpu).toNat) :
    HandledAs image (idtInit image idt) tssRsp0 handler callee cause s f := by
  obtain ⟨base, isBase⟩ : ∃ base : Stack, base = ⟨s.mem, interruptStack tssRsp0 s.cpu⟩ := ⟨_, rfl⟩
  obtain ⟨all, isAll⟩ : ∃ all, all = entryWords cause s.cpu := ⟨_, rfl⟩
  have baseSp : base.sp = interruptStack tssRsp0 s.cpu := by rw [isBase]
  have baseMem : base.mem = s.mem := by rw [isBase]
  rw [← baseSp] at room
  dsimp only [registersSize] at room
  have count : all.length = 7 + more.length := by
    rw [← List.length_reverse, isAll, words, List.length_append, length_frameTail]
  have pushed : Stack.Pushed base all (base.pushAll all) := Stack.pushAll_spec (by omega)
  have sp := pushed.sp
  obtain ⟨s₁, isS₁⟩ : ∃ s₁ : State σ, s₁ =
      (enter ⟨image.address (stub cause.vector listed), 0x08⟩ tssRsp0 cause.error s).setStack
        (base.pushAll all) := ⟨_, rfl⟩
  have rsp : s₁.cpu.rsp = (base.pushAll all).sp := by rw [isS₁]; rfl
  have mem : s₁.mem = (base.pushAll all).mem := by rw [isS₁]; rfl
  have regs₁ : s₁.cpu.reg = f.reg := by rw [isS₁]; exact regs
  have world₁ : s₁.world = s.world := by rw [isS₁]; rfl
  have tail : WordsAt s₁.mem s₁.cpu.rsp.toNat (frameTail f) := by
    have below := pushed.words
    rw [isAll, words, ← isAll, wordsAt_append] at below
    rw [rsp, mem]
    exact below.1
  have outside := pushed.outside
  rw [← rsp, baseSp] at sp outside
  rw [baseSp] at room
  have high := (interruptStack tssRsp0 s.cpu).toNat_lt
  intro fuel enough
  obtain ⟨k, rfl⟩ : ∃ k, fuel = k + commonLength + 3 :=
    ⟨fuel - interruptLength, by simp only [interruptLength] at *; omega⟩
  -- the instructions of the stub
  have entered : ∃ left, interrupt image (idtInit image idt) tssRsp0 handler callee
      (k + commonLength + 3) cause s =
        exec handler callee (commonLength + (k + left)) (code .isrCommon) s₁ := by
    obtain ⟨left, run⟩ := @exec_stub σ handler callee
      (enter ⟨image.address (stub cause.vector listed), 0x08⟩ tssRsp0 cause.error s)
      (k + commonLength) cause.vector listed
    refine ⟨left, ?_⟩
    have stack : (enter ⟨image.address (stub cause.vector listed), 0x08⟩ tssRsp0 cause.error
        s).stack.pushAll (stubWords cause.vector) = base.pushAll all := by
      rw [isAll, entryWords, Stack.pushAll_append, isBase]
      rfl
    have order : commonLength + (k + left) = k + commonLength + left := by omega
    rw [interrupt, gate_idtInit listed]
    simp only [image.labelAt_address]
    rw [run, stack, ← isS₁, order]
  obtain ⟨left, entered⟩ := entered
  have common := @exec_isrCommon σ handler callee s₁ (k + left) f regs₁ tail (by omega) (by omega)
  rw [world₁] at common
  rw [entered]
  cases done : handler f s.world with
  | none =>
    rw [done] at common
    exact common
  | some returned =>
    rw [done] at common
    obtain ⟨s', finished, resumes⟩ := common
    refine ⟨s', finished, resumes.cpu, resumes.world, ?_⟩
    intro x above
    rw [resumes.above x (by omega), mem, outside x (Or.inr above), baseMem]

/-- The stub pushes an error code if and only if the processor has not. -/
def Complete (cause : Cause) : Prop :=
  (stubWords cause.vector).length + cause.error.toList.length = 2

/-- The frame that `isr_handler` should see. -/
def causeFrame (cause : Cause) (cpu : Cpu) : Registers :=
  cpu.frame (UInt64.ofNat cause.vector.toNat) (cause.error.getD 0)

/-- With one error code on the stack the frame is the one of the interrupted registers. -/
theorem handledAs_causeFrame (listed : cause.vector.toNat < 48) (complete : Complete cause)
    (room : registersSize ≤ (interruptStack tssRsp0 s.cpu).toNat) :
    HandledAs image (idtInit image idt) tssRsp0 handler callee cause s
      (causeFrame cause s.cpu) := by
  have regs : s.cpu.reg = (causeFrame cause s.cpu).reg := (Cpu.frame_reg s.cpu _ _).symm
  have words : (entryWords cause s.cpu).reverse =
      frameTail (causeFrame cause s.cpu) ++ [] := by
    unfold Complete at complete
    unfold entryWords
    unfold stubWords at complete ⊢
    cases pushed : cause.error with
    | none =>
      rw [pushed] at complete
      split
      next single => simp [if_pos single] at complete
      next => simp [causeFrame, pushed, frameTail, Cpu.frame]
    | some code =>
      rw [pushed] at complete
      split
      next => simp [causeFrame, pushed, frameTail, Cpu.frame]
      next double => simp [if_neg double] at complete
  exact handledAs_of_tail listed regs words room

/-- An exception whose error code the stub does not expect: 21 (control protection) or 29
(VMM communication). -/
def Unexpected : Cause → Prop
  | .exception v _ => v.val = 21 ∨ v.val = 29
  | _ => False

theorem exception_vector (v : Fin 32) (code : UInt64) :
    (Cause.exception v code).vector.toNat = v.val := by
  have small := v.isLt
  rw [Cause.vector, UInt8.toNat_ofNat']
  omega

theorem complete_exception (v : Fin 32) (code : UInt64) :
    Complete (.exception v code) ↔ ¬ Unexpected (.exception v code) := by
  have agree : ∀ n < 32, (n ∈ errStubs ↔ n ∈ errorCodes) ↔ ¬ (n = 21 ∨ n = 29) := by decide
  rw [Complete, Unexpected, ← agree v v.isLt, stubWords, exception_vector, Cause.error]
  by_cases expects : v.val ∈ errStubs <;> by_cases pushes : v.val ∈ errorCodes <;>
    simp [expects, pushes]

theorem complete_irq (none : cause.error = none) (high : 32 ≤ cause.vector.toNat) :
    Complete cause := by
  have noError : ¬ cause.vector.toNat ∈ errStubs := fun pushes =>
    absurd (errStubs_low pushes) (by omega)
  rw [Complete, stubWords, if_neg noError, none]
  rfl

theorem complete_iff (legal : cause.Legal) : Complete cause ↔ ¬ Unexpected cause := by
  cases cause with
  | exception v code => exact complete_exception v code
  | hardware vector =>
    have complete : Complete (.hardware vector) := complete_irq rfl legal
    simp [complete, Unexpected]
  | software vector =>
    have complete : Complete (.software vector) := complete_irq rfl legal
    simp [complete, Unexpected]

end Isr

namespace Isr

def labels : List Label :=
  (List.finRange 32).map .isrStub ++ (List.finRange 16).map .irqStub ++ [.isrCommon]

/-- Sixteen bytes for each stub. -/
def flatAddress : Label → UInt64
  | .isrStub v => 0xFFFFFFFF80001000 + 16 * UInt64.ofNat v
  | .irqStub irq => 0xFFFFFFFF80001200 + 16 * UInt64.ofNat irq
  | .isrCommon => 0xFFFFFFFF80001300

theorem flatAddress_found (l : Label) : labels.find? (flatAddress · = flatAddress l) = some l := by
  cases l with
  | isrStub v => revert v; decide +kernel
  | irqStub irq => revert irq; decide +kernel
  | isrCommon => decide +kernel

def flatImage : Image where
  address := flatAddress
  labelAt a := labels.find? (flatAddress · = a)
  labelAt_address := flatAddress_found

end Isr

end DedOS
