import DedOS.Lib.Stack
import DedOS.Scheduler.Thread

/-!
# `isr.asm`

The entry code of every interrupt, executed instruction by instruction: a stub completes what
the processor has pushed to the tail of a `registers_t`, `isr_common` pushes the general
registers below it, calls `isr_handler` with the address of the whole, and pops everything
again. `exec_isrCommon` says what comes of it.
-/

namespace DedOS

open Lib

/-- The general registers but `rsp`. -/
inductive Reg where
  | rax
  | rbx
  | rcx
  | rdx
  | rsi
  | rdi
  | rbp
  | r8
  | r9
  | r10
  | r11
  | r12
  | r13
  | r14
  | r15
  deriving DecidableEq

structure Cpu where
  reg : Reg → UInt64
  rip : UInt64
  cs : UInt64
  rflags : UInt64
  rsp : UInt64
  ss : UInt64

/-! ### `registers_t` in memory -/

/-- The members of `registers_t` in the order of the declaration. -/
def Registers.words (f : Registers) : List UInt64 := [
  f.r15, f.r14, f.r13, f.r12, f.r11, f.r10, f.r9, f.r8,
  f.rbp, f.rdi, f.rsi, f.rdx, f.rcx, f.rbx, f.rax,
  f.vector, f.errorCode,
  f.rip, f.cs, f.rflags, f.rsp, f.ss]

def Registers.reg (f : Registers) : Reg → UInt64
  | .rax => f.rax
  | .rbx => f.rbx
  | .rcx => f.rcx
  | .rdx => f.rdx
  | .rsi => f.rsi
  | .rdi => f.rdi
  | .rbp => f.rbp
  | .r8 => f.r8
  | .r9 => f.r9
  | .r10 => f.r10
  | .r11 => f.r11
  | .r12 => f.r12
  | .r13 => f.r13
  | .r14 => f.r14
  | .r15 => f.r15

/-- `sizeof(registers_t)` -/
def registersSize : Nat := 176

/-- The frame at an address. -/
def readFrame (m : Memory) (a : Nat) : Registers where
  r15 := word m a
  r14 := word m (a + 8)
  r13 := word m (a + 16)
  r12 := word m (a + 24)
  r11 := word m (a + 32)
  r10 := word m (a + 40)
  r9 := word m (a + 48)
  r8 := word m (a + 56)
  rbp := word m (a + 64)
  rdi := word m (a + 72)
  rsi := word m (a + 80)
  rdx := word m (a + 88)
  rcx := word m (a + 96)
  rbx := word m (a + 104)
  rax := word m (a + 112)
  vector := word m (a + 120)
  errorCode := word m (a + 128)
  rip := word m (a + 136)
  cs := word m (a + 144)
  rflags := word m (a + 152)
  rsp := word m (a + 160)
  ss := word m (a + 168)

def writeFrame (m : Memory) (a : Nat) (f : Registers) : Memory := storeWords m a f.words

/-- The frame of a processor with these registers. -/
def Cpu.frame (cpu : Cpu) (vector errorCode : UInt64) : Registers where
  r15 := cpu.reg .r15
  r14 := cpu.reg .r14
  r13 := cpu.reg .r13
  r12 := cpu.reg .r12
  r11 := cpu.reg .r11
  r10 := cpu.reg .r10
  r9 := cpu.reg .r9
  r8 := cpu.reg .r8
  rbp := cpu.reg .rbp
  rdi := cpu.reg .rdi
  rsi := cpu.reg .rsi
  rdx := cpu.reg .rdx
  rcx := cpu.reg .rcx
  rbx := cpu.reg .rbx
  rax := cpu.reg .rax
  vector := vector
  errorCode := errorCode
  rip := cpu.rip
  cs := cpu.cs
  rflags := cpu.rflags
  rsp := cpu.rsp
  ss := cpu.ss

/-- The registers that a frame stands for. -/
def Cpu.ofFrame (f : Registers) : Cpu where
  reg := f.reg
  rip := f.rip
  cs := f.cs
  rflags := f.rflags
  rsp := f.rsp
  ss := f.ss

@[simp] theorem length_words (f : Registers) : f.words.length = 22 := rfl

theorem Cpu.frame_reg (cpu : Cpu) (vector errorCode : UInt64) :
    (cpu.frame vector errorCode).reg = cpu.reg := by
  funext r
  cases r <;> rfl

theorem Cpu.ofFrame_frame (cpu : Cpu) (vector errorCode : UInt64) :
    Cpu.ofFrame (cpu.frame vector errorCode) = cpu := by
  rw [ofFrame, frame_reg]
  rfl

/-- A frame is read as it lies in memory. -/
theorem readFrame_eq {m : Memory} {a : Nat} {f : Registers} (here : WordsAt m a f.words) :
    readFrame m a = f := by
  simp only [Registers.words, wordsAt_cons, Nat.add_assoc, Nat.reduceAdd] at here
  simp only [readFrame, here]

/-! ### The code -/

namespace Isr

inductive Label where
  /-- `isr_stub_v` -/
  | isrStub (v : Fin 32)
  /-- `irq_stub_v`, for `v = 32 + irq` -/
  | irqStub (irq : Fin 16)
  | isrCommon
  deriving DecidableEq

inductive Instr where
  | pushImm (v : UInt64)
  | push (r : Reg)
  | pop (r : Reg)
  /-- `mov rdi, rsp` -/
  | movRdiRsp
  /-- `call isr_handler` -/
  | callIsrHandler
  /-- `add rsp, n` -/
  | addRsp (n : UInt64)
  | jmp (target : Label)
  | iretq
  deriving DecidableEq

/-- The vectors of the `isr_err_stub` lines. -/
def errStubs : List Nat := [8, 10, 11, 12, 13, 14, 17, 30]

/-- The registers in the order in which `isr_common` pushes them. -/
def pushed : List Reg := [
  .rax, .rbx, .rcx, .rdx, .rsi, .rdi, .rbp, .r8, .r9, .r10, .r11, .r12, .r13, .r14, .r15]

/-- The registers in the order in which `isr_common` pops them. -/
def popped : List Reg := [
  .r15, .r14, .r13, .r12, .r11, .r10, .r9, .r8, .rbp, .rdi, .rsi, .rdx, .rcx, .rbx, .rax]

def code : Label → List Instr
  | .isrStub v =>
    if v.val ∈ errStubs then [.pushImm (UInt64.ofNat v), .jmp .isrCommon]
    else [.pushImm 0, .pushImm (UInt64.ofNat v), .jmp .isrCommon]
  | .irqStub irq => [.pushImm 0, .pushImm (UInt64.ofNat (32 + irq)), .jmp .isrCommon]
  | .isrCommon =>
    pushed.map .push ++ .movRdiRsp :: .callIsrHandler :: (popped.map .pop ++ [.addRsp 16, .iretq])

/-! ### Its execution -/

/-- The processor, the memory and everything else that `isr_handler` works on. -/
structure State (σ : Type) where
  cpu : Cpu
  mem : Memory
  world : σ

/-- `isr_handler` on the frame it is given; `none` if it does not return. -/
abbrev Handler (σ : Type) := Registers → σ → Option (Registers × σ)

/-- What compiled code leaves behind: the registers it does not save, and the memory of its
own stack, below the stack pointer. -/
structure Callee where
  reg : Reg → UInt64
  rflags : UInt64
  stack : Memory

inductive Stop where
  /-- the bound on the instructions is used up -/
  | rounds
  /-- `isr_handler` has not returned -/
  | halted
  /-- there is no instruction -/
  | noCode
  /-- the vector has no gate -/
  | noGate
  deriving DecidableEq

variable {σ : Type}

namespace State

def stack (s : State σ) : Stack := ⟨s.mem, s.cpu.rsp⟩

def setStack (s : State σ) (stack : Stack) : State σ :=
  { s with cpu := { s.cpu with rsp := stack.sp }, mem := stack.mem }

def setReg (s : State σ) (r : Reg) (v : UInt64) : State σ :=
  { s with cpu := { s.cpu with reg := Function.update s.cpu.reg r v } }

/-- `call isr_handler`: the frame is at `rdi`. -/
def callIsrHandler (handler : Handler σ) (callee : Callee) (s : State σ) : Option (State σ) :=
  (handler (readFrame s.mem (s.cpu.reg .rdi).toNat) s.world).map fun returned =>
    let mem := fun x => if x < s.cpu.rsp.toNat then callee.stack x else s.mem x
    { cpu := { s.cpu with reg := callee.reg, rflags := callee.rflags }
      mem := writeFrame mem (s.cpu.reg .rdi).toNat returned.1
      world := returned.2 }

/-- `iretq` -/
def iretq (s : State σ) : State σ :=
  { s with cpu := { s.cpu with
      rip := (s.stack.drop 0).top
      cs := (s.stack.drop 1).top
      rflags := (s.stack.drop 2).top
      rsp := (s.stack.drop 3).top
      ss := (s.stack.drop 4).top } }

end State

def exec (handler : Handler σ) (callee : Callee) :
    Nat → List Instr → State σ → Except Stop (State σ)
  | 0, _, _ => .error .rounds
  | _ + 1, [], _ => .error .noCode
  | fuel + 1, instr :: rest, s =>
    match instr with
    | .pushImm v => exec handler callee fuel rest (s.setStack (s.stack.push v))
    | .push r => exec handler callee fuel rest (s.setStack (s.stack.push (s.cpu.reg r)))
    | .pop r =>
      exec handler callee fuel rest ((s.setReg r s.stack.top).setStack (s.stack.drop 1))
    | .movRdiRsp => exec handler callee fuel rest (s.setReg .rdi s.cpu.rsp)
    | .callIsrHandler =>
      match s.callIsrHandler handler callee with
      | none => .error .halted
      | some s => exec handler callee fuel rest s
    | .addRsp n =>
      exec handler callee fuel rest (s.setStack ⟨s.mem, s.cpu.rsp + n⟩)
    | .jmp target => exec handler callee fuel (code target) s
    | .iretq => .ok s.iretq

variable {handler : Handler σ} {callee : Callee} {s : State σ} {fuel : Nat} {rest : List Instr}
  {regs : List Reg}

@[simp] theorem stack_setStack (s : State σ) (stack : Stack) : (s.setStack stack).stack = stack :=
  rfl
@[simp] theorem setStack_reg (s : State σ) (stack : Stack) : (s.setStack stack).cpu.reg = s.cpu.reg :=
  rfl

@[simp] theorem setStack_mem (s : State σ) (stack : Stack) : (s.setStack stack).mem = stack.mem := rfl
@[simp] theorem setStack_world (s : State σ) (stack : Stack) : (s.setStack stack).world = s.world :=
  rfl

@[simp] theorem setReg_same (s : State σ) (r : Reg) (v : UInt64) : (s.setReg r v).cpu.reg r = v := by
  simp [State.setReg]

theorem iretq_cpu (s : State σ) : s.iretq.cpu = {
    reg := s.cpu.reg
    rip := (s.stack.drop 0).top
    cs := (s.stack.drop 1).top
    rflags := (s.stack.drop 2).top
    rsp := (s.stack.drop 3).top
    ss := (s.stack.drop 4).top } := rfl

theorem iretq_world (s : State σ) : s.iretq.world = s.world := rfl

theorem iretq_mem (s : State σ) : s.iretq.mem = s.mem := rfl

/-- A block of pushes. -/
theorem exec_pushes : exec handler callee (regs.length + fuel) (regs.map .push ++ rest) s =
    exec handler callee fuel rest (s.setStack (s.stack.pushAll (regs.map s.cpu.reg))) := by
  induction regs generalizing s with
  | nil => rw [List.length_nil, Nat.zero_add]; rfl
  | cons r regs ih =>
    rw [List.length_cons, Nat.add_right_comm, List.map_cons, List.cons_append, exec, ih]
    rfl

/-- The registers after a block of pops. -/
def popRegs : List Reg → State σ → State σ
  | [], s => s
  | r :: regs, s => popRegs regs ((s.setReg r s.stack.top).setStack (s.stack.drop 1))

/-- A block of pops. -/
theorem exec_pops : exec handler callee (regs.length + fuel) (regs.map .pop ++ rest) s =
    exec handler callee fuel rest (popRegs regs s) := by
  induction regs generalizing s with
  | nil => rw [List.length_nil, Nat.zero_add]; rfl
  | cons r regs ih =>
    rw [List.length_cons, Nat.add_right_comm, List.map_cons, List.cons_append, exec, ih]
    rfl

/-- Popping puts the words of the stack into the registers of the block, in order. -/
theorem popRegs_spec {value : Reg → UInt64} (distinct : regs.Nodup)
    (here : WordsAt s.mem s.cpu.rsp.toNat (regs.map value))
    (fits : s.cpu.rsp.toNat + 8 * regs.length < 2 ^ 64) :
    (popRegs regs s).cpu = { s.cpu with
      reg := fun r => if r ∈ regs then value r else s.cpu.reg r
      rsp := (popRegs regs s).cpu.rsp } ∧
    (popRegs regs s).cpu.rsp.toNat = s.cpu.rsp.toNat + 8 * regs.length ∧
    (popRegs regs s).mem = s.mem ∧ (popRegs regs s).world = s.world := by
  induction regs generalizing s with
  | nil => simp [popRegs]
  | cons r regs ih =>
    obtain ⟨first, others⟩ := here
    obtain ⟨new, distinct⟩ := List.nodup_cons.mp distinct
    rw [List.length_cons] at fits
    have next : (s.stack.drop 1).sp.toNat = s.cpu.rsp.toNat + 8 := Stack.drop_sp_toNat (by
      change s.cpu.rsp.toNat + 8 * 1 < 2 ^ 64
      omega)
    obtain ⟨cpu, rsp, mem, world⟩ :=
      ih (s := (s.setReg r s.stack.top).setStack (s.stack.drop 1)) distinct (by
        rw [← next] at others
        exact others) (by
        change (s.stack.drop 1).sp.toNat + _ < _
        omega)
    have top : s.stack.top = value r := first
    refine ⟨?_, ?_, mem, world⟩
    · rw [popRegs, cpu]
      have same : (fun q => if q ∈ regs then value q else
          ((s.setReg r s.stack.top).setStack (s.stack.drop 1)).cpu.reg q) =
            fun q => if q ∈ r :: regs then value q else s.cpu.reg q := by
        funext q
        by_cases member : q ∈ regs
        · simp [member]
        · by_cases here : q = r
          · subst here
            simp [member, State.setReg, top]
          · simp [member, here, State.setReg]
      rw [same]
      rfl
    · rw [popRegs, rsp]
      change (s.stack.drop 1).sp.toNat + _ = _
      rw [List.length_cons]
      omega

theorem mem_popped (r : Reg) : r ∈ popped := by cases r <;> decide

theorem nodup_popped : popped.Nodup := by decide

/-- A frame is the general registers, in the order of the pops, and the tail that the processor
and the stub have pushed. -/
def frameTail (f : Registers) : List UInt64 :=
  [f.vector, f.errorCode, f.rip, f.cs, f.rflags, f.rsp, f.ss]

@[simp] theorem length_frameTail (f : Registers) : (frameTail f).length = 7 := rfl

theorem words_eq (f : Registers) : f.words = popped.map f.reg ++ frameTail f := rfl

/-- The frame was handled: the processor continues with the registers of `f`, and nothing in
the memory from `top` on has changed. -/
structure Resumes (s : State σ) (top : Nat) (f : Registers) (world : σ) (s' : State σ) : Prop where
  cpu : s'.cpu = Cpu.ofFrame f
  world : s'.world = world
  above : ∀ x, top ≤ x → s'.mem x = s.mem x

/-- The end of `isr_common`, from the general registers of a frame on the stack. -/
theorem exec_return {f : Registers} (here : WordsAt s.mem s.cpu.rsp.toNat f.words)
    (fits : s.cpu.rsp.toNat + registersSize < 2 ^ 64) : ∃ s',
      exec handler callee (popped.length + (2 + fuel)) (popped.map .pop ++ [.addRsp 16, .iretq]) s =
        .ok s' ∧ s'.cpu = Cpu.ofFrame f ∧ s'.world = s.world ∧ s'.mem = s.mem := by
  rw [words_eq, wordsAt_append] at here
  obtain ⟨general, tail⟩ := here
  have length : popped.length = 15 := rfl
  rw [List.length_map, length] at tail
  dsimp only [registersSize] at fits
  obtain ⟨cpu, rsp, mem, world⟩ := popRegs_spec nodup_popped general (by omega)
  rw [exec_pops]
  generalize popRegs popped s = s₁ at cpu rsp mem world
  rw [Nat.add_comm 2, exec, exec]
  refine ⟨_, rfl, ?cpu, ?world, ?mem⟩
  case world => rw [iretq_world, setStack_world, world]
  case mem => rw [iretq_mem, setStack_mem, mem]
  -- the words behind the vector and the error code
  have base : (s₁.cpu.rsp + 16).toNat = s.cpu.rsp.toNat + 8 * 15 + 16 := by
    have sixteen : (16 : UInt64).toNat = 16 := rfl
    rw [UInt64.toNat_add, rsp, sixteen, length]
    omega
  obtain ⟨stack, isStack⟩ : ∃ stack : Stack, stack = ⟨s₁.mem, s₁.cpu.rsp + 16⟩ := ⟨_, rfl⟩
  have read : ∀ n (inside : n + 2 < (frameTail f).length),
      (stack.drop n).top = (frameTail f)[n + 2] := by
    intro n inside
    rw [length_frameTail] at inside
    have place := Stack.drop_sp_toNat (s := stack) (n := n) (by
      rw [isStack]
      dsimp only
      omega)
    rw [Stack.top, place, isStack, base, ← tail.get (by rwa [length_frameTail])]
    change word s₁.mem _ = _
    rw [mem]
    congr 1
    omega
  have rip := read 0 (by simp)
  have cs := read 1 (by simp)
  have rflags := read 2 (by simp)
  have rsp := read 3 (by simp)
  have ss := read 4 (by simp)
  have general : s₁.cpu.reg = f.reg := by
    funext r
    rw [cpu]
    exact if_pos (mem_popped r)
  rw [← isStack, iretq_cpu, stack_setStack, setStack_reg, general, rip, cs, rflags, rsp, ss]
  rfl

/-- The number of instructions of `isr_common`. -/
def commonLength : Nat := 34

/-- From the tail of a frame on the stack, `isr_common` completes the frame, has it handled and
continues with the registers that the handler has left in it. -/
theorem exec_isrCommon {f : Registers} (regs : s.cpu.reg = f.reg)
    (tail : WordsAt s.mem s.cpu.rsp.toNat (frameTail f)) (room : 120 ≤ s.cpu.rsp.toNat)
    (fits : s.cpu.rsp.toNat + 56 < 2 ^ 64) :
    match handler f s.world with
    | none => exec handler callee (commonLength + fuel) (code .isrCommon) s = .error .halted
    | some (f', world) => ∃ s',
        exec handler callee (commonLength + fuel) (code .isrCommon) s = .ok s' ∧
          Resumes s (s.cpu.rsp.toNat + 56) f' world s' := by
  have length : commonLength + fuel = pushed.length + (popped.length + (2 + fuel) + 1 + 1) := by
    change 34 + fuel = 15 + (15 + (2 + fuel) + 1 + 1)
    omega
  have saved : Stack.Pushed s.stack (pushed.map s.cpu.reg)
      (s.stack.pushAll (pushed.map s.cpu.reg)) := Stack.pushAll_spec room
  rw [length, code, exec_pushes]
  generalize s.stack.pushAll (pushed.map s.cpu.reg) = stack at saved
  have sp : stack.sp.toNat = s.cpu.rsp.toNat - 120 := saved.sp
  -- the frame is complete
  have frame : WordsAt stack.mem stack.sp.toNat f.words := by
    rw [words_eq, wordsAt_append]
    constructor
    · have below := saved.words
      rw [← List.map_reverse, regs] at below
      exact below
    · have place : stack.sp.toNat + 8 * (popped.map f.reg).length = s.cpu.rsp.toNat := by
        change stack.sp.toNat + 8 * 15 = _
        omega
      rw [place]
      apply tail.congr
      intro x low _
      exact saved.outside x (Or.inr low)
  rw [exec, exec]
  have called : ((s.setStack stack).setReg .rdi (s.setStack stack).cpu.rsp).callIsrHandler handler
      callee = (handler f s.world).map fun returned =>
        { cpu := { s.cpu with reg := callee.reg, rflags := callee.rflags, rsp := stack.sp }
          mem := writeFrame (fun x => if x < stack.sp.toNat then callee.stack x else stack.mem x)
            stack.sp.toNat returned.1
          world := returned.2 } := by
    rw [State.callIsrHandler]
    have rdi : ((s.setStack stack).setReg .rdi (s.setStack stack).cpu.rsp).cpu.reg .rdi =
        stack.sp := setReg_same ..
    have read : readFrame ((s.setStack stack).setReg .rdi (s.setStack stack).cpu.rsp).mem
        stack.sp.toNat = f := readFrame_eq frame
    rw [rdi, read]
    rfl
  rw [called]
  cases handler f s.world with
  | none => rfl
  | some returned =>
    obtain ⟨f', world⟩ := returned
    obtain ⟨s₂, isS₂⟩ : ∃ s₂ : State σ, s₂ =
        { cpu := { s.cpu with reg := callee.reg, rflags := callee.rflags, rsp := stack.sp }
          mem := writeFrame (fun x => if x < stack.sp.toNat then callee.stack x else stack.mem x)
            stack.sp.toNat f'
          world := world } := ⟨_, rfl⟩
    have written : WordsAt s₂.mem s₂.cpu.rsp.toNat f'.words := by
      rw [isS₂]
      exact storeWords_wordsAt
    have back : ∃ s', exec handler callee (popped.length + (2 + fuel))
        (popped.map .pop ++ [.addRsp 16, .iretq]) s₂ = .ok s' ∧
          s'.cpu = Cpu.ofFrame f' ∧ s'.world = s₂.world ∧ s'.mem = s₂.mem := by
      apply exec_return written
      rw [isS₂]
      dsimp only [registersSize]
      omega
    obtain ⟨s', done, cpu, same, mem⟩ := back
    rw [isS₂] at done same mem
    refine ⟨s', done, cpu, same, ?_⟩
    intro x above
    rw [mem]
    dsimp only
    rw [writeFrame, storeWords_outside (by rw [length_words]; omega), if_neg (by omega)]
    exact saved.outside x (Or.inr (by change s.cpu.rsp.toNat ≤ x; omega))

end Isr

end DedOS
