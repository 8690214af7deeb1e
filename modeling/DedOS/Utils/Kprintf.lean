import DedOS.Lib.Encoding
import DedOS.Lib.Logged
import DedOS.Lib.Numeral

/-!
# `kprintf.c`

Every character goes to the serial port and to the terminal. The bytes of a format are
recorded as they are read; the text behind `%s` is read from the same memory. The loops over
memory are given a bound on their rounds, `kputuint` is not: its buffer bounds it.
-/

namespace DedOS

open Lib Logged

inductive PrintEvent where
  /-- the byte of the format at this address is read -/
  | readFormat (a : Nat)
  /-- `outb(0x3F8, c)` -/
  | outb (c : UInt8)
  /-- `flanterm_write` -/
  | flanterm (bytes : List UInt8)
  deriving DecidableEq

inductive PrintFault where
  /-- the bound on the rounds is used up -/
  | rounds
  | noArgument
  | bufferOverflow
  | digitsBounds
  | divideError
  deriving DecidableEq

abbrev Print := Logged PrintEvent PrintFault

def kputchar (c : UInt8) : Print Unit := do
  record (.outb c)
  if c = 0x0A then record (.flanterm [0x0D, 0x0A]) else record (.flanterm [c])

def kputs (mem : Memory) : Nat → Nat → Print Unit
  | 0, _ => fail .rounds
  | fuel + 1, s =>
    if mem s ≠ 0 then do
      kputchar (mem s)
      kputs mem fuel (s + 1)
    else return ()

/-- `"0123456789ABCDEF"`, with its terminator -/
def digitTable : List UInt8 := [
  0x30, 0x31, 0x32, 0x33, 0x34, 0x35, 0x36, 0x37, 0x38, 0x39, 0x41, 0x42, 0x43, 0x44, 0x45, 0x46,
  0x00]

/-- `digits[k]` -/
def digitAt (k : UInt64) : Except PrintFault UInt8 :=
  match digitTable[k.toNat]? with
  | some c => .ok c
  | none => .error .digitsBounds

/-- The first loop of `kputuint`, with `room` bytes of `buf` behind index `i`. -/
def fillDigits (base : UInt8) :
    Nat → UInt64 → Memory → UInt8 → Except PrintFault (Memory × UInt8)
  | 0, n, buf, i => if n = 0 then .ok (buf, i) else .error .bufferOverflow
  | room + 1, n, buf, i =>
    if n = 0 then .ok (buf, i)
    else if base = 0 then .error .divideError
    else do
      let c ← digitAt (n % base.toUInt64)
      fillDigits base room (n / base.toUInt64) (Function.update buf i.toNat c) (i + 1)

/-- The second loop of `kputuint`: `while (i--) kputchar(buf[i]);` -/
def putDigits (buf : Memory) : Nat → Print Unit
  | 0 => return ()
  | i + 1 => do
    kputchar (buf i)
    putDigits buf i

/-- `kputuint`. What `buf` holds at first does not matter. -/
def kputuint (n : UInt64) (base : UInt8) : Print Unit :=
  if n = 0 then kputchar 0x30
  else do
    let filled ← lift (fillDigits base 64 n (fun _ => 0) 0)
    putDigits filled.1 filled.2.toNat

/-- The cases of the `switch` in `kvprintf`. -/
inductive Conversion where
  | s
  | d
  | u
  | x
  | p
  | c
  | percent
  | unknown
  deriving DecidableEq

def conversion (c : UInt8) : Conversion :=
  if c = 0x73 then .s
  else if c = 0x64 then .d
  else if c = 0x75 then .u
  else if c = 0x78 then .x
  else if c = 0x70 then .p
  else if c = 0x63 then .c
  else if c = 0x25 then .percent
  else .unknown

/-- `va_arg`: the next argument and the ones behind it. -/
def vaArg : List UInt64 → Print (UInt64 × List UInt64)
  | [] => fail .noArgument
  | a :: args => return (a, args)

/-- `case 'd'`, for the argument `n` -/
def kputint (n : Int64) : Print Unit :=
  if n < 0 then do
    kputchar 0x2D
    kputuint (-n).toUInt64 10
  else kputuint n.toUInt64 10

/-- The `switch` of `kvprintf`; it returns the remaining arguments. -/
def convert (mem : Memory) (fuel : Nat) (args : List UInt64) : Conversion → Print (List UInt64)
  | .s => do
    let a ← vaArg args
    kputs mem fuel a.1.toNat
    return a.2
  | .d => do
    let a ← vaArg args
    kputint a.1.toInt64
    return a.2
  | .u => do
    let a ← vaArg args
    kputuint a.1 10
    return a.2
  | .x => do
    let a ← vaArg args
    kputuint a.1 16
    return a.2
  | .p => do
    let a ← vaArg args
    kputchar 0x30
    kputchar 0x78
    kputuint a.1 16
    return a.2
  | .c => do
    let a ← vaArg args
    kputchar a.1.toUInt8
    return a.2
  | .percent => do
    kputchar 0x25
    return args
  | .unknown => return args

/-- `*fmt` -/
def formatByte (mem : Memory) (fmt : Nat) : Print UInt8 := do
  record (.readFormat fmt)
  return mem fmt

/-- `kvprintf`; it returns the arguments that are left. -/
def kvprintf (mem : Memory) : Nat → Nat → List UInt64 → Print (List UInt64)
  | 0, _, _ => fail .rounds
  | fuel + 1, fmt, args => do
    -- one read of `*fmt` serves both tests of the round, and `*++fmt` the whole `switch`
    let b ← formatByte mem fmt
    if b = 0 then return args
    else if b ≠ 0x25 then
      kputchar b
      kvprintf mem fuel (fmt + 1) args
    else
      let c ← formatByte mem (fmt + 1)
      let args ← convert mem fuel args (conversion c)
      kvprintf mem fuel (fmt + 2) args

/-! ### Printing a text -/

/-- What one character does to the devices. -/
def charEvents (c : UInt8) : List PrintEvent :=
  [.outb c, .flanterm (if c = 0x0A then [0x0D, 0x0A] else [c])]

/-- The computation prints `text`, does nothing else and returns `a`. -/
def Prints {α : Type} (x : Print α) (text : List UInt8) (a : α) : Prop :=
  x = ⟨text.flatMap charEvents, .ok a⟩

def PrintEvent.serial : PrintEvent → Option UInt8
  | .outb c => some c
  | _ => none

/-- The bytes that the serial port has received. -/
def printed (log : List PrintEvent) : List UInt8 := log.filterMap PrintEvent.serial

section

variable {α β : Type} {x : Print α} {f : α → Print β} {a : α} {b : β} {c : UInt8}
variable {text more : List UInt8} {mem buf : Memory} {i fuel : Nat} {n : UInt64} {base : UInt8}

theorem printed_append (log more : List PrintEvent) :
    printed (log ++ more) = printed log ++ printed more := by
  simp [printed]

theorem printed_cons_readFormat (a : Nat) (log : List PrintEvent) :
    printed (.readFormat a :: log) = printed log := rfl

theorem printed_charEvents (c : UInt8) : printed (charEvents c) = [c] := rfl

theorem printed_flatMap (text : List UInt8) : printed (text.flatMap charEvents) = text := by
  induction text with
  | nil => rfl
  | cons c text ih =>
    rw [List.flatMap_cons, printed_append, printed_charEvents, ih, List.singleton_append]

theorem prints_pure (a : α) : Prints (pure a) [] a := rfl

theorem prints_kputchar (c : UInt8) : Prints (kputchar c) [c] () := by
  unfold Prints kputchar charEvents
  by_cases newline : c = 0x0A
  · simp [newline, bind_of_ok]
  · simp [newline, bind_of_ok]

theorem Prints.bind (first : Prints x text a) (second : Prints (f a) more b) :
    Prints (x >>= f) (text ++ more) b := by
  unfold Prints at *
  rw [first, bind_of_ok rfl, second, List.flatMap_append]

/-- A string that ends with the first NUL behind it. -/
structure NulText (mem : Memory) (a : Nat) (text : List UInt8) : Prop where
  nonzero : 0 ∉ text
  bytes : BytesAt mem a (text ++ [0])

theorem NulText.tail {a : Nat} (here : NulText mem a (c :: text)) : NulText mem (a + 1) text :=
  ⟨fun zero => here.nonzero (List.mem_cons_of_mem c zero), here.bytes.2⟩

theorem NulText.head {a : Nat} (here : NulText mem a (c :: text)) : mem a = c ∧ c ≠ 0 :=
  ⟨here.bytes.1, fun zero => here.nonzero (zero ▸ List.mem_cons_self)⟩

theorem NulText.stop {a : Nat} (here : NulText mem a []) : mem a = 0 := here.bytes.1

/-- `kputs` prints a string, given a round for each byte and one for the terminator. -/
theorem prints_kputs {s : Nat} (here : NulText mem s text) (enough : text.length < fuel) :
    Prints (kputs mem fuel s) text () := by
  induction text generalizing fuel s with
  | nil =>
    cases fuel with
    | zero => cases enough
    | succ fuel =>
      rw [kputs, here.stop]
      exact prints_pure ()
  | cons c text ih =>
    cases fuel with
    | zero => cases enough
    | succ fuel =>
      obtain ⟨first, nonzero⟩ := here.head
      rw [kputs, first, if_pos nonzero]
      exact (prints_kputchar c).bind (ih here.tail (Nat.lt_of_succ_lt_succ enough))

/-! ### `kputuint` -/

/-- The character for a digit value. -/
def digitByte (d : Nat) : UInt8 := digitTable.getD d 0

theorem digitAt_small {k : UInt64} (small : k.toNat < 16) : digitAt k = .ok (digitByte k.toNat) := by
  have inside : k.toNat < digitTable.length := Nat.lt_succ_of_lt small
  rw [digitAt, List.getElem?_eq_getElem inside, digitByte, List.getD_eq_getElem _ _ inside]

/-- The first loop leaves the digits in `buf`, least significant first, and leaves what is in
front of them alone. -/
theorem fillDigits_eq {room : Nat} (buf : Memory) (i : UInt8) (base_two : 2 ≤ base.toNat)
    (base_max : base.toNat ≤ 16) (fits : n.toNat < base.toNat ^ room)
    (inside : i.toNat + room ≤ 64) : ∃ buf' i', fillDigits base room n buf i = .ok (buf', i') ∧
      i'.toNat = i.toNat + (Nat.digits base.toNat n.toNat).length ∧
      (∀ k < i.toNat, buf' k = buf k) ∧
      BytesAt buf' i.toNat ((Nat.digits base.toNat n.toNat).map digitByte) := by
  induction room generalizing n buf i with
  | zero =>
    -- without room nothing is left to be written
    have zero : n = 0 := UInt64.toNat_inj.mp (by simpa using fits)
    subst zero
    exact ⟨buf, i, rfl, by simp, fun _ _ => rfl, by simp⟩
  | succ room ih =>
    by_cases zero : n = 0
    · subst zero
      exact ⟨buf, i, rfl, by simp, fun _ _ => rfl, by simp⟩
    · have positive : 0 < n.toNat := by
        rw [Nat.pos_iff_ne_zero]
        exact fun same => zero (UInt64.toNat_inj.mp same)
      have baseNonzero : base ≠ 0 := by
        rintro rfl
        simp at base_two
      have digit : (n % base.toUInt64).toNat = n.toNat % base.toNat := by simp
      have rest : (n / base.toUInt64).toNat = n.toNat / base.toNat := by simp
      have next : (i + 1).toNat = i.toNat + 1 := by
        rw [UInt8.toNat_add]
        exact Nat.mod_eq_of_lt (by simp; omega)
      have small : n.toNat % base.toNat < 16 := by
        have bound := Nat.mod_lt n.toNat (by omega : 0 < base.toNat)
        omega
      have smaller : (n / base.toUInt64).toNat < base.toNat ^ room := by
        rw [rest, Nat.div_lt_iff_lt_mul (by omega), ← Nat.pow_succ]
        exact fits
      obtain ⟨buf', i', filled, count, kept, digits⟩ :=
        ih (Function.update buf i.toNat (digitByte (n.toNat % base.toNat))) (i + 1) smaller
          (by omega)
      rw [rest, next] at count
      rw [next] at kept
      rw [rest, next] at digits
      refine ⟨buf', i', ?_, ?_, ?_, ?_⟩
      · rw [fillDigits, if_neg zero, if_neg baseNonzero, digitAt_small (by omega), digit]
        exact filled
      · rw [Nat.digits_def' (by omega) positive, List.length_cons]
        omega
      · intro k front
        rw [kept k (by omega), Function.update_of_ne (by omega)]
      · rw [Nat.digits_def' (by omega) positive, List.map_cons, bytesAt_cons]
        exact ⟨by rw [kept _ (Nat.lt_succ_self _), Function.update_self], digits⟩

/-- The second loop prints the buffer backwards. -/
theorem prints_putDigits (digits : BytesAt buf 0 text) :
    Prints (putDigits buf text.length) text.reverse () := by
  induction text using List.reverseRecOn with
  | nil => exact prints_pure ()
  | append_singleton text c ih =>
    obtain ⟨front, last⟩ := bytesAt_append.mp digits
    rw [List.length_append, List.length_singleton, putDigits, List.reverse_append]
    rw [Nat.zero_add] at last
    rw [last.1]
    exact (prints_kputchar c).bind (ih front)

theorem pow_sixty_four {b : Nat} (base_two : 2 ≤ b) (n : UInt64) : n.toNat < b ^ 64 :=
  Nat.lt_of_lt_of_le n.toNat_lt (Nat.pow_le_pow_left base_two 64)

/-- `kputuint` prints the numeral of its argument; the buffer is large enough for it. -/
theorem prints_kputuint (n : UInt64) (base_two : 2 ≤ base.toNat) (base_max : base.toNat ≤ 16) :
    Prints (kputuint n base) (numeral digitByte base.toNat n.toNat) () := by
  by_cases zero : n = 0
  · subst zero
    exact prints_kputchar 0x30
  · have positive : n.toNat ≠ 0 := fun same => zero (UInt64.toNat_inj.mp same)
    obtain ⟨buf, i, filled, count, -, digits⟩ :=
      fillDigits_eq (fun _ => 0) 0 base_two base_max (pow_sixty_four base_two n) (by decide)
    have length : i.toNat = ((Nat.digits base.toNat n.toNat).map digitByte).length := by
      simpa using count
    rw [kputuint, if_neg zero, filled, numeral_pos positive]
    change Prints (putDigits buf i.toNat) _ _
    rw [length]
    exact prints_putDigits digits

end

end DedOS
