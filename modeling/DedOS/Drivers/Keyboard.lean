import DedOS.Lib.Ring
import DedOS.Lib.Trace

/-!
# The keyboard buffer of `keyboard.c`

`keyboard_handler` runs as an interrupt and pushes characters, one consumer runs
`keyboard_getchar`. An interrupt may come between any two of the consumer's three steps.
-/

namespace DedOS

open Lib

/-- `KEYBOARD_BUF_SIZE` -/
def keyboardBufSize : Nat := 256

def scancodeTable : List Char := [
  '\x00', '\x00', '1', '2', '3', '4', '5', '6', '7', '8', '9', '0', '-', '=',
  '\x08', '\x09', 'q', 'w', 'e', 'r', 't', 'y', 'u', 'i', 'o', 'p', '[', ']',
  '\x0a', '\x00', 'a', 's', 'd', 'f', 'g', 'h', 'j', 'k', 'l', ';', '\x27', '\x60',
  '\x00', '\x5c', 'z', 'x', 'c', 'v', 'b', 'n', 'm', ',', '.', '/', '\x00', '*',
  '\x00', ' ']

def scancodeTableShift : List Char := [
  '\x00', '\x00', '!', '@', '#', '$', '%', '^', '&', '*', '(', ')', '_', '+',
  '\x08', '\x09', 'Q', 'W', 'E', 'R', 'T', 'Y', 'U', 'I', 'O', 'P', '\x7b', '\x7d',
  '\x0a', '\x00', 'A', 'S', 'D', 'F', 'G', 'H', 'J', 'K', 'L', ':', '\x22', '~',
  '\x00', '|', 'Z', 'X', 'C', 'V', 'B', 'N', 'M', '<', '>', '?', '\x00', '*',
  '\x00', ' ']

/-- Where the consumer is in `keyboard_getchar`: before the test of the loop, after it, or
with the character read and `buf_tail` still to be advanced. -/
inductive Getchar where
  | test
  | read
  | advance (c : Char)
  deriving DecidableEq

/-- The statics of `keyboard.c` and the consumer. The two indices are `uint8_t`. -/
structure Keyboard where
  buffer : Nat → Char
  bufHead : Nat
  bufTail : Nat
  shiftPressed : Bool
  capsLock : Bool
  getchar : Getchar

namespace Keyboard

def init : Keyboard where
  buffer _ := '\x00'
  bufHead := 0
  bufTail := 0
  shiftPressed := false
  capsLock := false
  getchar := .test

def bufPush (c : Char) (s : Keyboard) : Keyboard :=
  let next := (s.bufHead + 1) % keyboardBufSize
  if next ≠ s.bufTail then
    { s with buffer := Function.update s.buffer s.bufHead c, bufHead := next }
  else s

def keyboardHandler (scancode : UInt8) (s : Keyboard) : Keyboard :=
  if scancode &&& 0x80 ≠ 0 then
    let released := scancode &&& 0x7F
    if released = 0x2A ∨ released = 0x36 then { s with shiftPressed := false } else s
  else if scancode = 0x2A ∨ scancode = 0x36 then { s with shiftPressed := true }
  else if scancode = 0x3A then { s with capsLock := !s.capsLock }
  else if scancode.toNat < scancodeTable.length then
    let useUpper := s.shiftPressed ^^ s.capsLock
    let c := if useUpper then scancodeTableShift.getD scancode.toNat '\x00'
      else scancodeTable.getD scancode.toNat '\x00'
    if c ≠ '\x00' then bufPush c s else s
  else s

/-- The next step of the consumer. -/
def keyboardGetchar (s : Keyboard) : Keyboard :=
  match s.getchar with
  -- the processor halts until the next interrupt and tests again
  | .test => if s.bufHead = s.bufTail then s else { s with getchar := .read }
  | .read => { s with getchar := .advance (s.buffer s.bufTail) }
  | .advance _ => { s with bufTail := (s.bufTail + 1) % keyboardBufSize, getchar := .test }

inductive Event where
  | irq (scancode : UInt8)
  | consumer
  deriving DecidableEq

def step (s : Keyboard) : Event → Option Keyboard
  | .irq scancode => some (keyboardHandler scancode s)
  | .consumer => some (keyboardGetchar s)

/-! ### What an interrupt does -/

/-- `c` in `keyboard_handler` -/
def keyChar (s : Keyboard) (scancode : UInt8) : Char :=
  if s.shiftPressed ^^ s.capsLock then scancodeTableShift.getD scancode.toNat '\x00'
  else scancodeTable.getD scancode.toNat '\x00'

/-- The character that an interrupt pushes, if any. -/
def typed (s : Keyboard) (scancode : UInt8) : Option Char :=
  if scancode &&& 0x80 ≠ 0 then none
  else if scancode = 0x2A ∨ scancode = 0x36 then none
  else if scancode = 0x3A then none
  else if scancode.toNat < scancodeTable.length then
    if s.keyChar scancode ≠ '\x00' then some (s.keyChar scancode) else none
  else none

/-- The buffer and the consumer are as before. -/
structure SameBuffer (s s' : Keyboard) : Prop where
  buffer : s'.buffer = s.buffer
  head : s'.bufHead = s.bufHead
  tail : s'.bufTail = s.bufTail
  getchar : s'.getchar = s.getchar

theorem SameBuffer.refl (s : Keyboard) : SameBuffer s s := ⟨rfl, rfl, rfl, rfl⟩

/-- A scancode that types nothing touches the two flags only. -/
theorem keyboardHandler_none {s : Keyboard} {scancode : UInt8} (silent : s.typed scancode = none) :
    SameBuffer s (keyboardHandler scancode s) := by
  unfold keyboardHandler
  split
  · dsimp only
    split
    · exact ⟨rfl, rfl, rfl, rfl⟩
    · exact SameBuffer.refl s
  next pressed =>
  split
  · exact ⟨rfl, rfl, rfl, rfl⟩
  next other =>
  split
  · exact ⟨rfl, rfl, rfl, rfl⟩
  next letter =>
  split
  next listed =>
    -- the tables have no character for this key
    rw [typed, if_neg pressed, if_neg other, if_neg letter, if_pos listed] at silent
    have empty : ¬ s.keyChar scancode ≠ '\x00' := by
      intro some
      rw [if_pos some] at silent
      cases silent
    change SameBuffer s (if s.keyChar scancode ≠ '\x00' then bufPush (s.keyChar scancode) s else s)
    rw [if_neg empty]
    exact SameBuffer.refl s
  · exact SameBuffer.refl s

theorem keyboardHandler_some {s : Keyboard} {scancode : UInt8} {c : Char}
    (types : s.typed scancode = some c) : keyboardHandler scancode s = bufPush c s := by
  unfold typed at types
  split at types
  · cases types
  next pressed =>
  split at types
  · cases types
  next other =>
  split at types
  · cases types
  next letter =>
  split at types
  next listed =>
    split at types
    next present =>
      obtain rfl := Option.some.inj types
      rw [keyboardHandler, if_neg pressed, if_neg other, if_neg letter, if_pos listed]
      exact if_pos present
    · cases types
  · cases types

/-- The buffer refuses further characters. -/
def full (s : Keyboard) : Prop := (s.bufHead + 1) % keyboardBufSize = s.bufTail

instance (s : Keyboard) : Decidable s.full := inferInstanceAs (Decidable (_ = _))

theorem bufPush_full {s : Keyboard} {c : Char} (full : s.full) : bufPush c s = s :=
  if_neg (not_not_intro full)

theorem bufPush_room {s : Keyboard} {c : Char} (room : ¬ s.full) :
    bufPush c s = { s with
      buffer := Function.update s.buffer s.bufHead c
      bufHead := (s.bufHead + 1) % keyboardBufSize } :=
  if_pos room

/-! ### Histories -/

abbrev History := List (Entry Keyboard Event)

/-- The character an interrupt put into the buffer: it pushes one and `buf_head` moves. -/
def acceptedBy (e : Entry Keyboard Event) : List Char :=
  match e.event with
  | .irq scancode => if e.post.bufHead ≠ e.pre.bufHead then (e.pre.typed scancode).toList else []
  | .consumer => []

/-- The character with which a step of the consumer returns. -/
def returnedBy (e : Entry Keyboard Event) : List Char :=
  match e.event, e.pre.getchar with
  | .consumer, .advance c => [c]
  | _, _ => []

/-- All accepted characters in order; histories have the latest entry first. -/
def accepted : History → List Char
  | [] => []
  | e :: h => accepted h ++ acceptedBy e

def returned : History → List Char
  | [] => []
  | e :: h => returned h ++ returnedBy e

/-- The consumer has not returned what it has read, and has read what comes next. -/
def Pending (accepted : List Char) (released : Nat) : Getchar → Prop
  | .test => True
  | .read => released < accepted.length
  | .advance c => accepted[released]? = some c

/-- The counters and slots of `s` stand for the characters accepted and returned so far. -/
structure Fifo (accepted returned : List Char) (s : Keyboard) : Prop where
  order : returned <+: accepted
  room : accepted.length < returned.length + keyboardBufSize
  head : s.bufHead = accepted.length % keyboardBufSize
  tail : s.bufTail = returned.length % keyboardBufSize
  holds : RingHolds keyboardBufSize s.buffer returned.length accepted
  pending : Pending accepted returned.length s.getchar

variable {accepted returned : List Char} {s s' : Keyboard} {c : Char}

theorem Fifo.init : Fifo [] [] init where
  order := List.prefix_rfl
  room := by decide
  head := rfl
  tail := rfl
  holds := RingHolds.empty
  pending := trivial

theorem Fifo.same (fifo : Fifo accepted returned s) (same : SameBuffer s s') :
    Fifo accepted returned s' where
  order := fifo.order
  room := fifo.room
  head := same.head.trans fifo.head
  tail := same.tail.trans fifo.tail
  holds := same.buffer ▸ fifo.holds
  pending := same.getchar ▸ fifo.pending

/-- The buffer is full when 255 accepted characters have not been returned. -/
theorem Fifo.full_iff (fifo : Fifo accepted returned s) :
    s.full ↔ accepted.length = returned.length + 255 := by
  have counters := ring_full_iff fifo.order.length_le fifo.room
  rw [full, fifo.head, fifo.tail, counters, keyboardBufSize]
  omega

theorem Pending.more {pc : Getchar} {released : Nat} (pending : Pending accepted released pc) :
    Pending (accepted ++ [c]) released pc := by
  cases pc with
  | test => trivial
  | read =>
    have before : released < accepted.length := pending
    simp only [Pending, List.length_append, List.length_singleton]
    omega
  | advance d =>
    obtain ⟨bound, value⟩ := List.getElem?_eq_some_iff.mp pending
    simp only [Pending, List.getElem?_append_left bound]
    exact pending

theorem Fifo.push (fifo : Fifo accepted returned s) (room : ¬ s.full) :
    Fifo (accepted ++ [c]) returned (bufPush c s) := by
  have free : accepted.length + 1 < returned.length + keyboardBufSize := by
    have bound := fifo.room
    have differ := mt fifo.full_iff.mpr room
    simp only [keyboardBufSize] at *
    omega
  rw [bufPush_room room]
  constructor
  case order => exact fifo.order.trans (List.prefix_append ..)
  case room => simpa using free
  case head => simp [fifo.head]
  case tail => exact fifo.tail
  case holds =>
    rw [fifo.head]
    exact fifo.holds.push fifo.room
  case pending => exact fifo.pending.more

theorem bufPush_head {c : Char} (room : ¬ s.full) (_ : s.bufHead < keyboardBufSize) :
    (bufPush c s).bufHead ≠ s.bufHead := by
  rw [bufPush_room room]
  dsimp only [keyboardBufSize] at *
  omega

theorem Fifo.head_lt (fifo : Fifo accepted returned s) : s.bufHead < keyboardBufSize :=
  fifo.head ▸ Nat.mod_lt _ (by decide)

/-- An interrupt appends what it accepts. -/
theorem Fifo.irq (fifo : Fifo accepted returned s) (scancode : UInt8) :
    Fifo (accepted ++ acceptedBy ⟨s, .irq scancode, keyboardHandler scancode s⟩) returned
      (keyboardHandler scancode s) := by
  cases types : s.typed scancode with
  | none =>
    have same := keyboardHandler_none types
    have refused : acceptedBy ⟨s, .irq scancode, keyboardHandler scancode s⟩ = [] :=
      if_neg (not_not_intro same.head)
    rw [refused, List.append_nil]
    exact fifo.same same
  | some c =>
    rw [keyboardHandler_some types]
    by_cases full : s.full
    · have refused : acceptedBy ⟨s, .irq scancode, s⟩ = [] := if_neg (not_not_intro rfl)
      rw [bufPush_full full, refused, List.append_nil]
      exact fifo
    · have taken : acceptedBy ⟨s, .irq scancode, bufPush c s⟩ = [c] := by
        simp only [acceptedBy, if_pos (bufPush_head full fifo.head_lt), types, Option.toList_some]
      rw [taken]
      exact fifo.push full

/-- A step of the consumer returns the oldest character or none. -/
theorem Fifo.consumer (fifo : Fifo accepted returned s) :
    Fifo accepted (returned ++ returnedBy ⟨s, .consumer, keyboardGetchar s⟩) (keyboardGetchar s) := by
  have order := fifo.order.length_le
  have pending := fifo.pending
  cases pc : s.getchar with
  | test =>
    simp only [keyboardGetchar, returnedBy, pc, List.append_nil]
    split
    · exact fifo
    next differ =>
    refine { fifo with pending := ?_ }
    -- the counters differ, so an accepted character is waiting
    rw [fifo.head, fifo.tail, ring_empty_iff order fifo.room] at differ
    simp only [Pending]
    omega
  | read =>
    simp only [keyboardGetchar, returnedBy, pc, List.append_nil]
    refine { fifo with pending := ?_ }
    rw [pc] at pending
    have waiting : returned.length < accepted.length := pending
    rw [Pending, fifo.tail, fifo.holds _ waiting (Nat.le_refl _)]
    exact List.getElem?_eq_getElem waiting
  | advance c =>
    simp only [keyboardGetchar, returnedBy, pc]
    rw [pc] at pending
    obtain ⟨waiting, value⟩ := List.getElem?_eq_some_iff.mp pending
    constructor
    case order =>
      rw [← value]
      exact List.concat_get_prefix fifo.order waiting
    case room =>
      have bound := fifo.room
      rw [List.length_append, List.length_singleton]
      omega
    case head => exact fifo.head
    case tail => simp [fifo.tail]
    case holds =>
      rw [List.length_append, List.length_singleton]
      exact fifo.holds.release
    case pending => trivial

theorem run_fifo {h : History} {s : Keyboard} (run : Run step (· = init) h s) :
    Fifo (Keyboard.accepted h) (Keyboard.returned h) s := by
  induction run with
  | start start =>
    subst start
    exact Fifo.init
  | @step h s s' e before taken ih =>
    cases e with
    | irq scancode =>
      obtain rfl := Option.some.inj taken
      simpa [Keyboard.accepted, Keyboard.returned, returnedBy] using ih.irq scancode
    | consumer =>
      obtain rfl := Option.some.inj taken
      simpa [Keyboard.accepted, Keyboard.returned, acceptedBy] using ih.consumer

theorem Fifo.irq_buffer (fifo : Fifo accepted returned s) (scancode : UInt8) {i : Nat}
    (unread : returned.length ≤ i) (bound : i < accepted.length) :
    (keyboardHandler scancode s).buffer (i % keyboardBufSize) = s.buffer (i % keyboardBufSize) := by
  have after := (fifo.irq scancode).holds i (by rw [List.length_append]; omega) unread
  rw [after, List.getElem_append_left bound, fifo.holds i bound unread]

theorem Fifo.refused_iff (fifo : Fifo accepted returned s) {scancode : UInt8} {c : Char}
    (types : s.typed scancode = some c) :
    acceptedBy ⟨s, .irq scancode, keyboardHandler scancode s⟩ = [] ↔
      accepted.length = returned.length + 255 := by
  rw [← fifo.full_iff, keyboardHandler_some types]
  by_cases full : s.full
  · simp [acceptedBy, bufPush_full full, full]
  · simp [acceptedBy, bufPush_head full fifo.head_lt, types, full]

end Keyboard

open Keyboard in
/-- The buffer is a bounded queue: characters are returned in the order in which they were
accepted, stay in place until then, and are refused only while 255 of them wait. -/
theorem keyboard_fifo {h : History} {s : Keyboard} (run : Run step (· = init) h s) :
    returned h <+: accepted h ∧
    (∀ i (_ : i < (accepted h).length), (returned h).length ≤ i →
      s.buffer (i % keyboardBufSize) = (accepted h)[i] ∧
      ∀ scancode, (keyboardHandler scancode s).buffer (i % keyboardBufSize) =
        s.buffer (i % keyboardBufSize)) ∧
    ∀ scancode c, s.typed scancode = some c →
      (acceptedBy ⟨s, .irq scancode, keyboardHandler scancode s⟩ = [] ↔
        (accepted h).length = (returned h).length + 255) := by
  have fifo := run_fifo run
  refine ⟨fifo.order, ?_, fun scancode c types => fifo.refused_iff types⟩
  intro i bound unread
  exact ⟨fifo.holds i bound unread, fun scancode => fifo.irq_buffer scancode unread bound⟩

open Keyboard in
/-- `a` is typed and read; `b` comes before its slot is released. -/
theorem keyboard_fifo_two_keys : ∃ h s, Run step (· = init) h s ∧
    accepted h = ['a', 'b'] ∧ returned h = ['a'] ∧ returned h <+: accepted h := by
  have reached : ∃ h s, Run step (· = init) h s ∧
      decide (accepted h = ['a', 'b'] ∧ returned h = ['a']) = true :=
    Run.exists_of_perform [.irq 0x1E, .consumer, .consumer, .irq 0x30, .consumer]
      (fun r => decide (accepted r.1 = ['a', 'b'] ∧ returned r.1 = ['a'])) rfl (by decide +kernel)
  obtain ⟨h, s, run, shown⟩ := reached
  obtain ⟨first, second⟩ := of_decide_eq_true shown
  exact ⟨h, s, run, first, second, (keyboard_fifo run).1⟩

end DedOS
