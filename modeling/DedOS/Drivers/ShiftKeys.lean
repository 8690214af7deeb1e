import DedOS.Drivers.Keyboard
import DedOS.Lib.Standing

/-!
# The two shift keys

`keyboard_handler` keeps one flag for two keys. A break code of either key clears it, also
while the other key is down; the next make code of a shift key sets it again.
-/

namespace DedOS

open Lib

namespace Keyboard

inductive ShiftKey where
  | left
  | right
  deriving DecidableEq

namespace ShiftKey

def make : ShiftKey → UInt8
  | left => 0x2A
  | right => 0x36

/-- The break code: the make code with the top bit set. -/
def release (key : ShiftKey) : UInt8 := key.make ||| 0x80

def other : ShiftKey → ShiftKey
  | left => right
  | right => left

theorem exists_iff {p : ShiftKey → Prop} : (∃ key, p key) ↔ p left ∨ p right := by
  constructor
  · rintro ⟨left | right, holds⟩
    · exact Or.inl holds
    · exact Or.inr holds
  · rintro (holds | holds)
    · exact ⟨left, holds⟩
    · exact ⟨right, holds⟩

instance {p : ShiftKey → Prop} [DecidablePred p] : Decidable (∃ key, p key) :=
  decidable_of_iff _ exists_iff.symm

end ShiftKey

/-- `code` is one of the four codes of the shift keys. -/
def IsShift (code : UInt8) : Prop := ∃ key : ShiftKey, code = key.make ∨ code = key.release

instance : DecidablePred IsShift := fun code =>
  inferInstanceAs (Decidable (∃ key : ShiftKey, code = key.make ∨ code = key.release))

/-- `key` has been pressed and not released since; the latest scancode is first. -/
def Held (key : ShiftKey) : List UInt8 → Prop :=
  Standing (fun _ code => code = key.make) (· = key.release)

instance (key : ShiftKey) (past : List UInt8) : Decidable (Held key past) :=
  inferInstanceAs (Decidable (Standing _ _ past))

/-- Some shift key is down. -/
def ShiftHeld (past : List UInt8) : Prop := ∃ key, Held key past

instance (past : List UInt8) : Decidable (ShiftHeld past) :=
  inferInstanceAs (Decidable (∃ key, Held key past))

/-- A shift key was released while the other one was held, and no scancode of a shift key
has come since. -/
def ReleasedUnder : List UInt8 → Prop :=
  Standing (fun past code => ∃ key : ShiftKey, code = key.release ∧ Held key.other past) IsShift

instance (past : List UInt8) : Decidable (ReleasedUnder past) :=
  inferInstanceAs (Decidable (Standing _ _ past))

def Event.scancode : Event → Option UInt8
  | .irq scancode => some scancode
  | .consumer => none

/-- The scancodes of a history, latest first. -/
def received (h : History) : List UInt8 := h.filterMap fun e => e.event.scancode

/-- The flag says whether a shift key is held, and the next character comes from the shifted
table exactly when that differs from the caps lock. -/
structure FollowsKeys (past : List UInt8) (s : Keyboard) : Prop where
  flag : s.shiftPressed = true ↔ ShiftHeld past
  decodes : ∀ scancode c, s.typed scancode = some c →
    keyboardHandler scancode s = bufPush c s ∧
    c = (if decide (ShiftHeld past) ^^ s.capsLock then scancodeTableShift else scancodeTable).getD
      scancode.toNat '\x00'

variable {s : Keyboard} {past : List UInt8} {code : UInt8} {key : ShiftKey}

theorem held_iff : Held key past ↔
    ∃ later before, past = later ++ key.make :: before ∧ key.release ∉ later := by
  rw [Held, standing_iff]
  constructor
  · rintro ⟨later, x, before, split, rfl, kept⟩
    refine ⟨later, before, split, fun mem => ?_⟩
    exact kept _ mem rfl
  · rintro ⟨later, before, split, kept⟩
    refine ⟨later, _, before, split, rfl, ?_⟩
    rintro y mem rfl
    exact kept mem

/-! ### What a scancode does to the keys -/

theorem release_ne_make (first second : ShiftKey) : first.release ≠ second.make := by
  cases first <;> cases second <;> decide

theorem release_eq_iff (first second : ShiftKey) : first.release = second.release ↔ first = second := by
  cases first <;> cases second <;> decide

theorem shiftHeld_make : ShiftHeld (key.make :: past) := ⟨key, Or.inl rfl⟩

theorem held_release_same : ¬ Held key (key.release :: past) := by
  rw [Held, standing_cons]
  simp [release_ne_make]

theorem held_release_other : Held key.other (key.release :: past) ↔ Held key.other past := by
  apply standing_skip (release_ne_make key key.other)
  cases key <;> decide

/-- After a release only the other key can be held. -/
theorem shiftHeld_release : ShiftHeld (key.release :: past) ↔ Held key.other past := by
  rw [ShiftHeld, ShiftKey.exists_iff, ← held_release_other]
  cases key with
  | left => simp [held_release_same, ShiftKey.other]
  | right => simp [held_release_same, ShiftKey.other]

theorem held_skip (plain : ¬ IsShift code) : Held key (code :: past) ↔ Held key past := by
  apply standing_skip
  · intro make
    exact plain ⟨key, Or.inl make⟩
  · intro release
    exact plain ⟨key, Or.inr release⟩

theorem shiftHeld_skip (plain : ¬ IsShift code) : ShiftHeld (code :: past) ↔ ShiftHeld past := by
  simp only [ShiftHeld, held_skip plain]

theorem releasedUnder_make : ¬ ReleasedUnder (key.make :: past) := by
  rw [ReleasedUnder, standing_clear ⟨key, Or.inl rfl⟩]
  rintro ⟨other, release, _⟩
  exact release_ne_make other key release.symm

theorem releasedUnder_release : ReleasedUnder (key.release :: past) ↔ Held key.other past := by
  rw [ReleasedUnder, standing_clear ⟨key, Or.inr rfl⟩]
  simp [release_eq_iff]

theorem releasedUnder_skip (plain : ¬ IsShift code) :
    ReleasedUnder (code :: past) ↔ ReleasedUnder past := by
  apply standing_skip _ plain
  rintro ⟨key, release, _⟩
  exact plain ⟨key, Or.inr release⟩

/-! ### What the handler does to the flag -/

theorem handler_make (s : Keyboard) (key : ShiftKey) :
    (keyboardHandler key.make s).shiftPressed = true := by
  cases key <;> rfl

theorem handler_release (s : Keyboard) (key : ShiftKey) :
    (keyboardHandler key.release s).shiftPressed = false := by
  cases key <;> rfl

theorem bufPush_shift (c : Char) (s : Keyboard) :
    (if c ≠ '\x00' then bufPush c s else s).shiftPressed = s.shiftPressed := by
  unfold bufPush
  split
  · dsimp only
    split <;> rfl
  · rfl

/-- The codes that clear the flag are the two break codes. -/
theorem clears_iff (code : UInt8) :
    (code &&& 0x80 ≠ 0 ∧ (code &&& 0x7F = 0x2A ∨ code &&& 0x7F = 0x36)) ↔
      ∃ key : ShiftKey, code = key.release := by
  obtain ⟨bits⟩ := code
  revert bits
  decide +kernel

theorem handler_skip (s : Keyboard) (plain : ¬ IsShift code) :
    (keyboardHandler code s).shiftPressed = s.shiftPressed := by
  unfold keyboardHandler
  split
  next broken =>
    -- a break code of another key
    dsimp only
    split
    next shift =>
      obtain ⟨key, release⟩ := (clears_iff code).mp ⟨broken, shift⟩
      exact absurd ⟨key, Or.inr release⟩ plain
    · rfl
  next made =>
    split
    next shift =>
      exact absurd (ShiftKey.exists_iff.mpr (shift.imp Or.inl Or.inl)) plain
    next =>
      split
      · rfl
      next =>
        dsimp only
        split
        · exact bufPush_shift _ s
        · rfl

/-- A typed character is the one `keyChar` looks up. -/
theorem typed_eq {c : Char} (types : s.typed code = some c) : c = s.keyChar code := by
  by_cases present : s.keyChar code = '\x00'
  · simp [typed, present] at types
  · simp only [typed, ne_eq, present, not_false_eq_true, if_true] at types
    split at types
    · cases types
    split at types
    · cases types
    split at types
    · cases types
    split at types
    · exact (Option.some.inj types).symm
    · cases types

theorem keyChar_eq : s.keyChar code =
    (if s.shiftPressed ^^ s.capsLock then scancodeTableShift else scancodeTable).getD
      code.toNat '\x00' := by
  unfold keyChar
  split <;> rfl

/-- The tables follow the flag, so the flag decides. -/
theorem followsKeys_iff : FollowsKeys past s ↔ (s.shiftPressed = true ↔ ShiftHeld past) := by
  constructor
  · intro follows
    exact follows.flag
  · intro flag
    refine ⟨flag, fun scancode c types => ⟨keyboardHandler_some types, ?_⟩⟩
    have same : decide (ShiftHeld past) = s.shiftPressed := by
      simp [← flag]
    rw [same, typed_eq types, keyChar_eq]

/-- One interrupt: a make code repairs the flag, a break code decides anew, other codes
leave everything as it is. -/
theorem followsKeys_irq (scancode : UInt8)
    (before : FollowsKeys past s ↔ ¬ ReleasedUnder past) :
    FollowsKeys (scancode :: past) (keyboardHandler scancode s) ↔
      ¬ ReleasedUnder (scancode :: past) := by
  rw [followsKeys_iff] at *
  by_cases shift : IsShift scancode
  · obtain ⟨key, rfl | rfl⟩ := shift
    · simp [handler_make, shiftHeld_make, releasedUnder_make]
    · simp [handler_release, shiftHeld_release, releasedUnder_release]
  · rw [handler_skip s shift, shiftHeld_skip shift, releasedUnder_skip shift]
    exact before

theorem getchar_shift (s : Keyboard) : (keyboardGetchar s).shiftPressed = s.shiftPressed := by
  unfold keyboardGetchar
  split
  · split <;> rfl
  · rfl
  · rfl

end Keyboard

open Keyboard in
/-- After any sequence of scancodes, read or not, the flag follows the keys unless the last
code of a shift key was a break code that came while the other key was held. -/
theorem shift_follows_iff {h : History} {s : Keyboard} (run : Run step (· = init) h s) :
    FollowsKeys (received h) s ↔ ¬ ReleasedUnder (received h) := by
  induction run with
  | start start =>
    subst start
    rw [followsKeys_iff]
    decide
  | @step h s s' e before taken ih =>
    cases e with
    | irq scancode =>
      obtain rfl := Option.some.inj taken
      exact followsKeys_irq scancode ih
    | consumer =>
      obtain rfl := Option.some.inj taken
      rw [followsKeys_iff] at *
      rw [getchar_shift]
      exact ih

open Keyboard in
/-- Left shift, `a`, left shift released and `a` again. -/
theorem shift_follows_one_key : ∃ h s, Run step (· = init) h s ∧
    received h = [0x1E, 0xAA, 0x1E, 0x2A] ∧ FollowsKeys (received h) s := by
  have reached : ∃ h s, Run step (· = init) h s ∧
      decide (received h = [0x1E, 0xAA, 0x1E, 0x2A]) = true :=
    Run.exists_of_perform [.irq 0x2A, .irq 0x1E, .irq 0xAA, .irq 0x1E]
      (fun r => decide (received r.1 = [0x1E, 0xAA, 0x1E, 0x2A])) rfl (by decide +kernel)
  obtain ⟨h, s, run, shown⟩ := reached
  have codes := of_decide_eq_true shown
  refine ⟨h, s, run, codes, (shift_follows_iff run).mpr ?_⟩
  rw [codes]
  decide +kernel

open Keyboard in
/-- Both shift keys go down and the left one is released: the right one is still held and
the flag is clear. -/
theorem shift_lost : ¬ ∀ h s, Run step (· = init) h s → FollowsKeys (received h) s := by
  intro follows
  have reached : ∃ h s, Run step (· = init) h s ∧
      decide (¬ (s.shiftPressed = true ↔ ShiftHeld (received h))) = true :=
    Run.exists_of_perform (s := init) [.irq 0x2A, .irq 0x36, .irq 0xAA]
      (fun r => decide (¬ (r.2.shiftPressed = true ↔ ShiftHeld (received r.1)))) rfl
      (by decide +kernel)
  obtain ⟨h, s, run, shown⟩ := reached
  exact of_decide_eq_true shown (follows h s run).flag

end DedOS
