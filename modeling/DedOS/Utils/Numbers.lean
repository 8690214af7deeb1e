import DedOS.Utils.Format

/-!
# Printed numbers

What `kputuint` prints is a code: it is read back by `parseNumeral`. So the conversions for
numbers print different texts for different arguments, the sign included.
-/

namespace DedOS

open Lib Logged

/-- The value of a digit character. -/
def digitValue (c : UInt8) : Option Nat :=
  if 0x30 ≤ c ∧ c ≤ 0x39 then some (c.toNat - 0x30)
  else if 0x41 ≤ c ∧ c ≤ 0x46 then some (c.toNat - 0x37)
  else none

/-- The text of a number in canonical form: there is no leading zero, except in the text 0. -/
def Canonical (text : List UInt8) : Prop := text.head? = some 0x30 → text = [0x30]

theorem digitValue_digitByte : ∀ d < 16, digitValue (digitByte d) = some d := by decide

/-- The digit characters of a base are read as its digit values. -/
theorem digitValue_base {b : Nat} (max : b ≤ 16) : ∀ d < b, digitValue (digitByte d) = some d :=
  fun d small => digitValue_digitByte d (Nat.lt_of_lt_of_le small max)

theorem canonical_numeral {b : Nat} (base : 1 < b) (max : b ≤ 16) (n : Nat) :
    Canonical (numeral digitByte b n) := by
  intro leads
  apply numeral_head base _ leads
  intro d small same
  -- a character is the zero character for the value 0 only
  have value := digitValue_base max d small
  rw [same, digitValue_base max 0 (Nat.zero_lt_of_lt base)] at value
  exact (Option.some.inj value).symm

theorem unsignedText_injective {b : Nat} (base : 1 < b) (max : b ≤ 16) :
    Function.Injective (unsignedText b) := by
  intro n m same
  exact UInt64.toNat_inj.mp (numeral_injective base (digitValue_base max) same)

theorem digit_of_mem {b : Nat} {c : UInt8} (base : 1 < b) (max : b ≤ 16) {n : UInt64}
    (member : c ∈ unsignedText b n) : digitValue c ≠ none := by
  by_cases zero : n.toNat = 0
  · rw [unsignedText, zero, numeral_zero, List.mem_singleton] at member
    rw [member, digitValue_digitByte 0 (by decide)]
    simp
  · rw [unsignedText, numeral_pos zero, List.mem_reverse, List.mem_map] at member
    obtain ⟨d, digit, rfl⟩ := member
    rw [digitValue_base max d (Nat.digits_lt_base base digit)]
    simp

theorem minus_not_mem {b : Nat} (base : 1 < b) (max : b ≤ 16) (n : UInt64) :
    0x2D ∉ unsignedText b n := fun member => digit_of_mem base max member rfl

theorem toUInt64_injective : Function.Injective Int64.toUInt64 :=
  Function.LeftInverse.injective Int64.toInt64_toUInt64

/-- The sign and the absolute value determine a number, also the smallest one, which is its
own negation. -/
theorem signedText_injective : Function.Injective signedText := by
  have ten := unsignedText_injective (b := 10) (by decide) (by decide)
  have signless := minus_not_mem (b := 10) (by decide) (by decide)
  intro n m same
  unfold signedText at same
  split at same
  · split at same
    · have absolute := toUInt64_injective (ten (List.cons.inj same).2)
      exact Int64.neg_inj.mp absolute
    · exact absurd (same ▸ List.mem_cons_self) (signless m.toUInt64)
  · split at same
    · exact absurd (same ▸ List.mem_cons_self) (signless n.toUInt64)
    · exact toUInt64_injective (ten same)

/-- `kvprintf` prints `text`, given enough rounds. -/
def PrintsText (mem : Memory) (fmt : Nat) (args : List UInt64) (text : List UInt8) : Prop :=
  ∃ enough, ∀ fuel ≥ enough, ∃ rest, (kvprintf mem fuel fmt args).result = .ok rest ∧
    printed (kvprintf mem fuel fmt args).log = text

/-- In every format with no other conversion, the conversion `c` prints a text that determines
its argument; `slot` is how an argument is passed. -/
def Determines {α : Type} (slot : α → UInt64) (c : UInt8) : Prop :=
  ∀ mem fmt before after, 0x25 ∉ before → 0x25 ∉ after →
    NulText mem fmt (before ++ 0x25 :: c :: after) →
      ∃ text : α → List UInt8, Function.Injective text ∧ ∀ a, PrintsText mem fmt [slot a] (text a)

variable {mem : Memory} {before after format text : List UInt8} {args rest : List UInt64} {c : UInt8}

/-! ### Text around a conversion -/

theorem Formats.prepend (plain : 0x25 ∉ before) (formats : Formats mem format args text rest) :
    Formats mem (before ++ format) args (before ++ text) rest := by
  induction before with
  | nil => exact formats
  | cons b before ih =>
    obtain ⟨ordinary, others⟩ := List.ne_and_not_mem_of_not_mem_cons plain
    exact .plain (Ne.symm ordinary) (ih others)

theorem trailingPercents_prepend (plain : 0x25 ∉ before) :
    trailingPercents (before ++ format) = trailingPercents format := by
  induction before with
  | nil => rfl
  | cons b before ih =>
    obtain ⟨ordinary, others⟩ := List.ne_and_not_mem_of_not_mem_cons plain
    rw [List.cons_append, trailingPercents_plain (Ne.symm ordinary), ih others]

/-- Plain text is printed as it is. -/
theorem formats_plain (plain : 0x25 ∉ after) : Formats mem after args after args := by
  have nothing : Formats mem [] args [] args := .done
  simpa using nothing.prepend plain

theorem trailingPercents_none (plain : 0x25 ∉ after) : trailingPercents after = 0 := by
  have nothing : trailingPercents (after ++ []) = trailingPercents [] :=
    trailingPercents_prepend plain
  simpa [trailingPercents] using nothing

theorem determines_of {α : Type} {slot : α → UInt64} {text : α → List UInt8}
    (converts : ∀ mem a, Converts mem (conversion c) [slot a] (text a) [])
    (injective : Function.Injective text) : Determines slot c := by
  intro mem fmt before after plain plain' here
  refine ⟨fun a => before ++ (text a ++ after), ?_, fun a => ?_⟩
  · intro a b same
    exact injective (List.append_cancel_right (List.append_cancel_left same))
  · have formats := (Formats.directive (converts mem a) (formats_plain plain')).prepend plain
    have closed : trailingPercents (before ++ 0x25 :: c :: after) % 2 = 0 := by
      rw [trailingPercents_prepend plain, trailingPercents_directive, trailingPercents_none plain']
    obtain ⟨enough, prints⟩ := formats.prints here closed
    exact ⟨enough, fun fuel more => ⟨[], prints fuel more⟩⟩

/-- Printed numbers are read back: the buffer of `kputuint` is large enough, the text is the
canonical numeral, and the number conversions of `kvprintf` print texts that determine their
arguments. -/
theorem numbers_round_trip :
    (∀ (n : UInt64) (base : UInt8), 2 ≤ base.toNat → base.toNat ≤ 16 →
      (∃ buf i, fillDigits base 64 n (fun _ => 0) 0 = .ok (buf, i) ∧ i.toNat ≤ 64) ∧
      ∃ text, Prints (kputuint n base) text () ∧ text.length ≤ 64 ∧ Canonical text ∧
        parseNumeral digitValue base.toNat text = some n.toNat) ∧
    Determines (id : UInt64 → UInt64) 0x75 ∧ Determines (id : UInt64 → UInt64) 0x78 ∧
    Determines (id : UInt64 → UInt64) 0x70 ∧ Determines Int64.toUInt64 0x64 := by
  refine ⟨?_, ?_, ?_, ?_, ?_⟩
  · intro n base two max
    have fits := pow_sixty_four two n
    constructor
    · obtain ⟨buf, i, filled, count, -⟩ :=
        fillDigits_eq (fun _ => 0) 0 two max fits (by decide)
      have length := (Nat.digits_length_le_iff (by omega) n.toNat).mpr fits
      refine ⟨buf, i, filled, ?_⟩
      rw [count]
      simpa using length
    · refine ⟨_, prints_kputuint n two max, ?_, ?_, ?_⟩
      · exact length_numeral_le two (by decide) fits
      · exact canonical_numeral two max n.toNat
      · exact parse_numeral two (digitValue_base max) n.toNat
  · exact determines_of (fun _ _ => .u) (unsignedText_injective (by decide) (by decide))
  · exact determines_of (fun _ _ => .x) (unsignedText_injective (by decide) (by decide))
  · apply determines_of (fun _ _ => .p)
    intro n m same
    have digits := (List.cons.inj (List.cons.inj same).2).2
    exact unsignedText_injective (by decide) (by decide) digits
  · exact determines_of (fun _ _ => .d) signedText_injective

/-- The largest number in base 2 takes all 64 bytes, and the smallest signed number is printed
with its digits. -/
theorem numbers_round_trip_extremes :
    (∃ text, Prints (kputuint 0xFFFFFFFFFFFFFFFF 2) text () ∧ text.length ≤ 64 ∧ Canonical text ∧
      parseNumeral digitValue 2 text = some 0xFFFFFFFFFFFFFFFF) ∧
    ∃ text : Int64 → List UInt8, Function.Injective text ∧
      ∀ a, PrintsText (fun a => [0x25, 0x64].getD a 0) 0 [a.toUInt64] (text a) := by
  constructor
  · exact (numbers_round_trip.1 0xFFFFFFFFFFFFFFFF 2 (by decide) (by decide)).2
  · have here : NulText (fun a => [0x25, 0x64].getD a 0) 0 ([] ++ 0x25 :: 0x64 :: []) :=
      ⟨by decide, by decide⟩
    exact numbers_round_trip.2.2.2.2 _ 0 [] [] (by simp) (by simp) here

end DedOS
