import DedOS.Fs.Loader
import Mathlib.Order.Basic

/-!
# Strings and sizes in an archive

`HasString mem a text`: the string at `a`, up to the first terminator behind it, wherever that
is. `trim` cuts the slash that the loader overwrites, and `Fits` says that the buffers of
`tmpfs_add_entry` are large enough for a path.
-/

namespace DedOS

open Lib Logged

namespace CString

/-- A path without one slash at its end. -/
def trim (text : CString) : CString :=
  if text.bytes.getLast? = some slash then text.cut (text.length - 1) else text

/-- `filename` in `tmpfs_add_entry` -/
def base (path : CString) : List UInt8 :=
  match strrchr path slash with
  | none => path.bytes
  | some last => path.bytes.drop (last + 1)

variable {text : CString} {bytes : List UInt8}

theorem trim_of_slash (last : text.bytes = bytes ++ [slash]) : text.trim.bytes = bytes := by
  rw [trim, if_pos (by rw [last, List.getLast?_concat])]
  change text.bytes.take (text.bytes.length - 1) = bytes
  simp [last]

theorem trim_of_ne (last : text.bytes.getLast? ≠ some slash) : text.trim = text := if_neg last

theorem trim_length_le (text : CString) : text.trim.length ≤ text.length := by
  rw [trim]
  split
  · simp [cut, length]
  · exact Nat.le_refl _

theorem length_le_trim (text : CString) : text.length ≤ text.trim.length + 1 := by
  rw [trim]
  split
  · simp only [cut, length, List.length_take]
    omega
  · exact Nat.le_succ _

theorem trim_iterate_length_le (k : Nat) (text : CString) :
    (trim^[k] text).length ≤ text.length := by
  induction k with
  | zero => exact Nat.le_refl _
  | succ k ih =>
    rw [Function.iterate_succ_apply']
    exact (trim_length_le _).trans ih

end CString

namespace Tmpfs

/-- `path_copy` and the name of the new node hold their strings. -/
structure Fits (path : CString) : Prop where
  whole : path.length < pathCopySize
  base : path.base.length < nameSize

instance (path : CString) : Decidable (Fits path) :=
  decidable_of_iff (path.length < pathCopySize ∧ path.base.length < nameSize)
    ⟨fun h => ⟨h.1, h.2⟩, fun h => ⟨h.whole, h.base⟩⟩

structure HasString (mem : Memory) (a : Nat) (text : CString) : Prop where
  byte : ∀ i (h : i < text.bytes.length), mem (a + i) = text.bytes[i]
  stop : mem (a + text.length) = 0

variable {mem mem' : Memory} {text text' path : CString} {fuel a e i val n offset : Nat}

/-! ### Strings -/

theorem HasString.nonzero (here : HasString mem a text) (inside : i < text.length) :
    mem (a + i) ≠ 0 := by
  rw [here.byte i inside]
  exact fun zero => text.nonzero (zero ▸ List.getElem_mem _)

theorem HasString.congr (here : HasString mem a text)
    (same : ∀ i ≤ text.length, mem' (a + i) = mem (a + i)) : HasString mem' a text where
  byte i inside := by rw [same i (Nat.le_of_lt inside), here.byte i inside]
  stop := by rw [same _ le_rfl, here.stop]

theorem HasString.empty_iff (here : HasString mem a text) : mem a = 0 ↔ text.bytes = [] := by
  constructor
  · intro zero
    by_contra some
    exact here.nonzero (List.length_pos_of_ne_nil some) zero
  · intro empty
    have stop := here.stop
    rwa [CString.length, empty] at stop

theorem readString_eq_ok :
    readString mem fuel a = .ok text ↔ HasString mem a text ∧ text.length < fuel := by
  constructor
  · intro done
    induction fuel generalizing a text with
    | zero => cases done
    | succ fuel ih =>
      rw [readString] at done
      split at done
      next zero =>
        cases done
        exact ⟨⟨fun i inside => absurd inside (Nat.not_lt_zero i), zero⟩, Nat.succ_pos _⟩
      next some =>
        obtain ⟨rest, read, done⟩ := bind_eq_ok.mp done
        obtain ⟨there, short⟩ := ih read
        cases done
        refine ⟨⟨fun i inside => ?_, ?_⟩, Nat.succ_lt_succ short⟩
        · -- the first byte, and those of the rest
          cases i with
          | zero => rfl
          | succ i =>
            rw [← Nat.add_assoc, Nat.add_right_comm]
            exact there.byte i (Nat.lt_of_succ_lt_succ inside)
        · have stop := there.stop
          rwa [Nat.add_right_comm] at stop
  · rintro ⟨here, short⟩
    exact readString_spec text.nonzero here.byte here.stop short

theorem HasString.unique (left : HasString mem a text) (right : HasString mem a text') :
    text = text' := by
  have read := readString_eq_ok.mpr ⟨left, Nat.lt_succ_of_le (Nat.le_add_right _ text'.length)⟩
  have read' := readString_eq_ok.mpr ⟨right, Nat.lt_succ_of_le (Nat.le_add_left _ text.length)⟩
  exact Except.ok.inj (read.symm.trans read')

/-- There is a string in front of every terminator. -/
theorem exists_string (stop : mem e = 0) (behind : a ≤ e) :
    ∃ text, HasString mem a text ∧ a + text.length ≤ e := by
  obtain ⟨n, rfl⟩ := Nat.exists_eq_add_of_le behind
  induction n generalizing a with
  | zero => exact ⟨⟨[], List.not_mem_nil⟩, ⟨nofun, stop⟩, Nat.le_refl _⟩
  | succ n ih =>
    by_cases zero : mem a = 0
    · exact ⟨⟨[], List.not_mem_nil⟩, ⟨nofun, zero⟩, behind⟩
    · have shift : a + 1 + n = a + (n + 1) := by omega
      obtain ⟨rest, there, short⟩ := ih (by rwa [shift]) (Nat.le_add_right _ _)
      -- the scan puts the byte in front of the string that follows it
      obtain ⟨text, read, size⟩ : ∃ text, readString mem (rest.length + 2) a = .ok text ∧
          text.length = rest.length + 1 := by
        rw [readString, dif_neg zero, readString_eq_ok.mpr ⟨there, Nat.lt_succ_self _⟩]
        exact ⟨_, rfl, rfl⟩
      exact ⟨text, (readString_eq_ok.mp read).1, by omega⟩

/-- Where the slash is overwritten the string is cut. -/
theorem HasString.trim (here : HasString mem a text) :
    HasString (trimSlash a text.length mem) a text.trim := by
  rcases List.eq_nil_or_concat text.bytes with empty | ⟨front, c, split⟩
  · have keep : trimSlash a text.length mem = mem := if_neg (by simp [CString.length, empty])
    rw [keep, CString.trim_of_ne (by simp [empty])]
    exact here
  rw [List.concat_eq_append] at split
  have size : text.length = front.length + 1 := by simp [CString.length, split]
  have last : mem (a + text.length - 1) = c := by
    have byte := here.byte front.length (by simp [split])
    simp only [split, List.getElem_concat_length] at byte
    rw [size]
    exact byte
  by_cases sep : c = slash
  · subst sep
    -- the overwritten slash becomes the terminator
    have bytes : text.trim.bytes = front := CString.trim_of_slash split
    have cut : trimSlash a text.length mem = Function.update mem (a + text.length - 1) 0 :=
      if_pos ⟨by omega, last⟩
    rw [cut]
    constructor
    · intro i inside
      have inside' : i < front.length := bytes ▸ inside
      rw [Function.update_of_ne (by omega), here.byte i (by simp [split]; omega)]
      simp [split, bytes, inside']
    · have at_slash : a + text.trim.length = a + text.length - 1 := by
        rw [CString.length, bytes, size]
        rfl
      rw [at_slash, Function.update_self]
  · have keep : trimSlash a text.length mem = mem :=
      if_neg fun slashed => sep (last.symm.trans slashed.2)
    rw [keep, CString.trim_of_ne (by simpa [split] using sep)]
    exact here

/-! ### Sizes -/

/-- The digits end at the first byte that is none. -/
theorem octalToInt_ends (stop : ¬ Digit (mem (a + i))) (enough : i < fuel) :
    ∃ n, octalToInt mem fuel a val = .ok n := by
  induction fuel generalizing a i val with
  | zero => omega
  | succ fuel ih =>
    rw [octalToInt]
    split
    next digit =>
      -- a digit in front of the byte that is none
      cases i with
      | zero => exact absurd digit stop
      | succ i => exact ih (i := i) (by rwa [Nat.add_right_comm]) (by omega)
    · exact ⟨val, rfl⟩

/-- The size that the loop reads in a header. The digits end in the magic at the latest. -/
def sizeIn (mem : Memory) (header : Nat) : Nat :=
  match octalToInt mem 134 (header + sizeField) 0 with
  | .ok size => size
  | .error _ => 0

/-- The first letter of the magic is no octal digit. -/
theorem magic_not_digit (known : isUstar mem offset = true) :
    ¬ Digit (mem (offset + sizeField + 133)) := by
  have letter : mem (offset + magicField + 0) = 0x75 :=
    of_decide_eq_true (List.all_eq_true.mp known 0 (by decide))
  have magic : offset + sizeField + 133 = offset + magicField + 0 := by
    unfold sizeField magicField
    omega
  rw [magic, letter]
  decide

theorem octalToInt_sizeIn (known : isUstar mem offset = true) (enough : 134 ≤ fuel) :
    octalToInt mem fuel (offset + sizeField) 0 = .ok (sizeIn mem offset) := by
  -- 133 bytes behind the start of the field is the magic
  obtain ⟨size, read⟩ : ∃ size, octalToInt mem 134 (offset + sizeField) 0 = .ok size :=
    octalToInt_ends (magic_not_digit known) (by decide)
  rw [sizeIn, read]
  exact octalToInt_mono read enough

end Tmpfs

end DedOS
