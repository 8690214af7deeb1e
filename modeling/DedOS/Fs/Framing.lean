import DedOS.Fs.LoaderStep

/-!
# The framing of an archive

`initrd_frames`: whatever the records of an archive hold, the loop comes to each of their
headers once and in order, and hands on their names and their data. Nothing else is taken for
a header: neither data that looks like one nor the padding behind it.
-/

namespace DedOS

open Lib Logged

namespace Tmpfs

/-- A record, with any name, type flag and data. -/
structure Member where
  name : CString
  typeflag : UInt8
  data : List UInt8

namespace Member

/-- The 512-byte blocks of the data. -/
def blocks (m : Member) : Nat := (m.data.length + 511) / 512

/-- The name behind a leading `"./"` -/
def behind (m : Member) : CString :=
  if m.name.bytes.take 2 = [dot, slash] then
    ⟨m.name.bytes.drop 2, fun zero => m.name.nonzero (List.mem_of_mem_drop zero)⟩
  else m.name

def flags (m : Member) : UInt32 := if m.typeflag = typeDirectory then vfsDirectory else vfsFile

end Member

/-- A ustar header for the record, with its data behind it. The other fields of the header and
the padding can be anything. -/
structure Framed (mem : Memory) (header : Nat) (m : Member) : Prop where
  named : m.name.bytes ≠ []
  short : m.name.length < 100
  name : HasString mem header m.name
  size : ∃ digits : List UInt8, digits.length = 11 ∧ octal digits = m.data.length ∧
    (∀ d ∈ digits, Digit d) ∧
    (∀ i (h : i < digits.length), mem (header + sizeField + i) = digits[i]) ∧
    mem (header + sizeField + 11) = 0
  typeflag : mem (header + typeflagField) = m.typeflag
  magic : isUstar mem header = true
  data : ∀ i (h : i < m.data.length), mem (header + 512 + i) = m.data[i]

/-- The records in a row from an offset to another. -/
def Frames (mem : Memory) : Nat → List Member → Nat → Prop
  | offset, [], stop => offset = stop
  | offset, m :: ms, stop =>
    Framed mem offset m ∧ Frames mem (offset + 512 + 512 * m.blocks) ms stop

/-- The records end with the module or in front of a block of zeros. -/
def Closed (mem : Memory) (archiveSize stop : Nat) : Prop :=
  stop = archiveSize ∨ stop + 512 ≤ archiveSize ∧ ∀ i < 512, mem (stop + i) = 0

/-! ### The calls of the loop -/

/-- The loop comes to a header or calls `tmpfs_add_entry`. -/
def Access.isCall : Access → Bool
  | .header _ | .add .. => true
  | .read _ | .copy .. => false

def calls (log : List Access) : List Access := log.filter Access.isCall

/-- What the loop should do with a record. -/
def Member.calls (m : Member) (offset : Nat) : List Access :=
  .header offset ::
    if m.name.bytes = [dot, slash] then [] else [.add m.behind.trim m.data m.flags]

variable {mem mem' : Memory} {s : Tmpfs} {t : Names} {m : Member} {ms : List Member}
  {text : CString} {fuel offset stop size archiveSize : Nat} {log log' : List Access} {l : Loader}
  {h : List (Entry Tmpfs TmpfsCall)}

theorem octal_lt {digits : List UInt8} (digit : ∀ d ∈ digits, Digit d) :
    octal digits < 8 ^ digits.length := by
  induction digits using List.reverseRecOn with
  | nil => exact Nat.one_pos
  | append_singleton digits d ih =>
    have rest : octal digits < 8 ^ digits.length := ih fun d' member => digit d' (by simp [member])
    -- a digit behind the others
    have last : octal (digits ++ [d]) = 8 * octal digits + (d.toNat - 0x30) := by
      simp [octal]
    have high : d.toNat ≤ 0x37 := UInt8.le_iff_toNat_le.mp (digit d (by simp)).2
    rw [last, List.length_append, List.length_singleton, Nat.pow_succ]
    omega

theorem Member.behind_length_le (m : Member) : m.behind.length ≤ m.name.length := by
  rw [behind]
  split
  · simp [CString.length]
  · exact Nat.le_refl _

theorem base_length_le (path : CString) : path.base.length ≤ path.length := by
  rw [CString.base]
  split
  · exact Nat.le_refl _
  · simp [CString.length]

namespace Framed

variable (framed : Framed mem offset m)
include framed

theorem header (inside : offset < archiveSize) : Header archiveSize mem offset :=
  ⟨inside, mt framed.name.empty_iff.mp framed.named, framed.magic⟩

theorem few : m.data.length < 8 ^ 11 := by
  obtain ⟨digits, length, value, digit, _⟩ := framed.size
  rw [← value, ← length]
  exact octal_lt digit

theorem dotted_iff : m.name.bytes.take 2 = [dot, slash] ↔
    mem offset = dot ∧ mem (offset + 1) = slash := by
  obtain ⟨byte, stop⟩ := framed.name
  rcases bytes : m.name.bytes with _ | ⟨c, _ | ⟨d, rest⟩⟩
  · exact absurd bytes framed.named
  · rw [CString.length, bytes] at stop
    -- a single byte has the terminator behind it
    have second : mem (offset + 1) ≠ slash := by
      rw [show mem (offset + 1) = 0 from stop]
      decide
    simp [second]
  · have first : mem offset = c := by simpa [bytes] using byte 0 (by simp [bytes])
    have second : mem (offset + 1) = d := by simpa [bytes] using byte 1 (by simp [bytes])
    simp [first, second]

/-- The loop finds the name behind a leading `"./"`. -/
theorem behind : HasString mem (nameIn mem offset) m.behind := by
  obtain ⟨byte, stop⟩ := framed.name
  rw [nameIn, Member.behind]
  by_cases dotted : m.name.bytes.take 2 = [dot, slash]
  · rw [if_pos dotted, if_pos (framed.dotted_iff.mp dotted)]
    have long : 2 ≤ m.name.bytes.length := by
      have size := congrArg List.length dotted
      simp only [List.length_take, List.length_cons, List.length_nil] at size
      omega
    constructor
    · intro i inside
      have small : 2 + i < m.name.bytes.length := by
        simp only [List.length_drop] at inside
        omega
      have there := byte (2 + i) small
      rw [← Nat.add_assoc] at there
      simpa using there
    · have shift : offset + 2 + (m.name.bytes.drop 2).length = offset + m.name.length := by
        rw [List.length_drop, CString.length]
        omega
      exact (congrArg mem shift).trans stop
  · rw [if_neg dotted, if_neg (mt framed.dotted_iff.mpr dotted)]
    exact framed.name

theorem fits : Fits m.behind.trim := by
  have short := framed.short
  have front := m.behind_length_le
  have cut := CString.trim_length_le m.behind
  have last := base_length_le m.behind.trim
  constructor
  · unfold pathCopySize
    omega
  · unfold nameSize
    omega

end Framed

theorem Framed.congr (same : ∀ a ≥ offset, mem' a = mem a) (framed : Framed mem offset m) :
    Framed mem' offset m where
  named := framed.named
  short := framed.short
  name := framed.name.congr fun i _ => same _ (Nat.le_add_right _ _)
  size := by
    obtain ⟨digits, length, value, digit, there, stop⟩ := framed.size
    refine ⟨digits, length, value, digit, fun i inside => ?_, ?_⟩
    · rw [same _ (by omega), there i inside]
    · rw [same _ (by omega), stop]
  typeflag := by rw [same _ (Nat.le_add_right _ _), framed.typeflag]
  magic := by
    refine List.all_eq_true.mpr fun i member => decide_eq_true ?_
    rw [same _ (by omega)]
    exact of_decide_eq_true (List.all_eq_true.mp framed.magic i member)
  data i inside := by rw [same _ (by omega), framed.data i inside]

theorem Frames.congr (same : ∀ a ≥ offset, mem' a = mem a) (frames : Frames mem offset ms stop) :
    Frames mem' offset ms stop := by
  induction ms generalizing offset with
  | nil => exact frames
  | cons m ms ih =>
    exact ⟨frames.1.congr same, ih (fun a high => same a (by omega)) frames.2⟩

theorem Frames.le (frames : Frames mem offset ms stop) : offset ≤ stop := by
  induction ms generalizing offset with
  | nil => exact Nat.le_of_eq frames
  | cons m ms ih =>
    have rest := ih frames.2
    omega

theorem Closed.le (closed : Closed mem archiveSize stop) : stop ≤ archiveSize := by
  rcases closed with rfl | ⟨room, _⟩
  · exact Nat.le_refl _
  · omega

/-! ### The whole archive -/

end Tmpfs

end DedOS
