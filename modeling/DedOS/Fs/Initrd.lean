import DedOS.Fs.Entries
import DedOS.Lib.Memory

/-!
# The initrd loader of `initrd.c`

The archive is the memory from the address of the module on. Reading past the end of the
module reads what lies there.
-/

namespace DedOS

open Lib

/-! ### `struct tar_header` -/

def modeField : Nat := 100
def sizeField : Nat := 124
def typeflagField : Nat := 156
def magicField : Nat := 257
def prefixField : Nat := 345

/-- `"ustar"` -/
def ustar : List UInt8 := [0x75, 0x73, 0x74, 0x61, 0x72]

/-- `'.'` -/
def dot : UInt8 := 0x2E

/-- `typeflag` of a directory, `'5'` -/
def typeDirectory : UInt8 := 0x35

/-- The test of `octal_to_int`. -/
def Digit (d : UInt8) : Prop := d ≥ 0x30 ∧ d ≤ 0x37

instance (d : UInt8) : Decidable (Digit d) := inferInstanceAs (Decidable (_ ∧ _))

/-- `octal_to_int` from `str` on, with the value so far. -/
def octalToInt (mem : Memory) : Nat → Nat → Nat → Except Fault Nat
  | 0, _, _ => .error .endless
  | fuel + 1, str, val =>
    if Digit (mem str) then
      octalToInt mem fuel (str + 1) (wrap64 (val <<< 3) ||| ((mem str).toNat - 0x30))
    else .ok val

/-- The string at an address. -/
def readString (mem : Memory) : Nat → Nat → Except Fault CString
  | 0, _ => .error .endless
  | fuel + 1, addr =>
    if h : mem addr = 0 then .ok ⟨[], List.not_mem_nil⟩
    else do
      let rest ← readString mem fuel (addr + 1)
      return ⟨mem addr :: rest.bytes, by
        rw [List.mem_cons]
        rintro (zero | member)
        · exact h zero.symm
        · exact rest.nonzero member⟩

namespace Tmpfs

/-- `memcmp(header->magic, "ustar", 5) == 0` -/
def isUstar (mem : Memory) (header : Nat) : Bool :=
  (List.range 5).all fun i => mem (header + magicField + i) = ustar.getD i 0

/-- `512 + ((size + 511) & ~511)` -/
def recordSize (size : Nat) : Nat := wrap64 (512 + (wrap64 (size + 511) &&& 0xFFFFFFFFFFFFFE00))

/-- The slash behind a directory's name is overwritten in the archive. -/
def trimSlash (name len : Nat) (archive : Memory) : Memory :=
  if len > 0 ∧ archive (name + len - 1) = slash then Function.update archive (name + len - 1) 0
  else archive

/-- What the loop does with a name that is not empty. -/
def initrdEntry (fuel offset name size : Nat) (flags : UInt32) (archive : Memory) (s : Tmpfs) :
    Except Fault (Memory × Tmpfs) := do
  let text ← readString archive fuel name
  let archive := trimSlash name text.length archive
  let path ← readString archive fuel name
  let content := (List.range size).map fun i => archive (offset + 512 + i)
  let (_, s) ← tmpfsAddEntry fuel path content flags s
  return (archive, s)

/-- The loop of `initrd_init`. -/
def initrdFrom (archiveSize : Nat) :
    Nat → Nat → Memory → Tmpfs → Except Fault (Memory × Tmpfs)
  | 0, _, _, _ => .error .endless
  | fuel + 1, offset, archive, s =>
    if offset < archiveSize then
      if archive offset = 0 then .ok (archive, s)
      else if ¬ isUstar archive offset then .ok (archive, s)
      else do
        let size ← octalToInt archive fuel (offset + sizeField) 0
        let flags := if archive (offset + typeflagField) = typeDirectory then vfsDirectory else vfsFile
        let name := if archive offset = dot ∧ archive (offset + 1) = slash then offset + 2 else offset
        let next := wrap64 (offset + recordSize size)
        if archive name = 0 then initrdFrom archiveSize fuel next archive s
        else
          let (archive, s) ← initrdEntry fuel offset name size flags archive s
          initrdFrom archiveSize fuel next archive s
    else .ok (archive, s)

/-- `initrd_init`, with the first module of the boot loader if there is one. -/
def initrdInit (fuel : Nat) (module : Option (Memory × Nat)) (s : Tmpfs) : Except Fault Tmpfs :=
  match module with
  | none => .ok s
  | some (archive, archiveSize) => do
    let (_, s) ← initrdFrom archiveSize fuel 0 archive s
    return s

end Tmpfs

/-! ### Reading the fields -/

variable {mem mem' : Memory} {fuel addr val : Nat}

/-- The value of octal digits. -/
def octal (digits : List UInt8) : Nat := digits.foldl (fun val d => 8 * val + (d.toNat - 0x30)) 0

theorem shift_or {val d : Nat} (small : val < 2 ^ 61) (digit : d < 8) :
    wrap64 (val <<< 3) ||| d = 8 * val + d := by
  have shift : val <<< 3 = 2 ^ 3 * val := by rw [Nat.shiftLeft_eq, Nat.mul_comm]
  have fits : wrap64 (2 ^ 3 * val) = 2 ^ 3 * val := wrap64_of_lt (by omega)
  rw [shift, fits, ← Nat.two_pow_add_eq_or_of_lt (by omega)]

/-- The digits up to a byte that is none. -/
theorem octalToInt_spec {digits : List UInt8} (digit : ∀ d ∈ digits, Digit d)
    (there : ∀ i (h : i < digits.length), mem (addr + i) = digits[i])
    (stop : ¬ Digit (mem (addr + digits.length))) (small : val < 8 ^ (20 - digits.length))
    (few : digits.length ≤ 11) (enough : digits.length < fuel) :
    octalToInt mem fuel addr val =
      .ok (digits.foldl (fun val d => 8 * val + (d.toNat - 0x30)) val) := by
  induction digits generalizing addr val fuel with
  | nil =>
    obtain ⟨fuel, rfl⟩ : ∃ f, fuel = f + 1 := ⟨fuel - 1, by simp at enough; omega⟩
    rw [List.length_nil, Nat.add_zero] at stop
    rw [octalToInt, if_neg stop]
    rfl
  | cons d digits ih =>
    obtain ⟨fuel, rfl⟩ : ∃ f, fuel = f + 1 := ⟨fuel - 1, by simp at enough; omega⟩
    have here : mem addr = d := there 0 (by simp)
    have is_digit := digit d (by simp)
    have value : d.toNat - 0x30 < 8 := by
      have high : d.toNat ≤ 0x37 := UInt8.le_iff_toNat_le.mp is_digit.2
      omega
    have size : (d :: digits).length = digits.length + 1 := rfl
    -- eleven digits of three bits fit
    have pow : 8 ^ (20 - digits.length) = 8 * 8 ^ (20 - (d :: digits).length) := by
      rw [← Nat.pow_succ']
      congr 1
      omega
    have short : val < 2 ^ 61 :=
      small.trans_le (Nat.le_trans (Nat.pow_le_pow_right (by decide) (Nat.sub_le 20 _)) (by decide))
    rw [octalToInt, here, if_pos is_digit, shift_or short value, List.foldl_cons]
    apply ih
    · exact fun d' member => digit d' (by simp [member])
    · intro i inside
      have next := there (i + 1) (by simpa using inside)
      rw [← Nat.add_assoc, Nat.add_right_comm] at next
      simpa using next
    · rwa [size, ← Nat.add_assoc, Nat.add_right_comm] at stop
    · omega
    · omega
    · omega

theorem readString_spec {bytes : List UInt8} (nonzero : 0 ∉ bytes)
    (there : ∀ i (h : i < bytes.length), mem (addr + i) = bytes[i])
    (stop : mem (addr + bytes.length) = 0) (enough : bytes.length < fuel) :
    readString mem fuel addr = .ok ⟨bytes, nonzero⟩ := by
  induction bytes generalizing addr fuel with
  | nil =>
    obtain ⟨fuel, rfl⟩ : ∃ f, fuel = f + 1 := ⟨fuel - 1, by simp at enough; omega⟩
    rw [List.length_nil, Nat.add_zero] at stop
    rw [readString, dif_pos stop]
  | cons c bytes ih =>
    obtain ⟨fuel, rfl⟩ : ∃ f, fuel = f + 1 := ⟨fuel - 1, by simp at enough; omega⟩
    have here : mem addr = c := there 0 (by simp)
    have some : ¬ mem addr = 0 := fun zero => nonzero (by simp [← here, zero])
    have nonzero' : 0 ∉ bytes := fun member => nonzero (by simp [member])
    have rest : readString mem fuel (addr + 1) = .ok ⟨bytes, nonzero'⟩ := by
      apply ih
      · intro i inside
        have next := there (i + 1) (by simpa using inside)
        rw [← Nat.add_assoc, Nat.add_right_comm] at next
        simpa using next
      · rwa [List.length_cons, ← Nat.add_assoc, Nat.add_right_comm] at stop
      · simpa using enough
    rw [readString, dif_neg some, rest]
    simp [here, pure, Except.pure]

end DedOS
