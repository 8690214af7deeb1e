import DedOS.Fs.Initrd

/-!
# POSIX ustar archives

`Archive mem size rs`: the memory holds the records of a tree, each directory before its
members, followed by two blocks of zeros. This is the format, whatever the loader does with it.
-/

namespace DedOS

open Lib

namespace Tmpfs

/-- A member of the tree with the spelling of its path. The root may be listed as `"./"`. -/
structure Record where
  names : List (List UInt8)
  directory : Bool
  data : List UInt8
  dotted : Bool
  slashed : Bool

namespace Record

def joined (r : Record) : List UInt8 := [slash].intercalate r.names

/-- The path behind a leading `"./"`. -/
def body (r : Record) : List UInt8 := r.joined ++ if r.slashed then [slash] else []

def path (r : Record) : List UInt8 := (if r.dotted then [dot, slash] else []) ++ r.body

structure Valid (r : Record) : Prop where
  name : ∀ n ∈ r.names, n ≠ [] ∧ slash ∉ n ∧ 0 ∉ n ∧ n ≠ [dot]
  root : r.names = [] → r.dotted = true ∧ r.slashed = false ∧ r.directory = true
  slashed : r.slashed = true → r.directory = true
  directory : r.directory = true → r.data = []
  size : r.data.length < 8 ^ 11

def flags (r : Record) : UInt32 := if r.directory then vfsDirectory else vfsFile

/-- The 512-byte blocks of the data. -/
def blocks (r : Record) : Nat := (r.data.length + 511) / 512

end Record

structure Listing (rs : List Record) : Prop where
  valid : ∀ r ∈ rs, r.Valid
  unique : (rs.map Record.names).Nodup
  parents : ∀ before r after, rs = before ++ r :: after → r.names.dropLast ≠ [] →
    ∃ d ∈ before, d.directory = true ∧ d.names = r.names.dropLast

/-- A header field: bytes padded with zeros. -/
def Field (mem : Memory) (addr width : Nat) (bytes : List UInt8) : Prop :=
  bytes.length ≤ width ∧ ∀ i < width, mem (addr + i) = bytes.getD i 0

/-- `name` and `prefix`: a path of more than 100 bytes is split at a slash. -/
inductive Spelled (mem : Memory) (header : Nat) (path : List UInt8) : Prop
  | whole : Field mem header 100 path → Field mem (header + prefixField) 155 [] →
      Spelled mem header path
  | split {front name : List UInt8} : path = front ++ slash :: name → 100 < path.length →
      front ≠ [] → name ≠ [] → Field mem header 100 name →
      Field mem (header + prefixField) 155 front → Spelled mem header path

/-- Octal digits that end in a space or a zero. -/
def SizeField (mem : Memory) (addr size : Nat) : Prop :=
  ∃ digits : List UInt8, octal digits = size ∧ (∀ d ∈ digits, Digit d) ∧ digits.length ≤ 11 ∧
    (∀ i (h : i < digits.length), mem (addr + i) = digits[i]) ∧
    (mem (addr + digits.length) = 0 ∨ mem (addr + digits.length) = 0x20)

structure Encodes (mem : Memory) (header : Nat) (r : Record) : Prop where
  path : Spelled mem header r.path
  mode : Digit (mem (header + modeField))
  size : SizeField mem (header + sizeField) r.data.length
  typeflag : if r.directory then mem (header + typeflagField) = typeDirectory
    else mem (header + typeflagField) = 0x30 ∨ mem (header + typeflagField) = 0
  magic : ∀ i < 5, mem (header + magicField + i) = ustar.getD i 0
  data : ∀ i (h : i < r.data.length), mem (header + 512 + i) = r.data[i]

/-- The records in a row from an offset to another. -/
def Records (mem : Memory) : Nat → List Record → Nat → Prop
  | offset, [], stop => offset = stop
  | offset, r :: rs, stop =>
    Encodes mem offset r ∧ Records mem (offset + 512 + 512 * r.blocks) rs stop

structure Archive (mem : Memory) (size : Nat) (rs : List Record) : Prop where
  listing : Listing rs
  records : ∃ stop, Records mem 0 rs stop ∧ stop + 1024 ≤ size ∧ ∀ i < 1024, mem (stop + i) = 0
  size : size < 2 ^ 64

variable {mem mem' : Memory} {header offset stop : Nat} {r : Record} {rs : List Record}

/-! ### The spelling of a path -/

namespace Record

theorem joined_nil (empty : r.names = []) : r.joined = [] := by
  rw [joined, empty]
  rfl

theorem Valid.components (valid : r.Valid) : components slash r.joined = r.names :=
  components_intercalate fun n member => ⟨(valid.name n member).1, (valid.name n member).2.1⟩

theorem Valid.joined_nonzero (valid : r.Valid) : 0 ∉ r.joined := by
  intro zero
  rcases mem_intercalate zero with slash | ⟨n, member, inside⟩
  · revert slash
    decide
  · exact (valid.name n member).2.2.1 inside

theorem Valid.body_nonzero (valid : r.Valid) : 0 ∉ r.body := by
  rw [body, List.mem_append]
  rintro (zero | zero)
  · exact valid.joined_nonzero zero
  · split at zero
    · revert zero
      decide
    · cases zero

theorem Valid.path_nonzero (valid : r.Valid) : 0 ∉ r.path := by
  rw [path, List.mem_append]
  rintro (zero | zero)
  · split at zero
    · revert zero
      decide
    · cases zero
  · exact valid.body_nonzero zero

/-- The last byte of the joined names is not a slash. -/
theorem Valid.joined_last (valid : r.Valid) (some : r.names ≠ []) :
    ∃ front c, r.joined = front ++ [c] ∧ c ≠ slash := by
  have split := List.dropLast_append_getLast some
  obtain ⟨front, joined⟩ := intercalate_concat slash r.names.dropLast (r.names.getLast some)
  rw [split] at joined
  obtain ⟨nonempty, plain, _⟩ := valid.name _ (List.getLast_mem some)
  refine ⟨front ++ (r.names.getLast some).dropLast, (r.names.getLast some).getLast nonempty, ?_, ?_⟩
  · rw [List.append_assoc, List.dropLast_append_getLast nonempty]
    exact joined
  · exact fun same => plain (same ▸ List.getLast_mem nonempty)

theorem Valid.joined_ne_nil (valid : r.Valid) (some : r.names ≠ []) : r.joined ≠ [] := by
  obtain ⟨front, c, joined, _⟩ := valid.joined_last some
  simp [joined]

theorem Valid.body_nil (valid : r.Valid) : r.body = [] ↔ r.names = [] := by
  constructor
  · intro empty
    by_contra some
    exact valid.joined_ne_nil some (List.append_eq_nil_iff.mp empty).1
  · intro empty
    simp [body, joined_nil empty, (valid.root empty).2.1]

/-- A path that is not spelled with `"./"` does not start so. -/
theorem Valid.body_undotted (valid : r.Valid) (some : r.names ≠ []) (l : List UInt8) :
    r.body ≠ dot :: slash :: l := by
  obtain ⟨n, names, cons⟩ := List.exists_cons_of_ne_nil some
  obtain ⟨rest, joined, stop⟩ := intercalate_cons slash n names
  obtain ⟨nonempty, plain, _, other⟩ := valid.name n (by simp [cons])
  rw [body, Record.joined, cons, joined]
  obtain ⟨c, n, rfl⟩ := List.exists_cons_of_ne_nil nonempty
  intro start
  simp only [List.cons_append, List.append_assoc, List.cons.injEq] at start
  obtain ⟨rfl, start⟩ := start
  -- the byte behind the dot belongs to the name or ends it
  cases n with
  | nil => exact other rfl
  | cons d n =>
    simp only [List.cons_append, List.cons.injEq] at start
    exact plain (by simp [start.1])

/-- Where the loader finds the name. -/
def start (r : Record) : Nat := if r.dotted then 2 else 0

theorem path_length : r.path.length = r.start + r.body.length := by
  rw [path, start]
  split
  · simp
    omega
  · simp

theorem path_getD (i : Nat) : r.path.getD (r.start + i) 0 = r.body.getD i 0 := by
  rw [path, start]
  split
  · simp [Nat.add_comm 2 i]
  · simp

end Record

/-! ### A header whose path ends inside the name field -/

theorem Encodes.byte (enc : Encodes mem header r) (short : r.path.length ≤ 99) {i : Nat}
    (inside : i < 100) : mem (header + i) = r.path.getD i 0 := by
  cases enc.path with
  | whole name _ => exact name.2 i inside
  | split _ long => omega

theorem Encodes.name (enc : Encodes mem header r) (short : r.path.length ≤ 99) {i : Nat}
    (inside : i ≤ r.body.length) : mem (header + r.start + i) = r.body.getD i 0 := by
  have length := r.path_length
  rw [Nat.add_assoc, enc.byte short (by omega), Record.path_getD]

theorem Encodes.start_eq (enc : Encodes mem header r) (valid : r.Valid)
    (short : r.path.length ≤ 99) :
    (if mem header = dot ∧ mem (header + 1) = slash then header + 2 else header) =
      header + r.start := by
  have first : mem header = r.path.getD 0 0 := enc.byte short (i := 0) (by decide)
  have second := enc.byte short (i := 1) (by decide)
  by_cases dotted : r.dotted = true
  · have bytes : r.path = dot :: slash :: r.body := by simp [Record.path, dotted]
    rw [first, second, bytes, if_pos ⟨rfl, rfl⟩, Record.start, if_pos dotted]
  · have bytes : r.path = r.body := by simp [Record.path, dotted]
    rw [Record.start, if_neg dotted, if_neg]
    · rfl
    rw [first, second, bytes]
    rintro ⟨at_dot, at_slash⟩
    have some : r.names ≠ [] := fun empty => dotted (valid.root empty).1
    cases whole : r.body with
    | nil => exact some (valid.body_nil.mp whole)
    | cons c l =>
      cases l with
      | nil =>
        rw [whole] at at_slash
        revert at_slash
        simp [slash]
      | cons d l =>
        rw [whole] at at_dot at_slash
        simp only [List.getD_cons_zero, List.getD_cons_succ] at at_dot at_slash
        subst at_dot at_slash
        exact valid.body_undotted some l whole

theorem Encodes.ustar (enc : Encodes mem header r) : isUstar mem header = true := by
  rw [isUstar, List.all_eq_true]
  intro i member
  exact decide_eq_true (enc.magic i (List.mem_range.mp member))

theorem Encodes.readSize {fuel : Nat} (enc : Encodes mem header r) (enough : 11 < fuel) :
    octalToInt mem fuel (header + sizeField) 0 = .ok r.data.length := by
  obtain ⟨digits, value, digit, few, there, stop⟩ := enc.size
  rw [← value]
  apply octalToInt_spec digit there _ (Nat.pow_pos (by decide)) few (by omega)
  rcases stop with zero | space
  · rw [zero]
    decide
  · rw [space]
    decide

theorem Encodes.flags (enc : Encodes mem header r) :
    (if mem (header + typeflagField) = typeDirectory then vfsDirectory else vfsFile) = r.flags := by
  have type := enc.typeflag
  rw [Record.flags]
  by_cases dir : r.directory = true
  · rw [if_pos dir] at type ⊢
    rw [if_pos type]
  · rw [if_neg dir] at type ⊢
    rw [if_neg]
    rcases type with type | type <;> rw [type] <;> decide

theorem Encodes.content (enc : Encodes mem header r)
    (same : ∀ a ≥ header + 512, mem' a = mem a) :
    (List.range r.data.length).map (fun i => mem' (header + 512 + i)) = r.data := by
  apply List.ext_getElem (by simp)
  intro i _ inside
  simp only [List.getElem_map, List.getElem_range]
  rw [same _ (by omega), enc.data i inside]

theorem recordSize_of_lt {size : Nat} (small : size < 8 ^ 11) :
    recordSize size = 512 + 512 * ((size + 511) / 512) := by
  have size_lt : size < 2 ^ 33 := small
  have mask : (0xFFFFFFFFFFFFFE00 : Nat) = (2 ^ (64 - 9) - 1) <<< 9 := by decide
  have sum : wrap64 (size + 511) = size + 511 := wrap64_of_lt (by omega)
  rw [recordSize, sum, mask, and_mask (by omega) (by decide)]
  have blocks : (size + 511) / 2 ^ 9 * 2 ^ 9 = 512 * ((size + 511) / 512) := Nat.mul_comm _ _
  rw [blocks]
  exact wrap64_of_lt (by omega)

theorem recordSize_eq (small : r.data.length < 8 ^ 11) :
    recordSize r.data.length = 512 + 512 * r.blocks := recordSize_of_lt small

/-- Changing a header leaves the later records as they are. -/
theorem Encodes.congr (same : ∀ a ≥ header, mem' a = mem a) (enc : Encodes mem header r) :
    Encodes mem' header r := by
  have field : ∀ {k width bytes}, Field mem (header + k) width bytes →
      Field mem' (header + k) width bytes := by
    intro k width bytes there
    exact ⟨there.1, fun i inside => by rw [same _ (by omega), there.2 i inside]⟩
  constructor
  case path =>
    cases enc.path with
    | whole name front => exact .whole (field (k := 0) name) (field front)
    | split parts long some some' name front =>
      exact .split parts long some some' (field (k := 0) name) (field front)
  case mode =>
    rw [same _ (by omega)]
    exact enc.mode
  case size =>
    obtain ⟨digits, value, digit, few, there, stop⟩ := enc.size
    refine ⟨digits, value, digit, few, fun i inside => ?_, ?_⟩
    · rw [same _ (by omega), there i inside]
    · rwa [same _ (by omega)]
  case typeflag =>
    rw [same _ (by omega)]
    exact enc.typeflag
  case magic =>
    intro i inside
    rw [same _ (by omega), enc.magic i inside]
  case data =>
    intro i inside
    rw [same _ (by omega), enc.data i inside]

theorem Records.congr (same : ∀ a ≥ offset, mem' a = mem a) (h : Records mem offset rs stop) :
    Records mem' offset rs stop := by
  induction rs generalizing offset with
  | nil => exact h
  | cons r rs ih => exact ⟨h.1.congr same, ih (fun a high => same a (by omega)) h.2⟩

theorem Records.le (h : Records mem offset rs stop) : offset ≤ stop := by
  induction rs generalizing offset with
  | nil => exact h.le
  | cons r rs ih =>
    have rest := ih h.2
    omega

end Tmpfs

end DedOS
