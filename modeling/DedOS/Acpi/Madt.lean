import DedOS.Lib.Logged
import DedOS.Lib.Memory

/-!
# The MADT walk of `madt.c`

A table is the memory from the address that `acpi_find_table` returns on. Every read is
recorded by its offset in the table; reading past the table reads what lies there. A walk is
given a bound on its rounds and fails with the statics it has reached when that is too small.
-/

namespace DedOS

open Lib Logged

/-! ### The table -/

/-- `sizeof(madt_t)`: the header, with `length` at 4, then `lapic_address` at 36. -/
def madtSize : Nat := 44

/-- A little-endian read of `n` bytes. -/
def readBytes {ε : Type} (table : Memory) : Nat → Nat → Logged Nat ε Nat
  | 0, _ => pure 0
  | n + 1, a => do
    record a
    let rest ← readBytes table n (a + 1)
    return (table a).toNat + 256 * rest

/-! ### The statics -/

def maxCpus : Nat := 16
def maxIsos : Nat := 16

/-- The statics of `madt.c`. An index of an array is one inside it, and a pointer to an entry
is its offset in the table. -/
structure Madt where
  lapicAddr : Nat
  cpuCount : UInt8
  lapicIds : Fin maxCpus → UInt8
  ioapicAddr : Nat
  ioapicGsiBase : Nat
  isos : Fin maxIsos → Option Nat
  isoCount : UInt8

namespace Madt

def bss : Madt where
  lapicAddr := 0
  cpuCount := 0
  lapicIds _ := 0
  ioapicAddr := 0
  ioapicGsiBase := 0
  isos _ := none
  isoCount := 0

/-- `lapic_ids[cpu_count++] = id`, when there is room -/
def pushLapic (s : Madt) (id : Nat) : Madt :=
  if h : s.cpuCount.toNat < maxCpus then
    { s with
      lapicIds := Function.update s.lapicIds ⟨s.cpuCount.toNat, h⟩ (UInt8.ofNat id)
      cpuCount := s.cpuCount + 1 }
  else s

/-- `isos[iso_count++] = iso`, when there is room -/
def pushIso (s : Madt) (iso : Nat) : Madt :=
  if h : s.isoCount.toNat < maxIsos then
    { s with
      isos := Function.update s.isos ⟨s.isoCount.toNat, h⟩ (some iso)
      isoCount := s.isoCount + 1 }
  else s

end Madt

/-! ### The walk -/

/-- The `switch` of `madt_init`, with the arguments that `log_debug` and `log_warn` take. -/
def madtEntry (table : Memory) (ptr : Nat) (s : Madt) : Logged Nat Madt Madt := do
  let type ← readBytes table 1 ptr
  match type with
  | 0 =>
    let flags ← readBytes table 4 (ptr + 4)
    if flags &&& 1 ≠ 0 ∧ s.cpuCount.toNat < maxCpus then
      let apicId ← readBytes table 1 (ptr + 3)
      let _ ← readBytes table 1 (ptr + 2)
      let _ ← readBytes table 1 (ptr + 3)
      return s.pushLapic apicId
    else return s
  | 1 =>
    let address ← readBytes table 4 (ptr + 4)
    let gsiBase ← readBytes table 4 (ptr + 8)
    return { s with ioapicAddr := address, ioapicGsiBase := gsiBase }
  | 2 =>
    let _ ← readBytes table 1 (ptr + 3)
    let _ ← readBytes table 4 (ptr + 4)
    let _ ← readBytes table 2 (ptr + 8)
    return s.pushIso ptr
  | 4 =>
    let _ ← readBytes table 1 (ptr + 2)
    let _ ← readBytes table 1 (ptr + 5)
    return s
  | _ =>
    let _ ← readBytes table 1 ptr
    return s

/-- The loop of `madt_init`. -/
def madtFrom (table : Memory) (stop : Nat) : Nat → Nat → Madt → Logged Nat Madt Madt
  | 0, _, s => fail s
  | fuel + 1, ptr, s =>
    if ptr < stop then do
      let s ← madtEntry table ptr s
      let length ← readBytes table 1 (ptr + 1)
      madtFrom table stop fuel (ptr + length) s
    else return s

/-- `madt_init`, with the table that `acpi_find_table("APIC")` returns if there is one. -/
def madtInit (fuel : Nat) (table : Option Memory) (s : Madt) : Logged Nat Madt Madt :=
  match table with
  | none => return s
  | some table => do
    let address ← readBytes table 4 36
    let length ← readBytes table 4 4
    madtFrom table length fuel madtSize { s with lapicAddr := address }

variable {table : Memory} {ptr n a stop fuel fuel' k : Nat} {s s' : Madt}

/-! ### One entry -/

@[simp] theorem readBytes_result {ε : Type} :
    (readBytes table n a : Logged Nat ε Nat).result = .ok (load n table a) := by
  induction n generalizing a with
  | zero => rw [readBytes, result_pure, load]
  | succ n ih => rw [readBytes, result_record_bind, result_bind_ok ih, result_pure, load]

/-- A read records the offsets of its bytes. -/
@[simp] theorem mem_readBytes_log {ε : Type} {x : Nat} :
    x ∈ (readBytes table n a : Logged Nat ε Nat).log ↔ a ≤ x ∧ x < a + n := by
  induction n generalizing a with
  | zero =>
    simp only [readBytes, log_pure, List.not_mem_nil, Nat.add_zero, false_iff]
    omega
  | succ n ih =>
    rw [readBytes, log_record_bind, log_bind_ok readBytes_result]
    simp only [log_pure, List.append_nil, List.mem_cons, ih]
    omega

theorem load_one (table : Memory) (a : Nat) : load 1 table a = (table a).toNat := by
  simp [load]

/-- The bytes of an entry that the walk reads, from its start on. -/
def entryBytes (type : Nat) : Nat :=
  match type with
  | 0 => 8
  | 1 => 12
  | 2 => 10
  | 4 => 6
  | _ => 2

/-- The counts stay within the arrays. -/
structure Madt.Fits (s : Madt) : Prop where
  cpus : s.cpuCount.toNat ≤ maxCpus
  isos : s.isoCount.toNat ≤ maxIsos

theorem Madt.bss_fits : Madt.bss.Fits := ⟨by decide, by decide⟩

theorem succ_toNat {c : UInt8} (small : c.toNat < 16) : (c + 1).toNat = c.toNat + 1 := by
  rw [UInt8.toNat_add]
  exact Nat.mod_eq_of_lt (by simp; omega)

theorem Madt.Fits.pushLapic (fits : s.Fits) (id : Nat) : (s.pushLapic id).Fits := by
  unfold Madt.pushLapic
  split
  next room =>
    refine ⟨?_, fits.isos⟩
    rw [succ_toNat room]
    exact room
  · exact fits

theorem Madt.Fits.pushIso (fits : s.Fits) (iso : Nat) : (s.pushIso iso).Fits := by
  unfold Madt.pushIso
  split
  next room =>
    refine ⟨fits.cpus, ?_⟩
    rw [succ_toNat room]
    exact room
  · exact fits

/-- What the `switch` does with an entry: it returns, keeps the counts within the arrays, and
reads the entry up to the last byte that it uses. -/
structure EntryRead (table : Memory) (ptr : Nat) (s : Madt) : Prop where
  returns : ∃ s', (madtEntry table ptr s).result = .ok s' ∧ (s.Fits → s'.Fits)
  inside : ∀ a ∈ (madtEntry table ptr s).log, ptr ≤ a ∧ a < ptr + entryBytes (load 1 table ptr)
  last : 2 < entryBytes (load 1 table ptr) →
    ptr + entryBytes (load 1 table ptr) - 1 ∈ (madtEntry table ptr s).log

theorem EntryRead.of_log {type : Nat} {log : List Nat} (kind : load 1 table ptr = type)
    (entry : madtEntry table ptr s = ⟨log, .ok s'⟩) (keeps : s.Fits → s'.Fits)
    (inside : ∀ a ∈ log, ptr ≤ a ∧ a < ptr + entryBytes type)
    (last : 2 < entryBytes type → ptr + entryBytes type - 1 ∈ log) : EntryRead table ptr s where
  returns := ⟨s', by rw [entry], keeps⟩
  inside := by
    rw [entry, kind]
    exact inside
  last := by
    rw [entry, kind]
    exact last

theorem entryRead (table : Memory) (ptr : Nat) (s : Madt) : EntryRead table ptr s := by
  have entry := madtEntry.eq_1 table ptr s
  rw [bind_of_ok readBytes_result] at entry
  generalize kind : load 1 table ptr = type at entry
  have members : ∀ {l : List Nat} {n a x : Nat},
      x ∈ (readBytes table n a : Logged Nat Madt Nat).log ++ l ↔
        (a ≤ x ∧ x < a + n) ∨ x ∈ l := by
    intro l n a x
    rw [List.mem_append, mem_readBytes_log]
  -- types 0 to 4, and the others
  rcases type with _ | _ | _ | _ | _ | type
  case zero =>
    rw [bind_of_ok readBytes_result] at entry
    by_cases counted : load 4 table (ptr + 4) &&& 1 ≠ 0 ∧ s.cpuCount.toNat < maxCpus
    · simp only [if_pos counted, bind_of_ok readBytes_result, log_pure] at entry
      refine .of_log kind entry (fun fits => fits.pushLapic _) (fun a member => ?_) fun _ => ?_
      · simp only [members, List.not_mem_nil, or_false, entryBytes] at member ⊢
        omega
      · simp only [members, entryBytes]
        omega
    · simp only [if_neg counted, log_pure] at entry
      refine .of_log kind entry id (fun a member => ?_) fun _ => ?_
      · simp only [members, List.not_mem_nil, or_false, entryBytes] at member ⊢
        omega
      · simp only [members, entryBytes]
        omega
  all_goals simp only [bind_of_ok readBytes_result, log_pure] at entry
  case succ.zero =>
    refine .of_log kind entry (fun fits => ⟨fits.cpus, fits.isos⟩) (fun a member => ?_) fun _ => ?_
    · simp only [members, List.not_mem_nil, or_false, entryBytes] at member ⊢
      omega
    · simp only [members, entryBytes]
      omega
  case succ.succ.zero =>
    refine .of_log kind entry (fun fits => fits.pushIso _) (fun a member => ?_) fun _ => ?_
    · simp only [members, List.not_mem_nil, or_false, entryBytes] at member ⊢
      omega
    · simp only [members, entryBytes]
      omega
  case succ.succ.succ.succ.zero =>
    refine .of_log kind entry id (fun a member => ?_) fun _ => ?_
    · simp only [members, List.not_mem_nil, or_false, entryBytes] at member ⊢
      omega
    · simp only [members, entryBytes]
      omega
  -- any other entry is only logged, with its type
  all_goals
    refine .of_log kind entry id (fun a member => ?_) fun large => absurd large (Nat.lt_irrefl 2)
    simp only [members, List.not_mem_nil, or_false, entryBytes] at member ⊢
    omega

/-! ### The walk -/

/-- `madt->header.length` -/
def tableLength (table : Memory) : Nat := load 4 table 4

/-- Where the walk is after `k` entries, when it gets there. -/
def entryAt (table : Memory) : Nat → Nat
  | 0 => madtSize
  | k + 1 => entryAt table k + (table (entryAt table k + 1)).toNat

/-- The statics when the walk ended, or when its rounds ran out. -/
def statics : Except Madt Madt → Madt
  | .ok s => s
  | .error s => s

/-- One round reads inside its entry, up to the last byte that it uses or its length byte. -/
theorem madtFrom_step (table : Memory) (s : Madt) (more : ptr < stop) :
    ∃ s' log, (∀ fuel, madtFrom table stop (fuel + 1) ptr s =
        ⟨log ++ (madtFrom table stop fuel (ptr + (table (ptr + 1)).toNat) s').log,
          (madtFrom table stop fuel (ptr + (table (ptr + 1)).toNat) s').result⟩) ∧
      (s.Fits → s'.Fits) ∧
      (∀ a ∈ log, ptr ≤ a ∧ a < ptr + entryBytes (table ptr).toNat) ∧
      ptr + entryBytes (table ptr).toNat - 1 ∈ log := by
  obtain ⟨s', done, keeps⟩ := (entryRead table ptr s).returns
  have inside := (entryRead table ptr s).inside
  have last := (entryRead table ptr s).last
  rw [load_one] at inside last
  have two : 2 ≤ entryBytes (table ptr).toNat := by
    unfold entryBytes
    split <;> omega
  refine ⟨s', (madtEntry table ptr s).log ++ (readBytes table 1 (ptr + 1) : Logged Nat Madt Nat).log,
    fun fuel => ?_, keeps, fun a member => ?_, ?_⟩
  · rw [madtFrom, if_pos more, bind_of_ok done, bind_of_ok readBytes_result, load_one,
      List.append_assoc]
  · rcases List.mem_append.mp member with used | length
    · exact inside a used
    · rw [mem_readBytes_log] at length
      omega
  · rw [List.mem_append, mem_readBytes_log]
    rcases Nat.eq_or_lt_of_le two with least | more
    · right
      omega
    · exact .inl (last more)

/-- A walk that is given more rounds than it needs makes no use of them. -/
theorem madtFrom_mono (done : (madtFrom table stop fuel ptr s).result = .ok s')
    (more : fuel ≤ fuel') : (madtFrom table stop fuel' ptr s).result = .ok s' := by
  induction fuel generalizing ptr s fuel' with
  | zero => cases done
  | succ fuel ih =>
    obtain ⟨fuel', rfl⟩ : ∃ f, fuel' = f + 1 := ⟨fuel' - 1, by omega⟩
    by_cases before : ptr < stop
    · obtain ⟨s₁, log, step, _⟩ := madtFrom_step table s before
      rw [step] at done ⊢
      exact ih done (by omega)
    · rw [madtFrom, if_neg before] at done ⊢
      exact done

theorem entryAt_mono {j k : Nat} (le : j ≤ k) : entryAt table j ≤ entryAt table k := by
  induction le with
  | refl => exact Nat.le_refl _
  | step _ ih => exact Nat.le_trans ih (Nat.le_add_right _ _)

/-- The walk gets to its `k`-th entry. -/
theorem madtFrom_reach (fuel : Nat) (s : Madt) (before : ∀ j < k, entryAt table j < stop) :
    ∃ s' log, madtFrom table stop (k + fuel) madtSize s =
      ⟨log ++ (madtFrom table stop fuel (entryAt table k) s').log,
        (madtFrom table stop fuel (entryAt table k) s').result⟩ := by
  induction k generalizing fuel with
  | zero =>
    rw [Nat.zero_add]
    exact ⟨s, [], rfl⟩
  | succ k ih =>
    obtain ⟨s₁, log₁, reached⟩ := ih (fuel + 1) fun j small => before j (by omega)
    obtain ⟨s₂, log₂, step, _⟩ := madtFrom_step table s₁ (before k (Nat.lt_succ_self k))
    have rounds : k + 1 + fuel = k + (fuel + 1) := by omega
    refine ⟨s₂, log₁ ++ log₂, ?_⟩
    rw [rounds, reached, step, entryAt, List.append_assoc]

/-- An entry of length 0 is visited again and again. -/
theorem madtFrom_stuck (more : ptr < stop) (zero : table (ptr + 1) = 0) (fuel : Nat) (s s' : Madt) :
    (madtFrom table stop fuel ptr s).result ≠ .ok s' := by
  induction fuel generalizing s with
  | zero => simp [madtFrom]
  | succ fuel ih =>
    obtain ⟨s₁, log, step, _⟩ := madtFrom_step table s more
    rw [step, zero]
    exact ih s₁

theorem madtFrom_fits (fits : s.Fits) : (statics (madtFrom table stop fuel ptr s).result).Fits := by
  induction fuel generalizing ptr s with
  | zero => exact fits
  | succ fuel ih =>
    by_cases more : ptr < stop
    · obtain ⟨s₁, log, step, keeps, _⟩ := madtFrom_step table s more
      rw [step]
      exact ih (keeps fits)
    · rw [madtFrom, if_neg more]
      exact fits

/-- With lengths that are not 0 the walk comes to the end of the table. -/
theorem madtFrom_ends (s : Madt)
    (moves : ∀ k, entryAt table k < stop → table (entryAt table k + 1) ≠ 0) (k : Nat) :
    ∃ fuel s', (madtFrom table stop fuel (entryAt table k) s).result = .ok s' := by
  induction rest : stop - entryAt table k using Nat.strongRecOn generalizing k s with
  | _ rest' ih =>
    by_cases more : entryAt table k < stop
    · obtain ⟨s₁, log, step, _⟩ := madtFrom_step table s more
      have positive : 0 < (table (entryAt table k + 1)).toNat := by
        rw [Nat.pos_iff_ne_zero]
        exact fun zero => moves k more (UInt8.toNat_inj.mp zero)
      have next : entryAt table (k + 1) =
          entryAt table k + (table (entryAt table k + 1)).toNat := rfl
      obtain ⟨fuel, s', done⟩ := ih _ (by omega) s₁ (k + 1) rfl
      refine ⟨fuel + 1, s', ?_⟩
      rw [step]
      exact done
    · refine ⟨1, s, ?_⟩
      rw [madtFrom, if_neg more]
      rfl

theorem madtFrom_inside (s : Madt) (bounds : ∀ k, entryAt table k < stop →
    entryAt table k + entryBytes (table (entryAt table k)).toNat ≤ stop) (fuel k : Nat) :
    ∀ a ∈ (madtFrom table stop fuel (entryAt table k) s).log, a < stop := by
  induction fuel generalizing k s with
  | zero => simp [madtFrom]
  | succ fuel ih =>
    by_cases more : entryAt table k < stop
    · obtain ⟨s₁, log, step, _, inside, _⟩ := madtFrom_step table s more
      rw [step]
      intro a member
      rcases List.mem_append.mp member with here | later
      · exact Nat.lt_of_lt_of_le (inside a here).2 (bounds k more)
      · exact ih s₁ (k + 1) a later
    · rw [madtFrom, if_neg more]
      simp

/-! ### Safety -/

/-- The walk of a table ends, reads inside the fixed header or the table, and never counts
more than its arrays hold, however many rounds it makes. -/
structure WalkSafe (table : Memory) (s : Madt) : Prop where
  ends : ∃ fuel s', (madtInit fuel (some table) s).result = .ok s'
  inside : ∀ fuel, ∀ a ∈ (madtInit fuel (some table) s).log,
    a < madtSize ∨ a < tableLength table
  counts : ∀ fuel, (statics (madtInit fuel (some table) s).result).Fits

/-- Every entry that the lengths lead to has a length, and the table goes on to the end of the
bytes that the walk reads of it. -/
def EntriesComplete (table : Memory) : Prop :=
  ∀ k, entryAt table k < tableLength table → table (entryAt table k + 1) ≠ 0 ∧
    entryAt table k + entryBytes (table (entryAt table k)).toNat ≤ tableLength table

theorem madtInit_eq (fuel : Nat) (table : Memory) (s : Madt) :
    ∃ header : List Nat, (∀ a ∈ header, a < madtSize) ∧ madtInit fuel (some table) s =
      ⟨header ++ (madtFrom table (tableLength table) fuel madtSize
          { s with lapicAddr := load 4 table 36 }).log,
        (madtFrom table (tableLength table) fuel madtSize
          { s with lapicAddr := load 4 table 36 }).result⟩ := by
  refine ⟨(readBytes table 4 36 : Logged Nat Madt Nat).log ++
    (readBytes table 4 4 : Logged Nat Madt Nat).log, fun a member => ?_, ?_⟩
  · rw [List.mem_append, mem_readBytes_log, mem_readBytes_log] at member
    unfold madtSize
    omega
  · simp only [madtInit, bind_of_ok readBytes_result, List.append_assoc]
    rfl

theorem madt_walk_safe_iff (fits : s.Fits) : WalkSafe table s ↔ EntriesComplete table := by
  constructor
  · intro safe k inside
    have before : ∀ j < k, entryAt table j < tableLength table :=
      fun j small => Nat.lt_of_le_of_lt (entryAt_mono (Nat.le_of_lt small)) inside
    constructor
    · -- the walk would not get past the entry
      intro zero
      obtain ⟨fuel, s', done⟩ := safe.ends
      obtain ⟨_, _, start⟩ := madtInit_eq fuel table s
      rw [start] at done
      -- from the entry on, no round makes progress
      obtain ⟨s₁, log, reached⟩ := madtFrom_reach fuel { s with lapicAddr := load 4 table 36 } before
      have longer := madtFrom_mono done (Nat.le_add_left fuel k)
      rw [reached] at longer
      exact madtFrom_stuck inside zero fuel s₁ s' longer
    · -- the walk reads the last of these bytes
      obtain ⟨_, _, start⟩ := madtInit_eq (k + 1) table s
      obtain ⟨s₁, log, reached⟩ := madtFrom_reach 1 { s with lapicAddr := load 4 table 36 } before
      obtain ⟨s₂, log', step, _, _, last⟩ := madtFrom_step table s₁ inside
      have read := safe.inside (k + 1) _ (by
        rw [start, reached, step 0]
        exact List.mem_append_right _ (List.mem_append_right _ (List.mem_append_left _ last)))
      have behind : madtSize ≤ entryAt table k := entryAt_mono (Nat.zero_le k)
      have some : 0 < entryBytes (table (entryAt table k)).toNat := by
        unfold entryBytes
        split <;> omega
      omega
  · intro complete
    constructor
    case ends =>
      obtain ⟨fuel, s', done⟩ := madtFrom_ends { s with lapicAddr := load 4 table 36 }
        (fun k inside => (complete k inside).1) 0
      obtain ⟨_, _, start⟩ := madtInit_eq fuel table s
      exact ⟨fuel, s', by rw [start]; exact done⟩
    case inside =>
      intro fuel a member
      -- the fixed header is read before the entries
      obtain ⟨header, fixed, start⟩ := madtInit_eq fuel table s
      rw [start] at member
      rcases List.mem_append.mp member with front | entries
      · exact .inl (fixed a front)
      · right
        exact madtFrom_inside _ (fun k inside => (complete k inside).2) fuel 0 a entries
    case counts =>
      intro fuel
      obtain ⟨_, _, start⟩ := madtInit_eq fuel table s
      rw [start]
      exact madtFrom_fits ⟨fits.cpus, fits.isos⟩

/-- A table of 52 bytes: the header and one entry for an enabled CPU. -/
def oneCpuTable : Memory := fun a => [(4, 52), (45, 8), (48, 1)].lookup a |>.getD 0

theorem madt_walk_safe_iff_one_cpu : WalkSafe oneCpuTable .bss ↔ EntriesComplete oneCpuTable :=
  madt_walk_safe_iff Madt.bss_fits

/-- A table of 52 bytes whose entry has the length 0. -/
def stuckTable : Memory := fun a => if a = 4 then 52 else 0

/-- A length of 0 leaves the pointer where it is. -/
theorem zero_length_never_ends : ¬ WalkSafe stuckTable .bss := by
  intro safe
  obtain ⟨fuel, s', done⟩ := safe.ends
  obtain ⟨_, _, start⟩ := madtInit_eq fuel stuckTable .bss
  rw [start] at done
  have more : madtSize < tableLength stuckTable := by
    simp [madtSize, tableLength, load, stuckTable]
  exact madtFrom_stuck more rfl fuel _ s' done

end DedOS
