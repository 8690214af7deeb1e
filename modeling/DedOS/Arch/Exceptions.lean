import DedOS.Scheduler.Thread
import DedOS.Utils.Log

/-!
# The report of an exception

`isr_handler` logs an exception and halts. For the vectors that `exception_names` has a name for,
the line of the log gives back the name and the members of the frame that it is about. The array
has 15 names, and for an exception from vector 15 on the pointer is read behind it.
-/

namespace DedOS

open Lib Logged

/-- `exception_names` -/
def exceptionNames : List (List UInt8) := [
  -- Division by zero
  [0x44, 0x69, 0x76, 0x69, 0x73, 0x69, 0x6F, 0x6E, 0x20, 0x62, 0x79, 0x20, 0x7A, 0x65, 0x72, 0x6F],
  -- Debug
  [0x44, 0x65, 0x62, 0x75, 0x67],
  -- Non-maskable interrupt
  [0x4E, 0x6F, 0x6E, 0x2D, 0x6D, 0x61, 0x73, 0x6B, 0x61, 0x62, 0x6C, 0x65, 0x20, 0x69, 0x6E, 0x74,
   0x65, 0x72, 0x72, 0x75, 0x70, 0x74],
  -- Breakpoint
  [0x42, 0x72, 0x65, 0x61, 0x6B, 0x70, 0x6F, 0x69, 0x6E, 0x74],
  -- Overflow
  [0x4F, 0x76, 0x65, 0x72, 0x66, 0x6C, 0x6F, 0x77],
  -- Bound range exceeded
  [0x42, 0x6F, 0x75, 0x6E, 0x64, 0x20, 0x72, 0x61, 0x6E, 0x67, 0x65, 0x20, 0x65, 0x78, 0x63, 0x65,
   0x65, 0x64, 0x65, 0x64],
  -- Invalid opcode
  [0x49, 0x6E, 0x76, 0x61, 0x6C, 0x69, 0x64, 0x20, 0x6F, 0x70, 0x63, 0x6F, 0x64, 0x65],
  -- Device not available
  [0x44, 0x65, 0x76, 0x69, 0x63, 0x65, 0x20, 0x6E, 0x6F, 0x74, 0x20, 0x61, 0x76, 0x61, 0x69, 0x6C,
   0x61, 0x62, 0x6C, 0x65],
  -- Double fault
  [0x44, 0x6F, 0x75, 0x62, 0x6C, 0x65, 0x20, 0x66, 0x61, 0x75, 0x6C, 0x74],
  -- Coprocessor segment overrun
  [0x43, 0x6F, 0x70, 0x72, 0x6F, 0x63, 0x65, 0x73, 0x73, 0x6F, 0x72, 0x20, 0x73, 0x65, 0x67, 0x6D,
   0x65, 0x6E, 0x74, 0x20, 0x6F, 0x76, 0x65, 0x72, 0x72, 0x75, 0x6E],
  -- Invalid TSS
  [0x49, 0x6E, 0x76, 0x61, 0x6C, 0x69, 0x64, 0x20, 0x54, 0x53, 0x53],
  -- Segment not present
  [0x53, 0x65, 0x67, 0x6D, 0x65, 0x6E, 0x74, 0x20, 0x6E, 0x6F, 0x74, 0x20, 0x70, 0x72, 0x65, 0x73,
   0x65, 0x6E, 0x74],
  -- Stack fault
  [0x53, 0x74, 0x61, 0x63, 0x6B, 0x20, 0x66, 0x61, 0x75, 0x6C, 0x74],
  -- General protection fault
  [0x47, 0x65, 0x6E, 0x65, 0x72, 0x61, 0x6C, 0x20, 0x70, 0x72, 0x6F, 0x74, 0x65, 0x63, 0x74, 0x69,
   0x6F, 0x6E, 0x20, 0x66, 0x61, 0x75, 0x6C, 0x74],
  -- Page fault
  [0x50, 0x61, 0x67, 0x65, 0x20, 0x66, 0x61, 0x75, 0x6C, 0x74]]

/-- `EXCEPTION: ` -/
def exceptionWord : List UInt8 :=
  [0x45, 0x58, 0x43, 0x45, 0x50, 0x54, 0x49, 0x4F, 0x4E, 0x3A, 0x20]

/-- ` vector: ` -/
def vectorWord : List UInt8 :=
  [0x20, 0x76, 0x65, 0x63, 0x74, 0x6F, 0x72, 0x3A, 0x20]

/-- `error: ` -/
def errorWord : List UInt8 :=
  [0x65, 0x72, 0x72, 0x6F, 0x72, 0x3A, 0x20]

/-- `| rip: ` -/
def ripWord : List UInt8 :=
  [0x7C, 0x20, 0x72, 0x69, 0x70, 0x3A, 0x20]

/-- `rsp: ` -/
def rspWord : List UInt8 :=
  [0x72, 0x73, 0x70, 0x3A, 0x20]

/-- `EXCEPTION: %s | vector: %u error: %x | rip: %p rsp: %p` -/
def exceptionFormat : List UInt8 :=
  exceptionWord ++ 0x25 :: 0x73 :: 0x20 :: 0x7C :: (vectorWord ++ 0x25 :: 0x75 :: 0x20 ::
    (errorWord ++ 0x25 :: 0x78 :: 0x20 :: (ripWord ++ 0x25 :: 0x70 :: 0x20 ::
      (rspWord ++ [0x25, 0x70]))))

/-- `ISR` -/
def isrWord : List UInt8 := [0x49, 0x53, 0x52]

/-- Where the strings of `isr.c` lie; `names` are the pointers of `exception_names`. -/
structure IsrStrings where
  subsystem : UInt64
  format : UInt64
  names : List UInt64

/-- The call of `log_error` in `isr_handler`, for a vector below 32; `none` when the name is
read behind `exception_names`. -/
def exceptionCall (strings : IsrStrings) (ticks : UInt64) (frame : Registers) : Option LogCall :=
  strings.names[frame.vector.toNat]?.map fun name =>
    { ticks := ticks
      level := .error
      subsystem := strings.subsystem
      fmt := strings.format
      args := [name, frame.vector, frame.errorCode, frame.rip, frame.rsp] }

/-- The strings are in memory. -/
structure IsrStrings.Hold (mem : Memory) (strings : IsrStrings) : Prop where
  subsystem : NulText mem strings.subsystem.toNat isrWord
  format : NulText mem strings.format.toNat exceptionFormat
  names : List.Forall₂ (fun pointer name => NulText mem pointer.toNat name) strings.names
    exceptionNames

/-! ### What the report says -/

structure ExceptionReport where
  name : List UInt8
  vector : UInt64
  error : UInt64
  rip : UInt64
  rsp : UInt64
  deriving DecidableEq

/-- The text that the format stands for. -/
def ExceptionReport.text (report : ExceptionReport) : List UInt8 :=
  exceptionWord ++ ((report.name ++ [0x20]) ++ 0x7C :: (vectorWord ++
    (unsignedText 10 report.vector ++ 0x20 :: (errorWord ++
      (unsignedText 16 report.error ++ 0x20 :: ((ripWord ++ [0x30, 0x78]) ++
        (unsignedText 16 report.rip ++ 0x20 :: ((rspWord ++ [0x30, 0x78]) ++
          unsignedText 16 report.rsp))))))))

def readNumber (b : Nat) (text : List UInt8) : Option UInt64 :=
  (parseNumeral digitValue b text).map UInt64.ofNat

/-- The report of an exception, from the text of its log entry. -/
def readReport (text : List UInt8) : Option ExceptionReport := do
  let (name, text) ← readField exceptionWord 0x7C text
  let (vector, text) ← readField vectorWord 0x20 text
  let (error, text) ← readField errorWord 0x20 text
  let (rip, text) ← readField (ripWord ++ [0x30, 0x78]) 0x20 text
  let rsp ← text.dropPrefix? (rspWord ++ [0x30, 0x78])
  return {
    name := name.dropLast
    vector := ← readNumber 10 vector
    error := ← readNumber 16 error
    rip := ← readNumber 16 rip
    rsp := ← readNumber 16 rsp }

/-! ### The report is read back -/

variable {mem : Memory} {place : LogLiteral → UInt64} {threshold : LogLevel}
variable {strings : IsrStrings} {ticks : UInt64} {frame : Registers} {name : List UInt8}

theorem readNumber_unsigned {b : Nat} (base : 1 < b) (max : b ≤ 16) (n : UInt64) :
    readNumber b (unsignedText b n) = some n := by
  have parsed : parseNumeral digitValue b (unsignedText b n) = some n.toNat :=
    parse_numeral base (digitValue_base max) n.toNat
  rw [readNumber, parsed, Option.map_some, UInt64.ofNat_toNat]

/-- No digit is a space. -/
theorem space_not_mem {b : Nat} (base : 1 < b) (max : b ≤ 16) (n : UInt64) :
    0x20 ∉ unsignedText b n := fun member => digit_of_mem base max member rfl

theorem readReport_text {report : ExceptionReport} (plain : 0x7C ∉ report.name) :
    readReport report.text = some report := by
  have bar : 0x7C ∉ report.name ++ [0x20] := by simp [plain]
  have vector := space_not_mem (b := 10) (by decide) (by decide) report.vector
  have error := space_not_mem (b := 16) (by decide) (by decide) report.error
  have rip := space_not_mem (b := 16) (by decide) (by decide) report.rip
  have decimal := fun n => readNumber_unsigned (b := 10) (by decide) (by decide) n
  have hexadecimal := fun n => readNumber_unsigned (b := 16) (by decide) (by decide) n
  -- field after field, as the reader goes through the text
  rw [readReport, ExceptionReport.text, readField_append bar]
  dsimp only [Option.bind_eq_bind, Option.bind_some]
  rw [readField_append vector]
  dsimp only [Option.bind_some]
  rw [readField_append error]
  dsimp only [Option.bind_some]
  rw [readField_append rip]
  dsimp only [Option.bind_some]
  rw [dropPrefix_append, decimal, hexadecimal, hexadecimal]
  simp [hexadecimal]

/-- The names are text within a line, and none of them has a bar. -/
theorem exceptionNames_plain : ∀ name ∈ exceptionNames, 0x7C ∉ name ∧ 0x0A ∉ name := by decide

theorem newline_not_mem_report {report : ExceptionReport} (plain : 0x0A ∉ report.name) :
    0x0A ∉ report.text := by
  have digits : ∀ {b : Nat} {n : UInt64}, 1 < b → b ≤ 16 → 0x0A ∉ unsignedText b n :=
    fun base max member => digit_of_mem base max member rfl
  simp [ExceptionReport.text, exceptionWord, vectorWord, errorWord, ripWord, rspWord, plain, digits]

/-- Plain text, a conversion, and what follows them. -/
theorem Formats.field {word format text more : List UInt8} {args args' rest : List UInt64}
    {c : UInt8} (plain : 0x25 ∉ word) (converts : Converts mem (conversion c) args text args')
    (others : Formats mem format args' more rest) :
    Formats mem (word ++ 0x25 :: c :: format) args (word ++ (text ++ more)) rest :=
  (Formats.directive converts others).prepend plain

/-- With its name in place the format stands for the report. -/
theorem formats_report {pointer : UInt64} (here : NulText mem pointer.toNat name) :
    Formats mem exceptionFormat [pointer, frame.vector, frame.errorCode, frame.rip, frame.rsp]
      (ExceptionReport.text ⟨name, frame.vector, frame.errorCode, frame.rip, frame.rsp⟩) [] := by
  have rsp : Formats mem (rspWord ++ [0x25, 0x70]) [frame.rsp] _ [] :=
    .field (by decide) .p .done
  have rip : Formats mem (ripWord ++ 0x25 :: 0x70 :: 0x20 :: _) (frame.rip :: _) _ [] :=
    .field (by decide) .p (.plain (by decide) rsp)
  have error : Formats mem (errorWord ++ 0x25 :: 0x78 :: 0x20 :: _) (frame.errorCode :: _) _ [] :=
    .field (by decide) .x (.plain (by decide) rip)
  have vector : Formats mem (vectorWord ++ 0x25 :: 0x75 :: 0x20 :: _) (frame.vector :: _) _ [] :=
    .field (by decide) .u (.plain (by decide) error)
  have whole : Formats mem (exceptionWord ++ 0x25 :: 0x73 :: 0x20 :: 0x7C :: _) (pointer :: _) _ [] :=
    .field (by decide) (.s here) (.plain (by decide) (.plain (by decide) vector))
  simpa [exceptionFormat, ExceptionReport.text] using whole

theorem exceptionFormat_closed : trailingPercents exceptionFormat % 2 = 0 := by decide

/-- What the call is about. -/
theorem exceptionCall_means (hold : strings.Hold mem) {call : LogCall}
    (taken : exceptionCall strings ticks frame = some call) :
    ∃ name, exceptionNames[frame.vector.toNat]? = some name ∧ call.Means mem ⟨ticks, .error, isrWord,
      ExceptionReport.text ⟨name, frame.vector, frame.errorCode, frame.rip, frame.rsp⟩⟩ := by
  obtain ⟨pointer, found, rfl⟩ := Option.map_eq_some_iff.mp taken
  obtain ⟨inside, get⟩ := List.getElem?_eq_some_iff.mp found
  have length := hold.names.length_eq
  have named := List.forall₂_iff_get.mp hold.names
  have name := named.2 frame.vector.toNat inside (length ▸ inside)
  rw [List.get_eq_getElem, List.get_eq_getElem, get] at name
  refine ⟨_, List.getElem?_eq_getElem (length ▸ inside), rfl, rfl, hold.subsystem, ?_⟩
  exact ⟨_, [], hold.format, exceptionFormat_closed, formats_report name⟩

/-- An exception below vector 15 prints a line from which its time, the name of the vector, the
vector, the error code and the stopped program's `rip` and `rsp` are read again, whatever
`LOG_LEVEL` is; for the other exceptions the name is read behind `exception_names`. -/
theorem exception_reported (mem : Memory) (place : LogLiteral → UInt64) (threshold : LogLevel)
    (strings : IsrStrings) (ticks : UInt64) (frame : Registers)
    (literals : ∀ literal : LogLiteral, NulText mem (place literal).toNat literal.bytes)
    (hold : strings.Hold mem) :
    ((exceptionCall strings ticks frame).isSome ↔ frame.vector.toNat < 15) ∧
    ∀ call, exceptionCall strings ticks frame = some call → ∃ name body line,
      exceptionNames[frame.vector.toNat]? = some name ∧
      Writes (fun fuel => logMsg mem place threshold fuel call) line ∧
      readLog line = some [⟨ticks, .error, isrWord, body⟩] ∧
      readReport body = some ⟨name, frame.vector, frame.errorCode, frame.rip, frame.rsp⟩ := by
  constructor
  · have length : strings.names.length = 15 := hold.names.length_eq
    simp [exceptionCall, length]
  · intro call taken
    obtain ⟨name, found, means⟩ := exceptionCall_means hold taken
    obtain ⟨bar, newline⟩ := exceptionNames_plain name (List.mem_of_getElem? found)
    -- no threshold is above `LOG_ERROR`
    have shown : call.shown threshold = true := by
      rw [LogCall.shown, means.level]
      cases threshold with
      | debug => rfl
      | info => rfl
      | warn => rfl
      | error => rfl
    refine ⟨name, _, _, found, writes_logMsg literals shown means, ?_, readReport_text bar⟩
    have isr : 0x1B ∉ isrWord ∧ 0x0A ∉ isrWord := by decide
    have plain : ∀ entry ∈ [(⟨ticks, .error, isrWord, ExceptionReport.text
        ⟨name, frame.vector, frame.errorCode, frame.rip, frame.rsp⟩⟩ : LogEntry)], entry.Plain := by
      intro entry member
      rw [List.mem_singleton.mp member]
      exact ⟨isr.1, isr.2, newline_not_mem_report newline⟩
    simpa [logText] using readLog_logText plain

/-- The strings of `isr.c` behind those of `log.c`. -/
def isrSample : List (List UInt8) := isrWord :: exceptionFormat :: exceptionNames

def isrSampleStrings : IsrStrings where
  subsystem := UInt64.ofNat (64 * 19)
  format := UInt64.ofNat (64 * 20)
  names := (List.range 15).map fun k => UInt64.ofNat (64 * (21 + k))

/-- A page fault. -/
def pageFault : Registers :=
  { r15 := 0, r14 := 0, r13 := 0, r12 := 0, r11 := 0, r10 := 0, r9 := 0, r8 := 0,
    rbp := 0, rdi := 0, rsi := 0, rdx := 0, rcx := 0, rbx := 0, rax := 0,
    vector := 14, errorCode := 2, rip := 0xffffffff80001234, cs := 0x28, rflags := 0x202,
    rsp := 0xffffc00000005f00, ss := 0x30 }

theorem exception_reported_page_fault :
    ∃ call name body line, exceptionCall isrSampleStrings 1500 pageFault = some call ∧
      Writes (fun fuel => logMsg (stringsMemory (sampleStrings ++ isrSample)) samplePlace .debug
        fuel call) line ∧
      readLog line = some [⟨1500, .error, isrWord, body⟩] ∧
      readReport body = some ⟨name, 14, 2, 0xffffffff80001234, 0xffffc00000005f00⟩ := by
  have hold : isrSampleStrings.Hold (stringsMemory (sampleStrings ++ isrSample)) := by
    constructor
    case subsystem => exact nulText_stringsMemory (k := 19) rfl (by decide) (by decide)
    case format => exact nulText_stringsMemory (k := 20) rfl (by decide) (by decide)
    case names =>
      refine List.forall₂_iff_get.mpr ⟨rfl, fun k inside inside' => ?_⟩
      have small : k < 15 := inside'
      have place : (isrSampleStrings.names.get ⟨k, inside⟩).toNat = 64 * (21 + k) := by
        simp [isrSampleStrings]
        omega
      have each : ∀ text ∈ exceptionNames, text.length < 64 ∧ 0 ∉ text := by decide
      obtain ⟨short, nonzero⟩ := each _ (List.get_mem exceptionNames ⟨k, inside'⟩)
      rw [place]
      refine nulText_stringsMemory ?_ short nonzero
      have behind : 21 + k = sampleStrings.length + (k + 2) := by
        rw [show sampleStrings.length = 19 from rfl]
        omega
      rw [behind, List.getElem?_append_right (Nat.le_add_right _ _), Nat.add_sub_cancel_left]
      exact List.getElem?_eq_getElem inside'
  obtain ⟨some_call, report⟩ := exception_reported (stringsMemory (sampleStrings ++ isrSample))
    samplePlace .debug isrSampleStrings 1500 pageFault (sample_literals isrSample) hold
  obtain ⟨call, taken⟩ := Option.isSome_iff_exists.mp (some_call.mpr (by decide))
  obtain ⟨name, body, line, -, writes, read, fields⟩ := report call taken
  exact ⟨call, name, body, line, taken, writes, read, fields⟩

end DedOS
