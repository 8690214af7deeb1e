import DedOS.Lib.Fields
import DedOS.Utils.Numbers

/-!
# `log.c`

A line of the log is printed by a dozen calls of `kprintf`. `log_reads_back`: the lines of a
sequence of calls can be read again from what the serial port has received, each with its time,
its level, its subsystem and its text. The calls are made one after another; a call that is
interrupted by another one is not modelled.
-/

namespace DedOS

open Lib Logged

/-- `kprintf` -/
def kprintf (mem : Memory) (fuel fmt : Nat) (args : List UInt64) : Print Unit := do
  let _ ← kvprintf mem fuel fmt args
  return ()

/-- `log_level_t` -/
inductive LogLevel where
  | debug
  | info
  | warn
  | error
  deriving DecidableEq

/-- The values of the enumeration. -/
def LogLevel.value : LogLevel → Nat
  | .debug => 0
  | .info => 1
  | .warn => 2
  | .error => 3

/-- `ANSI_RESET` -/
def ansiReset : List UInt8 := [0x1B, 0x5B, 0x30, 0x6D]

/-- `ANSI_BOLD` -/
def ansiBold : List UInt8 := [0x1B, 0x5B, 0x31, 0x6D]

/-- `ANSI_BRIGHT_BLACK` -/
def ansiBrightBlack : List UInt8 := [0x1B, 0x5B, 0x39, 0x30, 0x6D]

/-- `level_str` -/
def LogLevel.str : LogLevel → List UInt8
  | .debug => [0x44, 0x45, 0x42, 0x55, 0x47]
  | .info => [0x49, 0x4E, 0x46, 0x4F, 0x20]
  | .warn => [0x57, 0x41, 0x52, 0x4E, 0x20]
  | .error => [0x45, 0x52, 0x52, 0x4F, 0x52]

/-- `level_color`: bright green, cyan, yellow and red -/
def LogLevel.color : LogLevel → List UInt8
  | .debug => [0x1B, 0x5B, 0x39, 0x32, 0x6D]
  | .info => [0x1B, 0x5B, 0x39, 0x36, 0x6D]
  | .warn => [0x1B, 0x5B, 0x39, 0x33, 0x6D]
  | .error => [0x1B, 0x5B, 0x39, 0x31, 0x6D]

/-- The string literals of `log.c`. -/
inductive LogLiteral where
  | stampOpen
  | number
  | dot
  | zero
  | stampClose
  | levelFormat
  | levelColor (level : LogLevel)
  | levelStr (level : LogLevel)
  | reset
  | subsystemFormat
  | newline
  deriving DecidableEq

def LogLiteral.bytes : LogLiteral → List UInt8
  | .stampOpen => ansiBrightBlack ++ [0x5B]
  -- "%u"
  | .number => [0x25, 0x75]
  | .dot => [0x2E]
  | .zero => [0x30]
  -- "%u] "
  | .stampClose => [0x25, 0x75, 0x5D, 0x20] ++ ansiReset
  -- "%s[%s]%s "
  | .levelFormat => [0x25, 0x73, 0x5B, 0x25, 0x73, 0x5D, 0x25, 0x73, 0x20]
  | .levelColor level => level.color
  | .levelStr level => level.str
  | .reset => ansiReset
  -- "%s" between the two codes, and ": "
  | .subsystemFormat => ansiBold ++ [0x25, 0x73] ++ ansiReset ++ [0x3A, 0x20]
  | .newline => [0x0A]

/-- A call of `log_msg`, with the value of `timer_ticks` when it is made. -/
structure LogCall where
  ticks : UInt64
  level : LogLevel
  subsystem : UInt64
  fmt : UInt64
  args : List UInt64

section

variable (mem : Memory) (place : LogLiteral → UInt64)

/-- `if (ms < limit) kprintf("0");` -/
def padZero (fuel : Nat) (ms limit : UInt64) : Print Unit :=
  if ms < limit then kprintf mem fuel (place .zero).toNat [] else return ()

/-- `print_timestamp` -/
def printTimestamp (fuel : Nat) (ticks : UInt64) : Print Unit := do
  let secs := ticks / 1000
  let ms := ticks % 1000
  kprintf mem fuel (place .stampOpen).toNat []
  kprintf mem fuel (place .number).toNat [secs]
  kprintf mem fuel (place .dot).toNat []
  padZero mem place fuel ms 100
  padZero mem place fuel ms 10
  kprintf mem fuel (place .stampClose).toNat [ms]

/-- `log_msg`, where `LOG_LEVEL` is `threshold`. -/
def logMsg (threshold : LogLevel) (fuel : Nat) (call : LogCall) : Print Unit :=
  if call.level.value < threshold.value then return ()
  else do
    printTimestamp mem place fuel call.ticks
    kprintf mem fuel (place .levelFormat).toNat
      [place (.levelColor call.level), place (.levelStr call.level), place .reset]
    kprintf mem fuel (place .subsystemFormat).toNat [call.subsystem]
    let _ ← kvprintf mem fuel call.fmt.toNat call.args
    kprintf mem fuel (place .newline).toNat []

/-- Calls of `log_msg`, one after another. -/
def logAll (threshold : LogLevel) (fuel : Nat) : List LogCall → Print Unit
  | [] => return ()
  | call :: calls => do
    logMsg mem place threshold fuel call
    logAll threshold fuel calls

end

/-! ### What a line says -/

/-- The part of a line that a reader is after. -/
structure LogEntry where
  ticks : UInt64
  level : LogLevel
  subsystem : List UInt8
  body : List UInt8
  deriving DecidableEq

/-- A number of milliseconds, in three digits. -/
def millisText (ms : UInt64) : List UInt8 :=
  (if ms < 100 then [0x30] else []) ++ ((if ms < 10 then [0x30] else []) ++ unsignedText 10 ms)

def LogLevel.text (level : LogLevel) : List UInt8 :=
  level.color ++ 0x5B :: (level.str ++ 0x5D :: (ansiReset ++ [0x20]))

/-- The line of an entry, without the newline. -/
def LogEntry.line (entry : LogEntry) : List UInt8 :=
  (ansiBrightBlack ++ [0x5B]) ++ (unsignedText 10 (entry.ticks / 1000) ++ 0x2E ::
    (millisText (entry.ticks % 1000) ++ 0x5D :: (0x20 :: ansiReset ++ (entry.level.text ++
      (ansiBold ++ (entry.subsystem ++ 0x1B :: ([0x5B, 0x30, 0x6D, 0x3A, 0x20] ++ entry.body)))))))

def logText (entries : List LogEntry) : List UInt8 :=
  entries.flatMap fun entry => entry.line ++ [0x0A]

/-- The call is not below the threshold. -/
def LogCall.shown (threshold : LogLevel) (call : LogCall) : Bool :=
  !decide (call.level.value < threshold.value)

/-- What a call is about: its subsystem is a string, and its format stands for the text. -/
structure LogCall.Means (mem : Memory) (call : LogCall) (entry : LogEntry) : Prop where
  ticks : call.ticks = entry.ticks
  level : call.level = entry.level
  subsystem : NulText mem call.subsystem.toNat entry.subsystem
  body : ∃ format rest, NulText mem call.fmt.toNat format ∧ trailingPercents format % 2 = 0 ∧
    Formats mem format call.args entry.body rest

/-- Neither the subsystem nor the text of the entry can be taken for the end of its field. -/
structure LogEntry.Plain (entry : LogEntry) : Prop where
  subsystem : 0x1B ∉ entry.subsystem
  subsystemLine : 0x0A ∉ entry.subsystem
  body : 0x0A ∉ entry.body

/-! ### Reading a line -/

def readLevel (text : List UInt8) : Option (LogLevel × List UInt8) :=
  [LogLevel.debug, .info, .warn, .error].findSome? fun level =>
    (text.dropPrefix? level.text).map fun rest => (level, rest)

/-- The time is the number that the digits on both sides of the dot make up. -/
def readEntry (line : List UInt8) : Option LogEntry := do
  let (secs, text) ← readField (ansiBrightBlack ++ [0x5B]) 0x2E line
  let (ms, text) ← readUntil 0x5D text
  let ticks ← parseNumeral digitValue 10 (secs ++ ms)
  let text ← text.dropPrefix? (0x20 :: ansiReset)
  let (level, text) ← readLevel text
  let (subsystem, text) ← readField ansiBold 0x1B text
  let body ← text.dropPrefix? [0x5B, 0x30, 0x6D, 0x3A, 0x20]
  return ⟨UInt64.ofNat ticks, level, subsystem, body⟩

def readLog (text : List UInt8) : Option (List LogEntry) := readLines 0x0A readEntry text

/-! ### Printing with enough rounds -/

/-- With enough rounds the computation ends and has printed `text`. -/
def Writes {α : Type} (x : Nat → Print α) (text : List UInt8) : Prop :=
  Eventually fun fuel => ∃ a, (x fuel).result = .ok a ∧ printed (x fuel).log = text

variable {α β : Type} {mem : Memory} {place : LogLiteral → UInt64} {threshold : LogLevel}
variable {text more format : List UInt8} {args rest : List UInt64} {fmt : Nat}

theorem writes_nothing (a : α) : Writes (fun _ => (pure a : Print α)) [] :=
  .always fun _ => ⟨a, rfl, rfl⟩

/-- What follows prints behind what came first. -/
theorem Writes.next {x : Nat → Print α} {y : Nat → Print β} (first : Writes x text)
    (second : Writes y more) : Writes (fun fuel => x fuel >>= fun _ => y fuel) (text ++ more) := by
  refine (Eventually.and first second).imp ?_
  rintro fuel ⟨⟨a, done, log⟩, b, done', log'⟩
  refine ⟨b, ?_, ?_⟩
  · rw [result_bind_ok done, done']
  · rw [log_bind_ok done, printed_append, log, log']

theorem Formats.writes (formats : Formats mem format args text rest) (here : NulText mem fmt format)
    (closed : trailingPercents format % 2 = 0) :
    Writes (fun fuel => kvprintf mem fuel fmt args) text :=
  (formats.prints here closed).imp fun _ prints => ⟨rest, prints⟩

theorem writes_kprintf (formats : Formats mem format args text rest) (here : NulText mem fmt format)
    (closed : trailingPercents format % 2 = 0) :
    Writes (fun fuel => kprintf mem fuel fmt args) text := by
  have nothing := (formats.writes here closed).next (writes_nothing ())
  rwa [List.append_nil] at nothing

section

variable (literals : ∀ literal : LogLiteral, NulText mem (place literal).toNat literal.bytes)

include literals

/-- A literal without a conversion is printed as it is. -/
theorem writes_literal (literal : LogLiteral) (plain : 0x25 ∉ literal.bytes) :
    Writes (fun fuel => kprintf mem fuel (place literal).toNat []) literal.bytes := by
  refine writes_kprintf (formats_plain plain) (literals literal) ?_
  rw [trailingPercents_none plain]

theorem writes_padZero (ms limit : UInt64) :
    Writes (fun fuel => padZero mem place fuel ms limit) (if ms < limit then [0x30] else []) := by
  by_cases small : ms < limit
  · simp only [padZero, if_pos small]
    exact writes_literal literals .zero (by decide)
  · simp only [padZero, if_neg small]
    exact writes_nothing ()

theorem writes_printTimestamp (ticks : UInt64) :
    Writes (fun fuel => printTimestamp mem place fuel ticks)
      (ansiBrightBlack ++ [0x5B] ++ (unsignedText 10 (ticks / 1000) ++ 0x2E ::
        (millisText (ticks % 1000) ++ 0x5D :: 0x20 :: ansiReset))) := by
  have secs : Formats mem LogLiteral.number.bytes [ticks / 1000]
      (unsignedText 10 (ticks / 1000) ++ []) [] := .directive .u .done
  have ms : Formats mem LogLiteral.stampClose.bytes [ticks % 1000]
      (unsignedText 10 (ticks % 1000) ++ (0x5D :: 0x20 :: ansiReset)) [] :=
    .directive .u (formats_plain (by decide))
  have parts := (writes_literal literals .stampOpen (by decide)).next
    ((writes_kprintf secs (literals .number) (by decide)).next
      ((writes_literal literals .dot (by decide)).next
        ((writes_padZero literals (ticks % 1000) 100).next
          ((writes_padZero literals (ticks % 1000) 10).next
            (writes_kprintf ms (literals .stampClose) (by decide))))))
  simpa [printTimestamp, millisText, LogLiteral.bytes] using parts

theorem writes_level (level : LogLevel) :
    Writes (fun fuel => kprintf mem fuel (place .levelFormat).toNat
      [place (.levelColor level), place (.levelStr level), place .reset]) level.text := by
  have color := literals (.levelColor level)
  have str := literals (.levelStr level)
  have formats : Formats mem LogLiteral.levelFormat.bytes
      [place (.levelColor level), place (.levelStr level), place .reset]
      (level.color ++ 0x5B :: (level.str ++ 0x5D :: (ansiReset ++ [0x20]))) [] :=
    .directive (.s color) (.plain (by decide) (.directive (.s str) (.plain (by decide)
      (.directive (.s (literals .reset)) (.plain (by decide) .done)))))
  exact writes_kprintf formats (literals .levelFormat) (by decide)

theorem writes_subsystem {a : UInt64} (here : NulText mem a.toNat text) :
    Writes (fun fuel => kprintf mem fuel (place .subsystemFormat).toNat [a])
      (ansiBold ++ (text ++ (ansiReset ++ [0x3A, 0x20]))) := by
  have behind : Formats mem (0x25 :: 0x73 :: (ansiReset ++ [0x3A, 0x20])) [a]
      (text ++ (ansiReset ++ [0x3A, 0x20])) [] :=
    .directive (.s here) (formats_plain (by decide))
  have plain : 0x25 ∉ ansiBold := by decide
  have formats : Formats mem LogLiteral.subsystemFormat.bytes [a]
      (ansiBold ++ (text ++ (ansiReset ++ [0x3A, 0x20]))) [] := behind.prepend plain
  exact writes_kprintf formats (literals .subsystemFormat) (by decide)

/-- A call that is shown prints the line of its entry. -/
theorem writes_logMsg {call : LogCall} {entry : LogEntry} (shown : call.shown threshold = true)
    (means : call.Means mem entry) :
    Writes (fun fuel => logMsg mem place threshold fuel call) (entry.line ++ [0x0A]) := by
  obtain ⟨format, rest, here, closed, formats⟩ := means.body
  have above : ¬ entry.level.value < threshold.value := by
    simpa [LogCall.shown, means.level] using shown
  have parts := (writes_printTimestamp literals call.ticks).next
    ((writes_level literals call.level).next ((writes_subsystem literals means.subsystem).next
      ((formats.writes here closed).next (writes_literal literals .newline (by decide)))))
  simpa [logMsg, above, LogEntry.line, LogLiteral.bytes, ansiReset, means.ticks, means.level]
    using parts

theorem writes_logAll {calls : List LogCall} {entries : List LogEntry}
    (means : List.Forall₂ (LogCall.Means mem) (calls.filter (·.shown threshold)) entries) :
    Writes (fun fuel => logAll mem place threshold fuel calls) (logText entries) := by
  induction calls generalizing entries with
  | nil =>
    cases means
    exact writes_nothing ()
  | cons call calls ih =>
    by_cases shown : call.shown threshold = true
    · rw [List.filter_cons_of_pos shown] at means
      obtain _ | ⟨first, others⟩ := means
      exact (writes_logMsg literals shown first).next (ih others)
    · -- a call below the threshold prints nothing
      rw [List.filter_cons_of_neg shown] at means
      have below : call.level.value < threshold.value := by simpa [LogCall.shown] using shown
      have nothing : Writes (fun fuel => logMsg mem place threshold fuel call) [] := by
        simp only [logMsg, if_pos below]
        exact writes_nothing ()
      exact nothing.next (ih means)

end

/-! ### Reading the log -/

/-- The milliseconds take three digits, however few of them count. -/
theorem millisText_eq {ms : UInt64} (small : ms.toNat < 1000) :
    ∃ zeroes, millisText ms = List.replicate zeroes 0x30 ++ unsignedText 10 ms ∧
      zeroes + (unsignedText 10 ms).length = 3 := by
  have nonempty : 0 < (unsignedText 10 ms).length :=
    List.length_pos_of_ne_nil (numeral_ne_nil ms.toNat)
  have one : (unsignedText 10 ms).length ≤ 1 ↔ ms.toNat < 10 :=
    length_numeral_le_iff (by decide) (by decide)
  have two : (unsignedText 10 ms).length ≤ 2 ↔ ms.toNat < 100 :=
    length_numeral_le_iff (by decide) (by decide)
  have three : (unsignedText 10 ms).length ≤ 3 ↔ ms.toNat < 1000 :=
    length_numeral_le_iff (by decide) (by decide)
  simp only [millisText, UInt64.lt_iff_toNat_lt, UInt64.reduceToNat]
  by_cases units : ms.toNat < 10
  · exact ⟨2, by simp [units, show ms.toNat < 100 by omega, List.replicate], by omega⟩
  · by_cases tens : ms.toNat < 100
    · exact ⟨1, by simp [units, tens], by omega⟩
    · exact ⟨0, by simp [units, tens], by omega⟩

/-- The digits on both sides of the dot are those of the number of ticks. -/
theorem parse_stamp (ticks : UInt64) :
    parseNumeral digitValue 10 (unsignedText 10 (ticks / 1000) ++ millisText (ticks % 1000)) =
      some ticks.toNat := by
  have secs : (ticks / 1000).toNat = ticks.toNat / 1000 := by simp
  have ms : (ticks % 1000).toNat = ticks.toNat % 1000 := by simp
  have small : (ticks % 1000).toNat < 1000 := ms ▸ Nat.mod_lt _ (by decide)
  obtain ⟨zeroes, text, three⟩ := millisText_eq small
  have group := parse_group (b := 10) (n := (ticks / 1000).toNat) (m := (ticks % 1000).toNat)
    (by decide) (digitValue_base (by decide)) zeroes
  change _ = some (_ * 10 ^ (zeroes + (unsignedText 10 (ticks % 1000)).length) + _) at group
  rw [three, secs, ms] at group
  rw [text]
  refine group.trans (congrArg some ?_)
  omega

theorem not_mem_millisText {ms : UInt64} {c : UInt8} (other : digitValue c = none) :
    c ∉ millisText ms := by
  intro member
  have zero : c ≠ 0x30 := by
    rintro rfl
    exact absurd other (by decide)
  have digits : c ∉ unsignedText 10 ms :=
    fun member => digit_of_mem (by decide) (by decide) member other
  simp only [millisText, List.mem_append, digits, or_false] at member
  rcases member with pad | pad
  · split at pad
    · exact zero (List.mem_singleton.mp pad)
    · cases pad
  · split at pad
    · exact zero (List.mem_singleton.mp pad)
    · cases pad

theorem dropPrefix_levelText (level other : LogLevel) (rest : List UInt8) :
    (level.text ++ rest).dropPrefix? other.text = if level = other then some rest else none := by
  by_cases same : level = other
  · rw [if_pos same, same, dropPrefix_append]
  · -- the colours of two levels differ in their fourth byte
    rw [if_neg same]
    cases level <;> cases other <;>
      first
      | exact absurd rfl same
      | simp [LogLevel.text, LogLevel.color, List.dropPrefix?]

theorem readLevel_text (level : LogLevel) (rest : List UInt8) :
    readLevel (level.text ++ rest) = some (level, rest) := by
  cases level with
  | debug => simp [readLevel, dropPrefix_levelText]
  | info => simp [readLevel, dropPrefix_levelText]
  | warn => simp [readLevel, dropPrefix_levelText]
  | error => simp [readLevel, dropPrefix_levelText]

/-- Every field of a line is found again. -/
theorem readEntry_line {entry : LogEntry} (plain : entry.Plain) :
    readEntry entry.line = some entry := by
  have secs : 0x2E ∉ unsignedText 10 (entry.ticks / 1000) :=
    fun member => digit_of_mem (by decide) (by decide) member rfl
  have ms : 0x5D ∉ millisText (entry.ticks % 1000) := not_mem_millisText rfl
  simp only [readEntry, LogEntry.line, readField_append secs, readUntil_append ms, parse_stamp,
    dropPrefix_append, readLevel_text, readField_append plain.subsystem, Option.bind_eq_bind,
    Option.bind_some, UInt64.ofNat_toNat]
  rfl

theorem newline_not_mem_line {entry : LogEntry} (plain : entry.Plain) : 0x0A ∉ entry.line := by
  have secs : 0x0A ∉ unsignedText 10 (entry.ticks / 1000) :=
    fun member => digit_of_mem (by decide) (by decide) member rfl
  have ms : 0x0A ∉ millisText (entry.ticks % 1000) := not_mem_millisText rfl
  have level : 0x0A ∉ entry.level.text := by
    cases entry.level with
    | debug => decide
    | info => decide
    | warn => decide
    | error => decide
  simp [LogEntry.line, ansiBrightBlack, ansiReset, ansiBold, secs, ms, level, plain.subsystemLine,
    plain.body]

theorem readLog_logText {entries : List LogEntry} (plain : ∀ entry ∈ entries, entry.Plain) :
    readLog (logText entries) = some entries :=
  readLines_flatMap (fun entry member => newline_not_mem_line (plain entry member))
    fun entry member => readEntry_line (plain entry member)

/-- A sequence of calls of `log_msg` ends and prints one line for each call that is not below
the threshold, and from what the serial port has received the time, the level, the subsystem and
the text of each of these calls are read again. -/
theorem log_reads_back (mem : Memory) (place : LogLiteral → UInt64) (threshold : LogLevel)
    (calls : List LogCall) (entries : List LogEntry)
    (literals : ∀ literal : LogLiteral, NulText mem (place literal).toNat literal.bytes)
    (means : List.Forall₂ (LogCall.Means mem) (calls.filter (·.shown threshold)) entries) :
    Writes (fun fuel => logAll mem place threshold fuel calls) (logText entries) ∧
      ((∀ entry ∈ entries, entry.Plain) → readLog (logText entries) = some entries) :=
  ⟨writes_logAll literals means, readLog_logText⟩

/-- A memory with a string in every 64 bytes. -/
def stringsMemory (strings : List (List UInt8)) : Memory :=
  fun a => (strings.getD (a / 64) []).getD (a % 64) 0

theorem nulText_stringsMemory {strings : List (List UInt8)} {k : Nat}
    (here : strings[k]? = some text) (short : text.length < 64) (nonzero : 0 ∉ text) :
    NulText (stringsMemory strings) (64 * k) text := by
  refine ⟨nonzero, bytesAt_of_getD fun i small => ?_⟩
  rw [List.length_append, List.length_singleton] at small
  have slot : (64 * k + i) / 64 = k := by omega
  have offset : (64 * k + i) % 64 = i := by omega
  have string : strings.getD k [] = text := by simp [List.getD_eq_getElem?_getD, here]
  rw [stringsMemory, slot, offset, string]
  by_cases inside : i < text.length
  · rw [List.getD_append _ _ _ _ inside]
  · -- the terminator
    have last : i = text.length := by omega
    simp [last]

/-- The literals of `log.c`, the name `PMM` and the format `free: %u`. -/
def sampleStrings : List (List UInt8) := [
  LogLiteral.stampOpen.bytes, LogLiteral.number.bytes, LogLiteral.dot.bytes,
  LogLiteral.zero.bytes, LogLiteral.stampClose.bytes, LogLiteral.levelFormat.bytes,
  LogLiteral.reset.bytes, LogLiteral.subsystemFormat.bytes, LogLiteral.newline.bytes,
  LogLevel.debug.color, LogLevel.info.color, LogLevel.warn.color, LogLevel.error.color,
  LogLevel.debug.str, LogLevel.info.str, LogLevel.warn.str, LogLevel.error.str,
  [0x50, 0x4D, 0x4D], [0x66, 0x72, 0x65, 0x65, 0x3A, 0x20, 0x25, 0x75]]

/-- The place of a literal in the sample. -/
def sampleIndex : LogLiteral → Nat
  | .stampOpen => 0
  | .number => 1
  | .dot => 2
  | .zero => 3
  | .stampClose => 4
  | .levelFormat => 5
  | .reset => 6
  | .subsystemFormat => 7
  | .newline => 8
  | .levelColor level => 9 + level.value
  | .levelStr level => 13 + level.value

def samplePlace (literal : LogLiteral) : UInt64 := UInt64.ofNat (64 * sampleIndex literal)

/-- The literals are in every memory that begins with the strings of the sample. -/
theorem sample_literals (others : List (List UInt8)) (literal : LogLiteral) :
    NulText (stringsMemory (sampleStrings ++ others)) (samplePlace literal).toNat literal.bytes := by
  have inside : sampleIndex literal < 17 := by
    rcases literal with _ | _ | _ | _ | _ | _ | level | level | _ | _ | _
    case levelColor => cases level <;> decide
    case levelStr => cases level <;> decide
    all_goals decide
  have place : (samplePlace literal).toNat = 64 * sampleIndex literal :=
    UInt64.toNat_ofNat_of_lt' (by change _ < 2 ^ 64; omega)
  rw [place]
  apply nulText_stringsMemory
  · rw [List.getElem?_append_left (Nat.lt_trans inside (by decide))]
    rcases literal with _ | _ | _ | _ | _ | _ | level | level | _ | _ | _
    case levelColor => cases level <;> rfl
    case levelStr => cases level <;> rfl
    all_goals rfl
  · rcases literal with _ | _ | _ | _ | _ | _ | level | level | _ | _ | _
    case levelColor => cases level <;> decide
    case levelStr => cases level <;> decide
    all_goals decide
  · rcases literal with _ | _ | _ | _ | _ | _ | level | level | _ | _ | _
    case levelColor => cases level <;> decide
    case levelStr => cases level <;> decide
    all_goals decide

/-- A call that is shown, for an entry with 7 milliseconds, and one below the threshold. -/
theorem log_reads_back_two_calls :
    let entry : LogEntry :=
      ⟨61007, .info, [0x50, 0x4D, 0x4D], [0x66, 0x72, 0x65, 0x65, 0x3A, 0x20, 0x34, 0x32]⟩
    let calls : List LogCall := [⟨61007, .info, 1088, 1152, [42]⟩, ⟨61008, .debug, 1088, 0, []⟩]
    Writes (fun fuel => logAll (stringsMemory sampleStrings) samplePlace .info fuel calls)
        (logText [entry]) ∧ readLog (logText [entry]) = some [entry] := by
  intro entry calls
  have number : unsignedText 10 42 = [0x34, 0x32] := by
    simp [unsignedText, numeral, digitByte, digitTable]
  have formats : Formats (stringsMemory sampleStrings)
      [0x66, 0x72, 0x65, 0x65, 0x3A, 0x20, 0x25, 0x75] [42]
      ([0x66, 0x72, 0x65, 0x65, 0x3A, 0x20] ++ (unsignedText 10 42 ++ [])) [] := by
    have plain : (0x25 : UInt8) ∉ [0x66, 0x72, 0x65, 0x65, 0x3A, 0x20] := by decide
    exact Formats.prepend plain (.directive .u .done)
  rw [number] at formats
  have means : LogCall.Means (stringsMemory sampleStrings) ⟨61007, .info, 1088, 1152, [42]⟩ entry :=
    { ticks := rfl
      level := rfl
      subsystem := nulText_stringsMemory (k := 17) rfl (by decide) (by decide)
      body := ⟨_, [], nulText_stringsMemory (k := 18) rfl (by decide) (by decide), by decide,
        formats⟩ }
  have result := log_reads_back (stringsMemory sampleStrings) samplePlace .info calls [entry]
    (sample_literals []) (.cons means .nil)
  refine ⟨result.1, result.2 fun other member => ?_⟩
  rw [List.mem_singleton.mp member]
  exact ⟨by decide, by decide, by decide⟩

end DedOS
