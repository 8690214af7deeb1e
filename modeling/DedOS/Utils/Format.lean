import DedOS.Lib.Rounds
import DedOS.Utils.Kprintf

/-!
# Formats

`Formats` is what a format means: the text it stands for with a list of arguments. `kvprintf`
prints that text and stays inside the format, except for a format that ends in a `%` of its
own: the byte behind such a `%` is the terminator, and the scan goes on behind it.
-/

namespace DedOS

open Lib Logged

/-! ### What a format means -/

def unsignedText (base : Nat) (n : UInt64) : List UInt8 := numeral digitByte base n.toNat

/-- A minus sign for a negative number, and the numeral of its absolute value. -/
def signedText (n : Int64) : List UInt8 :=
  if n < 0 then 0x2D :: unsignedText 10 (-n).toUInt64 else unsignedText 10 n.toUInt64

/-- `Converts mem conversion args text rest`: the conversion turns the first of the arguments
into a text and leaves the others. -/
inductive Converts (mem : Memory) :
    Conversion → List UInt64 → List UInt8 → List UInt64 → Prop
  | s {a : UInt64} {text : List UInt8} {args : List UInt64} (string : NulText mem a.toNat text) :
    Converts mem .s (a :: args) text args
  | d {a : UInt64} {args : List UInt64} : Converts mem .d (a :: args) (signedText a.toInt64) args
  | u {a : UInt64} {args : List UInt64} : Converts mem .u (a :: args) (unsignedText 10 a) args
  | x {a : UInt64} {args : List UInt64} : Converts mem .x (a :: args) (unsignedText 16 a) args
  | p {a : UInt64} {args : List UInt64} :
    Converts mem .p (a :: args) (0x30 :: 0x78 :: unsignedText 16 a) args
  | c {a : UInt64} {args : List UInt64} : Converts mem .c (a :: args) [a.toUInt8] args
  | percent {args : List UInt64} : Converts mem .percent args [0x25] args
  | unknown {args : List UInt64} : Converts mem .unknown args [] args

/-- `Formats mem format args text rest`: with these arguments the format stands for `text`,
and `rest` is not used. -/
inductive Formats (mem : Memory) : List UInt8 → List UInt64 → List UInt8 → List UInt64 → Prop
  | done {args : List UInt64} : Formats mem [] args [] args
  | plain {b : UInt8} {format text : List UInt8} {args rest : List UInt64} (ordinary : b ≠ 0x25)
    (others : Formats mem format args text rest) : Formats mem (b :: format) args (b :: text) rest
  | directive {c : UInt8} {format text more : List UInt8} {args args' rest : List UInt64}
    (converts : Converts mem (conversion c) args text args')
    (others : Formats mem format args' more rest) :
    Formats mem (0x25 :: c :: format) args (text ++ more) rest
  /-- a `%` at the end converts nothing -/
  | dangling {args : List UInt64} : Formats mem [0x25] args [] args

/-- Every conversion of the format finds its argument, and a string where it wants one. -/
def EnoughArgs (mem : Memory) (format : List UInt8) (args : List UInt64) : Prop :=
  ∃ text rest, Formats mem format args text rest

/-- The number of `%` at the very end of a format. -/
def trailingPercents (format : List UInt8) : Nat :=
  (format.reverse.takeWhile (· == 0x25)).length

variable {mem : Memory} {fuel fmt a : Nat} {b c : UInt8} {format text : List UInt8}
variable {args args' rest : List UInt64}

open List in
theorem trailingPercents_le (format : List UInt8) : trailingPercents format ≤ format.length := by
  have part : format.reverse.takeWhile (· == 0x25) <+ format.reverse := List.takeWhile_sublist _
  simpa [trailingPercents] using part.length_le

theorem trailingPercents_cons : trailingPercents (b :: format) =
    if trailingPercents format = format.length ∧ b = 0x25 then trailingPercents format + 1
    else trailingPercents format := by
  simp only [trailingPercents, List.reverse_cons, List.takeWhile_append, List.length_reverse]
  by_cases all : (format.reverse.takeWhile (· == 0x25)).length = format.length
  · by_cases percent : b = 0x25
    · simp [all, percent]
    · simp [all, percent]
  · simp [all]

theorem trailingPercents_plain (ordinary : b ≠ 0x25) :
    trailingPercents (b :: format) = trailingPercents format := by
  simp [trailingPercents_cons, ordinary]

/-- A directive takes two bytes away, both of them `%` if one is at the end. -/
theorem trailingPercents_directive :
    trailingPercents (0x25 :: c :: format) % 2 = trailingPercents format % 2 := by
  have bound := trailingPercents_le format
  by_cases percent : c = 0x25
  · by_cases all : trailingPercents format = format.length
    · simp only [trailingPercents_cons, percent, all, List.length_cons, and_self, if_true]
      omega
    · have differ : trailingPercents format ≠ format.length + 1 := by omega
      simp [trailingPercents_cons, percent, all, differ]
  · have differ : trailingPercents format ≠ format.length + 1 := by omega
    simp [trailingPercents_cons, percent, differ]

/-! ### One round of the scan -/

theorem formatByte_eq : formatByte mem fmt = ⟨[.readFormat fmt], .ok (mem fmt)⟩ := rfl

/-- Every round starts with a look at the format. -/
theorem kvprintf_reads (mem : Memory) (fmt : Nat) (args : List UInt64) :
    Eventually fun fuel => .readFormat fmt ∈ (kvprintf mem fuel fmt args).log := by
  refine .next (.always fun fuel => ?_)
  rw [kvprintf, formatByte_eq, log_bind_ok (a := mem fmt) rfl]
  exact List.mem_append_left _ List.mem_cons_self

theorem kvprintf_end (stop : mem fmt = 0) :
    kvprintf mem (fuel + 1) fmt args = ⟨[.readFormat fmt], .ok args⟩ := by
  rw [kvprintf, formatByte, stop]
  rfl

theorem kvprintf_plain (byte : mem fmt = b) (nonzero : b ≠ 0) (ordinary : b ≠ 0x25) :
    kvprintf mem (fuel + 1) fmt args =
      ⟨.readFormat fmt :: (charEvents b ++ (kvprintf mem fuel (fmt + 1) args).log),
        (kvprintf mem fuel (fmt + 1) args).result⟩ := by
  have put : kputchar b = ⟨charEvents b, .ok ()⟩ := by
    simpa [Prints] using prints_kputchar b
  rw [kvprintf, formatByte_eq, byte, bind_of_ok (a := b) rfl, if_neg nonzero, if_pos ordinary, put,
    bind_of_ok (a := ()) rfl]
  rfl

/-- The rest of the scan after a `%` and the byte behind it. -/
def afterDirective (mem : Memory) (fuel fmt : Nat) (args : List UInt64) : Print (List UInt64) :=
  convert mem fuel args (conversion (mem (fmt + 1))) >>= fun args => kvprintf mem fuel (fmt + 2) args

theorem kvprintf_directive (percent : mem fmt = 0x25) :
    kvprintf mem (fuel + 1) fmt args =
      ⟨.readFormat fmt :: .readFormat (fmt + 1) :: (afterDirective mem fuel fmt args).log,
        (afterDirective mem fuel fmt args).result⟩ := by
  rw [kvprintf, formatByte, percent]
  rfl

/-! ### Conversions -/

theorem prints_kputint (n : Int64) : Prints (kputint n) (signedText n) () := by
  unfold kputint signedText
  split
  · exact (prints_kputchar 0x2D).bind (prints_kputuint _ (by decide) (by decide))
  · exact prints_kputuint _ (by decide) (by decide)

theorem prints_vaArg (a : UInt64) : Prints (vaArg (a :: args)) [] (a, args) := rfl

/-- Print a text and return. -/
theorem Prints.andReturn {x : Print Unit} (prints : Prints x text ()) (args : List UInt64) :
    Prints (x >>= fun _ => pure args) text args := by
  simpa using prints.bind (f := fun _ => pure args) (prints_pure args)

/-- With enough rounds for its string, a conversion prints its text. -/
theorem Converts.prints {conversion : Conversion} (converts : Converts mem conversion args text rest) :
    Eventually fun fuel => Prints (convert mem fuel args conversion) text rest := by
  cases converts with
  | s string =>
    refine ⟨text.length + 1, fun fuel enough => ?_⟩
    exact (prints_vaArg _).bind ((prints_kputs string enough).andReturn rest)
  | d => exact .always fun _ => (prints_vaArg _).bind ((prints_kputint _).andReturn rest)
  | u =>
    refine .always fun _ => (prints_vaArg _).bind (Prints.andReturn ?_ rest)
    exact prints_kputuint _ (by decide) (by decide)
  | x =>
    refine .always fun _ => (prints_vaArg _).bind (Prints.andReturn ?_ rest)
    exact prints_kputuint _ (by decide) (by decide)
  | p =>
    refine .always fun _ => (prints_vaArg _).bind ?_
    refine (prints_kputchar 0x30).bind ((prints_kputchar 0x78).bind (Prints.andReturn ?_ rest))
    exact prints_kputuint _ (by decide) (by decide)
  | c => exact .always fun _ => (prints_vaArg _).bind ((prints_kputchar _).andReturn rest)
  | percent => exact .always fun _ => (prints_kputchar 0x25).andReturn args
  | unknown => exact .always fun _ => prints_pure args

/-- A round for a directive prints its text and goes on behind its two bytes. -/
theorem Converts.round (converts : Converts mem (conversion c) args text args')
    (percent : mem fmt = 0x25) (byte : mem (fmt + 1) = c) :
    Eventually fun fuel => kvprintf mem (fuel + 1) fmt args =
      ⟨.readFormat fmt :: .readFormat (fmt + 1) ::
          (text.flatMap charEvents ++ (kvprintf mem fuel (fmt + 2) args').log),
        (kvprintf mem fuel (fmt + 2) args').result⟩ := by
  refine converts.prints.imp fun fuel prints => ?_
  rw [← byte, Prints] at prints
  rw [kvprintf_directive percent, afterDirective, prints, bind_of_ok (a := args') rfl]

/-- The computation reads nothing of the format. -/
def Quiet {α : Type} (x : Print α) : Prop := ∀ a, .readFormat a ∉ x.log

theorem Quiet.bind {α β : Type} {x : Print α} {f : α → Print β} (first : Quiet x)
    (second : ∀ a, Quiet (f a)) : Quiet (x >>= f) := by
  intro a seen
  rcases mem_log_bind.mp seen with here | ⟨value, _, later⟩
  · exact first a here
  · exact second value a later

theorem quiet_charEvents (text : List UInt8) (a : Nat) :
    .readFormat a ∉ text.flatMap charEvents := by
  simp [charEvents]

theorem Prints.quiet {α : Type} {x : Print α} {value : α} (prints : Prints x text value) :
    Quiet x := by
  intro a
  rw [prints]
  exact quiet_charEvents text a

theorem quiet_pure {α : Type} (value : α) : Quiet (pure value) := (prints_pure value).quiet

theorem quiet_kputs (mem : Memory) (fuel s : Nat) : Quiet (kputs mem fuel s) := by
  induction fuel generalizing s with
  | zero =>
    intro a
    simp [kputs]
  | succ fuel ih =>
    rw [kputs]
    split
    · exact (prints_kputchar _).quiet.bind fun _ => ih (s + 1)
    · exact quiet_pure ()

theorem quiet_vaArg (args : List UInt64) : Quiet (vaArg args) := by
  cases args with
  | nil =>
    intro a
    simp [vaArg]
  | cons a args => exact (prints_vaArg a).quiet

theorem quiet_convert (mem : Memory) (fuel : Nat) (args : List UInt64) (conversion : Conversion) :
    Quiet (convert mem fuel args conversion) := by
  have argument : ∀ {f : UInt64 × List UInt64 → Print Unit}, (∀ a, Quiet (f a)) →
      Quiet (vaArg args >>= fun a => f a >>= fun _ => pure a.2) := by
    intro f quiet
    exact (quiet_vaArg args).bind fun a => (quiet a).bind fun _ => quiet_pure a.2
  have number : ∀ n base, 2 ≤ base.toNat → base.toNat ≤ 16 → Quiet (kputuint n base) :=
    fun n base two max => (prints_kputuint n two max).quiet
  cases conversion with
  | s => exact argument fun a => quiet_kputs mem fuel a.1.toNat
  | d => exact argument fun a => (prints_kputint _).quiet
  | u => exact argument fun a => number _ _ (by decide) (by decide)
  | x => exact argument fun a => number _ _ (by decide) (by decide)
  | p =>
    refine (quiet_vaArg args).bind fun a => ?_
    refine (prints_kputchar 0x30).quiet.bind fun _ => (prints_kputchar 0x78).quiet.bind fun _ => ?_
    exact (number _ _ (by decide) (by decide)).bind fun _ => quiet_pure a.2
  | c => exact argument fun a => (prints_kputchar _).quiet
  | percent => exact (prints_kputchar 0x25).quiet.bind fun _ => quiet_pure args
  | unknown => exact quiet_pure args

/-! ### The scan -/

/-- Without a `%` of its own at the end, no byte behind the terminator is read, whatever the
arguments and however many rounds are made. -/
theorem kvprintf_inside (here : NulText mem fmt format) (closed : trailingPercents format % 2 = 0) :
    ∀ a, .readFormat a ∈ (kvprintf mem fuel fmt args).log → fmt ≤ a ∧ a ≤ fmt + format.length := by
  induction fuel generalizing fmt format args with
  | zero => simp [kvprintf]
  | succ fuel ih =>
    intro a seen
    cases format with
    | nil =>
      rw [kvprintf_end here.stop, List.mem_singleton, PrintEvent.readFormat.injEq] at seen
      simp [seen]
    | cons b format =>
      obtain ⟨byte, nonzero⟩ := here.head
      rw [List.length_cons]
      by_cases percent : b = 0x25
      · subst percent
        rw [kvprintf_directive byte, List.mem_cons, List.mem_cons, PrintEvent.readFormat.injEq,
          PrintEvent.readFormat.injEq, afterDirective] at seen
        cases format with
        | nil => simp [trailingPercents] at closed
        | cons c format =>
          rw [trailingPercents_directive] at closed
          rw [List.length_cons]
          rcases seen with rfl | rfl | later
          · omega
          · omega
          · rcases mem_log_bind.mp later with converted | ⟨args', _, scanned⟩
            · exact absurd converted (quiet_convert mem fuel args _ a)
            · have bounds := ih here.tail.tail closed a scanned
              omega
      · rw [trailingPercents_plain percent] at closed
        rw [kvprintf_plain byte nonzero percent, List.mem_cons, List.mem_append,
          PrintEvent.readFormat.injEq] at seen
        rcases seen with rfl | put | scanned
        · omega
        · simp [charEvents] at put
        · have bounds := ih here.tail closed a scanned
          omega

/-- With enough rounds `kvprintf` prints the text that the format stands for. -/
theorem Formats.prints (formats : Formats mem format args text rest)
    (here : NulText mem fmt format) (closed : trailingPercents format % 2 = 0) :
    Eventually fun fuel => (kvprintf mem fuel fmt args).result = .ok rest ∧
      printed (kvprintf mem fuel fmt args).log = text := by
  induction formats generalizing fmt with
  | done =>
    refine .next (.always fun fuel => ?_)
    rw [kvprintf_end here.stop]
    exact ⟨rfl, rfl⟩
  | plain ordinary others ih =>
    rw [trailingPercents_plain ordinary] at closed
    obtain ⟨byte, nonzero⟩ := here.head
    refine .next ((ih here.tail closed).imp ?_)
    rintro fuel ⟨result, log⟩
    rw [kvprintf_plain byte nonzero ordinary]
    refine ⟨result, ?_⟩
    rw [printed_cons_readFormat, printed_append, printed_charEvents, log, List.singleton_append]
  | directive converts others ih =>
    rw [trailingPercents_directive] at closed
    have round := converts.round here.head.1 here.tail.head.1
    refine .next ((round.and (ih here.tail.tail closed)).imp ?_)
    rintro fuel ⟨round, result, log⟩
    rw [round]
    refine ⟨result, ?_⟩
    rw [printed_cons_readFormat, printed_cons_readFormat, printed_append, printed_flatMap, log]
  | dangling => simp [trailingPercents] at closed

/-- After a `%` of its own at the end, the byte behind the terminator is read. -/
theorem Formats.overrun (formats : Formats mem format args text rest)
    (here : NulText mem fmt format) (loose : trailingPercents format % 2 = 1) :
    Eventually fun fuel =>
      .readFormat (fmt + format.length + 1) ∈ (kvprintf mem fuel fmt args).log := by
  induction formats generalizing fmt with
  | done => simp [trailingPercents] at loose
  | @plain b format text args rest ordinary others ih =>
    rw [trailingPercents_plain ordinary] at loose
    obtain ⟨byte, nonzero⟩ := here.head
    have place : fmt + (b :: format).length + 1 = fmt + 1 + format.length + 1 := by
      simp only [List.length_cons]
      omega
    refine .next ((ih here.tail loose).imp fun fuel seen => ?_)
    rw [kvprintf_plain byte nonzero ordinary, place]
    exact List.mem_cons_of_mem _ (List.mem_append_right _ seen)
  | @directive c format text more args args' rest converts others ih =>
    rw [trailingPercents_directive] at loose
    have round := converts.round here.head.1 here.tail.head.1
    have place : fmt + (0x25 :: c :: format).length + 1 = fmt + 2 + format.length + 1 := by
      simp only [List.length_cons]
      omega
    refine .next ((round.and (ih here.tail.tail loose)).imp ?_)
    rintro fuel ⟨round, seen⟩
    rw [round, place]
    exact List.mem_cons_of_mem _ (List.mem_cons_of_mem _ (List.mem_append_right _ seen))
  | @dangling args =>
    -- the terminator is taken for a conversion, an unknown one, and the scan goes on behind it
    have unknown : Converts mem (conversion 0) args [] args := .unknown
    have round := unknown.round here.head.1 here.tail.stop
    have behind := kvprintf_reads mem (fmt + 2) args
    refine .next ((round.and behind).imp ?_)
    rintro fuel ⟨round, seen⟩
    rw [round]
    exact List.mem_cons_of_mem _ (List.mem_cons_of_mem _ (List.mem_append_right _ seen))

/-- The scan of a format ends and reads no byte behind its terminator. -/
structure StaysInFormat (mem : Memory) (fmt : Nat) (format : List UInt8) (args : List UInt64) :
    Prop where
  ends : ∃ fuel rest, (kvprintf mem fuel fmt args).result = .ok rest
  inside : ∀ fuel a, .readFormat a ∈ (kvprintf mem fuel fmt args).log → a ≤ fmt + format.length

/-- With enough arguments, `kvprintf` ends without having read past the format exactly when the
number of `%` directly in front of the terminator is even. -/
theorem format_stays_inside_iff (mem : Memory) (fmt : Nat) (format : List UInt8)
    (args : List UInt64) (here : NulText mem fmt format) (enough : EnoughArgs mem format args) :
    StaysInFormat mem fmt format args ↔ Even (trailingPercents format) := by
  obtain ⟨text, rest, formats⟩ := enough
  rw [Nat.even_iff]
  constructor
  · intro stays
    by_contra odd
    obtain ⟨fuel, overrun⟩ := formats.overrun here (by omega)
    have bound := stays.inside fuel _ (overrun fuel (Nat.le_refl _))
    omega
  · intro closed
    constructor
    case ends =>
      obtain ⟨fuel, prints⟩ := formats.prints here closed
      exact ⟨fuel, rest, (prints fuel (Nat.le_refl _)).1⟩
    case inside =>
      intro fuel a seen
      exact (kvprintf_inside here closed a seen).2

/-- The format `%u%%` at address 0, and zeroes behind it. -/
def percentFormat : Memory := fun a => [0x25, 0x75, 0x25, 0x25].getD a 0

theorem format_stays_inside_iff_percent :
    StaysInFormat percentFormat 0 [0x25, 0x75, 0x25, 0x25] [7] ↔
      Even (trailingPercents [0x25, 0x75, 0x25, 0x25]) := by
  apply format_stays_inside_iff
  · exact ⟨by decide, by decide⟩
  · exact ⟨_, _, .directive .u (.directive .percent .done)⟩

/-- A format that is a single `%`: the byte behind its terminator is read. -/
theorem format_overrun : ¬ ∀ mem fmt format args, NulText mem fmt format →
    EnoughArgs mem format args → StaysInFormat mem fmt format args := by
  intro stays
  let mem : Memory := fun a => if a = 0 then 0x25 else 0
  have here : NulText mem 0 [0x25] := ⟨by decide, by decide⟩
  have formats : Formats mem [0x25] [] [] [] := .dangling
  obtain ⟨fuel, overrun⟩ := formats.overrun here rfl
  have bound := (stays mem 0 [0x25] [] here ⟨_, _, formats⟩).inside fuel _
    (overrun fuel (Nat.le_refl _))
  simp at bound

end DedOS
