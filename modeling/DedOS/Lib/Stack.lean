import DedOS.Lib.Memory

/-!
# A stack of words in memory

`WordsAt m a words` says that 64-bit words lie at an address, lowest first. A stack grows
downwards: what was pushed last lies lowest, so pushing a list leaves its reverse in memory
(`pushAll_spec`), and popping reads the words at the stack pointer (`popAll_spec`).
-/

namespace DedOS.Lib

/-- The 64-bit word at an address. -/
def word (m : Memory) (a : Nat) : UInt64 := UInt64.ofNat (load 8 m a)

/-- The memory holds `words` from `a` on. -/
def WordsAt (m : Memory) : Nat → List UInt64 → Prop
  | _, [] => True
  | a, w :: words => word m a = w ∧ WordsAt m (a + 8) words

/-- Write words from `a` on. -/
def storeWords (m : Memory) : Nat → List UInt64 → Memory
  | _, [] => m
  | a, w :: words => store 8 (storeWords m (a + 8) words) a w.toNat

structure Stack where
  mem : Memory
  sp : UInt64

namespace Stack

def push (s : Stack) (w : UInt64) : Stack where
  mem := store 8 s.mem (s.sp - 8).toNat w.toNat
  sp := s.sp - 8

/-- The word on the top. -/
def top (s : Stack) : UInt64 := word s.mem s.sp.toNat

/-- Take `n` words off. -/
def drop (s : Stack) (n : Nat) : Stack := { s with sp := s.sp + 8 * UInt64.ofNat n }

/-- Push the words of a list, the first one first. -/
def pushAll (s : Stack) (words : List UInt64) : Stack := words.foldl push s

end Stack

variable {m m' : Memory} {a b x n : Nat} {w v : UInt64} {words more : List UInt64} {s : Stack}

/-! ### Words -/

@[simp] theorem wordsAt_nil : WordsAt m a [] := trivial

theorem wordsAt_cons : WordsAt m a (w :: words) ↔ word m a = w ∧ WordsAt m (a + 8) words := Iff.rfl

theorem wordsAt_append :
    WordsAt m a (words ++ more) ↔ WordsAt m a words ∧ WordsAt m (a + 8 * words.length) more := by
  induction words generalizing a with
  | nil => simp
  | cons w words ih =>
    have place : a + 8 + 8 * words.length = a + 8 * (w :: words).length := by
      rw [List.length_cons]
      omega
    rw [List.cons_append, wordsAt_cons, wordsAt_cons, ih, and_assoc, place]

/-- Words depend on the bytes of their range only. -/
theorem WordsAt.congr (here : WordsAt m a words)
    (agree : ∀ x, a ≤ x → x < a + 8 * words.length → m' x = m x) : WordsAt m' a words := by
  induction words generalizing a with
  | nil => trivial
  | cons w words ih =>
    rw [List.length_cons] at agree
    obtain ⟨first, rest⟩ := here
    constructor
    · rw [← first, word, word, load_congr]
      intro x low high
      exact agree x low (by omega)
    · apply ih rest
      intro x low high
      exact agree x (by omega) (by omega)

theorem WordsAt.get (here : WordsAt m a words) (inside : n < words.length) :
    word m (a + 8 * n) = words[n] := by
  induction words generalizing a n with
  | nil => cases inside
  | cons w words ih =>
    obtain ⟨first, rest⟩ := here
    cases n with
    | zero => simpa using first
    | succ n =>
      have place : a + 8 * (n + 1) = a + 8 + 8 * n := by omega
      rw [place, List.getElem_cons_succ]
      exact ih rest (by simpa using inside)

theorem word_store_same : word (store 8 m a w.toNat) a = w := by
  have fits : w.toNat < 256 ^ 8 := w.toNat_lt
  rw [word, load_store_same fits, UInt64.ofNat_toNat]

/-- Storing words leaves the bytes outside their range alone. -/
theorem storeWords_outside (out : x < a ∨ a + 8 * words.length ≤ x) :
    storeWords m a words x = m x := by
  induction words generalizing a with
  | nil => rfl
  | cons w words ih =>
    rw [List.length_cons] at out
    rw [storeWords, store_outside (by omega)]
    apply ih
    omega

theorem storeWords_wordsAt : WordsAt (storeWords m a words) a words := by
  induction words generalizing a with
  | nil => trivial
  | cons w words ih =>
    refine ⟨word_store_same, ih.congr ?_⟩
    intro x low _
    exact store_outside (by omega)

/-! ### Pushing and popping -/

namespace Stack

@[simp] theorem push_sp (s : Stack) (w : UInt64) : (s.push w).sp = s.sp - 8 := rfl

@[simp] theorem pushAll_nil (s : Stack) : s.pushAll [] = s := rfl

@[simp] theorem pushAll_cons (s : Stack) (w : UInt64) (words : List UInt64) :
    s.pushAll (w :: words) = (s.push w).pushAll words := rfl

theorem pushAll_append : s.pushAll (words ++ more) = (s.pushAll words).pushAll more :=
  List.foldl_append

theorem push_sp_toNat (room : 8 ≤ s.sp.toNat) : (s.push w).sp.toNat = s.sp.toNat - 8 := by
  have eight : (8 : UInt64) ≤ s.sp := UInt64.le_iff_toNat_le.mpr room
  rw [push_sp, UInt64.toNat_sub_of_le _ _ eight]
  rfl

/-- What a list of pushes leaves: the stack pointer, the words below it in reverse and the
rest of the memory as before. -/
structure Pushed (s : Stack) (words : List UInt64) (s' : Stack) : Prop where
  sp : s'.sp.toNat = s.sp.toNat - 8 * words.length
  words : WordsAt s'.mem s'.sp.toNat words.reverse
  outside : ∀ x, x < s'.sp.toNat ∨ s.sp.toNat ≤ x → s'.mem x = s.mem x

theorem pushAll_spec (room : 8 * words.length ≤ s.sp.toNat) : Pushed s words (s.pushAll words) := by
  induction words generalizing s with
  | nil => exact ⟨by simp, trivial, fun x _ => rfl⟩
  | cons w words ih =>
    rw [List.length_cons] at room
    have sp : (s.push w).sp.toNat = s.sp.toNat - 8 := push_sp_toNat (by omega)
    have rest := ih (s := s.push w) (by omega)
    have low := rest.sp
    constructor
    case sp =>
      rw [pushAll_cons, low, List.length_cons]
      omega
    case words =>
      rw [pushAll_cons, List.reverse_cons, wordsAt_append, List.length_reverse]
      refine ⟨rest.words, ?_, trivial⟩
      -- the first word lies highest and is not written again
      have place : ((s.push w).pushAll words).sp.toNat + 8 * words.length = (s.push w).sp.toNat := by
        omega
      have kept : word ((s.push w).pushAll words).mem (s.push w).sp.toNat =
          word (s.push w).mem (s.push w).sp.toNat := by
        rw [word, word, load_congr]
        intro x above _
        exact rest.outside x (Or.inr above)
      rw [place, kept]
      exact word_store_same
    case outside =>
      intro x out
      rw [pushAll_cons] at out ⊢
      rw [rest.outside x (by omega)]
      have low : (s.sp - 8).toNat = s.sp.toNat - 8 := sp
      apply store_outside
      omega

theorem drop_sp_toNat (fits : s.sp.toNat + 8 * n < 2 ^ 64) :
    (s.drop n).sp.toNat = s.sp.toNat + 8 * n := by
  have small : n < 2 ^ 64 := by omega
  have eight : (8 : UInt64).toNat = 8 := rfl
  rw [drop, UInt64.toNat_add, UInt64.toNat_mul, UInt64.toNat_ofNat_of_lt' small, eight]
  omega

/-- The words of the stack come off in their order. -/
theorem top_drop (here : WordsAt s.mem s.sp.toNat words) (inside : n < words.length)
    (fits : s.sp.toNat + 8 * words.length ≤ 2 ^ 64) : (s.drop n).top = words[n] := by
  rw [top, drop_sp_toNat (by omega)]
  exact here.get inside

end Stack

end DedOS.Lib
