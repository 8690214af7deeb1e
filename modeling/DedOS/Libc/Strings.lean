import DedOS.Fs.Tmpfs
import DedOS.Libc.Memmove
import DedOS.Utils.Kprintf

/-!
# The string functions of `string.c`

The functions run over memory and are given a bound on their rounds; the result is `none` where
it is too small. On strings they compute what the models of their callers compute on lists of
bytes. `strcpy` overwrites the terminator it looks for when the destination lies inside the
string, and then never returns.
-/

namespace DedOS

open Lib

namespace Libc

/-- Where a pointer to bytes is after `++`. -/
def next (p : Nat) : Nat := wrap64 (p + 1)

/-- The loop of `strlen`, with the pointer at its end. -/
def strlenFrom (m : Memory) : Nat → Nat → Option Nat
  | 0, _ => none
  | fuel + 1, sc => if m sc ≠ 0 then strlenFrom m fuel (next sc) else some sc

def strlen (m : Memory) (fuel s : Nat) : Option Nat :=
  (strlenFrom m fuel s).map fun sc => wrap64 (sc + (2 ^ 64 - s))

def strcmp (m : Memory) : Nat → Nat → Nat → Option Int
  | 0, _, _ => none
  | fuel + 1, cs, ct =>
    if m cs ≠ m ct then some (if m cs < m ct then -1 else 1)
    else if m cs = 0 then some 0
    else strcmp m fuel (next cs) (next ct)

/-- The loop of `strcpy`. -/
def strcpyFrom : Nat → Nat → Nat → Memory → Option Memory
  | 0, _, _, _ => none
  | fuel + 1, dest, src, m =>
    let c := m src
    let m := Function.update m dest c
    if c ≠ 0 then strcpyFrom fuel (next dest) (next src) m else some m

def strcpy (fuel dest src : Nat) (m : Memory) : Option (Nat × Memory) :=
  (strcpyFrom fuel dest src m).map fun m => (dest, m)

/-- The loop of `strrchr`. -/
def strrchrFrom (m : Memory) (c : UInt8) : Nat → Nat → Nat → Option Nat
  | 0, _, _ => none
  | fuel + 1, s, last =>
    let last := if m s = c then s else last
    if m s ≠ 0 then strrchrFrom m c fuel (next s) last else some last

/-- `strrchr`, with null as 0. -/
def strrchr (m : Memory) (fuel s : Nat) (c : UInt8) : Option Nat := strrchrFrom m c fuel s 0

/-- The loop of `memcmp` from index `i` on, with `left` rounds to go. -/
def memcmpFrom (m : Memory) (p₁ p₂ : Nat) : Nat → Nat → Int
  | 0, _ => 0
  | left + 1, i =>
    if m (wrap64 (p₁ + i)) ≠ m (wrap64 (p₂ + i)) then
      if m (wrap64 (p₁ + i)) < m (wrap64 (p₂ + i)) then -1 else 1
    else memcmpFrom m p₁ p₂ left (i + 1)

def memcmp (m : Memory) (p₁ p₂ n : Nat) : Int := memcmpFrom m p₁ p₂ n 0

variable {m m' : Memory} {text more : List UInt8} {a b dest src fuel s last n i : Nat} {c : UInt8}

theorem next_of_lt (below : a + 1 < 2 ^ 64) : next a = a + 1 := wrap64_of_lt below

/-! ### The order of strings -/

/-- `strcmp` on lists of bytes tells their lexicographic order. -/
theorem strcmp_eq : DedOS.strcmp text more = if text = more then 0 else if text < more then -1 else 1 := by
  induction text generalizing more with
  | nil =>
    cases more with
    | nil => rfl
    | cons c more => simp [DedOS.strcmp]
  | cons c text ih =>
    cases more with
    | nil => simp [DedOS.strcmp]
    | cons d more =>
      rw [DedOS.strcmp]
      by_cases same : c = d
      · subst same
        simp [ih]
      · by_cases less : c < d
        · simp [same, less, List.cons_lt_cons_iff]
        · simp [same, less, List.cons_lt_cons_iff]

theorem strcmp_refines (first : NulText m a text) (second : NulText m b more)
    (firstFits : a + text.length < 2 ^ 64) (secondFits : b + more.length < 2 ^ 64)
    (enough : text.length < fuel) : strcmp m fuel a b = some (DedOS.strcmp text more) := by
  induction text generalizing fuel a b more with
  | nil =>
    obtain ⟨fuel, rfl⟩ : ∃ k, fuel = k + 1 := ⟨fuel - 1, by simp at enough; omega⟩
    rw [strcmp, first.stop]
    cases more with
    | nil =>
      rw [second.stop]
      simp [DedOS.strcmp]
    | cons d more =>
      obtain ⟨here, nonzero⟩ := second.head
      have positive : 0 < d := UInt8.pos_iff_ne_zero.mpr nonzero
      rw [here, if_pos nonzero.symm, if_pos positive]
      rfl
  | cons c text ih =>
    obtain ⟨fuel, rfl⟩ : ∃ k, fuel = k + 1 := ⟨fuel - 1, by simp at enough; omega⟩
    obtain ⟨here, nonzero⟩ := first.head
    rw [List.length_cons] at firstFits enough
    rw [strcmp, here]
    cases more with
    | nil =>
      have least : ¬ c < 0 := UInt8.not_lt_zero
      rw [second.stop, if_pos nonzero, if_neg least]
      rfl
    | cons d more =>
      obtain ⟨there, _⟩ := second.head
      rw [List.length_cons] at secondFits
      rw [there, DedOS.strcmp]
      by_cases same : c = d
      · subst same
        rw [if_neg (not_not.mpr rfl), if_neg nonzero, if_neg (not_not.mpr rfl),
          next_of_lt (by omega), next_of_lt (by omega)]
        exact ih first.tail second.tail (by omega) (by omega) (by omega)
      · rw [if_pos same, if_pos same]

/-! ### Reading a string -/

theorem strlenFrom_eq (here : NulText m a text) (fits : a + text.length < 2 ^ 64)
    (enough : text.length < fuel) : strlenFrom m fuel a = some (a + text.length) := by
  induction text generalizing fuel a with
  | nil =>
    obtain ⟨fuel, rfl⟩ : ∃ k, fuel = k + 1 := ⟨fuel - 1, by simp at enough; omega⟩
    simp [strlenFrom, here.stop]
  | cons c text ih =>
    obtain ⟨fuel, rfl⟩ : ∃ k, fuel = k + 1 := ⟨fuel - 1, by simp at enough; omega⟩
    obtain ⟨byte, nonzero⟩ := here.head
    rw [List.length_cons] at fits enough ⊢
    rw [strlenFrom, byte, if_pos nonzero, next_of_lt (by omega),
      ih here.tail (by omega) (by omega), Nat.add_right_comm, Nat.add_assoc]

theorem strlen_eq (here : NulText m a text) (fits : a + text.length < 2 ^ 64)
    (enough : text.length < fuel) : strlen m fuel a = some text.length := by
  have difference : wrap64 (a + text.length + (2 ^ 64 - a)) = text.length := by
    unfold wrap64
    omega
  rw [strlen, strlenFrom_eq here fits enough, Option.map_some, difference]

/-- The place of the last byte `c`, the terminator included, or what it was before. -/
def lastPlace (c : UInt8) : List UInt8 → Nat → Nat → Nat
  | [], _, last => last
  | d :: text, a, last => lastPlace c text (a + 1) (if d = c then a else last)

theorem strrchrFrom_eq (here : NulText m a text) (fits : a + text.length < 2 ^ 64)
    (enough : text.length < fuel) :
    strrchrFrom m c fuel a last = some (lastPlace c (text ++ [0]) a last) := by
  induction text generalizing fuel a last with
  | nil =>
    obtain ⟨fuel, rfl⟩ : ∃ k, fuel = k + 1 := ⟨fuel - 1, by simp at enough; omega⟩
    simp [strrchrFrom, here.stop, lastPlace]
  | cons d text ih =>
    obtain ⟨fuel, rfl⟩ : ∃ k, fuel = k + 1 := ⟨fuel - 1, by simp at enough; omega⟩
    obtain ⟨byte, nonzero⟩ := here.head
    rw [List.length_cons] at fits enough
    rw [strrchrFrom, byte, if_pos nonzero, next_of_lt (by omega),
      ih here.tail (by omega) (by omega)]
    rfl

/-- `p` is where the last byte `c` of `bytes` lies, if there is one. -/
def IsLast (c : UInt8) (bytes : List UInt8) (a p : Nat) : Prop :=
  ∃ i, p = a + i ∧ bytes[i]? = some c ∧ ∀ j, i < j → bytes[j]? ≠ some c

theorem lastPlace_cases (c : UInt8) (bytes : List UInt8) (a last : Nat) :
    IsLast c bytes a (lastPlace c bytes a last) ∨ c ∉ bytes ∧ lastPlace c bytes a last = last := by
  induction bytes generalizing a last with
  | nil => exact .inr ⟨List.not_mem_nil, rfl⟩
  | cons d bytes ih =>
    rw [lastPlace]
    rcases ih (a + 1) (if d = c then a else last) with ⟨i, place, byte, later⟩ | ⟨none, place⟩
    · refine .inl ⟨i + 1, by omega, byte, ?_⟩
      intro j above
      obtain ⟨j, rfl⟩ : ∃ k, j = k + 1 := ⟨j - 1, by omega⟩
      exact later j (by omega)
    · rw [place]
      by_cases same : d = c
      · subst same
        -- the first byte is the last one of its kind
        refine .inl ⟨0, by simp, rfl, fun j above found => ?_⟩
        obtain ⟨j, rfl⟩ : ∃ k, j = k + 1 := ⟨j - 1, by omega⟩
        exact none (List.mem_of_getElem? found)
      · refine .inr ⟨?_, if_neg same⟩
        rw [List.mem_cons, not_or]
        exact ⟨fun eq => same eq.symm, none⟩

/-- On lists `strrchr` gives the index of the same byte. -/
theorem lastPlace_refines (nonzero : c ≠ 0) (i : Nat) (found : Option Nat) :
    lastPlace c (text ++ [0]) (a + i) (found.elim 0 (a + ·)) =
      (DedOS.strrchrFrom c text i found).elim 0 (a + ·) := by
  induction text generalizing i found with
  | nil => simp [lastPlace, DedOS.strrchrFrom, nonzero.symm]
  | cons d text ih =>
    rw [List.cons_append, lastPlace, DedOS.strrchrFrom, ← ih]
    by_cases same : d = c
    · simp [same, Nat.add_assoc]
    · simp [same, Nat.add_assoc]

/-! ### Blocks of bytes -/

/-- The bytes that a loop over indices reads. -/
def bytesFrom (m : Memory) (p i n : Nat) : List UInt8 :=
  (List.range' i n).map fun j => m (wrap64 (p + j))

theorem memcmpFrom_eq (m : Memory) (p₁ p₂ left i : Nat) : memcmpFrom m p₁ p₂ left i =
    DedOS.strcmp (bytesFrom m p₁ i left) (bytesFrom m p₂ i left) := by
  induction left generalizing i with
  | zero => rfl
  | succ left ih =>
    rw [memcmpFrom, ih]
    rfl

theorem memcmp_eq (m : Memory) (p₁ p₂ n : Nat) : memcmp m p₁ p₂ n =
    if bytesFrom m p₁ 0 n = bytesFrom m p₂ 0 n then 0
    else if bytesFrom m p₁ 0 n < bytesFrom m p₂ 0 n then -1 else 1 := by
  rw [memcmp, memcmpFrom_eq, strcmp_eq]

/-! ### Copying a string -/

theorem NulText.of_agree (here : NulText m a text)
    (agree : ∀ x, a ≤ x → x ≤ a + text.length → m' x = m x) : NulText m' a text := by
  refine ⟨here.nonzero, here.bytes.moved fun i below => agree _ (Nat.le_add_right ..) ?_⟩
  rw [List.length_append, List.length_singleton] at below
  omega

theorem NulText.ne_zero (here : NulText m a text) (inside : i < text.length) : m (a + i) ≠ 0 := by
  induction text generalizing a i with
  | nil => cases inside
  | cons c text ih =>
    cases i with
    | zero =>
      obtain ⟨byte, nonzero⟩ := here.head
      rwa [Nat.add_zero, byte]
    | succ i =>
      have later := ih here.tail (Nat.lt_of_succ_lt_succ inside)
      rwa [Nat.add_right_comm] at later

/-- The loop reads every byte before it is overwritten. -/
theorem strcpyFrom_copied (here : NulText m src text) (srcFits : src + text.length < 2 ^ 64)
    (destFits : dest + text.length < 2 ^ 64) (clear : dest ≤ src ∨ src + text.length < dest)
    (enough : text.length < fuel) :
    ∃ m', strcpyFrom fuel dest src m = some m' ∧ Copied dest src (text.length + 1) m m' := by
  induction text generalizing fuel dest src m with
  | nil =>
    obtain ⟨fuel, rfl⟩ : ∃ k, fuel = k + 1 := ⟨fuel - 1, by simp at enough; omega⟩
    refine ⟨Function.update m dest 0, by simp [strcpyFrom, here.stop], ?_, ?_⟩
    · intro i below
      obtain rfl : i = 0 := Nat.lt_one_iff.mp below
      simp [here.stop]
    · intro x out
      have other : x ≠ dest := by
        rw [List.length_nil] at out
        omega
      exact Function.update_of_ne other ..
  | cons c text ih =>
    obtain ⟨fuel, rfl⟩ : ∃ k, fuel = k + 1 := ⟨fuel - 1, by simp at enough; omega⟩
    obtain ⟨byte, nonzero⟩ := here.head
    rw [List.length_cons] at srcFits destFits clear enough ⊢
    -- the rest of the string is not touched by the first store
    have rest : NulText (Function.update m dest c) (src + 1) text := by
      refine NulText.of_agree here.tail fun x low high => ?_
      have other : x ≠ dest := by omega
      exact Function.update_of_ne other ..
    obtain ⟨m', done, copied⟩ := ih rest (by omega) (by omega : dest + 1 + text.length < 2 ^ 64)
      (by omega) (by omega : text.length < fuel)
    refine ⟨m', ?_, ?_, ?_⟩
    · rw [strcpyFrom, byte, if_pos nonzero, next_of_lt (by omega), next_of_lt (by omega), done]
    · intro i below
      cases i with
      | zero =>
        rw [Nat.add_zero, Nat.add_zero, byte, copied.frame dest (.inl (Nat.lt_succ_self dest)),
          Function.update_self]
      | succ i =>
        have moved := copied.moved i (Nat.lt_of_succ_lt_succ below)
        have other : src + 1 + i ≠ dest := by omega
        rw [Function.update_of_ne other] at moved
        rw [← Nat.add_assoc, Nat.add_right_comm, moved, Nat.add_assoc, Nat.add_comm 1]
    · intro x out
      rw [copied.frame x (by omega)]
      have other : x ≠ dest := by omega
      exact Function.update_of_ne other ..

/-- Where the bytes ahead of the source, up to the destination, are not zero they stay so: the
byte that is stored is the one that was read. -/
theorem strcpyFrom_endless {d : Nat} (word : src < 2 ^ 64) (positive : 0 < d) (small : d < 2 ^ 64)
    (window : ∀ j < d, m (wrap64 (src + j)) ≠ 0) (fuel : Nat) :
    strcpyFrom fuel (wrap64 (src + d)) src m = none := by
  induction fuel generalizing src m with
  | zero => rfl
  | succ fuel ih =>
    have here : m src ≠ 0 := by
      have first := window 0 positive
      rwa [Nat.add_zero, wrap64_of_lt word] at first
    have ahead : next (wrap64 (src + d)) = wrap64 (next src + d) := by
      unfold next wrap64
      omega
    rw [strcpyFrom, if_pos here, ahead]
    have word' : next src < 2 ^ 64 := wrap64_lt _
    apply ih word'
    intro j below
    by_cases stored : wrap64 (next src + j) = wrap64 (src + d)
    · rwa [stored, Function.update_self]
    · rw [Function.update_of_ne stored]
      have old : wrap64 (next src + j) = wrap64 (src + (j + 1)) := by
        unfold next wrap64
        omega
      rw [old] at stored ⊢
      apply window
      -- the last place of the window is where the byte was stored
      by_contra outside
      obtain rfl : j + 1 = d := by omega
      exact stored rfl

/-- What `strcpy` has done when it returns. -/
structure StringCopied (dest src : Nat) (text : List UInt8) (m : Memory) (r : Nat × Memory) : Prop where
  pointer : r.1 = dest
  copied : Copied dest src (text.length + 1) m r.2
  string : NulText r.2 dest text

theorem Copied.string (copied : Copied dest src (text.length + 1) m m')
    (here : NulText m src text) : NulText m' dest text := by
  refine ⟨here.nonzero, here.bytes.moved fun i below => copied.moved i ?_⟩
  rwa [List.length_append, List.length_singleton] at below

/-- More rounds change nothing. -/
theorem strcpyFrom_mono {more : Nat} (done : strcpyFrom fuel dest src m = some m')
    (le : fuel ≤ more) : strcpyFrom more dest src m = some m' := by
  induction fuel generalizing more dest src m with
  | zero => cases done
  | succ fuel ih =>
    obtain ⟨more, rfl⟩ : ∃ k, more = k + 1 := ⟨more - 1, by omega⟩
    rw [strcpyFrom] at done ⊢
    by_cases nonzero : m src ≠ 0
    · rw [if_pos nonzero] at done ⊢
      exact ih done (by omega)
    · rw [if_neg nonzero] at done ⊢
      exact done

/-- `strcpy` returns if and only if the destination does not lie behind the start of the string
and at most at its terminator; then it has copied the string. -/
theorem strcpy_returns_iff (here : NulText m src text) (srcFits : src + text.length < 2 ^ 64)
    (destFits : dest + text.length < 2 ^ 64) :
    ((∃ fuel r, strcpy fuel dest src m = some r) ↔ ¬ (src < dest ∧ dest ≤ src + text.length)) ∧
      ∀ fuel r, strcpy fuel dest src m = some r → StringCopied dest src text m r := by
  have ends : src < dest ∧ dest ≤ src + text.length → ∀ fuel, strcpy fuel dest src m = none := by
    rintro ⟨above, inside⟩ fuel
    have isDest : wrap64 (src + (dest - src)) = dest := by
      unfold wrap64
      omega
    -- the bytes of the string before the destination
    have endless := strcpyFrom_endless (m := m) (by omega : src < 2 ^ 64)
      (by omega : 0 < dest - src) (by omega) (fun j below => by
        rw [wrap64_of_lt (by omega)]
        exact NulText.ne_zero here (by omega)) fuel
    rw [isDest] at endless
    rw [strcpy, endless, Option.map_none]
  constructor
  · constructor
    · rintro ⟨fuel, r, done⟩ overlap
      rw [ends overlap fuel] at done
      cases done
    · intro clear
      obtain ⟨m', done, _⟩ := strcpyFrom_copied here srcFits destFits
        (by omega : dest ≤ src ∨ src + text.length < dest) (Nat.lt_succ_self _)
      exact ⟨_, (dest, m'), by rw [strcpy, done, Option.map_some]⟩
  · intro fuel r done
    obtain ⟨after, returned, rfl⟩ := Option.map_eq_some_iff.mp done
    have clear : dest ≤ src ∨ src + text.length < dest := by
      by_contra overlap
      rw [ends (by omega) fuel] at done
      cases done
    obtain ⟨m', finished, copied⟩ := strcpyFrom_copied here srcFits destFits clear
      (Nat.lt_succ_self text.length)
    -- both numbers of rounds are enough
    obtain rfl : after = m' := Option.some.inj
      ((strcpyFrom_mono returned (Nat.le_max_left fuel (text.length + 1))).symm.trans
        (strcpyFrom_mono finished (Nat.le_max_right fuel (text.length + 1))))
    exact ⟨rfl, copied, Copied.string copied here⟩

/-- "ab" is copied behind itself, and not onto its own end. -/
theorem strcpy_returns_iff_ab :
    (∃ fuel r, strcpy fuel 16 0 (fun x => [0x61, 0x62].getD x 0) = some r) ∧
    ¬ ∃ fuel r, strcpy fuel 1 0 (fun x => [0x61, 0x62].getD x 0) = some r := by
  have here : NulText (fun x => [0x61, 0x62].getD x 0) 0 [0x61, 0x62] := ⟨by decide, by decide⟩
  exact ⟨(strcpy_returns_iff here (by decide) (by decide)).1.mpr (by decide),
    fun returns => (strcpy_returns_iff here (by decide) (by decide)).1.mp returns (by decide)⟩

/-! ### All functions that only read -/

/-- What the functions that only read find, for strings and for blocks of any bytes. -/
structure Reads (m : Memory) (a : Nat) (text : List UInt8) (b : Nat) (more : List UInt8) : Prop where
  length : ∀ fuel, text.length < fuel → strlen m fuel a = some text.length
  compare : ∀ fuel, text.length < fuel → strcmp m fuel a b = some (DedOS.strcmp text more)
  /-- the sign tells the lexicographic order -/
  order : DedOS.strcmp text more = if text = more then 0 else if text < more then -1 else 1
  /-- the last place of the byte, the terminator included, or null -/
  last : ∀ fuel c, text.length < fuel → ∃ p, strrchr m fuel a c = some p ∧
    (IsLast c (text ++ [0]) a p ∨ c ∉ text ++ [0] ∧ p = 0)
  index : ∀ fuel c, c ≠ 0 → text.length < fuel → strrchr m fuel a c =
    some ((DedOS.strrchrFrom c text 0 none).elim 0 (a + ·))
  blocks : ∀ n, memcmp m a b n = if bytesFrom m a 0 n = bytesFrom m b 0 n then 0
    else if bytesFrom m a 0 n < bytesFrom m b 0 n then -1 else 1

theorem strings_read (first : NulText m a text) (second : NulText m b more)
    (firstFits : a + text.length < 2 ^ 64) (secondFits : b + more.length < 2 ^ 64) :
    Reads m a text b more where
  length _ enough := strlen_eq first firstFits enough
  compare _ enough := strcmp_refines first second firstFits secondFits enough
  order := strcmp_eq
  last _ c enough := ⟨_, strrchrFrom_eq first firstFits enough, lastPlace_cases c _ a 0⟩
  index _ c nonzero enough := by
    rw [strrchr, strrchrFrom_eq first firstFits enough]
    exact congrArg some (lastPlace_refines nonzero 0 none)
  blocks := memcmp_eq m a b

/-- "usr" and "usb" -/
theorem strings_read_usr :
    Reads (fun x => [0x75, 0x73, 0x72, 0, 0x75, 0x73, 0x62].getD x 0) 0 [0x75, 0x73, 0x72]
      4 [0x75, 0x73, 0x62] :=
  strings_read ⟨by decide, by decide⟩ ⟨by decide, by decide⟩ (by decide) (by decide)

end Libc

end DedOS
