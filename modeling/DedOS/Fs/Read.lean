import DedOS.Fs.Vnodes
import DedOS.Lib.Memory

/-!
# `vfs_read` into a buffer

`tmpfs_read` with the copy that it makes, byte by byte. `reads_exact_iff`: the read is clamped
to the contents of the file as long as `offset + size` does not wrap; where it wraps, the copy
runs on behind the contents. Reading chunk after chunk gives back the file in the same cases.
-/

namespace DedOS

open Lib

namespace Tmpfs

/-- The loop of `memcpy(buffer, data + offset, _)` with `left` bytes to go from index `i` on. -/
def memcpyFrom (data : List UInt8) (offset buffer : Nat) :
    Nat → Nat → Memory → Except Fault Memory
  | 0, _, mem => .ok mem
  | left + 1, i, mem =>
    match data[offset + i]? with
    | none => .error .outOfBounds
    | some c => memcpyFrom data offset buffer left (i + 1) (Function.update mem (wrap64 (buffer + i)) c)

/-- `tmpfs_read`, with the memory that holds the buffer. -/
def tmpfsReadInto (s : Tmpfs) (node offset size buffer : Nat) (mem : Memory) :
    Except Fault (Nat × Memory) :=
  let internal := s.node (s.vnode node).device
  if offset ≥ internal.size then .ok (0, mem)
  else do
    let size := if wrap64 (offset + size) > internal.size then internal.size - offset else size
    let mem ← memcpyFrom internal.data offset buffer size 0 mem
    return (size, mem)

def vfsReadInto (s : Tmpfs) (node offset size buffer : Nat) (mem : Memory) :
    Except Fault (Nat × Memory) :=
  s.tmpfsReadInto node offset size buffer mem

variable {t : Names} {s : Tmpfs} {d : List UInt8} {v i k n left offset size buffer fuel : Nat}
  {mem mem' : Memory} {h : List (Entry Tmpfs TmpfsCall)} {chunk : Nat → UInt64}

/-! ### memcpy -/

/-- `mem'` has `n` bytes of `d` from `offset` on in the buffer, and is otherwise `mem`. -/
structure Copied (d : List UInt8) (offset buffer n : Nat) (mem mem' : Memory) : Prop where
  inside : ∀ j < n, mem' (wrap64 (buffer + j)) = d.getD (offset + j) 0
  outside : ∀ a, (∀ j < n, a ≠ wrap64 (buffer + j)) → mem' a = mem a

/-- Two bytes of one buffer are at different addresses. -/
theorem wrap64_apart {j : Nat} (below : i < j) (near : j < i + 2 ^ 64) :
    wrap64 (buffer + i) ≠ wrap64 (buffer + j) := by
  unfold wrap64
  omega

theorem memcpyFrom_inside (left : Nat) (mem : Memory) (fits : offset + (i + left) ≤ d.length)
    (small : i + left ≤ 2 ^ 64) :
    ∃ mem', memcpyFrom d offset buffer left i mem = .ok mem' ∧
      (∀ j, i ≤ j → j < i + left → mem' (wrap64 (buffer + j)) = d.getD (offset + j) 0) ∧
      ∀ a, (∀ j, i ≤ j → j < i + left → a ≠ wrap64 (buffer + j)) → mem' a = mem a := by
  induction left generalizing i mem with
  | zero => exact ⟨mem, rfl, fun j low high => by omega, fun a _ => rfl⟩
  | succ left ih =>
    have here : offset + i < d.length := by omega
    rw [memcpyFrom, List.getElem?_eq_getElem here]
    dsimp only
    obtain ⟨mem', done, copied, kept⟩ := ih (i := i + 1)
      (Function.update mem (wrap64 (buffer + i)) d[offset + i]) (by omega) (by omega)
    refine ⟨mem', done, fun j low high => ?_, fun a away => ?_⟩
    · rcases Nat.eq_or_lt_of_le low with rfl | later
      · -- the rest of the loop writes to other addresses
        have apart : ∀ j, i + 1 ≤ j → j < i + 1 + left →
            wrap64 (buffer + i) ≠ wrap64 (buffer + j) :=
          fun j low high => wrap64_apart (by omega) (by omega)
        rw [kept _ apart, Function.update_self, List.getD_eq_getElem _ _ here]
      · exact copied j later (by omega)
    · have first : a ≠ wrap64 (buffer + i) := away i le_rfl (by omega)
      rw [kept a fun j low high => away j (by omega) (by omega), Function.update_of_ne first]

theorem memcpy_copied (buffer : Nat) (mem : Memory) (fits : offset + n ≤ d.length)
    (small : n ≤ 2 ^ 64) : ∃ mem', memcpyFrom d offset buffer n 0 mem = .ok mem' ∧
      Copied d offset buffer n mem mem' := by
  have fits' : offset + (0 + n) ≤ d.length := by omega
  obtain ⟨mem', done, copied, kept⟩ := memcpyFrom_inside n mem fits' (by omega)
  rw [Nat.zero_add] at copied kept
  refine ⟨mem', done, fun j low => copied j (Nat.zero_le j) low, fun a away => ?_⟩
  exact kept a fun j _ high => away j high

/-- The buffer after a copy. -/
theorem Copied.bytes (copied : Copied d offset buffer n mem mem') (fits : offset + n ≤ d.length) :
    ((List.range n).map fun j => mem' (wrap64 (buffer + j))) = (d.drop offset).take n := by
  apply List.ext_getElem
  · simp
    omega
  · intro j inside _
    have small : j < n := by simpa using inside
    have here : offset + j < d.length := by omega
    simp only [List.getElem_map, List.getElem_range, List.getElem_take, List.getElem_drop]
    rw [copied.inside j small, List.getD_eq_getElem _ _ here]

theorem memcpyFrom_outside (left : Nat) (start : offset + i ≤ d.length)
    (beyond : d.length < offset + (i + left)) :
    memcpyFrom d offset buffer left i mem = .error .outOfBounds := by
  induction left generalizing i mem with
  | zero => omega
  | succ left ih =>
    rw [memcpyFrom]
    rcases Nat.lt_or_eq_of_le start with here | last
    · rw [List.getElem?_eq_getElem here]
      exact ih (by omega) (by omega)
    · rw [List.getElem?_eq_none (by omega)]

/-! ### One read -/

/-- The read returns how many of the `size` bytes from `offset` on the contents `d` have, and
copies these to the buffer and nothing else. -/
def ReadsExactly (s : Tmpfs) (v : Nat) (d : List UInt8) (offset size : Nat) : Prop :=
  ∀ buffer mem, ∃ mem',
    s.vfsReadInto v offset size buffer mem = .ok (min size (d.length - offset), mem') ∧
    Copied d offset buffer (min size (d.length - offset)) mem mem'

/-- What `vfs_read` does with a vnode of the node `i`. -/
theorem vfsReadInto_eq (grown : Grown t s) (shows : Shows s (some v) (some i)) :
    s.vfsReadInto v offset size buffer mem =
      if offset ≥ (s.node i).data.length then .ok (0, mem)
      else
        let size := if wrap64 (offset + size) > (s.node i).data.length
          then (s.node i).data.length - offset else size
        (memcpyFrom (s.node i).data offset buffer size 0 mem).map fun mem => (size, mem) := by
  cases shows with
  | node _ copy here =>
    have device : (s.vnode v).device = i := by rw [copy]; rfl
    rw [vfsReadInto, tmpfsReadInto, device, grown.sized i here]
    split
    · rfl
    · cases memcpyFrom (s.node i).data offset buffer (if wrap64 (offset + size) >
          (s.node i).data.length then (s.node i).data.length - offset else size) 0 mem <;> rfl

theorem data_small (grown : Grown t s) (shows : Shows s (some v) (some i)) :
    (s.node i).data.length < 2 ^ 64 := by
  cases shows with
  | node _ _ here =>
    rw [← grown.sized i here]
    exact grown.sizes i here

/-- `vfsRead` tells the bytes that arrive in the buffer, or that the copy leaves the contents. -/
theorem vfsReadInto_refines (grown : Grown t s) (shows : Shows s (some v) (some i))
    (offset size buffer : Nat) (mem : Memory) :
    match s.vfsRead v offset size with
    | .ok (n, bytes) => ∃ mem', s.vfsReadInto v offset size buffer mem = .ok (n, mem') ∧
        ((List.range n).map fun j => mem' (wrap64 (buffer + j))) = bytes
    | .error e => s.vfsReadInto v offset size buffer mem = .error e := by
  have small := data_small grown shows
  have sized : (s.node i).size = (s.node i).data.length := by
    cases shows with
    | node _ _ here => exact grown.sized i here
  have copy : s.vnode v = s.vnodeOf i := by
    cases shows with
    | node _ copy _ => exact copy
  rw [vfsReadInto_eq grown shows, vfsRead_eq copy, look, sized]
  dsimp only
  by_cases behind : offset ≥ (s.node i).data.length
  · rw [if_pos behind, if_pos behind]
    exact ⟨mem, rfl, rfl⟩
  rw [if_neg behind, if_neg behind]
  generalize (if wrap64 (offset + size) > (s.node i).data.length
    then (s.node i).data.length - offset else size) = n
  by_cases fits : offset + n ≤ (s.node i).data.length
  · obtain ⟨mem', done, copied⟩ := memcpy_copied buffer mem fits (by omega)
    rw [if_pos fits]
    exact ⟨mem', by simp only [done]; rfl, copied.bytes fits⟩
  · rw [if_neg fits, memcpyFrom_outside n (by omega) (by omega)]
    rfl

/-- A read whose end does not wrap is exact. -/
theorem readsExactly_of_fits (offset size : Nat) (grown : Grown t s) (shows : Shows s (some v) (some i))
    (fits : (s.node i).data.length ≤ offset ∨ offset + size < 2 ^ 64) :
    ReadsExactly s v (s.node i).data offset size := by
  intro buffer mem
  have small := data_small grown shows
  rw [vfsReadInto_eq grown shows]
  by_cases behind : offset ≥ (s.node i).data.length
  · rw [if_pos behind]
    have nothing : min size ((s.node i).data.length - offset) = 0 := by omega
    rw [nothing]
    exact ⟨mem, rfl, fun j low => absurd low (Nat.not_lt_zero j), fun _ _ => rfl⟩
  · rw [if_neg behind, wrap64_of_lt (fits.resolve_left (by omega))]
    have clamp : (if offset + size > (s.node i).data.length
        then (s.node i).data.length - offset else size) =
          min size ((s.node i).data.length - offset) := by
      split <;> omega
    rw [clamp]
    have within : offset + min size ((s.node i).data.length - offset) ≤
        (s.node i).data.length := by omega
    obtain ⟨mem', done, copied⟩ := memcpy_copied buffer mem within (by omega)
    exact ⟨mem', by simp only [done]; rfl, copied⟩

/-- A read whose end wraps is not clamped, and copies from behind the contents. -/
theorem vfsReadInto_wraps (grown : Grown t s) (shows : Shows s (some v) (some i))
    (inside : offset < (s.node i).data.length) (small : size < 2 ^ 64)
    (wraps : 2 ^ 64 ≤ offset + size) :
    s.vfsReadInto v offset size buffer mem = .error .outOfBounds := by
  have bound := data_small grown shows
  have unclamped : ¬ wrap64 (offset + size) > (s.node i).data.length := by
    unfold wrap64
    omega
  rw [vfsReadInto_eq grown shows, if_neg (by omega)]
  simp only [if_neg unclamped]
  rw [memcpyFrom_outside size (by omega) (by omega)]
  rfl

theorem readsExactly_iff (grown : Grown t s) (shows : Shows s (some v) (some i))
    (offset size : UInt64) : ReadsExactly s v (s.node i).data offset.toNat size.toNat ↔
      (s.node i).data.length ≤ offset.toNat ∨ offset.toNat + size.toNat < 2 ^ 64 := by
  constructor
  · intro reads
    by_contra wraps
    rw [not_or, Nat.not_le, Nat.not_lt] at wraps
    obtain ⟨mem', done, _⟩ := reads 0 fun _ => 0
    rw [vfsReadInto_wraps grown shows wraps.1 size.toNat_lt wraps.2] at done
    cases done
  · exact readsExactly_of_fits _ _ grown shows

/-! ### Reading chunk after chunk -/

/-- What a caller has collected when a read returns 0: it reads `chunk 0`, `chunk 1`, ...
bytes into its buffer, each read starting where the one before ended. -/
def readAll (s : Tmpfs) (v : Nat) (chunk : Nat → UInt64) (buffer : Nat) :
    Nat → Nat → Nat → Memory → List UInt8 → Except Fault (List UInt8)
  | 0, _, _, _, _ => .error .endless
  | fuel + 1, k, offset, mem, read => do
    let (n, mem) ← s.vfsReadInto v offset (chunk k).toNat buffer mem
    if n = 0 then return read
    else
      let bytes := (List.range n).map fun j => mem (wrap64 (buffer + j))
      readAll s v chunk buffer fuel (k + 1) (wrap64 (offset + n)) mem (read ++ bytes)

/-- Reading from offset 0 until 0 is returned gives the bytes `d`. -/
def ReadsBack (s : Tmpfs) (v : Nat) (d : List UInt8) (chunk : Nat → UInt64) : Prop :=
  ∀ buffer mem, ∃ fuel, readAll s v chunk buffer fuel 0 0 mem [] = .ok d

/-- The bytes asked for by the first `k` reads. -/
def total (chunk : Nat → UInt64) : Nat → Nat
  | 0 => 0
  | k + 1 => total chunk k + (chunk k).toNat

theorem total_lt (nonzero : ∀ k, chunk k ≠ 0) (k : Nat) : total chunk k < total chunk (k + 1) := by
  have some : 0 < (chunk k).toNat := by
    rw [Nat.pos_iff_ne_zero]
    intro zero
    exact nonzero k (UInt64.toNat_inj.mp zero)
  rw [total]
  omega

theorem total_mono (nonzero : ∀ k, chunk k ≠ 0) {j k : Nat} (le : j ≤ k) :
    total chunk j ≤ total chunk k :=
  (strictMono_nat_of_lt_succ (total_lt nonzero)).monotone le

/-- One round of the caller's loop, before the end of the file. -/
theorem readAll_step (grown : Grown t s) (shows : Shows s (some v) (some i))
    (nonzero : ∀ k, chunk k ≠ 0) (inside : total chunk k < (s.node i).data.length)
    (fits : total chunk (k + 1) < 2 ^ 64) (buffer : Nat) (mem : Memory) :
    ∃ mem', ∀ fuel, readAll s v chunk buffer (fuel + 1) k (total chunk k) mem
        ((s.node i).data.take (total chunk k)) =
      readAll s v chunk buffer fuel (k + 1) (min (total chunk (k + 1)) (s.node i).data.length) mem'
        ((s.node i).data.take (total chunk (k + 1))) := by
  have small := data_small grown shows
  have more := total_lt nonzero k
  rw [total] at more fits
  obtain ⟨mem', done, copied⟩ := readsExactly_of_fits _ _ grown shows (.inr fits) buffer mem
  have within : total chunk k +
      min (chunk k).toNat ((s.node i).data.length - total chunk k) ≤ (s.node i).data.length := by
    omega
  have some : ¬ min (chunk k).toNat ((s.node i).data.length - total chunk k) = 0 := by omega
  have next : wrap64 (total chunk k + min (chunk k).toNat ((s.node i).data.length - total chunk k)) =
      min (total chunk (k + 1)) (s.node i).data.length := by
    rw [wrap64_of_lt (by omega), total]
    omega
  have joined : (s.node i).data.take (total chunk k) ++ ((s.node i).data.drop (total chunk k)).take
      (min (chunk k).toNat ((s.node i).data.length - total chunk k)) =
        (s.node i).data.take (total chunk (k + 1)) := by
    rw [← List.take_add, total]
    rcases Nat.le_total (chunk k).toNat ((s.node i).data.length - total chunk k) with all | rest
    · rw [Nat.min_eq_left all]
    · rw [Nat.min_eq_right rest, List.take_of_length_le (by omega),
        List.take_of_length_le (by omega)]
  refine ⟨mem', fun fuel => ?_⟩
  rw [readAll, done]
  simp only [ok_bind, if_neg some, copied.bytes within, next, joined]

/-- The caller's loop, from the `k`-th read on, when no read to come wraps. -/
theorem readAll_ends (grown : Grown t s) (shows : Shows s (some v) (some i))
    (nonzero : ∀ k, chunk k ≠ 0)
    (fits : ∀ k, (s.node i).data.length ≤ total chunk k ∨ total chunk (k + 1) < 2 ^ 64)
    (buffer : Nat) (k : Nat) (mem : Memory) :
    ∃ fuel, readAll s v chunk buffer fuel k (min (total chunk k) (s.node i).data.length) mem
      ((s.node i).data.take (total chunk k)) = .ok (s.node i).data := by
  -- on the bytes that are left: each read takes at least one
  induction rest : (s.node i).data.length - total chunk k using Nat.strongRecOn generalizing k mem with
  | _ left ih =>
    rcases Nat.lt_or_ge (total chunk k) (s.node i).data.length with inside | behind
    · have more := total_lt nonzero k
      obtain ⟨mem', step⟩ := readAll_step grown shows nonzero inside
        ((fits k).resolve_left (by omega)) buffer mem
      obtain ⟨fuel, done⟩ := ih _ (by omega) (k + 1) mem' rfl
      refine ⟨fuel + 1, ?_⟩
      rw [Nat.min_eq_left (Nat.le_of_lt inside), step]
      exact done
    · -- the last read returns 0
      obtain ⟨mem', done, _⟩ := readsExactly_of_fits _ (chunk k).toNat grown shows
        (.inl le_rfl) buffer mem
      refine ⟨1, ?_⟩
      rw [Nat.min_eq_right behind, readAll, done, List.take_of_length_le behind]
      simp [pure, Except.pure]

/-- The caller's loop does not get past a read that wraps. -/
theorem readAll_wraps (grown : Grown t s) (shows : Shows s (some v) (some i))
    (nonzero : ∀ k, chunk k ≠ 0) {n : Nat} (inside : total chunk n < (s.node i).data.length)
    (wraps : 2 ^ 64 ≤ total chunk (n + 1)) (before : k ≤ n) (buffer fuel : Nat) (mem : Memory)
    (d : List UInt8) : readAll s v chunk buffer fuel k (total chunk k) mem
      ((s.node i).data.take (total chunk k)) ≠ .ok d := by
  have small := data_small grown shows
  induction fuel generalizing k mem with
  | zero => simp [readAll]
  | succ fuel ih =>
    rcases Nat.eq_or_lt_of_le before with rfl | earlier
    · rw [total] at wraps
      rw [readAll, vfsReadInto_wraps grown shows inside (chunk k).toNat_lt wraps]
      simp
    · -- the reads before it are inside the contents
      have next : total chunk (k + 1) ≤ total chunk n := total_mono nonzero earlier
      have here : total chunk k < (s.node i).data.length :=
        (total_mono nonzero before).trans_lt inside
      obtain ⟨mem', step⟩ := readAll_step grown shows nonzero here (by omega) buffer mem
      have clamp : min (total chunk (k + 1)) (s.node i).data.length = total chunk (k + 1) := by
        omega
      rw [step, clamp]
      exact ih earlier mem'

theorem readsBack_iff (grown : Grown t s) (shows : Shows s (some v) (some i))
    (nonzero : ∀ k, chunk k ≠ 0) : ReadsBack s v (s.node i).data chunk ↔
      ∀ k, (s.node i).data.length ≤ total chunk k ∨ total chunk (k + 1) < 2 ^ 64 := by
  constructor
  · intro reads k
    by_contra wraps
    rw [not_or, Nat.not_le, Nat.not_lt] at wraps
    obtain ⟨fuel, done⟩ := reads 0 fun _ => 0
    exact readAll_wraps grown shows nonzero wraps.1 wraps.2 (Nat.zero_le k) 0 fuel _ _ done
  · intro fits buffer mem
    have ends := readAll_ends grown shows nonzero fits buffer 0 mem
    rwa [total, Nat.zero_min, List.take_zero] at ends

/-! ### Every file -/

/-- A read is exact unless it starts inside the file and its end wraps, and a file that is
read chunk after chunk is read back unless one of the reads does so. -/
theorem reads_exact_iff (run : TmpfsRuns h s) (shows : Shows s (some v) (some i)) :
    (∀ offset size : UInt64, ReadsExactly s v (s.node i).data offset.toNat size.toNat ↔
      (s.node i).data.length ≤ offset.toNat ∨ offset.toNat + size.toNat < 2 ^ 64) ∧
    ∀ chunk : Nat → UInt64, (∀ k, chunk k ≠ 0) → (ReadsBack s v (s.node i).data chunk ↔
      ∀ k, (s.node i).data.length ≤ total chunk k ∨ total chunk (k + 1) < 2 ^ 64) := by
  obtain ⟨t, grown⟩ := grown_of_run run
  exact ⟨readsExactly_iff grown shows, fun chunk nonzero => readsBack_iff grown shows nonzero⟩

/-- The root with a file `"a"` of two bytes, after `vfs_find_path("/a")`. -/
def openPair : Tmpfs :=
  (tmpfsCreateVnode 1 (tmpfsInit.enter rootInternal (entry [0x61] [7, 8] vfsFile none))).2

theorem run_openPair : ∃ h, TmpfsRuns h openPair := by
  have create : tmpfsStep tmpfsInit (.createFile rootInternal ⟨[0x61], by decide⟩ [7, 8]) =
      some (tmpfsInit.enter rootInternal (entry [0x61] [7, 8] vfsFile none)) := rfl
  have find : tmpfsStep (tmpfsInit.enter rootInternal (entry [0x61] [7, 8] vfsFile none))
      (.findPath 10 ⟨[slash, 0x61], by decide⟩) = some openPair := rfl
  exact ⟨_, .step (.step (.start rfl) create) find⟩

theorem openPair_shows : Shows openPair (some 1) (some 1) := .node (by decide) rfl (by decide)

theorem reads_exact_iff_pair :
    (∀ offset size : UInt64, ReadsExactly openPair 1 [7, 8] offset.toNat size.toNat ↔
      ([7, 8] : List UInt8).length ≤ offset.toNat ∨ offset.toNat + size.toNat < 2 ^ 64) ∧
    ∀ chunk : Nat → UInt64, (∀ k, chunk k ≠ 0) → (ReadsBack openPair 1 [7, 8] chunk ↔
      ∀ k, ([7, 8] : List UInt8).length ≤ total chunk k ∨ total chunk (k + 1) < 2 ^ 64) := by
  obtain ⟨h, run⟩ := run_openPair
  exact reads_exact_iff run openPair_shows

/-- Offset 1 and size 2^64 - 1 add up to 0, which is not behind the file: all of the size is
copied. -/
theorem wrapped_read_runs_on : ¬ ∀ (h : List (Entry Tmpfs TmpfsCall)) (s : Tmpfs) (v i : Nat),
    TmpfsRuns h s → Shows s (some v) (some i) → ∀ offset size : UInt64,
      ReadsExactly s v (s.node i).data offset.toNat size.toNat := by
  intro claim
  obtain ⟨h, run⟩ := run_openPair
  obtain ⟨t, grown⟩ := grown_of_run run
  obtain ⟨mem', done, _⟩ := claim h openPair 1 1 run openPair_shows 1 0xFFFFFFFFFFFFFFFF 0 fun _ => 0
  have inside : (1 : UInt64).toNat < (openPair.node 1).data.length := by decide
  rw [vfsReadInto_wraps grown openPair_shows inside (by decide) (by decide)] at done
  cases done

end Tmpfs

end DedOS
