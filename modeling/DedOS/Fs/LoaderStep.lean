import DedOS.Fs.LoaderRound

/-!
# Where a round of the initrd loader leads

A round goes on from a header whose name ends somewhere and fits in the buffers of
`tmpfs_add_entry`. Without such a header it is the last one, or overflows a buffer, or scans
the name for ever.
-/

namespace DedOS

open Lib Logged

namespace Tmpfs

variable {mem : Memory} {s s' : Tmpfs} {t : Names} {path text : CString} {data base : List UInt8}
  {dir : List (List UInt8)} {flags : UInt32} {fuel a i parent size offset name archiveSize : Nat}
  {w : Access} {l l' : Loader}

/-! ### `tmpfs_add_entry` returns -/

theorem Chosen.base_eq (chosen : Chosen t s path dir parent base) : base = path.base := by
  rw [CString.base]
  cases chosen with
  | plain _ none => rw [none]
  | inside last found behind => rw [found, ← behind]
  | fallback last found behind => rw [found, ← behind]

theorem exists_added (data : List UInt8) (flags : UInt32) (holds : Holds t s) (fits : Fits path)
    (enough : s.nodes + 256 ≤ fuel) :
    ∃ r, tmpfsAddEntry fuel path data flags s = .ok r := by
  obtain ⟨dir, parent, base, chosen⟩ := exists_chosen t s path
  obtain ⟨node, s', done, _⟩ := added data flags holds (Nat.le_of_lt_succ fits.whole) chosen
    (Nat.le_of_lt_succ (chosen.base_eq ▸ fits.base)) enough
  exact ⟨_, done⟩

/-- Where the size field of a header leads. -/
def follow (mem : Memory) (offset : Nat) : Nat := wrap64 (offset + recordSize (sizeIn mem offset))

/-- With a string for the name, a round adds what is left of it without its last slash. -/
theorem initrdEntry_text (here : HasString mem name text) (enough : text.length < fuel) :
    initrdEntry fuel offset name size flags mem s = (do
      let (_, s) ← tmpfsAddEntry fuel text.trim ((List.range size).map fun i =>
        trimSlash name text.length mem (offset + 512 + i)) flags s
      return (trimSlash name text.length mem, s)) := by
  have short : text.trim.length < fuel := (CString.trim_length_le text).trans_lt enough
  rw [initrdEntry, readString_eq_ok.mpr ⟨here, enough⟩, ok_bind]
  dsimp only
  rw [readString_eq_ok.mpr ⟨here.trim, short⟩, ok_bind]

/-- A round that goes on. -/
structure Goes (archiveSize : Nat) (l l' : Loader) : Prop where
  head : Header archiveSize l.archive l.offset
  offset : l'.offset = follow l.archive l.offset
  text : ∃ text, HasString l.archive (nameIn l.archive l.offset) text ∧ Fits text.trim ∧
    l'.archive = trimSlash (nameIn l.archive l.offset) text.length l.archive
  holds : ∃ t, Holds t l'.fs

theorem round_ok (head : Header archiveSize l.archive l.offset) (enough : 134 ≤ fuel)
    (here : HasString l.archive (nameIn l.archive l.offset) text) (long : text.length < fuel) :
    (initrdRound archiveSize fuel l).result =
      if text.bytes = [] then .ok (some { l with offset := follow l.archive l.offset })
      else do
        let (_, fs) ← tmpfsAddEntry fuel text.trim ((List.range (sizeIn l.archive l.offset)).map
          fun i => trimSlash (nameIn l.archive l.offset) text.length l.archive
            (l.offset + 512 + i)) (flagsIn l.archive l.offset) l.fs
        return some ⟨follow l.archive l.offset,
          trimSlash (nameIn l.archive l.offset) text.length l.archive, fs⟩ := by
  rw [initrdRound_result, if_pos head.inside, if_neg head.some, if_neg (not_not.mpr head.known),
    octalToInt_sizeIn head.known enough, ok_bind]
  simp only [here.empty_iff]
  split
  · rfl
  · rw [initrdEntry_text here long, bind_assoc]
    rfl

theorem exists_next (holds : Holds t l.fs) (head : Header archiveSize l.archive l.offset)
    (here : HasString l.archive (nameIn l.archive l.offset) text) (fits : Fits text.trim) :
    ∃ l', Next (initrdRound archiveSize) l l' := by
  have step := round_ok head (show 134 ≤ l.fs.nodes + 256 + 134 + text.length + 1 by omega) here
    (by omega)
  split at step
  · exact ⟨_, _, step⟩
  · -- the path fits, so `tmpfs_add_entry` returns
    obtain ⟨⟨node, fs⟩, done⟩ := exists_added ((List.range (sizeIn l.archive l.offset)).map
      fun i => trimSlash (nameIn l.archive l.offset) text.length l.archive (l.offset + 512 + i))
      (flagsIn l.archive l.offset) holds fits
      (show l.fs.nodes + 256 ≤ l.fs.nodes + 256 + 134 + text.length + 1 by omega)
    rw [done] at step
    exact ⟨_, _, step⟩

end Tmpfs

end DedOS
