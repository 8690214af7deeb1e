import DedOS.Fs.Archive

/-!
# Loading an archive

As long as every path ends inside its name field, the loader rebuilds the tree that the
archive encodes: a record adds exactly its own path.
-/

namespace DedOS

open Lib

namespace Tmpfs

variable {t : Names} {s s' : Tmpfs} {mem mem' : Memory} {offset stop size fuel fuel' : Nat}
  {r : Record} {before rs : List Record}

/-! ### One record -/

theorem Record.body_slashed (dir : r.slashed = true) : r.body = r.joined ++ [slash] := by
  simp [body, dir]

theorem Record.body_plain (file : ¬ r.slashed = true) : r.body = r.joined := by
  simp [body, file]

theorem Encodes.name_at (enc : Encodes mem offset r) (short : r.path.length ≤ 99) {i : Nat}
    (inside : i < r.body.length) : mem (offset + r.start + i) = r.body[i] := by
  rw [enc.name short inside.le, List.getD_eq_getElem _ _ inside]

theorem Encodes.name_end (enc : Encodes mem offset r) (short : r.path.length ≤ 99) :
    mem (offset + r.start + r.body.length) = 0 := by
  rw [enc.name short le_rfl, List.getD_eq_default _ _ le_rfl]

theorem Valid.body_pos (valid : r.Valid) (some : r.names ≠ []) : 0 < r.body.length :=
  List.length_pos_of_ne_nil (mt valid.body_nil.mp some)

/-- Cutting the slash leaves the joined names in the name field and the data alone. -/
theorem trimSlash_spec (enc : Encodes mem offset r) (valid : r.Valid)
    (short : r.path.length ≤ 99) (some : r.names ≠ []) :
    let mem' := trimSlash (offset + r.start) r.body.length mem
    (∀ i (h : i < r.joined.length), mem' (offset + r.start + i) = r.joined[i]) ∧
      mem' (offset + r.start + r.joined.length) = 0 ∧ ∀ a ≥ offset + 512, mem' a = mem a := by
  have length := r.path_length
  have start_small : r.start ≤ 2 := by unfold Record.start; split <;> decide
  have body_pos := Valid.body_pos valid some
  have last : mem (offset + r.start + r.body.length - 1) = r.body[r.body.length - 1] := by
    rw [Nat.add_sub_assoc body_pos, enc.name_at short]
  intro mem'
  by_cases dir : r.slashed = true
  · -- the trailing slash becomes the terminator
    have body := Record.body_slashed dir
    have size : r.body.length = r.joined.length + 1 := by simp [body]
    have cut : mem' = Function.update mem (offset + r.start + r.body.length - 1) 0 :=
      if_pos ⟨body_pos, by rw [last]; simp [body]⟩
    rw [cut]
    refine ⟨fun i inside => ?_, ?_, fun a high => Function.update_of_ne (by omega) _ _⟩
    · rw [Function.update_of_ne (by omega), enc.name_at short (by omega)]
      simp [body, inside]
    · rw [size, ← Nat.add_assoc, Nat.add_sub_cancel, Function.update_self]
  · -- the last byte belongs to a name
    have body := Record.body_plain dir
    obtain ⟨front, c, joined, other⟩ := valid.joined_last some
    have keep : mem' = mem := by
      apply if_neg
      rintro ⟨_, slashed⟩
      rw [last] at slashed
      apply other
      rw [← slashed]
      simp [body, joined]
    rw [keep, ← body]
    exact ⟨fun i inside => enc.name_at short inside, enc.name_end short, fun _ _ => rfl⟩

/-- The entry of a record is added under the names of its path. -/
theorem initrdEntry_eq (fuel : Nat) (s : Tmpfs) (enc : Encodes mem offset r) (valid : r.Valid) (short : r.path.length ≤ 99)
    (some : r.names ≠ []) (enough : 100 < fuel) :
    ∃ (mem' : Memory) (path : CString), path.bytes = r.joined ∧
      (∀ a ≥ offset + 512, mem' a = mem a) ∧
      initrdEntry fuel offset (offset + r.start) r.data.length r.flags mem s =
        (do
          let (_, s) ← tmpfsAddEntry fuel path r.data r.flags s
          return (mem', s)) := by
  have length := r.path_length
  have joined_le : r.joined.length ≤ r.body.length := by simp [Record.body]
  have text : readString mem fuel (offset + r.start) = .ok ⟨r.body, valid.body_nonzero⟩ :=
    readString_spec valid.body_nonzero (fun i inside => enc.name_at short inside)
      (enc.name_end short) (by omega)
  obtain ⟨bytes, stop, outside⟩ := trimSlash_spec enc valid short some
  have path : readString (trimSlash (offset + r.start) r.body.length mem) fuel (offset + r.start) =
      .ok ⟨r.joined, valid.joined_nonzero⟩ :=
    readString_spec valid.joined_nonzero bytes stop (by omega)
  refine ⟨_, ⟨r.joined, valid.joined_nonzero⟩, rfl, outside, ?_⟩
  rw [initrdEntry, text]
  simp only [ok_bind, CString.length, path, enc.content outside]

/-- The loop at a header. -/
theorem initrdFrom_record (enc : Encodes mem offset r) (valid : r.Valid)
    (short : r.path.length ≤ 99) (inside : offset < size)
    (room : offset + 512 + 512 * r.blocks < 2 ^ 64) (enough : 11 < fuel) :
    initrdFrom size (fuel + 1) offset mem s =
      if r.names = [] then initrdFrom size fuel (offset + 512 + 512 * r.blocks) mem s
      else (do
        let (mem, s) ← initrdEntry fuel offset (offset + r.start) r.data.length r.flags mem s
        initrdFrom size fuel (offset + 512 + 512 * r.blocks) mem s) := by
  -- a record does not look like the end of the archive
  have some_path : ¬ mem offset = 0 := by
    have first : mem offset = r.path.getD 0 0 := enc.byte short (i := 0) (by decide)
    rw [first]
    cases path : r.path with
    | nil =>
      obtain ⟨front, empty⟩ := List.append_eq_nil_iff.mp path
      have dotted := (valid.root (valid.body_nil.mp empty)).1
      simp [dotted] at front
    | cons c l =>
      rintro rfl
      exact valid.path_nonzero (by simp [path])
  have next : wrap64 (offset + recordSize r.data.length) = offset + 512 + 512 * r.blocks := by
    rw [recordSize_eq valid.size, ← Nat.add_assoc]
    exact wrap64_of_lt room
  -- what is left of the path is empty for the root alone
  have name_zero : mem (offset + r.start) = 0 ↔ r.names = [] := by
    have first : mem (offset + r.start) = r.body.getD 0 0 := enc.name short (i := 0) (Nat.zero_le _)
    rw [first, ← valid.body_nil]
    cases body : r.body with
    | nil => simp
    | cons c l =>
      have nonzero : c ≠ 0 := by
        rintro rfl
        exact valid.body_nonzero (by simp [body])
      simp [nonzero]
  rw [initrdFrom, if_pos inside, if_neg some_path, enc.ustar]
  simp only [not_true_eq_false, ↓reduceIte, enc.readSize enough, ok_bind, enc.flags,
    enc.start_eq valid short, next, name_zero]

/-! ### The tree grows with the records -/

/-- The names of the tree are those of the records, with their contents. -/
structure Mirrors (rs : List Record) (t : Names) (s : Tmpfs) : Prop where
  holds : Holds t s
  member : ∀ r ∈ rs, ∀ (some : r.names ≠ []), ∃ i, t.walk rootInternal r.names = .some i ∧
    look (s.node i) = look (entry (r.names.getLast some) r.data r.flags none)
  only : ∀ names i, t.walk rootInternal names = some i → names = [] ∨ ∃ r ∈ rs, r.names = names

theorem entry_flags (name : List UInt8) (r : Record) :
    (look (entry name r.data r.flags none)).flags = r.flags := by
  unfold entry Record.flags
  cases r.directory <;> rfl

/-- The path of a record as a string. -/
def Record.Valid.string (valid : r.Valid) : CString := ⟨r.joined, valid.joined_nonzero⟩

theorem joined_length (r : Record) : r.joined.length ≤ r.path.length := by
  rw [r.path_length, Record.body, List.length_append]
  omega

/-- Names that fit in a header are looked up whole. -/
theorem names_of_joined (path : CString) (valid : r.Valid) (short : r.path.length ≤ 99)
    (bytes : path.bytes = r.joined) : WellFormed path ∧ path.names = r.names := by
  have length := joined_length r
  have formed : WellFormed path := by
    constructor
    · rw [CString.length, bytes]
      omega
    · intro name member
      have fits := (mem_components member).2.2
      rw [bytes] at fits
      unfold nameMax
      omega
  exact ⟨formed, by rw [formed.names, bytes, valid.components]⟩

/-- The parent of the next record is there. -/
theorem Mirrors.parent (mirrors : Mirrors before t s) (listing : Listing (before ++ r :: rs))
    (short : ∀ r ∈ before, r.path.length ≤ 99) : IsDirectory s r.names.dropLast := by
  by_cases top : r.names.dropLast = []
  · rw [top]
    exact isDirectory_root mirrors.holds
  obtain ⟨d, member, dir, names⟩ := listing.parents before r rs rfl top
  have valid := listing.valid d (by simp [member])
  have some : d.names ≠ [] := names ▸ top
  obtain ⟨formed, same⟩ := names_of_joined valid.string valid (short d member) rfl
  obtain ⟨i, found, shown⟩ := mirrors.member d member some
  rw [← names, ← same]
  apply isDirectory_of_walk mirrors.holds formed.short (valid.joined_ne_nil some)
  · rw [same]
    exact found
  · have flags := (congrArg Seen.flags shown).trans (entry_flags _ d)
    rw [Record.flags, if_pos dir] at flags
    exact flags

/-- No earlier record lies at the place of the next one or below. -/
theorem Mirrors.clear (mirrors : Mirrors before t s) (listing : Listing (before ++ r :: rs))
    (some : r.names ≠ []) {d : Record} (member : d ∈ before) (named : d.names ≠ []) :
    ¬ r.names <+: d.names := by
  rintro ⟨rest, below⟩
  obtain ⟨i, found, _⟩ := mirrors.member d member named
  rw [← below, NameTree.walk_append] at found
  obtain ⟨j, above, _⟩ := Option.bind_eq_some_iff.mp found
  rcases mirrors.only _ _ above with empty | ⟨d', earlier, same⟩
  · exact some empty
  · have unique := listing.unique
    rw [List.map_append, List.map_cons, List.nodup_middle, List.nodup_cons] at unique
    exact unique.1 (by simpa [← same] using .inl ⟨d', earlier, rfl⟩)

/-- Adding the next record to a tree that mirrors the earlier ones. -/
theorem Mirrors.add {path : CString} (fuel : Nat) (mirrors : Mirrors before t s)
    (listing : Listing (before ++ r :: rs)) (some : r.names ≠ [])
    (short : ∀ d ∈ before ++ r :: rs, d.path.length ≤ 99) (bytes : path.bytes = r.joined)
    (enough : s.nodes + 256 ≤ fuel) :
    ∃ node s' t', tmpfsAddEntry fuel path r.data r.flags s = .ok (node, s') ∧
      Mirrors (before ++ [r]) t' s' ∧ s'.nodes = s.nodes + 1 := by
  have valid := listing.valid r (by simp)
  obtain ⟨formed, names⟩ := names_of_joined path valid (short r (by simp)) bytes
  have parent := mirrors.parent listing fun d member => short d (by simp [member])
  obtain ⟨dir, parent_node, base, chosen⟩ := exists_chosen t s path
  have fits := chosen.fits formed
  have last : base ≠ [] := by
    obtain ⟨front, c, joined, other⟩ := valid.joined_last some
    exact chosen.named.mpr ⟨by simp [bytes, joined], by simp [bytes, joined, other]⟩
  obtain ⟨front, split, there, _⟩ := chosen.names mirrors.holds formed.short last
  rw [List.take_of_length_le fits, names] at split
  rw [split, List.dropLast_concat] at parent
  -- the listing has the parent before the record, so it is found
  obtain rfl := there parent
  obtain ⟨node, s', done, added⟩ := added r.data r.flags mirrors.holds formed.short chosen fits enough
  refine ⟨_, s', _, done, ⟨added.after, ?_, ?_⟩, added.nodes⟩
  · intro d member named
    rw [NameTree.walk_insert _ _ mirrors.holds.rooted mirrors.holds.fresh added.found, ← split]
    rcases List.mem_append.mp member with old | new
    · -- an earlier record stays where it is
      have clear := mirrors.clear listing some old named
      have differ : d.names ≠ r.names := fun same => clear (same ▸ List.prefix_rfl)
      obtain ⟨i, found, shown⟩ := mirrors.member d old named
      refine ⟨i, by rw [if_neg differ, if_neg clear, found], ?_⟩
      rw [added.old i (mirrors.holds.walk_lt mirrors.holds.rootAllocated found), shown]
    · -- the record itself is in the new node
      obtain rfl := List.mem_singleton.mp new
      refine ⟨s.nodes, if_pos rfl, ?_⟩
      have name : d.names.getLast named = base := by simp [split]
      rw [added.new, name]
  · -- a node of the new tree is an old one or that of the record
    intro path i found
    rw [NameTree.walk_insert _ _ mirrors.holds.rooted mirrors.holds.fresh added.found, ← split] at found
    split at found
    next same => exact .inr ⟨r, by simp, same.symm⟩
    split at found
    · cases found
    · rcases mirrors.only path i found with empty | ⟨d, member, same⟩
      · exact .inl empty
      · exact .inr ⟨d, by simp [member], same⟩

/-- The record of the root adds nothing. -/
theorem Mirrors.skip (mirrors : Mirrors before t s) (root : r.names = []) :
    Mirrors (before ++ [r]) t s := by
  refine ⟨mirrors.holds, fun d member named => ?_, fun names i found => ?_⟩
  · rcases List.mem_append.mp member with old | new
    · exact mirrors.member d old named
    · rw [List.mem_singleton.mp new] at named
      exact absurd root named
  · rcases mirrors.only names i found with empty | ⟨d, old, same⟩
    · exact .inl empty
    · exact .inr ⟨d, by simp [old], same⟩

/-! ### The whole archive -/

/-- The loop rebuilds the records that are left. -/
theorem initrdFrom_run (fuel : Nat) (mirrors : Mirrors before t s) (listing : Listing (before ++ rs))
    (short : ∀ r ∈ before ++ rs, r.path.length ≤ 99) (records : Records mem offset rs stop)
    (zero : mem stop = 0) (inside : stop < size) (word : size < 2 ^ 64)
    (enough : s.nodes + 2 * rs.length + 300 < fuel) :
    ∃ mem' s' t', initrdFrom size fuel offset mem s = .ok (mem', s') ∧
      Mirrors (before ++ rs) t' s' := by
  induction rs generalizing before offset mem s t fuel with
  | nil =>
    -- the first block of zeros
    obtain ⟨fuel, rfl⟩ : ∃ f, fuel = f + 1 := ⟨fuel - 1, by omega⟩
    obtain rfl : offset = stop := records
    refine ⟨mem, s, t, ?_, by simpa using mirrors⟩
    rw [initrdFrom, if_pos inside, if_pos zero]
  | cons r rs ih =>
    obtain ⟨fuel, rfl⟩ : ∃ f, fuel = f + 1 := ⟨fuel - 1, by omega⟩
    rw [List.length_cons] at enough
    obtain ⟨enc, rest⟩ := records
    have bound := rest.le
    have valid := listing.valid r (by simp)
    have short_r := short r (by simp)
    have regroup : before ++ r :: rs = (before ++ [r]) ++ rs := by simp
    rw [initrdFrom_record enc valid short_r (by omega) (by omega) (by omega)]
    by_cases root : r.names = []
    · rw [if_pos root, regroup]
      exact ih _ (mirrors.skip root) (regroup ▸ listing) (regroup ▸ short) rest zero (by omega)
    · rw [if_neg root, regroup]
      obtain ⟨mem', path, bytes, outside, step⟩ := initrdEntry_eq fuel s enc valid short_r root
        (by omega)
      obtain ⟨node, s', t', done, mirrors', nodes⟩ := mirrors.add fuel listing root short bytes
        (by omega)
      rw [step, done]
      simp only [ok_bind, pure, Except.pure]
      refine ih _ mirrors' (regroup ▸ listing) (regroup ▸ short) ?_ ?_ (by omega)
      · exact rest.congr fun a high => outside a (by omega)
      · rw [outside stop (by omega), zero]

/-! ### The bound on the rounds -/

theorem octalToInt_mono {addr val n : Nat} (done : octalToInt mem fuel addr val = .ok n)
    (more : fuel ≤ fuel') : octalToInt mem fuel' addr val = .ok n := by
  induction fuel generalizing addr val fuel' with
  | zero => cases done
  | succ fuel ih =>
    obtain ⟨fuel', rfl⟩ : ∃ f, fuel' = f + 1 := ⟨fuel' - 1, by omega⟩
    rw [octalToInt] at done ⊢
    split at done
    next digit =>
      rw [if_pos digit]
      exact ih done (by omega)
    next stop => rwa [if_neg stop]

theorem readString_mono {addr : Nat} {text : CString} (done : readString mem fuel addr = .ok text)
    (more : fuel ≤ fuel') : readString mem fuel' addr = .ok text := by
  induction fuel generalizing addr text fuel' with
  | zero => cases done
  | succ fuel ih =>
    obtain ⟨fuel', rfl⟩ : ∃ f, fuel' = f + 1 := ⟨fuel' - 1, by omega⟩
    rw [readString] at done ⊢
    split at done
    next stop => rwa [dif_pos stop]
    next inside =>
      rw [dif_neg inside, bind_eq_ok]
      obtain ⟨rest, read, done⟩ := bind_eq_ok.mp done
      exact ⟨rest, ih read (by omega), done⟩

theorem initrdEntry_mono {name len : Nat} {flags : UInt32} {res : Memory × Tmpfs}
    (done : initrdEntry fuel offset name len flags mem s = .ok res) (more : fuel ≤ fuel') :
    initrdEntry fuel' offset name len flags mem s = .ok res := by
  rw [initrdEntry, bind_eq_ok] at done ⊢
  obtain ⟨text, read, done⟩ := done
  refine ⟨text, readString_mono read more, ?_⟩
  obtain ⟨path, read', done⟩ := bind_eq_ok.mp done
  rw [bind_eq_ok]
  refine ⟨path, readString_mono read' more, ?_⟩
  obtain ⟨⟨node, s'⟩, add, done⟩ := bind_eq_ok.mp done
  rw [bind_eq_ok]
  exact ⟨_, tmpfsAddEntry_mono fuel' add more, done⟩

theorem initrdFrom_mono {res : Memory × Tmpfs} (done : initrdFrom size fuel offset mem s = .ok res)
    (more : fuel ≤ fuel') : initrdFrom size fuel' offset mem s = .ok res := by
  induction fuel generalizing offset mem s fuel' with
  | zero => cases done
  | succ fuel ih =>
    obtain ⟨fuel', rfl⟩ : ∃ f, fuel' = f + 1 := ⟨fuel' - 1, by omega⟩
    have more' : fuel ≤ fuel' := by omega
    rw [initrdFrom] at done ⊢
    split at done
    swap
    next outside => rwa [if_neg outside]
    next inside =>
    rw [if_pos inside]
    split at done
    next last => rwa [if_pos last]
    next header =>
    rw [if_neg header]
    split at done
    next foreign => rwa [if_pos foreign]
    next known =>
    rw [if_neg known, bind_eq_ok]
    obtain ⟨len, read, done⟩ := bind_eq_ok.mp done
    refine ⟨len, octalToInt_mono read more', ?_⟩
    dsimp only at done ⊢
    -- the address of the name does not depend on the bound
    generalize (if mem offset = dot ∧ mem (offset + 1) = slash then offset + 2 else offset) = name
      at done ⊢
    split at done
    next empty =>
      rw [if_pos empty]
      exact ih done more'
    next named =>
      rw [if_neg named, bind_eq_ok]
      obtain ⟨⟨mem', s'⟩, entry, done⟩ := bind_eq_ok.mp done
      exact ⟨_, initrdEntry_mono entry more', ih done more'⟩

/-- `initrd_init` returns. -/
def Loads (module : Option (Memory × Nat)) (s s' : Tmpfs) : Prop :=
  ∃ fuel, initrdInit fuel module s = .ok s'

theorem Loads.unique {s'' : Tmpfs} (left : Loads (some (mem, size)) s s')
    (right : Loads (some (mem, size)) s s'') : s' = s'' := by
  obtain ⟨f, left⟩ := left
  obtain ⟨f', right⟩ := right
  obtain ⟨⟨m, r⟩, run, done⟩ := bind_eq_ok.mp left
  obtain ⟨⟨m', r'⟩, run', done'⟩ := bind_eq_ok.mp right
  have same := initrdFrom_mono run (le_max_left f f')
  rw [initrdFrom_mono run' (le_max_right f f')] at same
  cases same
  exact Except.ok.inj (done.symm.trans done')

/-- Every member is found with its kind and its bytes, and nothing else is. -/
structure Inverts (rs : List Record) (s : Tmpfs) : Prop where
  member : ∀ r ∈ rs, r.names ≠ [] → ∀ q : CString, q.length ≤ 255 →
    components slash q.bytes = r.names → ∃ seen, Leads s q (some seen) ∧
      some seen.name = r.names.getLast? ∧ ShowsEntry seen.name r.data r.flags seen
  only : ∀ (q : CString) (seen : Seen), Leads s q (some seen) → components slash q.bytes = [] ∨
    ∃ r ∈ rs, r.names = components slash q.bytes

theorem Mirrors.inverts (mirrors : Mirrors rs t s) (listing : Listing rs)
    (short : ∀ r ∈ rs, r.path.length ≤ 99) : Inverts rs s := by
  constructor
  · intro r member some q q_short names
    have valid := listing.valid r member
    obtain ⟨_, whole⟩ := names_of_joined valid.string valid (short r member) rfl
    have same : q.names = r.names := by
      rw [CString.names, names, ← valid.components]
      exact whole.trans valid.components.symm
    obtain ⟨i, found, shown⟩ := mirrors.member r member some
    have nonempty : q.bytes ≠ [] := by
      intro empty
      rw [empty, components_nil] at names
      exact some names.symm
    have kind : r.flags = vfsFile ∨ r.flags = vfsDirectory := by
      unfold Record.flags
      cases r.directory <;> simp
    have entry := showsEntry (r.names.getLast some) r.data kind
    refine ⟨look (s.node i), ?_, ?_, ?_⟩
    · rw [leads_iff mirrors.holds q_short, target_eq_walk nonempty, same, found]
      rfl
    · rw [shown, entry.called, List.getLast?_eq_some_getLast some]
    · rw [shown, entry.called]
      exact entry
  · intro q seen leads
    rcases Nat.lt_or_ge q.length 256 with q_short | q_long
    swap
    · cases ((leads_long_iff mirrors.holds q_long).mp leads).1
    have found := (leads_iff mirrors.holds (Nat.le_of_lt_succ q_short)).mp leads
    by_cases empty : q.bytes = []
    · exact .inl (by rw [empty, components_nil])
    rw [target_eq_walk empty] at found
    cases here : t.walk rootInternal q.names with
    | none => simp [here] at found
    | some i =>
      rcases mirrors.only _ _ here with top | ⟨r, member, names⟩
      · exact .inl (List.map_eq_nil_iff.mp top)
      · refine .inr ⟨r, member, ?_⟩
        have valid := listing.valid r member
        have whole : ∀ name ∈ components slash q.bytes, name.take nameMax = id name := by
          intro name inside
          -- a name that was cut has more bytes than any name of a record
          have fits : (name.take nameMax).length ≤ r.path.length := by
            have there : name.take nameMax ∈ components slash r.joined := by
              rw [valid.components, names]
              exact List.mem_map_of_mem inside
            exact (mem_components there).2.2.trans (joined_length r)
          have limit := short r member
          rw [List.length_take, nameMax] at fits
          exact List.take_of_length_le (by unfold nameMax; omega)
        rw [names, CString.names, List.map_congr_left whole, List.map_id]

/-- An archive whose paths end inside the name field is loaded as the tree it encodes. -/
theorem initrd_inverts (archive : Archive mem size rs) (short : ∀ r ∈ rs, r.path.length ≤ 99) :
    (∃ s', Loads (some (mem, size)) tmpfsInit s') ∧
    ∀ s', Loads (some (mem, size)) tmpfsInit s' → Inverts rs s' := by
  obtain ⟨stop, records, room, zeros⟩ := archive.records
  have start : Mirrors [] ⟨fun _ => [], fun _ => [slash]⟩ tmpfsInit := by
    refine ⟨tmpfsInit_holds, fun r member => absurd member List.not_mem_nil, fun names i found => ?_⟩
    cases names with
    | nil => exact .inl rfl
    | cons n names => simp [NameTree.walk, NameTree.child] at found
  obtain ⟨mem', s', t', done, mirrors⟩ := initrdFrom_run (2 * rs.length + 400) start archive.listing
    short records (zeros 0 (by decide)) (by omega) archive.size (by simp only [tmpfsInit]; omega)
  have loads : Loads (some (mem, size)) tmpfsInit s' := by
    refine ⟨_, bind_eq_ok.mpr ⟨_, done, rfl⟩⟩
  refine ⟨⟨s', loads⟩, fun s'' other => ?_⟩
  rw [other.unique loads]
  exact mirrors.inverts archive.listing short

/-! ### Two archives -/

/-- A header as `tar` writes it. -/
def tarHeader (name mode size chksum : List UInt8) (typeflag : UInt8) : Memory := fun a =>
  if a < 100 then name.getD a 0
  else if a < 108 then mode.getD (a - 100) 0
  else if a < 116 then (List.replicate 7 0x30).getD (a - 108) 0
  else if a < 124 then (List.replicate 7 0x30).getD (a - 116) 0
  else if a < 136 then size.getD (a - 124) 0
  else if a < 148 then (List.replicate 11 0x30).getD (a - 136) 0
  else if a < 156 then chksum.getD (a - 148) 0
  else if a = 156 then typeflag
  else if a < 257 then 0
  else (ustar ++ [0, 0x30, 0x30]).getD (a - 257) 0

/-- `"./b/"` and `"./b/s"` with two bytes. -/
def smallArchive : Memory := fun a =>
  if a < 512 then
    tarHeader [0x2E, 0x2F, 0x62, 0x2F] [0x30, 0x30, 0x30, 0x30, 0x37, 0x35, 0x35]
      (List.replicate 11 0x30) [0x30, 0x30, 0x36, 0x33, 0x32, 0x33, 0, 0x20] typeDirectory a
  else if a < 1024 then
    tarHeader [0x2E, 0x2F, 0x62, 0x2F, 0x73] [0x30, 0x30, 0x30, 0x30, 0x36, 0x34, 0x34]
      (List.replicate 10 0x30 ++ [0x32]) [0x30, 0x30, 0x36, 0x35, 0x30, 0x30, 0, 0x20] 0x30
      (a - 512)
  else [7, 8].getD (a - 1024) 0

def smallRecords : List Record :=
  [⟨[[0x62]], true, [], true, true⟩, ⟨[[0x62], [0x73]], false, [7, 8], true, false⟩]

theorem smallRecords_listing : Listing smallRecords := by
  constructor
  case valid =>
    intro r member
    simp only [smallRecords, List.mem_cons, List.not_mem_nil, or_false] at member
    rcases member with rfl | rfl <;> constructor <;> decide
  case unique => decide
  case parents =>
    intro before r after split deep
    cases before with
    | nil =>
      obtain ⟨rfl, _⟩ := List.cons.inj split
      exact absurd rfl deep
    | cons d before =>
      obtain ⟨rfl, rest⟩ := List.cons.inj split
      cases before with
      | nil =>
        obtain ⟨rfl, _⟩ := List.cons.inj rest
        exact ⟨_, List.mem_cons_self, rfl, rfl⟩
      | cons e before => simp at rest

theorem smallArchive_archive : Archive smallArchive 2560 smallRecords := by
  refine ⟨smallRecords_listing, ⟨1536, ⟨?_, ?_, rfl⟩, by decide, ?_⟩, by decide⟩
  · exact {
      path := .whole ⟨by decide, by decide +kernel⟩ ⟨by decide, by decide +kernel⟩
      mode := by decide +kernel
      size := ⟨List.replicate 11 0x30, by decide +kernel, by decide +kernel, by decide,
        by decide +kernel, by decide +kernel⟩
      typeflag := by decide +kernel
      magic := by decide +kernel
      data := by decide }
  · exact {
      path := .whole ⟨by decide, by decide +kernel⟩ ⟨by decide, by decide +kernel⟩
      mode := by decide +kernel
      size := ⟨List.replicate 10 0x30 ++ [0x32], by decide +kernel, by decide +kernel, by decide,
        by decide +kernel, by decide +kernel⟩
      typeflag := by decide +kernel
      magic := by decide +kernel
      data := by decide +kernel }
  · -- nothing follows the last block
    intro i _
    rw [smallArchive, if_neg (by omega), if_neg (by omega)]
    exact List.getD_eq_default _ _ (by simp only [List.length_cons, List.length_nil]; omega)

theorem initrd_inverts_small :
    ∃ s', Loads (some (smallArchive, 2560)) tmpfsInit s' ∧
      Inverts smallRecords s' := by
  obtain ⟨⟨s', loads⟩, inverts⟩ := initrd_inverts smallArchive_archive (by decide)
  exact ⟨s', loads, inverts s' loads⟩

/-- A path that fills the 100 bytes of the name field. -/
def fullName : List UInt8 := List.replicate 100 0x61

def fullArchive : Memory := fun a =>
  if a < 512 then
    tarHeader fullName [0x30, 0x30, 0x30, 0x30, 0x36, 0x34, 0x34] (List.replicate 11 0x30)
      [0x30, 0x33, 0x30, 0x37, 0x30, 0x31, 0, 0x20] 0x30 a
  else 0

def fullRecord : Record := ⟨[fullName], false, [], false, false⟩

theorem fullArchive_archive : Archive fullArchive 1536 [fullRecord] := by
  refine ⟨⟨?_, by decide, ?_⟩, ⟨512, ⟨?_, rfl⟩, by decide, ?_⟩, by decide⟩
  · intro r member
    obtain rfl := List.mem_singleton.mp member
    constructor <;> decide
  · intro before r after split deep
    cases before with
    | nil =>
      obtain ⟨rfl, _⟩ := List.cons.inj split
      exact absurd rfl deep
    | cons d before => simp at split
  · exact {
      path := .whole ⟨by decide, by decide +kernel⟩ ⟨by decide, by decide +kernel⟩
      mode := by decide +kernel
      size := ⟨List.replicate 11 0x30, by decide +kernel, by decide +kernel, by decide,
        by decide +kernel, by decide +kernel⟩
      typeflag := by decide +kernel
      magic := by decide +kernel
      data := by decide }
  · intro i _
    exact if_neg (by omega)

/-- A name of 100 bytes has no terminator in its field, and the mode is read as its end. -/
theorem full_name_is_lost : ¬ ∀ (mem : Memory) (size : Nat) (rs : List Record),
    Archive mem size rs → ∀ s', Loads (some (mem, size)) tmpfsInit s' → Inverts rs s' := by
  intro claim
  have lost : ((initrdInit 400 (some (fullArchive, 1536)) tmpfsInit).bind
      fun s => (vfsFindPath 400 ⟨fullName, by decide⟩ s).map Prod.fst) = .ok none := by
    decide +kernel
  cases load : initrdInit 400 (some (fullArchive, 1536)) tmpfsInit with
  | error fault =>
    rw [load] at lost
    cases lost
  | ok s =>
    rw [load] at lost
    have inverts := claim _ _ _ fullArchive_archive s ⟨400, load⟩
    obtain ⟨seen, found, _⟩ := inverts.member fullRecord (by simp) (by decide)
      ⟨fullName, by decide⟩ (by decide) (by decide)
    cases look : vfsFindPath 400 ⟨fullName, by decide⟩ s with
    | error fault => simp [look, Except.bind, Except.map] at lost
    | ok res =>
      obtain ⟨node, s'⟩ := res
      obtain rfl : node = none := by simpa [look, Except.bind, Except.map] using lost
      have missing : Leads s ⟨fullName, by decide⟩ none := ⟨400, none, s', look, rfl⟩
      cases missing.unique found

end Tmpfs

end DedOS
