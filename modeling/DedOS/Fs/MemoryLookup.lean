import DedOS.Fs.MemoryCalls

/-!
# `vfs_find_path` in memory

The loops on pointers and bytes take the rounds of the loops on numbers, and hand out the
vnode with the same number. On the way only vnodes that the lookup has made are freed.
-/

namespace DedOS

open Lib HeapRun

namespace NodeMemory

variable {code : TmpfsCode} {roots : Roots} {p p' p'' : Places} {a a' a'' : Tmpfs}
  {s s' s'' : SlabState} {i v w fuel : Nat} {name : List UInt8} {path : CString}
  {cursor : UInt8} {head found : Option Nat}

theorem toOption_eq_some {α : Type} {x : Except Fault α} {y : α} :
    x.toOption = some y ↔ x = .ok y := by
  cases x <;> simp [Except.toOption]

/-- The bytes of a path are not zero, so neither are those of a name cut from it. -/
theorem nextName_plain {cursor' : UInt8} {name' : List UInt8} (plain : 0 ∉ name)
    (done : Tmpfs.nextName path fuel cursor name = .ok (name', cursor')) : 0 ∉ name' := by
  induction fuel generalizing cursor name with
  | zero => cases done
  | succ fuel ih =>
    rw [Tmpfs.nextName, bind_eq_ok] at done
    obtain ⟨c, _, done⟩ := done
    split at done
    · obtain ⟨rfl, _⟩ := Prod.mk.inj (Except.ok.inj done)
      exact plain
    next inside =>
      apply ih _ done
      split
      · intro member
        rcases List.mem_append.mp member with member | member
        · exact plain member
        · exact inside (.inr (List.mem_singleton.mp member).symm)
      · exact plain

/-- What a lookup has done when it hands out `found`, at the address `w`. The vnodes that were
open stay open, except `v` where the lookup has begun. -/
structure Found (code : TmpfsCode) (roots : Roots) (v : Option Nat) (p : Places) (a : Tmpfs)
    (s : SlabState) (p' : Places) (a' : Tmpfs) (s' : SlabState) (found : Option Nat) (w : Nat) :
    Prop where
  follows : Follows code roots p a s p' a' s'
  vaddr : s'.heap.heapVaddr = s.heap.heapVaddr
  kept : ∀ u < a.vnodes, some u ≠ v → u ∉ a.freed → u ∉ a'.freed
  address : w = pointer p'.vnode found
  open' : ∀ u, found = some u → (Item.vnode u).InUse a' ∧ (some u = v ∨ a.vnodes ≤ u)

theorem Found.null {begun : Option Nat} (rep : Represents code roots p a s) :
    Found code roots begun p a s p a s none 0 :=
  ⟨.refl rep, rfl, fun _ _ _ open' => open', rfl, by simp⟩

theorem Found.self (rep : Represents code roots p a s) (inUse : (Item.vnode v).InUse a) :
    Found code roots (some v) p a s p a s (some v) (p.vnode v) := by
  refine ⟨.refl rep, rfl, fun _ _ _ open' => open', rfl, fun u same => ?_⟩
  obtain rfl := Option.some.inj same
  exact ⟨inUse, .inl rfl⟩

/-! ### `tmpfs_finddir` -/

theorem finddirFrom_refines (rep : Represents code roots p a s)
    (inside : ∀ j, head = some j → j < a.nodes) (plain : 0 ∉ name)
    (done : finddirFrom code name fuel (pointer p.node head) s = some (w, s')) :
    ∃ found a' p', Tmpfs.finddirFrom name fuel head a = .ok (found, a') ∧
      Found code roots none p a s p' a' s' found w := by
  induction fuel generalizing head with
  | zero =>
    rw [finddirFrom] at done
    split at done
    next null =>
      obtain rfl := (rep.pointer_bounds inside).1.mp null
      obtain ⟨rfl, rfl⟩ := Prod.mk.inj (Option.some.inj done)
      exact ⟨none, a, p, rfl, .null rep⟩
    · cases done
  | succ fuel ih =>
    rw [finddirFrom] at done
    cases head with
    | none =>
      have null : pointer p.node none = 0 := rfl
      rw [if_pos null] at done
      obtain ⟨rfl, rfl⟩ := Prod.mk.inj (Option.some.inj done)
      exact ⟨none, a, p, rfl, .null rep⟩
    | some i =>
      have here : i < a.nodes := inside i rfl
      have nonnull : ¬ pointer p.node (some i) = 0 := (rep.node_bounds here).1
      rw [if_neg nonnull] at done
      simp only [pointer, rep.node_name here plain, rep.node_next here, Option.bind_eq_bind,
        Option.bind_some] at done
      rw [Tmpfs.finddirFrom]
      split at done
      next same =>
        -- a vnode of this node is made
        obtain ⟨p', follows, place, vaddr⟩ := tmpfsCreateVnode_refines rep here done
        rw [if_pos same]
        refine ⟨some a.vnodes, _, p', rfl, follows, vaddr, fun _ _ _ open' => open', place.symm, ?_⟩
        intro u isNew
        obtain rfl := Option.some.inj isNew
        have unused : a.vnodes ∉ a.freed := fun member =>
          absurd (rep.shaped.freed _ member) (Nat.lt_irrefl _)
        exact ⟨⟨Nat.lt_succ_self _, unused⟩, .inr le_rfl⟩
      next differ =>
        rw [if_neg differ]
        exact ih (rep.shaped.next i here) done

theorem vfsFinddir_refines (rep : Represents code roots p a s) (inUse : (Item.vnode v).InUse a)
    (plain : 0 ∉ name) (done : vfsFinddir code fuel (p.vnode v) name s = some (w, s')) :
    ∃ found a' p', Tmpfs.tmpfsFinddir fuel v name a = .ok (found, a') ∧
      Found code roots none p a s p' a' s' found w := by
  have here := rep.shaped.device v inUse.1
  simp only [vfsFinddir, tmpfsFinddir, rep.vnode_finddir inUse, rep.vnode_device inUse,
    rep.node_flags here, rep.node_children here, Option.bind_eq_bind, Option.bind_some,
    if_true] at done
  rw [Tmpfs.tmpfsFinddir]
  split at done
  next file =>
    obtain ⟨rfl, rfl⟩ := Prod.mk.inj (Option.some.inj done)
    exact ⟨none, a, p, if_pos file, .null rep⟩
  next dir =>
    obtain ⟨found, a', p', result, search⟩ :=
      finddirFrom_refines rep (rep.shaped.children _ here) plain done
    exact ⟨found, a', p', (if_neg dir).trans result, search⟩

/-! ### `vfs_find_path` -/

theorem freed_close (u : Nat) (member : u ∈ (Tmpfs.vfsClose v a).freed) : u = v ∨ u ∈ a.freed := by
  rw [Tmpfs.vfsClose] at member
  split at member
  · exact .inr member
  · exact List.mem_cons.mp member

/-- The lookup goes on from the vnode that it was handed, after closing the one before. -/
theorem Found.close {next : Option Nat} {node : Nat}
    (search : Found code roots none p a s p' a' s' next node) (inUse : (Item.vnode v).InUse a) (done : vfsClose roots (p.vnode v) s' = some s'') :
    Found code roots (some v) p a s p' (Tmpfs.vfsClose v a') s'' next node := by
  have rep := search.follows.represents
  have old : p'.vnode v = p.vnode v := search.follows.moved.vnode v inUse.1
  have open' : (Item.vnode v).InUse a' :=
    ⟨inUse.1.trans_le search.follows.moved.vnodes, search.kept v inUse.1 (by simp) inUse.2⟩
  obtain ⟨closed, vaddr⟩ := vfsClose_refines rep open' (old ▸ done)
  refine ⟨search.follows.trans closed, vaddr.trans search.vaddr, ?_, search.address, ?_⟩
  · intro u below other unfreed member
    rcases freed_close u member with same | member
    · exact other (congrArg some same)
    · exact search.kept u below (by simp) unfreed member
  · intro u same
    obtain ⟨inUse', new⟩ := search.open' u same
    have later : a.vnodes ≤ u := new.resolve_left (by simp)
    refine ⟨⟨inUse'.1.trans_le closed.moved.vnodes, fun member => ?_⟩, .inr later⟩
    rcases freed_close u member with same | member
    · have below := inUse.1
      change v < a.vnodes at below
      omega
    · exact inUse'.2 member

/-- A lookup that goes on. -/
theorem Found.trans {next : Nat} {node : Nat}
    (first : Found code roots (some v) p a s p' a' s' (some next) node)
    (second : Found code roots (some next) p' a' s' p'' a'' s'' found w)
    (later : a.vnodes ≤ next) : Found code roots (some v) p a s p'' a'' s'' found w where
  follows := first.follows.trans second.follows
  vaddr := second.vaddr.trans first.vaddr
  kept u below other unfreed := by
    have still := first.kept u below other unfreed
    refine second.kept u (below.trans_le first.follows.moved.vnodes) ?_ still
    intro same
    obtain rfl := Option.some.inj same
    omega
  address := second.address
  open' u same := by
    obtain ⟨inUse, place⟩ := second.open' u same
    have more := first.follows.moved.vnodes
    refine ⟨inUse, .inr ?_⟩
    rcases place with isNext | new
    · obtain rfl := Option.some.inj isNext
      exact later
    · omega

theorem findFrom_refines (rep : Represents code roots p a s) (inUse : (Item.vnode v).InUse a)
    (done : findFrom code roots path fuel cursor (p.vnode v) s = some (w, s')) :
    ∃ found a' p', Tmpfs.findFrom path fuel cursor v a = .ok (found, a') ∧
      Found code roots (some v) p a s p' a' s' found w := by
  induction fuel generalizing cursor v p a s with
  | zero => cases done
  | succ fuel ih =>
    simp only [findFrom, Option.bind_eq_bind, Option.bind_eq_some_iff, toOption_eq_some] at done
    obtain ⟨c, read, done⟩ := done
    split at done
    next last =>
      subst last
      obtain ⟨rfl, rfl⟩ := Prod.mk.inj (Option.some.inj done)
      exact ⟨some v, a, p, (Tmpfs.FindRound.last read rfl).ok, .self rep inUse⟩
    next inside =>
    simp only [Option.bind_eq_some_iff, toOption_eq_some, Prod.exists] at done
    obtain ⟨name, cursor', piece, done⟩ := done
    split at done
    next empty =>
      -- an empty piece
      subst empty
      simp only [Option.bind_eq_some_iff, toOption_eq_some] at done
      obtain ⟨cursor'', skipped, done⟩ := done
      obtain ⟨found, a', p', rest, result⟩ := ih rep inUse done
      exact ⟨found, a', p', (Tmpfs.FindRound.slash read inside piece skipped rest).ok, result⟩
    next named =>
    simp only [rep.vnode_flags inUse, Option.bind_some] at done
    split at done
    next leaf =>
      obtain ⟨rfl, rfl⟩ := Prod.mk.inj (Option.some.inj done)
      exact ⟨none, a, p, (Tmpfs.FindRound.file read inside piece named leaf rfl).ok, .null rep⟩
    next dir =>
    simp only [Option.bind_eq_some_iff, Prod.exists] at done
    obtain ⟨node, s₁, searched, s₂, closed, done⟩ := done
    have plain : 0 ∉ name := nextName_plain (by simp) piece
    obtain ⟨next, a₁, p₁, search, result⟩ := vfsFinddir_refines rep inUse plain searched
    have after := result.close inUse closed
    cases next with
    | none =>
      have null : node = 0 := result.address
      rw [if_pos null] at done
      obtain ⟨rfl, rfl⟩ := Prod.mk.inj (Option.some.inj done)
      refine ⟨none, _, p₁, (Tmpfs.FindRound.missing read inside piece named dir search rfl).ok, ?_⟩
      exact null ▸ after
    | some next =>
      have address : node = p₁.vnode next := after.address
      obtain ⟨inUse₁, place⟩ := after.open' next rfl
      obtain ⟨_, later⟩ := result.open' next rfl
      have rep₁ := after.follows.represents
      rw [if_neg (address ▸ rep₁.vnode_ne_zero inUse₁)] at done
      simp only [Option.bind_eq_some_iff, toOption_eq_some] at done
      obtain ⟨cursor'', skipped, done⟩ := done
      rw [address] at done
      obtain ⟨found, a', p', rest, final⟩ := ih rep₁ inUse₁ done
      have round := Tmpfs.FindRound.down read inside piece named dir search skipped rest
      exact ⟨found, a', p', round.ok, after.trans final (later.resolve_left (by simp))⟩

theorem vfsFindPath_refines (rep : Represents code roots p a s)
    (done : vfsFindPath code roots fuel path s = some (w, s')) :
    ∃ found a' p', Tmpfs.vfsFindPath fuel path a = .ok (found, a') ∧
      Found code roots (some DedOS.vfsRoot) p a s p' a' s' found w := by
  simp only [vfsFindPath, rep.vfsRoot, Option.bind_eq_bind, Option.bind_eq_some_iff,
    toOption_eq_some] at done
  obtain ⟨c, read, done⟩ := done
  rw [Tmpfs.vfsFindPath, read, ok_bind]
  split at done
  next empty =>
    obtain ⟨rfl, rfl⟩ := Prod.mk.inj (Option.some.inj done)
    exact ⟨none, a, p, if_pos empty, .null rep⟩
  next some =>
  rw [if_neg some]
  split at done
  next rooted =>
    simp only [Option.bind_eq_some_iff, toOption_eq_some] at done
    obtain ⟨d, second, done⟩ := done
    rw [if_pos rooted, second, ok_bind]
    split at done
    next last =>
      obtain ⟨rfl, rfl⟩ := Prod.mk.inj (Option.some.inj done)
      exact ⟨_, a, p, if_pos last, .self rep rep.shaped.vfsRoot⟩
    next more =>
      rw [if_neg more]
      exact findFrom_refines rep rep.shaped.vfsRoot done
  next relative =>
    rw [if_neg relative]
    exact findFrom_refines rep rep.shaped.vfsRoot done

end NodeMemory

end DedOS
