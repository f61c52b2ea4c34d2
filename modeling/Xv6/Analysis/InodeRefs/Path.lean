import Xv6.Analysis.InodeRefs.Inode

/-!
# Path names keep the ledger

`dirlookup` returns the entry it finds with a reference in hand, `dirlink` drops the one
it takes when the name is there already, and `namex` walks a path holding one reference
at a time: each round loads the directory, takes a reference to the next one and drops
the directory's. It ends with the reference to what the path names in hand, or with
none. Its loop has enough rounds: each takes an element off the path.
Source: kernel/fs.c:520-661
-/

set_option autoImplicit false

namespace Xv6

open StateExcept Fs

variable {h d L : Multiset (Fin NINODE)}

/-- The references in hand after `dirlookup`, and the found entry not loaded more than it
is referenced. -/
def FoundRef (h d L : Multiset (Fin NINODE)) : Option (Fin NINODE × ℕ) → FsState → Prop
  | none, s => Ledger h d L s
  | some (ip, _), s => Ledger (ip ::ₘ h) d L s ∧ L.count ip < (s.itable ip).ref

theorem dirlookupLoop_spec (dp : Fin NINODE) (name : List UInt8) :
    ∀ offs, Triple (fun s => Ledger h d L s ∧ 0 < (s.itable dp).ref)
      (dirlookupLoop dp name offs) (FoundRef h d L)
  | [] => Triple.pure fun _ hs => hs.1
  | off :: offs => by
    rw [dirlookupLoop]
    refine ((keeps_readi _ dp off 16).triple (fun v => RefInv v h d L ∧ 0 < (v.slot dp).ref)
      fun _ hv => hv).bind fun bs => ?_
    dsimp only
    refine Triple.ite (fun _ => Triple.throw_bind) fun _ => ?_
    refine Triple.ite (fun _ => dirlookupLoop_spec dp name offs) fun _ => ?_
    refine Triple.ite (fun _ => ?_) fun _ => dirlookupLoop_spec dp name offs
    -- the name is found: a reference to its inode, on the directory's device
    refine Triple.get_bind_of fun s₁ ⟨hv, hpos⟩ => ?_
    have hdev : (s₁.itable dp).dev = ROOTDEV := hv.dev dp hpos
    rw [hdev]
    exact ((iget_spec _).mono (fun s hs => hs ▸ hv) fun _ _ hs => hs).bind fun ip =>
      Triple.pure fun _ hs => hs

theorem dirlookup_spec (dp : Fin NINODE) (name : List UInt8) :
    Triple (fun s => Ledger h d L s ∧ 0 < (s.itable dp).ref) (dirlookup dp name)
      (FoundRef h d L) := by
  unfold dirlookup
  exact Triple.get_bind fun _ => Triple.ite (fun _ => Triple.throw_bind) fun _ =>
    (dirlookupLoop_spec dp name _).mono (fun _ hs => hs.1) fun _ _ hs => hs

/-- `dirlink` into a loaded directory: the reference `dirlookup` takes to an entry already
there is dropped. -/
theorem dirlink_spec (dp : Fin NINODE) (name : List UInt8) (inum : ℕ) (hdp : dp ∈ L) :
    Triple (Ledger h d L) (dirlink dp name inum) fun _ => Ledger h d L := by
  unfold dirlink
  refine ((dirlookup_spec dp name).mono (fun s hv => ⟨hv, hv.ref_pos_of_loaded hdp⟩)
    fun _ _ hs => hs).bind fun r => ?_
  rcases r with _ | ⟨ip, off⟩
  · -- a new entry, written where `dirlink` finds room
    refine Triple.get_bind fun _ => ?_
    dsimp only
    refine ((ledger_of_keeps (keeps_emptyDirentLoop _ _ _ _)).mono (fun _ hs => hs.1)
      fun _ _ hs => hs).bind fun _ => (ledger_of_keeps_coh (keeps_writei dp _ _) hdp).bind fun _ => ?_
    exact Triple.ite (fun _ => Triple.throw) fun _ => Triple.pure fun _ hs => hs
  · -- the name is there: the reference `dirlookup` took is dropped
    refine Triple.bind (R := fun _ => Ledger h d L) ((iput_spec ip).mono
      (fun s hs => ⟨hs.1, hs.2, Drop.held hs.1⟩) fun _ _ hs => hs) fun _ => Triple.pure fun _ hs => hs

/-- Each element `skipelem` takes shortens the path. -/
theorem skipelem_length {path rest name : List UInt8} (h : skipelem path = some (rest, name)) :
    rest.length < path.length := by
  unfold skipelem at h
  dsimp only at h
  split at h
  · cases h
  · next hne =>
    cases h
    obtain ⟨a, t, hat⟩ := List.exists_cons_of_ne_nil hne
    -- the element starts at a byte other than `/`
    have ha : (a ≠ slash) = True := by
      have := List.head_dropWhile_not (fun b => decide (b = slash)) hne
      simp only [hat, List.head_cons, decide_eq_false_iff_not] at this
      simpa using this
    calc (((path.dropWhile (· = slash)).dropWhile (· ≠ slash)).dropWhile (· = slash)).length
        ≤ ((path.dropWhile (· = slash)).dropWhile (· ≠ slash)).length :=
          (List.dropWhile_suffix _).length_le
      _ ≤ t.length := by
        rw [hat, List.dropWhile_cons]
        simp only [ha, decide_true, if_true]
        exact (List.dropWhile_suffix _).length_le
      _ < (a :: t).length := Nat.lt_succ_self _
      _ ≤ path.length := by
        rw [← hat]
        exact (List.dropWhile_suffix _).length_le

/-- The references in hand after a call that may return an entry with one. -/
def HeldRef (h d L : Multiset (Fin NINODE)) : Option (Fin NINODE) → FsState → Prop
  | none => Ledger h d L
  | some ip => Ledger (ip ::ₘ h) d L

/-- The loop of `namex` from a directory it holds a reference to, with rounds to spare. -/
theorem namexLoop_spec (np : Bool) :
    ∀ fuel ip path name, path.length < fuel →
      Triple (Ledger (ip ::ₘ h) d 0) (namexLoop np fuel ip path name)
        fun r => HeldRef h d 0 (r.map Prod.fst)
  | 0, _, _, _, hfuel => absurd hfuel (Nat.not_lt_zero _)
  | fuel + 1, ip, path, name, hfuel => by
    rw [namexLoop]
    split
    · -- the path is consumed: `nameiparent` drops the last directory, `namei` returns it
      refine Triple.ite (fun _ => ?_) fun _ => Triple.pure fun _ hs => hs
      exact ((iput_spec (L := 0) ip).mono (fun s hs => ⟨hs, hs.ref_pos, Drop.held hs⟩)
        fun _ _ hs => hs).bind fun _ => Triple.pure fun _ hs => hs
    · next rest elem hskip =>
      have hlen := skipelem_length hskip
      refine ((ilock_spec ip).mono (fun s hs => ⟨hs, fun h0 => absurd h0 (by simp)⟩)
        fun _ _ hs => hs).bind fun _ => Triple.get_bind fun _ => ?_
      -- the directory is loaded once: `iunlockput` leaves nothing loaded
      have hput : ∀ H : Multiset (Fin NINODE), Triple (Ledger (ip ::ₘ H) d (ip ::ₘ 0))
          (iunlockput ip) fun _ => Ledger H d 0 := fun H =>
        (iunlockput_spec ip (Multiset.mem_cons_self ip 0)).mono (fun _ hs => hs)
          fun _ _ hs => by rwa [Multiset.erase_cons_head] at hs
      refine Triple.ite (fun _ => ?_) fun _ => Triple.ite (fun _ => ?_) fun _ => ?_
      · exact ((hput h).mono (fun _ hs => hs.1) fun _ _ hs => hs).bind fun _ =>
          Triple.pure fun _ hs => hs
      · -- `nameiparent` stops at the parent of the last element
        exact ((ledger_of_keeps (keeps_iunlock _ ip)).mono (fun _ hs => hs.1) fun _ _ hs => hs).bind
          fun _ => Triple.pure fun _ hs => RefInv.anti_loaded hs (Multiset.zero_le _)
      · refine ((dirlookup_spec ip elem).mono (fun s hs => ⟨hs.1, hs.1.ref_pos⟩)
          fun _ _ hs => hs).bind fun r => ?_
        rcases r with _ | ⟨next, off⟩
        · exact (hput h).bind fun _ => Triple.pure fun _ hs => hs
        · -- the directory's reference is dropped, the next one's kept
          refine ((hput (next ::ₘ h)).mono (fun s hs => ?_) fun _ _ hs => hs).bind fun _ =>
            namexLoop_spec np fuel next rest elem (by omega)
          rw [Multiset.cons_swap]
          exact hs.1

/-- `namex` by a live process: the entry the path names, with a reference in hand. -/
theorem namex_spec (p : Fin NPROC) (path : List UInt8) (np : Bool) :
    Triple (fun s => Ledger h 0 0 s ∧ (s.proc p).alive = true) (namex p path np)
      fun r => HeldRef h 0 0 (r.map Prod.fst) := by
  unfold namex
  dsimp only
  have hloop := fun ip => namexLoop_spec (h := h) (d := 0) np _ ip path [] (Nat.lt_succ_self _)
  refine Triple.ite (fun _ => ((iget_spec ROOTINO).mono (fun _ hs => hs.1)
    fun _ _ hs => hs.1).bind hloop) fun _ => Triple.get_bind_of fun s₀ ⟨hv, halive⟩ => ?_
  -- the current directory counts the process's reference
  have hpos : 0 < (s₀.itable (s₀.proc p).cwd).ref := by
    have hcount := hv.count (s₀.proc p).cwd
    have hholds := RefView.holders_pos_of_proc (v := s₀.refView) (p := p)
      (by rw [refView_proc, halive])
    simp only [Multiset.count_zero, Nat.add_zero, refView_slot, Inode.view] at hcount
    omega
  exact ((idup_spec _).mono (fun s hs => by subst hs; exact ⟨hv, hpos⟩) fun _ _ hs => hs).bind
    fun _ =>
    (Triple.pure fun _ hs => hs).bind hloop

theorem namei_spec (p : Fin NPROC) (path : List UInt8) :
    Triple (fun s => Ledger h 0 0 s ∧ (s.proc p).alive = true) (namei p path) (HeldRef h 0 0) := by
  unfold namei
  exact (namex_spec p path false).bind fun _ => Triple.pure fun _ hs => hs

theorem nameiparent_spec (p : Fin NPROC) (path : List UInt8) :
    Triple (fun s => Ledger h 0 0 s ∧ (s.proc p).alive = true) (nameiparent p path)
      fun r => HeldRef h 0 0 (r.map Prod.fst) :=
  namex_spec p path true

/-! ## The processes are untouched -/

theorem keepsProcs_dirlookupLoop (dp : Fin NINODE) (name : List UInt8) :
    ∀ offs, Keeps procView (fun _ => True) (dirlookupLoop dp name offs)
  | [] => Keeps.pure
  | off :: offs => by
    rw [dirlookupLoop]
    refine (keepsProcs_of_keeps (keeps_readi _ dp off 16)).bind fun _ => ?_
    dsimp only
    have hfound : ∀ inum, Keeps procView (fun _ => True) (do
        let s ← get
        let ip ← iget (s.itable dp).dev inum
        pure (some (ip, off))) := fun _ =>
      Keeps.get_bind fun _ => (keepsProcs_iget _ _).bind fun _ => Keeps.pure
    refine Keeps.ite (fun _ => Keeps.throw.bind fun _ => ?_) fun _ => ?_
    all_goals
      refine Keeps.ite (fun _ => keepsProcs_dirlookupLoop dp name offs) fun _ => ?_
      exact Keeps.ite (fun _ => hfound _) fun _ => keepsProcs_dirlookupLoop dp name offs

theorem keepsProcs_dirlookup (dp : Fin NINODE) (name : List UInt8) :
    Keeps procView (fun _ => True) (dirlookup dp name) := by
  unfold dirlookup
  refine Keeps.get_bind fun _ => ?_
  dsimp only
  refine Keeps.ite (fun _ => Keeps.throw.bind fun _ => ?_) fun _ => ?_
  all_goals exact keepsProcs_dirlookupLoop dp name _

theorem keepsProcs_namexLoop (np : Bool) :
    ∀ fuel ip path name, Keeps procView (fun _ => True) (namexLoop np fuel ip path name)
  | 0, _, _, _ => Keeps.pure
  | fuel + 1, ip, path, name => by
    rw [namexLoop]
    split
    · exact Keeps.ite (fun _ => (keepsProcs_iput ip).bind fun _ => Keeps.pure) fun _ => Keeps.pure
    · refine (keepsProcs_ilock ip).bind fun _ => Keeps.get_bind fun _ => ?_
      refine Keeps.ite (fun _ => (keepsProcs_iunlockput ip).bind fun _ => Keeps.pure) fun _ =>
        Keeps.ite (fun _ => (keepsProcs_of_keeps (keeps_iunlock _ ip)).bind fun _ => Keeps.pure)
          fun _ => (keepsProcs_dirlookup ip _).bind fun r => ?_
      rcases r with _ | ⟨next, off⟩
      · exact (keepsProcs_iunlockput ip).bind fun _ => Keeps.pure
      · exact (keepsProcs_iunlockput ip).bind fun _ => keepsProcs_namexLoop np fuel next _ _

theorem keepsProcs_namex (p : Fin NPROC) (path : List UInt8) (np : Bool) :
    Keeps procView (fun _ => True) (namex p path np) := by
  unfold namex
  dsimp only
  exact Keeps.ite (fun _ => (keepsProcs_iget _ _).bind fun _ => keepsProcs_namexLoop np _ _ _ _)
    fun _ => Keeps.get_bind fun _ => (keepsProcs_modifyInode _ _).bind fun _ =>
      Keeps.pure.bind fun _ => keepsProcs_namexLoop np _ _ _ _

theorem keepsProcs_namei (p : Fin NPROC) (path : List UInt8) :
    Keeps procView (fun _ => True) (namei p path) :=
  (keepsProcs_namex p path false).bind fun _ => Keeps.pure

end Xv6
