import Xv6.Analysis.InodeRefs.Ledger

/-!
# The inode table keeps the ledger

The specifications of the functions of `fs.c` that take and drop references: `iget` and
`idup` put one more reference in hand, `ilock` loads the entry, `iput` drops a reference
in hand or ahead of time and frees the inode when it was the last one and no link is
left, `ialloc` allocates a disk inode and takes a reference to it. Everything else the
table's users call keeps the view, hence the ledger.
Source: kernel/fs.c:196-358
-/

set_option autoImplicit false

namespace Xv6

open StateExcept Fs

variable {h d L : Multiset (Fin NINODE)} {α : Type}

/-- An entry with a reference in hand is live. -/
theorem Ledger.ref_pos {i : Fin NINODE} {s : FsState} (hv : Ledger (i ::ₘ h) d L s) :
    0 < (s.itable i).ref :=
  lt_of_lt_of_le (by rw [Multiset.count_cons_self]; exact Nat.succ_pos _) (hv.held_le i)

/-- A program that keeps the view keeps the ledger. -/
theorem ledger_of_keeps {x : FsM α} (hx : Keeps FsState.refView (fun v => RefInv v h d L) x) :
    Triple (Ledger h d L) x fun _ => Ledger h d L :=
  hx.triple _ fun _ hv => hv

/-- A program that keeps the view of an entry agreeing with the disk keeps the ledger when
the entry is loaded. -/
theorem ledger_of_keeps_coh {x : FsM α} {i : Fin NINODE}
    (hx : Keeps FsState.refView (fun v => v.coh i) x) (hi : i ∈ L) :
    Triple (Ledger h d L) x fun _ => Ledger h d L :=
  hx.triple (fun v => RefInv v h d L) fun _ hv => (hv.coh_of_loaded hi).1

theorem iget_spec (inum : ℕ) :
    Triple (Ledger h d L) (iget ROOTDEV inum)
      fun i s => Ledger (i ::ₘ h) d L s ∧ L.count i < (s.itable i).ref := by
  unfold iget
  refine Triple.get_bind fun s₀ => ?_
  split
  · next i hfind =>
    -- a live entry holds the inode: one more reference to it
    have hlive : 0 < (s₀.itable i).ref := by
      have := List.find?_some hfind
      simp only [Bool.and_eq_true, decide_eq_true_eq] at this
      exact this.1.1
    refine Triple.bind (R := fun _ s => Ledger (i ::ₘ h) d L s ∧ L.count i < (s.itable i).ref)
      (Triple.modify fun s hs => ?_) fun _ => Triple.pure fun _ hs => hs
    obtain ⟨hv, rfl⟩ := hs
    refine ⟨?_, ?_⟩
    · unfold Ledger
      rw [refView_itable]
      exact hv.incRef hlive
    · have := hv.loaded_le i
      simp only [Function.update_self]
      simp only [refView_slot, Inode.view] at this
      omega
  · next hnone =>
    split
    · exact Triple.throw
    · next i hfree =>
      -- no live entry holds the inode: recycle a free one
      have hi : (s₀.itable i).ref = 0 := by
        have := List.find?_some hfree
        simpa using this
      refine Triple.bind (R := fun _ s => Ledger (i ::ₘ h) d L s ∧ L.count i < (s.itable i).ref)
        (Triple.modify fun s hs => ?_) fun _ => Triple.pure fun _ hs => hs
      obtain ⟨hv, rfl⟩ := hs
      have hn : ∀ j, 0 < (s.refView.slot j).ref → (s.refView.slot j).inum ≠ inum := by
        intro j hj heq
        have := List.find?_eq_none.1 hnone j (List.mem_finRange j)
        have hdev := hv.dev j hj
        simp only [refView_slot, Inode.view] at hj heq hdev
        simp [hj, hdev, heq] at this
      refine ⟨?_, ?_⟩
      · unfold Ledger
        rw [refView_itable]
        exact hv.recycle hi hn
      · have := hv.loaded_le i
        simp only [Function.update_self]
        simp only [refView_slot, Inode.view, hi] at this
        omega

theorem idup_spec (i : Fin NINODE) :
    Triple (fun s => Ledger h d L s ∧ 0 < (s.itable i).ref) (idup i)
      fun _ => Ledger (i ::ₘ h) d L := by
  unfold idup modifyInode
  refine Triple.modify fun s hs => ?_
  unfold Ledger
  rw [refView_itable]
  exact hs.1.incRef hs.2

/-- `ilock` of an entry with a reference: afterwards the running code has it loaded. An
entry whose disk inode is free is not loaded: `ilock` panics. -/
theorem ilock_spec (i : Fin NINODE) :
    Triple (fun s => Ledger h d L s ∧ (0 < L.count i → L.count i < (s.itable i).ref)) (ilock i)
      fun _ => Ledger h d (i ::ₘ L) := by
  unfold ilock
  refine Triple.get_bind fun s₀ => ?_
  dsimp only
  refine Triple.ite (fun _ => Triple.throw_bind) fun hpos => ?_
  -- the check passed: the running code holds fewer loads than references
  have hL : ∀ s, (Ledger h d L s ∧ (0 < L.count i → L.count i < (s.itable i).ref)) ∧ s = s₀ →
      Ledger h d L s₀ ∧ L.count i < (s₀.itable i).ref := by
    rintro s ⟨⟨hv, hL⟩, rfl⟩
    refine ⟨hv, ?_⟩
    by_cases h0 : 0 < L.count i
    · exact hL h0
    · omega
  refine Triple.ite (fun hvalid => Triple.get_bind fun s₁ => ?_) fun hvalid => Triple.pure fun s hs => ?_
  · -- the entry is read from the disk
    refine Triple.bind (R := fun _ s => (Ledger h d L s₀ ∧ L.count i < (s₀.itable i).ref) ∧ s₁ = s₀ ∧
        s = { s₀ with itable := Function.update s₀.itable i { s₀.itable i with di := s₀.disk.dinode (s₀.itable i).inum, valid := true } })
      (Triple.modify fun s hs => ?_) fun _ => Triple.ite (fun _ => Triple.throw) fun hfree =>
        Triple.pure fun s hs => ?_
    · obtain ⟨hs, rfl⟩ := hs
      obtain ⟨hv, hL⟩ := hL s hs
      obtain ⟨-, rfl⟩ := hs
      exact ⟨⟨hv, hL⟩, rfl, rfl⟩
    · obtain ⟨⟨hv, hL⟩, rfl, rfl⟩ := hs
      unfold Ledger
      rw [refView_itable]
      exact hv.load hL hfree
  · obtain ⟨hv, hL⟩ := hL s hs
    obtain ⟨-, rfl⟩ := hs
    simp only [Bool.not_eq_true', Bool.not_eq_false] at hvalid
    exact hv.lock hL hvalid

/-- `iput`: one reference to `i` is dropped, in hand or ahead of time. -/
theorem iput_spec (i : Fin NINODE) {h' d' : Multiset (Fin NINODE)} :
    Triple (fun s => Ledger h d L s ∧ L.count i < (s.itable i).ref ∧ Drop s.refView i h d h' d')
      (iput i) fun _ => Ledger h' d' L := by
  unfold iput
  refine Triple.get_bind fun s₀ => ?_
  dsimp only
  set v₀ := s₀.refView
  -- the last step drops the count
  have hlast : ∀ v : RefView, RefInv (v.setSlot i { v.slot i with ref := (v.slot i).ref - 1 }) h' d' L →
      Triple (fun s => s.refView = v) (modifyInode i fun ip => { ip with ref := ip.ref - 1 })
        fun _ => Ledger h' d' L := fun v hv =>
    (view_modifyInode i _ (fun x => { x with ref := x.ref - 1 }) (fun _ => rfl) v).mono
      (fun _ hs => hs) fun _ s hs => by
        unfold Ledger
        rw [hs]
        exact hv
  refine Triple.ite (fun hc => ?_) fun _ => ?_
  · -- the inode is freed: truncated, its type cleared on the disk, the entry forgotten
    intro s a s' hs hrun
    obtain ⟨⟨hv, hL, hdrop⟩, rfl⟩ := hs
    have hcoh : v₀.coh i := (hv.coherent i (by simp [Inode.view, hc.1]) hc.2.1).1
    refine ((keeps_itrunc i v₀ hcoh).bind fun _ =>
      (view_modifyInode i _ (fun x => { x with type := .free }) (by intro; rfl) _).bind fun _ =>
        (view_iupdate i _).bind fun _ =>
          (view_modifyInode i _ (fun x => { x with valid := false }) (by intro; rfl) _).bind
            fun _ => hlast _ ?_) s a s' rfl hrun
    have hfree := hv.putFree hdrop hL (by simp [Inode.view, hc.1])
    convert hfree using 1
    simp [RefView.setSlot, RefView.setDtype, v₀, Inode.view, hc.1]
  · intro s a s' hs hrun
    obtain ⟨⟨hv, hL, hdrop⟩, rfl⟩ := hs
    exact hlast v₀ (hv.put hdrop hL) s a s' rfl hrun

/-- `iunlock` changes nothing the ledger reads; the caller may stop counting the entry as
loaded. -/
theorem iunlock_spec (i : Fin NINODE) {L' : Multiset (Fin NINODE)} (hL : L' ≤ L) :
    Triple (Ledger h d L) (iunlock i) fun _ => Ledger h d L' :=
  (ledger_of_keeps (keeps_iunlock _ i)).mono (fun _ hs => hs) fun _ _ hs => hs.anti_loaded hL

/-- `iunlockput` of a loaded entry drops its reference in hand; the entry is loaded once
less. -/
theorem iunlockput_spec (i : Fin NINODE) (hi : i ∈ L) :
    Triple (Ledger (i ::ₘ h) d L) (iunlockput i) fun _ => Ledger h d (L.erase i) := by
  unfold iunlockput
  refine (ledger_of_keeps (keeps_iunlock _ i)).bind fun _ =>
    (iput_spec (h := i ::ₘ h) (d := d) i).mono (fun s hv => ?_) fun _ _ hs => hs
  have hv' := RefInv.anti_loaded hv (Multiset.erase_le i L)
  refine ⟨hv', ?_, Drop.held hv'⟩
  have hle := hv.loaded_le i
  have hpos := Multiset.count_pos.2 hi
  simp only [refView_slot, Inode.view] at hle
  rw [Multiset.count_erase_self]
  omega

/-- `ialloc` allocates a free disk inode and returns a reference to it. -/
theorem ialloc_spec (type : IType) (ht : type ≠ .free) :
    Triple (Ledger h d L) (ialloc ROOTDEV type)
      fun i s => Ledger (i ::ₘ h) d L s ∧ L.count i < (s.itable i).ref := by
  unfold ialloc
  refine Triple.get_bind fun s₀ => ?_
  split
  · exact Triple.throw
  · next inum hfind =>
    have hn : (s₀.disk.dinode inum).type = .free := by
      have := List.find?_some hfind
      simpa using this
    refine Triple.bind (R := fun _ => Ledger h d L) (Triple.set fun s hs => ?_) fun _ =>
      (ledger_of_keeps (keeps_logWrite _ _)).bind fun _ => iget_spec inum
    obtain ⟨hv, rfl⟩ := hs
    unfold Ledger
    rw [refView_dinode]
    exact hv.alloc hn ht

/-! ## The processes are untouched

Nothing of `fs.c` changes a process: the specifications above carry the liveness and the
current directory of every process through, by `Keeps.frame`. -/

/-- What the code reads of the processes. -/
def procView (s : FsState) : Fin NPROC → Bool × Fin NINODE :=
  s.refView.proc

theorem keepsProcs_of_keeps {x : FsM α} (hx : Keeps FsState.refView (fun _ => True) x) :
    Keeps procView (fun _ => True) x :=
  hx.comp RefView.proc

theorem keepsProcs_modifyInode (i : Fin NINODE) (g : Inode → Inode) :
    Keeps procView (fun _ => True) (modifyInode i g) :=
  Keeps.modify fun s _ => by
    unfold procView
    rw [refView_itable]
    rfl

theorem keepsProcs_iupdate (i : Fin NINODE) : Keeps procView (fun _ => True) (iupdate i) := by
  refine Keeps.of_run fun s a s' _ hrun => ?_
  rw [run_iupdate] at hrun
  cases hrun
  show ({ s with disk := _ }).refView.proc = _
  rw [refView_dinode]
  rfl

theorem keepsProcs_iget (dev inum : ℕ) : Keeps procView (fun _ => True) (iget dev inum) := by
  unfold iget
  refine Keeps.get_bind fun _ => ?_
  split
  · exact (keepsProcs_modifyInode _ _).bind fun _ => Keeps.pure
  · split
    · exact Keeps.throw
    · exact (keepsProcs_modifyInode _ _).bind fun _ => Keeps.pure

theorem keepsProcs_ilock (i : Fin NINODE) : Keeps procView (fun _ => True) (ilock i) := by
  unfold ilock
  refine Keeps.get_bind fun _ => ?_
  dsimp only
  refine Keeps.ite (fun _ => Keeps.throw.bind fun _ => ?_) fun _ => ?_
  all_goals exact Keeps.ite (fun _ => Keeps.get_bind fun _ => (keepsProcs_modifyInode i _).bind
    fun _ => Keeps.ite (fun _ => Keeps.throw) fun _ => Keeps.pure) fun _ => Keeps.pure

theorem keepsProcs_itrunc (i : Fin NINODE) : Keeps procView (fun _ => True) (itrunc i) := by
  unfold itrunc
  exact (Keeps.forM (fun k => keepsProcs_of_keeps (keeps_itruncDirect _ i k)) _).bind fun _ =>
    (keepsProcs_of_keeps (keeps_itruncIndirect _ i)).bind fun _ =>
      (keepsProcs_modifyInode i _).bind fun _ => keepsProcs_iupdate i

theorem keepsProcs_iput (i : Fin NINODE) : Keeps procView (fun _ => True) (iput i) := by
  unfold iput
  refine Keeps.get_bind fun _ => ?_
  dsimp only
  refine Keeps.ite (fun _ => ?_) fun _ => keepsProcs_modifyInode i _
  exact (keepsProcs_itrunc i).bind fun _ => (keepsProcs_modifyInode i _).bind fun _ =>
    (keepsProcs_iupdate i).bind fun _ => (keepsProcs_modifyInode i _).bind fun _ =>
      keepsProcs_modifyInode i _

theorem keepsProcs_iunlockput (i : Fin NINODE) : Keeps procView (fun _ => True) (iunlockput i) :=
  (keepsProcs_of_keeps (keeps_iunlock _ i)).bind fun _ => keepsProcs_iput i

end Xv6