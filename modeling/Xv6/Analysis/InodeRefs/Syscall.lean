import Xv6.Analysis.InodeRefs.Path

/-!
# The system calls keep the ledger

Every system call of a live process starts and ends with nothing in hand, nothing
dropped ahead of time and nothing loaded, and keeps the ledger on the way: the
references it takes are given to an open file or a process, or dropped again. So the
ledger holds in every state the file system reaches from boot, and with it the three
facts of inode lifetime: one live entry per inode, each counting exactly the open files
and current directories on it, and none of those on a freed inode.
Source: kernel/sysfile.c:21-413, kernel/file.c:28-177, kernel/proc.c:273-359
-/

set_option autoImplicit false

namespace Xv6

open StateExcept Fs

variable {h d L : Multiset (Fin NINODE)}

/-- What `create` leaves: nothing new in hand, or the entry it returns, loaded. -/
def CreatedRef (h : Multiset (Fin NINODE)) : Option (Fin NINODE) → FsState → Prop
  | none => Ledger h 0 0
  | some ip => Ledger (ip ::ₘ h) 0 {ip}

theorem create_spec (p : Fin NPROC) (path : List UInt8) (type : IType) (major minor : ℤ)
    (ht : type ≠ .free) :
    Triple (fun s => Ledger h 0 0 s ∧ (s.proc p).alive = true) (create p path type major minor)
      (CreatedRef h) := by
  unfold create
  refine (nameiparent_spec p path).bind fun r => ?_
  rcases r with _ | ⟨dp, name⟩
  · exact Triple.pure fun _ hs => hs
  refine ((ilock_spec dp).mono (fun s hs => ⟨hs, fun h0 => absurd h0 (by simp)⟩)
    fun _ _ hs => hs).bind fun _ => ?_
  have hdp : dp ∈ dp ::ₘ (0 : Multiset (Fin NINODE)) := Multiset.mem_cons_self dp 0
  refine ((dirlookup_spec dp name).mono (fun s hs => ⟨hs, hs.ref_pos_of_loaded hdp⟩)
    fun _ _ hs => hs).bind fun r => ?_
  rcases r with _ | ⟨ip, off⟩
  · -- a new inode, linked into the directory
    dsimp only
    refine Triple.get_bind_of fun s₁ hv => ?_
    have hdev : (s₁.itable dp).dev = ROOTDEV := hv.dev dp (hv.ref_pos_of_loaded hdp)
    rw [hdev]
    refine ((ialloc_spec type ht).mono (fun s hs => by subst hs; exact hv)
      fun _ _ hs => hs).bind fun ip => ?_
    refine ((ilock_spec ip).mono (fun s hs => ⟨hs.1, fun _ => hs.2⟩) fun _ _ hs => hs).bind
      fun _ => ?_
    have hip : ip ∈ ip ::ₘ dp ::ₘ (0 : Multiset (Fin NINODE)) := Multiset.mem_cons_self _ _
    have hdp' : dp ∈ ip ::ₘ dp ::ₘ (0 : Multiset (Fin NINODE)) := Multiset.mem_cons_of_mem hdp
    refine (ledger_of_keeps (keeps_modifyDi _ ip _ (by intro; rfl))).bind fun _ =>
      (ledger_of_keeps_coh (keeps_iupdate ip) hip).bind fun _ => ?_
    -- the parent is released and the new inode returned
    have hput : Triple (Ledger (ip ::ₘ dp ::ₘ h) 0 (ip ::ₘ dp ::ₘ 0))
        (do iunlockput dp; pure (some ip)) (CreatedRef h) := by
      refine ((iunlockput_spec (h := ip ::ₘ h) (d := 0) dp hdp').mono (fun s hs => ?_)
        fun _ _ hs => hs).bind fun _ =>
        Triple.pure fun s hs => ?_
      · rwa [Multiset.cons_swap] at hs
      · show Ledger (ip ::ₘ h) 0 {ip} s
        rwa [Multiset.cons_swap, Multiset.erase_cons_head] at hs
    refine Triple.ite (fun _ => ?_) fun _ => ?_
    -- a directory: one more link to the parent, and the entries `.` and `..`
    refine (ledger_of_keeps (keeps_modifyDi _ dp _ (by intro; rfl))).bind fun _ =>
      (ledger_of_keeps_coh (keeps_iupdate dp) hdp').bind fun _ => Triple.get_bind fun _ => ?_
    refine ((dirlink_spec ip dot _ hip).mono (fun _ hs => hs.1) fun _ _ hs => hs).bind fun _ =>
      Triple.ite_throw fun _ => Triple.get_bind fun _ => ?_
    refine ((dirlink_spec ip dotdot _ hip).mono (fun _ hs => hs.1) fun _ _ hs => hs).bind fun _ =>
      Triple.ite_throw fun _ => ?_
    -- the entry in the parent
    all_goals
      exact Triple.get_bind fun _ => ((dirlink_spec dp name _ hdp').mono (fun _ hs => hs.1)
        fun _ _ hs => hs).bind fun _ => Triple.ite_throw fun _ => hput
  · -- the name is there: the parent is released; a plain file is opened, anything else refused
    dsimp only
    refine ((iunlockput_spec (h := ip ::ₘ h) (d := 0) dp hdp).mono (fun s hs => ?_)
      fun _ _ hs => by rwa [Multiset.erase_cons_head] at hs).bind fun _ => ?_
    · rw [Multiset.cons_swap]
      exact hs.1
    have hip : ip ∈ ip ::ₘ (0 : Multiset (Fin NINODE)) := Multiset.mem_cons_self ip 0
    refine ((ilock_spec ip).mono (fun s hs => ⟨hs, fun h0 => absurd h0 (by simp)⟩)
      fun _ _ hs => hs).bind fun _ => Triple.get_bind fun _ => ?_
    refine Triple.ite (fun _ => Triple.pure fun _ hs => hs.1) fun _ => ?_
    exact ((iunlockput_spec ip hip).mono (fun _ hs => hs.1)
      fun _ _ hs => by rwa [Multiset.erase_cons_head] at hs).bind fun _ => Triple.pure fun _ hs => hs

/-! ## Open files -/

/-- `filealloc` returns a file with one reference, open on nothing yet. -/
theorem filealloc_spec :
    Triple (Ledger h d L) filealloc fun r s => Ledger h d L s ∧
      ∀ f, r = some f → (s.ftable f).ref = 1 ∧ (s.ftable f).type = .none := by
  unfold filealloc
  refine Triple.get_bind fun s₀ => ?_
  split
  · exact Triple.pure fun _ hs => ⟨hs.1, fun _ h => by cases h⟩
  · next f hfind =>
    have h0 : (s₀.ftable f).ref = 0 := by
      have := List.find?_some hfind
      simpa using this
    refine Triple.bind (R := fun _ s => Ledger h d L s ∧ (s.ftable f).ref = 1 ∧
      (s.ftable f).type = .none) (Triple.modify fun s hs => ?_) fun _ =>
        Triple.pure fun _ hs => ⟨hs.1, fun _ h => by cases h; exact hs.2⟩
    obtain ⟨hv, rfl⟩ := hs
    have hnone := hv.closed f h0
    refine ⟨?_, by simp, by simpa [File.view] using hnone⟩
    unfold Ledger
    rw [refView_ftable]
    exact hv.file_open h0

theorem filedup_spec (f : Fin NFILE) : Triple (Ledger h d L) (filedup f) fun _ => Ledger h d L := by
  unfold filedup
  refine Triple.get_bind fun _ => Triple.ite_throw fun hpos => Triple.modify fun s hs => ?_
  obtain ⟨hv, rfl⟩ := hs
  unfold Ledger
  rw [refView_ftable]
  exact hv.file_ref (by simp only [refView_file, File.view]; omega) (Nat.succ_pos _)

/-- `fileclose`: the last close of a file on an inode or a device drops its reference, in
a transaction of its own. The running code has not loaded that inode. -/
theorem fileclose_spec (f : Fin NFILE) :
    Triple (fun s => Ledger h 0 L s ∧ ((s.ftable f).type = .inode ∨ (s.ftable f).type = .device →
      L.count (s.ftable f).ip = 0)) (fileclose f) fun _ => Ledger h 0 L := by
  unfold fileclose
  refine Triple.get_bind_of fun s₀ ⟨hv, hL⟩ => ?_
  dsimp only
  refine Triple.ite_throw fun hpos => ?_
  have h0 : 0 < (s₀.refView.file f).1 := by
    simp only [refView_file, File.view]
    omega
  refine Triple.ite (fun hmore => Triple.modify fun s hs => ?_) fun _ => ?_
  · -- still open elsewhere
    subst hs
    unfold Ledger
    rw [refView_ftable]
    exact hv.file_ref h0 hmore
  by_cases ht : (s₀.ftable f).type = .inode ∨ (s₀.ftable f).type = .device
  · -- the file's reference comes in hand, and `iput` drops it
    have hhold := RefView.holders_pos_of_file h0 ht
    have hnp : (s₀.ftable f).type ≠ .pipe := by
      rcases ht with ht | ht <;> rw [ht] <;> decide
    refine Triple.bind (R := fun _ => Ledger ((s₀.ftable f).ip ::ₘ h) 0 L)
      (Triple.modify fun s hs => ?_) fun _ => Triple.ite (fun hp => absurd hp hnp) fun _ =>
        Triple.ite (fun _ => ?_) fun hn => absurd ht hn
    · subst hs
      unfold Ledger
      rw [refView_ftable]
      exact hv.file_release h0 ht (by simpa using hhold)
    refine (ledger_of_keeps (keeps_beginOp _)).bind fun _ =>
      ((iput_spec _).mono (fun s hs => ⟨hs, ?_, Drop.held hs⟩) fun _ _ hs => hs).bind fun _ =>
        ledger_of_keeps (keeps_endOp _)
    rw [hL ht]
    exact hs.ref_pos
  · -- a file on nothing or on a pipe holds no inode
    refine Triple.bind (R := fun _ => Ledger h 0 L) (Triple.modify fun s hs => ?_) fun _ =>
      Triple.ite (fun _ => ledger_of_keeps (keeps_pipeclose _ _ _)) fun _ =>
        Triple.ite (fun hn => absurd hn ht) fun _ => Triple.pure fun _ hs => hs
    subst hs
    unfold Ledger
    rw [refView_ftable]
    exact hv.file_drop ht

/-- The write loop of `filewrite`: each chunk loads the file's inode, writes and releases
it. -/
theorem filewriteLoop_spec (f : Fin NFILE) (max : ℕ) :
    ∀ fuel src i, Triple (Ledger h 0 0) (filewriteLoop f max fuel src i) fun _ => Ledger h 0 0
  | 0, _, _ => Triple.pure fun _ hs => hs
  | fuel + 1, src, i => by
    rw [filewriteLoop]
    refine Triple.ite (fun _ => Triple.pure fun _ hs => hs) fun _ => ?_
    dsimp only
    refine (ledger_of_keeps (keeps_beginOp _)).bind fun _ => Triple.get_bind fun _ => ?_
    refine ((ilock_spec _).mono (fun s hs => ⟨hs.1, fun h0 => absurd h0 (by simp)⟩)
      fun _ _ hs => hs).bind fun _ => Triple.get_bind fun _ => ?_
    refine ((ledger_of_keeps_coh (keeps_writei _ _ _) (Multiset.mem_cons_self _ 0)).mono
      (fun _ hs => hs.1) fun _ _ hs => hs).bind fun r => ?_
    refine Triple.ite (fun _ => (ledger_of_keeps (keeps_modifyFile _ f _ (by intro; rfl))).bind
      fun _ => ?_) fun _ => ?_
    -- after the chunk: the inode is released and the loop goes on or stops
    all_goals
      refine ((ledger_of_keeps (keeps_iunlock _ _)).mono (fun _ hs => hs)
        fun _ _ hs => RefInv.anti_loaded hs (Multiset.zero_le _)).bind fun _ =>
          (ledger_of_keeps (keeps_endOp _)).bind fun _ => ?_
      exact Triple.ite (fun _ => Triple.pure fun _ hs => hs) fun _ =>
        filewriteLoop_spec f max fuel _ _

theorem filewrite_spec (f : Fin NFILE) (src : List (Option UInt8)) :
    Triple (Ledger h 0 0) (filewrite f src) fun _ => Ledger h 0 0 := by
  unfold filewrite
  refine Triple.get_bind fun _ => Triple.ite (fun _ => Triple.pure fun _ hs => hs.1) fun _ => ?_
  split
  · exact Triple.pure fun _ hs => hs.1
  · exact Triple.pure fun _ hs => hs.1
  · exact Triple.throw
  · exact ((filewriteLoop_spec f _ _ _ _).mono (fun _ hs => hs.1) fun _ _ hs => hs).bind fun _ =>
      Triple.pure fun _ hs => hs

theorem sys_close_spec (p : Fin NPROC) (fd : ℕ) :
    Triple (Ledger h 0 0) (sys_close p fd) fun _ => Ledger h 0 0 := by
  unfold sys_close
  refine (ledger_of_keeps (keeps_argfd _ p fd)).bind fun r => ?_
  rcases r with _ | ⟨fd, f⟩
  · exact Triple.pure fun _ hs => hs
  · exact (ledger_of_keeps (keeps_modifyProc _ p _ (by intro; exact ⟨rfl, rfl⟩))).bind fun _ =>
      ((fileclose_spec f).mono (fun _ hs => ⟨hs, fun _ => Multiset.count_zero _⟩)
        fun _ _ hs => hs).bind fun _ => Triple.pure fun _ hs => hs

theorem sys_dup_spec (p : Fin NPROC) (fd : ℕ) :
    Triple (Ledger h 0 0) (sys_dup p fd) fun _ => Ledger h 0 0 := by
  unfold sys_dup
  refine (ledger_of_keeps (keeps_argfd _ p fd)).bind fun r => ?_
  rcases r with _ | ⟨_, f⟩
  · exact Triple.pure fun _ hs => hs
  refine (ledger_of_keeps (keeps_fdalloc _ p f)).bind fun r => ?_
  rcases r with _ | fd
  · exact Triple.pure fun _ hs => hs
  · exact (filedup_spec f).bind fun _ => Triple.pure fun _ hs => hs

theorem sys_write_spec (p : Fin NPROC) (fd : ℕ) (src : List (Option UInt8)) :
    Triple (Ledger h 0 0) (sys_write p fd src) fun _ => Ledger h 0 0 := by
  unfold sys_write
  refine (ledger_of_keeps (keeps_argfd _ p fd)).bind fun r => ?_
  rcases r with _ | ⟨_, f⟩
  · exact Triple.pure fun _ hs => hs
  · exact filewrite_spec f src

/-! ## Links -/

/-- `begin_op` of a live process. -/
theorem beginOp_spec (p : Fin NPROC) :
    Triple (fun s => Ledger h 0 0 s ∧ (s.proc p).alive = true) beginOp
      fun _ s => Ledger h 0 0 s ∧ (s.proc p).alive = true :=
  (keeps_beginOp _).triple (fun v => RefInv v h 0 0 ∧ (v.proc p).1 = true) fun _ hv => hv

/-- The `bad:` exit of `sys_link` drops the reference to the inode it linked. -/
theorem linkBad_spec (ip : Fin NINODE) :
    Triple (Ledger (ip ::ₘ h) 0 0) (linkBad ip) fun _ => Ledger h 0 0 := by
  unfold linkBad
  have hip : ip ∈ ip ::ₘ (0 : Multiset (Fin NINODE)) := Multiset.mem_cons_self ip 0
  refine ((ilock_spec ip).mono (fun s hs => ⟨hs, fun h0 => absurd h0 (by simp)⟩)
    fun _ _ hs => hs).bind fun _ => ?_
  exact (ledger_of_keeps (keeps_modifyDi _ ip _ (by intro; rfl))).bind fun _ =>
    (ledger_of_keeps_coh (keeps_iupdate ip) hip).bind fun _ =>
      ((iunlockput_spec ip hip).mono (fun _ hs => hs)
        fun _ _ hs => by rwa [Multiset.erase_cons_head] at hs).bind fun _ =>
          (ledger_of_keeps (keeps_endOp _)).bind fun _ => Triple.pure fun _ hs => hs

theorem sys_link_spec (p : Fin NPROC) (old new : List UInt8) :
    Triple (fun s => Ledger 0 0 0 s ∧ (s.proc p).alive = true) (sys_link p old new)
      fun _ => Ledger 0 0 0 := by
  unfold sys_link
  refine (beginOp_spec p).bind fun _ =>
    (((namei_spec p old).frame (keepsProcs_namei p old) fun π => (π p).1 = true).mono
      (fun _ hs => ⟨hs, hs.2⟩) fun _ _ hs => hs).bind fun r => ?_
  rcases r with _ | ip
  · exact ((ledger_of_keeps (keeps_endOp _)).mono (fun _ hs => hs.1) fun _ _ hs => hs).bind
      fun _ => Triple.pure fun _ hs => hs
  have hip : ip ∈ ip ::ₘ (0 : Multiset (Fin NINODE)) := Multiset.mem_cons_self ip 0
  refine (((ilock_spec ip).frame (keepsProcs_ilock ip) fun π => (π p).1 = true).mono
    (fun s hs => ⟨⟨hs.1, fun h0 => absurd h0 (by simp)⟩, hs.2⟩) fun _ _ hs => hs).bind fun _ =>
      Triple.get_bind fun _ => ?_
  refine Triple.ite (fun _ => ?_) fun _ => ?_
  · -- a directory is not linked
    exact ((iunlockput_spec ip hip).mono (fun _ hs => hs.1.1)
      fun _ _ hs => by rwa [Multiset.erase_cons_head] at hs).bind fun _ =>
        (ledger_of_keeps (keeps_endOp _)).bind fun _ => Triple.pure fun _ hs => hs
  -- one more link, written to the disk before the new name is made
  refine (((ledger_of_keeps (keeps_modifyDi _ ip _ (by intro; rfl))).frame
    (keepsProcs_modifyInode _ _) fun π => (π p).1 = true).mono (fun _ hs => hs.1)
      fun _ _ hs => hs).bind fun _ => ?_
  refine ((ledger_of_keeps_coh (keeps_iupdate ip) hip).frame (keepsProcs_iupdate ip)
    fun π => (π p).1 = true).bind fun _ => ?_
  refine ((iunlock_spec ip (Multiset.zero_le _)).frame (keepsProcs_of_keeps (keeps_iunlock _ ip))
    fun π => (π p).1 = true).bind fun _ => ?_
  refine (nameiparent_spec p new).bind fun r => ?_
  rcases r with _ | ⟨dp, name⟩
  · exact linkBad_spec ip
  have hdp : dp ∈ dp ::ₘ (0 : Multiset (Fin NINODE)) := Multiset.mem_cons_self dp 0
  -- the new name's directory is released; `linkBad` takes the link back
  have hbad : Triple (Ledger (dp ::ₘ ip ::ₘ 0) 0 (dp ::ₘ 0)) (do iunlockput dp; linkBad ip)
      fun _ => Ledger 0 0 0 :=
    ((iunlockput_spec dp hdp).mono (fun _ hs => hs)
      fun _ _ hs => by rwa [Multiset.erase_cons_head] at hs).bind fun _ => linkBad_spec ip
  refine ((ilock_spec dp).mono (fun s hs => ⟨hs, fun h0 => absurd h0 (by simp)⟩)
    fun _ _ hs => hs).bind fun _ => Triple.get_bind fun _ => Triple.get_bind fun _ => ?_
  refine Triple.ite (fun _ => hbad.mono (fun _ hs => hs.1.1) fun _ _ hs => hs) fun _ =>
    Triple.get_bind fun _ => ?_
  refine ((dirlink_spec dp name _ hdp).mono (fun _ hs => hs.1.1.1) fun _ _ hs => hs).bind
    fun _ => Triple.ite (fun _ => hbad) fun _ => ?_
  exact ((iunlockput_spec dp hdp).mono (fun _ hs => hs)
    fun _ _ hs => by rwa [Multiset.erase_cons_head] at hs).bind fun _ =>
      ((iput_spec (L := 0) ip).mono (fun _ hs => ⟨hs, hs.ref_pos, Drop.held hs⟩) fun _ _ hs => hs).bind
        fun _ => (ledger_of_keeps (keeps_endOp _)).bind fun _ => Triple.pure fun _ hs => hs

/-- The `bad:` exit of `sys_unlink` releases the directory. -/
theorem unlinkBad_spec (dp : Fin NINODE) :
    Triple (Ledger (dp ::ₘ h) 0 (dp ::ₘ 0)) (unlinkBad dp) fun _ => Ledger h 0 0 := by
  unfold unlinkBad
  exact ((iunlockput_spec dp (Multiset.mem_cons_self dp 0)).mono (fun _ hs => hs)
    fun _ _ hs => by rwa [Multiset.erase_cons_head] at hs).bind fun _ =>
      (ledger_of_keeps (keeps_endOp _)).bind fun _ => Triple.pure fun _ hs => hs

theorem sys_unlink_spec (p : Fin NPROC) (path : List UInt8) :
    Triple (fun s => Ledger 0 0 0 s ∧ (s.proc p).alive = true) (sys_unlink p path)
      fun _ => Ledger 0 0 0 := by
  unfold sys_unlink
  refine (beginOp_spec p).bind fun _ => (nameiparent_spec p path).bind fun r => ?_
  rcases r with _ | ⟨dp, name⟩
  · exact (ledger_of_keeps (keeps_endOp _)).bind fun _ => Triple.pure fun _ hs => hs
  have hdp : dp ∈ dp ::ₘ (0 : Multiset (Fin NINODE)) := Multiset.mem_cons_self dp 0
  refine ((ilock_spec dp).mono (fun s hs => ⟨hs, fun h0 => absurd h0 (by simp)⟩)
    fun _ _ hs => hs).bind fun _ => Triple.ite (fun _ => unlinkBad_spec dp) fun _ => ?_
  refine ((dirlookup_spec dp name).mono (fun s hs => ⟨hs, hs.ref_pos_of_loaded hdp⟩)
    fun _ _ hs => hs).bind fun r => ?_
  rcases r with _ | ⟨ip, off⟩
  · exact unlinkBad_spec dp
  refine ((ilock_spec ip).mono (fun s hs => ⟨hs.1, fun _ => hs.2⟩) fun _ _ hs => hs).bind
    fun _ => Triple.get_bind fun _ => Triple.ite_throw fun _ => Triple.get_bind fun _ => ?_
  have hip : ip ∈ ip ::ₘ dp ::ₘ (0 : Multiset (Fin NINODE)) := Multiset.mem_cons_self _ _
  have hdp' : dp ∈ ip ::ₘ dp ::ₘ (0 : Multiset (Fin NINODE)) := Multiset.mem_cons_of_mem hdp
  -- the entry is cleared; the directory is released, then the inode with one link less
  have htail : Triple (Ledger (ip ::ₘ dp ::ₘ 0) 0 (ip ::ₘ dp ::ₘ 0)) (do
      iunlockput dp
      modifyDi ip fun d => { d with nlink := d.nlink - 1 }
      iupdate ip
      iunlockput ip
      endOp
      pure (0 : ℤ)) fun _ => Ledger 0 0 0 := by
    have hip' : ip ∈ ip ::ₘ (0 : Multiset (Fin NINODE)) := Multiset.mem_cons_self ip 0
    refine Triple.bind (R := fun _ => Ledger (ip ::ₘ 0) 0 (ip ::ₘ 0))
      ((iunlockput_spec (h := ip ::ₘ 0) (d := 0) dp hdp').mono
        (fun _ hs => by rw [Multiset.cons_swap dp ip]; exact hs) fun _ _ hs => ?_) fun _ => ?_
    · show Ledger (ip ::ₘ 0) 0 (ip ::ₘ 0) _
      rwa [Multiset.cons_swap ip dp, Multiset.erase_cons_head] at hs
    exact (ledger_of_keeps (keeps_modifyDi _ ip _ (by intro; rfl))).bind fun _ =>
      (ledger_of_keeps_coh (keeps_iupdate ip) hip').bind fun _ =>
        ((iunlockput_spec ip hip').mono (fun _ hs => hs)
          fun _ _ hs => by rwa [Multiset.erase_cons_head] at hs).bind fun _ =>
            (ledger_of_keeps (keeps_endOp _)).bind fun _ => Triple.pure fun _ hs => hs
  dsimp only
  refine Triple.ite (fun _ => ((ledger_of_keeps (keeps_isdirempty _ ip).map).mono
    (fun _ hs => hs.1.1) fun _ _ hs => hs).bind fun _ => ?_) fun _ =>
      Triple.bind (R := fun _ => Ledger (ip ::ₘ dp ::ₘ 0) 0 (ip ::ₘ dp ::ₘ 0))
        (Triple.pure fun _ hs => hs.1.1) fun _ => ?_
  -- `isdirempty` decides whether the inode is busy
  all_goals
    refine Triple.ite (fun _ => ?_) fun _ => ?_
    · -- a directory with entries is not unlinked
      exact ((iunlockput_spec ip hip).mono (fun _ hs => hs) fun _ _ hs => by
        rwa [Multiset.erase_cons_head] at hs).bind fun _ => unlinkBad_spec dp
    refine (ledger_of_keeps_coh (keeps_writei dp _ _) hdp').bind fun _ =>
      Triple.ite_throw fun _ => Triple.get_bind fun _ => ?_
    -- a directory takes its `..` link to the parent with it
    refine Triple.ite (fun _ => ?_) fun _ => ?_
    · exact ((ledger_of_keeps (keeps_modifyDi _ dp _ (by intro; rfl))).mono (fun _ hs => hs.1)
        fun _ _ hs => hs).bind fun _ => (ledger_of_keeps_coh (keeps_iupdate dp) hdp').bind fun _ =>
          htail
    · exact htail.mono (fun _ hs => hs.1) fun _ _ hs => hs

end Xv6
