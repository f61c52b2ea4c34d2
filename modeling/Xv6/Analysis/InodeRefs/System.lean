import Xv6.Analysis.InodeRefs.Syscall
import Xv6.Analysis.FileRefs.Syscall

/-!
# Reference counts over whole runs

The inode ledger for the system calls not covered yet: `sys_open` giving the reference of
the inode it found or made to the new file, `sys_mkdir` and `sys_mknod` releasing what they
made, `sys_chdir` moving the process to its new directory, `exec` reading and releasing,
`sys_pipe` opening files on no inode, `fork` giving the child the parent's directory, and
`exit` leaving it. With the system calls of `InodeRefs.Syscall` every step keeps the ledger
with nothing in hand, so it holds in every state reached from boot on a disk whose root
directory is allocated.

Beside the ledger of open files (`FileRefs`), this gives the reference counts of the
kernel: each open file counts the descriptors naming it, each end of a live pipe is open
exactly while one open file is that end, a pipe lives while a file is on it and no longer,
no system call closes a freed pipe, and each entry of the inode table counts the open files
on it and the processes standing in it.
Source: kernel/sysfile.c:286-486, kernel/exec.c:12-31, kernel/proc.c:273-359,
kernel/file.c:28-83, kernel/pipe.c:22-74
-/

set_option autoImplicit false

namespace Xv6

open StateExcept Fs TransitionSystem

variable {h d L : Multiset (Fin NINODE)}

/-- The way out of a path system call: the transaction ends, and `v` is returned. -/
theorem endOp_return_spec {α : Type} (v : α) :
    Triple (Ledger h d L) (do endOp; return v) fun _ => Ledger h d L :=
  (ledger_of_keeps (keeps_endOp _)).bind fun _ => Triple.pure fun _ hs => hs

/-- The way out with the one inode the call loaded: it is released first. -/
theorem iunlockput_return_spec {α : Type} (ip : Fin NINODE) (v : α) :
    Triple (Ledger (ip ::ₘ h) 0 {ip}) (do iunlockput ip; endOp; return v) fun _ => Ledger h 0 0 :=
  ((iunlockput_spec ip (Multiset.mem_singleton_self ip)).mono (fun _ hs => hs)
    fun _ _ hs => by rwa [Multiset.erase_singleton] at hs).bind fun _ => endOp_return_spec v

/-- `fileclose` with nothing loaded. -/
theorem fileclose_unloaded_spec (f : Fin NFILE) :
    Triple (Ledger h 0 0) (fileclose f) fun _ => Ledger h 0 0 :=
  (fileclose_spec f).mono (fun _ hs => ⟨hs, fun _ => Multiset.count_zero _⟩) fun _ _ hs => hs

/-- An open file counts its live entry: it has at least one reference. -/
theorem Ledger.ref_pos_of_holders {s : FsState} {i : Fin NINODE} (hv : Ledger h 0 L s)
    (hi : 0 < s.refView.holders i) : 0 < (s.itable i).ref := by
  have hc : (s.itable i).ref + (0 : Multiset (Fin NINODE)).count i =
      s.refView.holders i + h.count i := hv.count i
  rw [Multiset.count_zero] at hc
  omega

/-! ## Files -/

/-- `openInode` sets up the new file in two writes, its kind and then its inode; together
they give the reference in hand to the file, which held nothing. -/
theorem openFile_bind_spec {α : Type} (f : Fin NFILE) (ip : Fin NINODE) (g₁ g₂ : File → File)
    (hg₁ : ∀ ff, (g₁ ff).ref = ff.ref ∧ ((g₁ ff).type = .inode ∨ (g₁ ff).type = .device))
    (hg₂ : ∀ ff, (g₂ ff).ref = ff.ref ∧ (g₂ ff).type = ff.type ∧ (g₂ ff).ip = ip)
    {k : PUnit → FsM α} {Q : α → FsState → Prop} (hk : Triple (Ledger h d L) (k ⟨⟩) Q) (hip : ip ∈ L) :
    Triple (fun s => Ledger (ip ::ₘ h) d L s ∧ (s.ftable f).ref = 1 ∧ (s.ftable f).type = .none)
      (modifyFile f g₁ >>= fun _ => modifyFile f g₂ >>= k) Q := by
  refine Triple.of_pinned fun s₀ ⟨hv, href, hnone⟩ => ?_
  refine Triple.bind (R := fun _ s => s = { s₀ with
      ftable := Function.update s₀.ftable f (g₁ (s₀.ftable f)) })
    (Triple.modify fun s hs => by rw [hs]) fun _ => ?_
  refine Triple.bind (R := fun _ => Ledger h d L) (Triple.modify fun s hs => ?_) fun _ => hk
  subst hs
  obtain ⟨href₁, ht₁⟩ := hg₁ (s₀.ftable f)
  obtain ⟨href₂, ht₂, hip₂⟩ := hg₂ (g₁ (s₀.ftable f))
  -- the two writes change the file's view once, to one reference on `ip`
  have hview : (g₂ (g₁ (s₀.ftable f))).view = (1, (g₁ (s₀.ftable f)).type, ip) := by
    simp only [File.view, href₂, href₁, href, ht₂, hip₂]
  unfold Ledger
  simp only [Function.update_self, Function.update_idem]
  rw [refView_ftable, hview]
  exact hv.file_take href hnone ht₁ hip

/-- `openInode`: the file takes the reference in hand; on a failure before that, the inode
is released, and a file already allocated closed. -/
theorem openInode_spec (p : Fin NPROC) (ip : Fin NINODE) (omode : ℕ) :
    Triple (Ledger (ip ::ₘ 0) 0 {ip}) (openInode p ip omode) fun _ => Ledger 0 0 0 := by
  unfold openInode
  have hip : ip ∈ ({ip} : Multiset (Fin NINODE)) := Multiset.mem_singleton_self ip
  refine Triple.get_bind fun s₀ => ?_
  dsimp only
  refine Triple.ite (fun _ => (iunlockput_return_spec ip _).mono (fun _ hs => hs.1)
    fun _ _ hs => hs) fun _ => ?_
  refine (filealloc_spec.mono (fun _ hs => hs.1) fun _ _ hs => hs).bind fun r => ?_
  rcases r with _ | f
  · exact (iunlockput_return_spec ip _).mono (fun _ hs => hs.1) fun _ _ hs => hs
  -- the descriptor changes nothing the ledger counts; the file stays on nothing
  refine Triple.bind (R := fun _ s => Ledger (ip ::ₘ 0) 0 {ip} s ∧ (s.ftable f).ref = 1 ∧
    (s.ftable f).type = .none) (((ledger_of_keeps (keeps_fdalloc _ p f)).frame (keeps_fdalloc _ p f)
      fun v => (v.file f).1 = 1 ∧ (v.file f).2.1 = .none).mono (fun _ hs => ⟨hs.1, hs.2 f rfl⟩)
        fun _ _ hs => hs) fun r => ?_
  rcases r with _ | fd
  · -- no descriptor: the file is closed, on nothing, and the inode released
    refine ((fileclose_spec f).mono (fun s hs => ⟨hs.1, fun ht => ?_⟩) fun _ _ hs => hs).bind
      fun _ => iunlockput_return_spec ip _
    rw [hs.2.2] at ht
    simp at ht
  dsimp only
  -- a device or an inode; the code after each `if` is the same in both branches
  refine Triple.ite (fun _ => ?_) fun _ => ?_
  all_goals
    refine openFile_bind_spec f ip _ _ (by intro; exact ⟨rfl, by simp⟩)
      (by intro; exact ⟨rfl, rfl, rfl⟩) ?_ hip
    refine Triple.ite (fun _ => (ledger_of_keeps_coh (keeps_itrunc ip) hip).bind fun _ => ?_)
      fun _ => ?_
    all_goals exact (iunlock_spec ip (Multiset.zero_le _)).bind fun _ => endOp_return_spec _

theorem sys_open_spec (p : Fin NPROC) (path : List UInt8) (omode : ℕ) :
    Triple (fun s => Ledger 0 0 0 s ∧ (s.proc p).alive = true) (sys_open p path omode)
      fun _ => Ledger 0 0 0 := by
  unfold sys_open
  refine (beginOp_spec p).bind fun _ => Triple.ite (fun _ => ?_) fun _ => ?_
  · refine (create_spec p path .file 0 0 (by decide)).bind fun r => ?_
    rcases r with _ | ip
    · exact endOp_return_spec _
    · exact openInode_spec p ip omode
  · refine (namei_spec p path).bind fun r => ?_
    rcases r with _ | ip
    · exact endOp_return_spec _
    refine ((ilock_spec ip).mono (fun s hs => ⟨hs, fun h0 => absurd h0 (by simp)⟩)
      fun _ _ hs => hs).bind fun _ => Triple.get_bind fun _ => ?_
    -- a directory is opened for reading only
    exact Triple.ite (fun _ => (iunlockput_return_spec ip _).mono (fun _ hs => hs.1)
      fun _ _ hs => hs) fun _ => (openInode_spec p ip omode).mono (fun _ hs => hs.1) fun _ _ hs => hs

/-! ## Paths -/

/-- `sys_mkdir` and `sys_mknod` release the inode they made. -/
theorem create_release_spec (p : Fin NPROC) (path : List UInt8) (type : IType) (major minor : ℤ)
    (ht : type ≠ .free) :
    Triple (fun s => Ledger 0 0 0 s ∧ (s.proc p).alive = true) (do
      beginOp
      match ← create p path type major minor with
      | none =>
        endOp
        return (-1 : ℤ)
      | some ip =>
        iunlockput ip
        endOp
        return 0) fun _ => Ledger 0 0 0 := by
  refine (beginOp_spec p).bind fun _ => (create_spec p path type major minor ht).bind fun r => ?_
  rcases r with _ | ip
  · exact endOp_return_spec _
  · exact iunlockput_return_spec ip _

theorem sys_mkdir_spec (p : Fin NPROC) (path : List UInt8) :
    Triple (fun s => Ledger 0 0 0 s ∧ (s.proc p).alive = true) (sys_mkdir p path)
      fun _ => Ledger 0 0 0 :=
  create_release_spec p path .dir 0 0 (by decide)

theorem sys_mknod_spec (p : Fin NPROC) (path : List UInt8) (major minor : ℤ) :
    Triple (fun s => Ledger 0 0 0 s ∧ (s.proc p).alive = true) (sys_mknod p path major minor)
      fun _ => Ledger 0 0 0 :=
  create_release_spec p path .device major minor (by decide)

theorem exec_spec (p : Fin NPROC) (path : List UInt8) :
    Triple (fun s => Ledger 0 0 0 s ∧ (s.proc p).alive = true) (Fs.exec p path)
      fun _ => Ledger 0 0 0 := by
  unfold Fs.exec
  refine (beginOp_spec p).bind fun _ => (namei_spec p path).bind fun r => ?_
  rcases r with _ | ip
  · exact endOp_return_spec _
  refine ((ilock_spec ip).mono (fun s hs => ⟨hs, fun h0 => absurd h0 (by simp)⟩)
    fun _ _ hs => hs).bind fun _ => ?_
  exact (ledger_of_keeps (keeps_readi _ ip 0 64)).bind fun _ => iunlockput_return_spec ip _

theorem RefView.setProc_setProc (v : RefView) (p : Fin NPROC) (x y : Bool × Fin NINODE) :
    (v.setProc p x).setProc p y = v.setProc p y := by
  simp [RefView.setProc]

/-- `sys_chdir`: the old directory's reference is dropped ahead of time, and the process
moves to the new one, which is still loaded in the ledger's reckoning: the code has
released its lock, but the entry has not been read again since. -/
theorem sys_chdir_spec (p : Fin NPROC) (path : List UInt8) :
    Triple (fun s => Ledger 0 0 0 s ∧ (s.proc p).alive = true) (sys_chdir p path)
      fun _ => Ledger 0 0 0 := by
  unfold sys_chdir
  refine (beginOp_spec p).bind fun _ =>
    (((namei_spec p path).frame (keepsProcs_namei p path) fun π => (π p).1 = true).mono
      (fun _ hs => ⟨hs, hs.2⟩) fun _ _ hs => hs).bind fun r => ?_
  rcases r with _ | ip
  · exact (endOp_return_spec _).mono (fun _ hs => hs.1) fun _ _ hs => hs
  have hip : ip ∈ ({ip} : Multiset (Fin NINODE)) := Multiset.mem_singleton_self ip
  refine (((ilock_spec ip).frame (keepsProcs_ilock ip) fun π => (π p).1 = true).mono
    (fun s hs => ⟨⟨hs.1, fun h0 => absurd h0 (by simp)⟩, hs.2⟩) fun _ _ hs => hs).bind fun _ =>
      Triple.get_bind fun _ => ?_
  refine Triple.ite (fun _ => (iunlockput_return_spec ip _).mono (fun _ hs => hs.1.1)
    fun _ _ hs => hs) fun _ => ?_
  refine (((iunlock_spec ip le_rfl).frame (keepsProcs_of_keeps (keeps_iunlock _ ip))
    fun π => (π p).1 = true).mono (fun _ hs => hs.1) fun _ _ hs => hs).bind fun _ =>
      Triple.get_bind_of fun s₂ ⟨hv₂, halive₂⟩ => ?_
  -- the process stands in `c`, which counts it
  have hproc : s₂.refView.proc p = (true, (s₂.proc p).cwd) := by
    simpa [procView] using halive₂
  have hhold := RefView.holders_pos_of_proc hproc
  refine Triple.bind (R := fun _ s => Ledger (ip ::ₘ 0) ((s₂.proc p).cwd ::ₘ 0) {ip} s ∧
    procView s p = (true, (s₂.proc p).cwd)) (((iput_spec (h := ip ::ₘ 0) (d := 0) (L := {ip})
      (s₂.proc p).cwd).frame (keepsProcs_iput _) fun π => π p = (true, (s₂.proc p).cwd)).mono
        (fun s hs => ?_) fun _ _ hs => hs) fun _ => ?_
  · rw [hs]
    refine ⟨⟨hv₂, ?_, Drop.debt (by simpa using hhold)⟩, hproc⟩
    have hc : (s₂.itable (s₂.proc p).cwd).ref + (0 : Multiset (Fin NINODE)).count _ =
        s₂.refView.holders _ + (ip ::ₘ 0).count _ := hv₂.count (s₂.proc p).cwd
    rw [Multiset.count_zero, Multiset.cons_zero] at hc
    omega
  refine ((ledger_of_keeps (keeps_endOp _)).frame (keepsProcs_of_keeps (keeps_endOp _))
    fun π => π p = (true, (s₂.proc p).cwd)).bind fun _ => ?_
  refine Triple.bind (R := fun _ => Ledger 0 0 0) (Triple.modify fun s hs => ?_) fun _ =>
    Triple.pure fun _ hs => hs
  obtain ⟨hv, hπ⟩ := hs
  have halive : (s.proc p).alive = true := congrArg Prod.fst hπ
  -- leaving the old directory pays its debt; standing in the new one takes the reference
  have hmove := RefInv.proc_acquire (p := p) (RefInv.proc_release hv hπ)
    (by simp [RefView.setProc]) (Or.inr hip)
  rw [RefView.setProc_setProc] at hmove
  unfold Ledger
  rw [refView_procs]
  dsimp only
  rw [halive]
  exact hmove.anti_loaded (Multiset.zero_le _)

/-! ## Pipes -/

/-- File `f` is open on no inode: a pipe's end, or a file not set up yet. -/
def OffInode (f : Fin NFILE) (s : FsState) : Prop :=
  0 < (s.ftable f).ref ∧ ¬((s.ftable f).type = .inode ∨ (s.ftable f).type = .device)

/-- A file allocated and open on nothing is on no inode. -/
theorem OffInode.of_alloc {s : FsState} {f : Fin NFILE}
    (hf : (s.ftable f).ref = 1 ∧ (s.ftable f).type = .none) : OffInode f s := by
  refine ⟨by omega, ?_⟩
  rw [hf.2]
  simp

/-- `filealloc` takes a closed file: every open one stays as it is. -/
theorem filealloc_keeps_offInode (g : Fin NFILE) :
    Triple (OffInode g) filealloc fun _ => OffInode g :=
  Triple.of_pinned fun s₀ hs₀ => (filealloc_keeps g (s₀.ftable g)).mono
    (fun _ hs => by rw [hs]; exact ⟨rfl, hs₀.1⟩) fun _ s hs => by
      unfold OffInode
      rw [hs.1]
      exact hs₀

/-- `pipealloc` making a file on no inode an end of a pipe: the ledger and every file on no
inode stay as they were. -/
theorem modifyFile_pipe_spec (f g : Fin NFILE) (k : File → File)
    (hk : ∀ ff, (k ff).ref = ff.ref ∧ (k ff).type = .pipe) :
    Triple (fun s => Ledger h d L s ∧ OffInode f s ∧ OffInode g s) (modifyFile f k)
      fun _ s => Ledger h d L s ∧ OffInode g s := by
  refine Triple.modify fun s hs => ?_
  obtain ⟨hv, ⟨hpos, hoff⟩, hg⟩ := hs
  refine ⟨?_, ?_⟩
  · unfold Ledger
    rw [refView_ftable]
    refine hv.file_same (fun j => ?_) fun h0 => ?_
    · simp only [fileHolds, File.view, refView_file, (hk _).2, (hk _).1, reduceCtorEq, or_self,
        false_and, and_false, false_iff]
      rintro ⟨_, ht, _⟩
      exact hoff ht
    · simp only [File.view, (hk _).1] at h0
      omega
  · by_cases hgf : g = f
    · subst hgf
      refine ⟨?_, ?_⟩
      all_goals simp [(hk _).1, (hk _).2, hpos]
    · unfold OffInode
      simp only [Function.update_of_ne hgf]
      exact hg

/-- `pipealloc`: its two files are on no inode, so what it opens, sets up or closes again
leaves the ledger as it was. -/
theorem pipealloc_spec (page : Option ℕ) :
    Triple (Ledger h 0 0) (pipealloc page) fun _ => Ledger h 0 0 := by
  unfold pipealloc
  refine filealloc_spec.bind fun r0 => ?_
  rcases r0 with _ | f0
  · simp only [Option.isSome_none, Bool.false_eq_true, if_false, false_and, pure_bind]
    exact Triple.pure fun _ hs => hs.1
  simp only [Option.isSome_some, if_true, true_and]
  -- the first file stays on no inode while the second is allocated
  refine Triple.bind ((filealloc_spec.mono (fun _ hs => hs.1) fun _ _ hs => hs).and
    ((filealloc_keeps_offInode f0).mono (fun _ hs => OffInode.of_alloc (hs.2 f0 rfl))
      fun _ _ hs => hs)) fun r1 => ?_
  rcases r1 with _ | f1
  · simp only [Option.isSome_none, Bool.false_eq_true, if_false, pure_bind]
    exact ((fileclose_unloaded_spec f0).mono (fun _ hs => hs.1.1) fun _ _ hs => hs).bind
      fun _ => Triple.pure fun _ hs => hs
  simp only [Option.isSome_some, if_true]
  refine ((kalloc_fspec page).triple.mono (fun _ hs => hs) fun _ _ hs => hs.1).bind fun r2 => ?_
  rcases r2 with _ | pa
  · -- no page: both files are closed
    dsimp only
    exact ((fileclose_unloaded_spec f0).mono (fun _ hs => hs.1.1) fun _ _ hs => hs).bind fun _ =>
      (fileclose_unloaded_spec f1).bind fun _ => Triple.pure fun _ hs => hs
  -- a page: the pipe, then its two ends
  dsimp only
  refine Triple.bind (R := fun _ s => Ledger h 0 0 s ∧ OffInode f0 s ∧ OffInode f1 s)
    (Triple.modify fun s ⟨⟨hv, hf1⟩, hf0⟩ => ⟨hv, hf0, OffInode.of_alloc (hf1 f1 rfl)⟩)
      fun _ => ?_
  refine Triple.bind (modifyFile_pipe_spec f0 f1 _ (by intro; exact ⟨rfl, rfl⟩)) fun _ => ?_
  exact Triple.bind ((modifyFile_pipe_spec f1 f1 _ (by intro; exact ⟨rfl, rfl⟩)).mono
    (fun _ hs => ⟨hs.1, hs.2, hs.2⟩) fun _ _ hs => hs) fun _ => Triple.pure fun _ hs => hs.1

/-- `sys_pipe`: descriptors change nothing the ledger counts, and the files closed on a
failure are on no inode. -/
theorem sys_pipe_spec (p : Fin NPROC) (page : Option ℕ) (ok0 ok1 : Bool) :
    Triple (Ledger 0 0 0) (sys_pipe p page ok0 ok1) fun _ => Ledger 0 0 0 := by
  unfold sys_pipe
  have hclear : ∀ fd, Triple (Ledger 0 0 0)
      (modifyProc p fun pr => { pr with ofile := Function.update pr.ofile fd none })
      fun _ => Ledger 0 0 0 := fun _ =>
    ledger_of_keeps (keeps_modifyProc _ p _ fun _ => ⟨rfl, rfl⟩)
  refine (pipealloc_spec page).bind fun r => ?_
  rcases r with _ | ⟨rf, wf⟩
  · exact Triple.pure fun _ hs => hs
  have hends : Triple (Ledger 0 0 0) (do fileclose rf; fileclose wf; return (-1 : ℤ))
      fun _ => Ledger 0 0 0 :=
    (fileclose_unloaded_spec rf).bind fun _ => (fileclose_unloaded_spec wf).bind fun _ =>
      Triple.pure fun _ hs => hs
  refine (ledger_of_keeps (keeps_fdalloc _ p rf)).bind fun r0 => ?_
  rcases r0 with _ | fd0
  · exact hends
  refine (ledger_of_keeps (keeps_fdalloc _ p wf)).bind fun r1 => ?_
  rcases r1 with _ | fd1
  · exact (hclear fd0).bind fun _ => hends
  refine Triple.ite (fun _ => Triple.pure fun _ hs => hs) fun _ => ?_
  exact (hclear fd0).bind fun _ => (hclear fd1).bind fun _ => hends

/-! ## Processes -/

/-- `fork`: the child stands in the parent's directory, whose reference `idup` took; the
parent stands there too, so the entry is live and its inode allocated. -/
theorem fork_spec (p : Fin NPROC) :
    Triple (fun s => Ledger 0 0 0 s ∧ (s.proc p).alive = true) (fork p) fun _ => Ledger 0 0 0 := by
  unfold fork
  refine Triple.get_bind_of fun s₀ ⟨hv₀, halive₀⟩ => ?_
  dsimp only
  split
  · exact Triple.pure fun _ hs => hs ▸ hv₀
  next np hfind =>
  have hdead : (s₀.proc np).alive = false := by simpa using List.find?_some hfind
  -- `filedup` changes no process and holds no inode the ledger does not count
  refine Triple.bind ((Triple.forM (fun _ s => Ledger 0 0 0 s ∧ s.proc = s₀.proc)
    (fun fd _ => ?_) _).mono (fun _ hs => ⟨hs ▸ hv₀, hs ▸ rfl⟩) fun _ _ hs => hs) fun _ => ?_
  · split
    · exact (filedup_spec _).frame (keepsProc_filedup _) (· = s₀.proc)
    · exact Triple.pure fun _ hs => hs
  have hholds : ∀ s : FsState, s.proc = s₀.proc → 0 < s.refView.holders (s₀.proc p).cwd :=
    fun s hπ => RefView.holders_pos_of_proc (p := p) (by simp [hπ, halive₀])
  refine Triple.bind (((idup_spec (s₀.proc p).cwd).frame (keepsProc_of_inner (inner_idup _))
    (· = s₀.proc)).mono (fun s hs => ⟨⟨hs.1, hs.1.ref_pos_of_holders (hholds s hs.2)⟩, hs.2⟩)
      fun _ _ hs => hs) fun _ => ?_
  -- the child takes the reference in hand
  refine Triple.bind (R := fun _ => Ledger 0 0 0) (Triple.modify fun s hs => ?_) fun _ =>
    Triple.pure fun _ hs => hs
  obtain ⟨hv, hπ⟩ := hs
  unfold Ledger
  rw [refView_procs]
  exact hv.proc_acquire (by simp [hπ, hdead]) (Or.inl (by simpa using hholds s hπ))

/-- `exit`: the files are closed, and the directory's reference dropped ahead of time is
paid when the process leaves it. -/
theorem exit_spec (p : Fin NPROC) :
    Triple (fun s => Ledger 0 0 0 s ∧ (s.proc p).alive = true) (exit p) fun _ => Ledger 0 0 0 := by
  unfold exit
  refine Triple.ite_throw fun _ => ?_
  refine Triple.bind (Triple.forM (fun _ s => Ledger 0 0 0 s ∧ (s.proc p).alive = true)
    (fun fd _ => ?_) _) fun _ => ?_
  · -- closing a file changes no process, and clearing a descriptor no reference
    refine Triple.get_bind fun _ => ?_
    split
    · refine (((fileclose_unloaded_spec _).frame (keepsProc_fileclose _)
        fun π => (π p).alive = true).mono (fun _ hs => hs.1) fun _ _ hs => hs).bind fun _ => ?_
      exact (keeps_modifyProc _ p _ (by intro; exact ⟨rfl, rfl⟩)).triple
        (fun v => RefInv v 0 0 0 ∧ (v.proc p).1 = true) fun _ hv => hv
    · exact Triple.pure fun _ hs => hs.1
  refine (beginOp_spec p).bind fun _ => Triple.get_bind_of fun s₂ ⟨hv₂, halive₂⟩ => ?_
  have hproc : s₂.refView.proc p = (true, (s₂.proc p).cwd) := by simp [halive₂]
  have hhold := RefView.holders_pos_of_proc hproc
  refine Triple.bind (R := fun _ s => Ledger 0 ((s₂.proc p).cwd ::ₘ 0) 0 s ∧
    procView s p = (true, (s₂.proc p).cwd)) (((iput_spec (h := 0) (d := 0) (L := 0)
      (s₂.proc p).cwd).frame (keepsProcs_iput _) fun π => π p = (true, (s₂.proc p).cwd)).mono
        (fun s hs => ?_) fun _ _ hs => hs) fun _ => ?_
  · rw [hs]
    exact ⟨⟨hv₂, hv₂.ref_pos_of_holders hhold, Drop.debt (by simpa using hhold)⟩, hproc⟩
  refine ((ledger_of_keeps (keeps_endOp _)).frame (keepsProcs_of_keeps (keeps_endOp _))
    fun π => π p = (true, (s₂.proc p).cwd)).bind fun _ => Triple.modify fun s ⟨hv, hπ⟩ => ?_
  -- the process leaves its directory
  have hcwd : (s.proc p).cwd = (s₂.proc p).cwd := congrArg Prod.snd hπ
  unfold Ledger
  rw [refView_procs]
  dsimp only
  rw [hcwd]
  exact hv.proc_release hπ

/-! ## Every step -/

theorem code_spec (a : FsAct) :
    Triple (fun s => Ledger 0 0 0 s ∧ (s.proc a.proc).alive = true) a.code
      fun _ => Ledger 0 0 0 := by
  cases a with
  | openFile p path omode => exact Triple.discard (sys_open_spec p path omode)
  | close p fd => exact Triple.discard ((sys_close_spec p fd).mono (fun _ hs => hs.1)
      fun _ _ hs => hs)
  | dup p fd => exact Triple.discard ((sys_dup_spec p fd).mono (fun _ hs => hs.1) fun _ _ hs => hs)
  | pipe p page ok0 ok1 => exact Triple.discard ((sys_pipe_spec p page ok0 ok1).mono
      (fun _ hs => hs.1) fun _ _ hs => hs)
  | write p fd src => exact Triple.discard ((sys_write_spec p fd src).mono (fun _ hs => hs.1)
      fun _ _ hs => hs)
  | link p old new => exact Triple.discard (sys_link_spec p old new)
  | unlink p path => exact Triple.discard (sys_unlink_spec p path)
  | mkdir p path => exact Triple.discard (sys_mkdir_spec p path)
  | mknod p path major minor => exact Triple.discard (sys_mknod_spec p path major minor)
  | chdir p path => exact Triple.discard (sys_chdir_spec p path)
  | exec p path => exact Triple.discard (exec_spec p path)
  | fork p => exact Triple.discard (fork_spec p)
  | exit p => exact exit_spec p

/-- A step that moves keeps the ledger with nothing in hand. -/
theorem ledger_step {s s' : FsState} {a : FsAct} (hv : Ledger 0 0 0 s) (hstep : step s a = .next s') :
    Ledger 0 0 0 s' := by
  obtain ⟨halive, r, hrun⟩ := step_next hstep
  exact code_spec a s r s' ⟨hv, halive⟩ hrun

/-- At boot `init` stands in the root directory, the one live entry, and no file is open. -/
theorem holders_boot (d : Disk) (i : Fin NINODE) :
    (boot d).refView.holders i = if i = 0 then 1 else 0 := by
  have hfiles : Count.countWhere (fileHolds i) (boot d).refView.file = 0 :=
    Count.countWhere_eq_zero.2 fun f hf => by
      simp [fileHolds, boot, File.view, File.empty] at hf
  unfold RefView.holders
  rw [hfiles, zero_add]
  split_ifs with hi
  · subst hi
    exact Count.countWhere_eq_one (i := 0) fun q => by simp [procHolds, boot]
  · exact Count.countWhere_eq_zero.2 fun q hq => hi (by simpa [procHolds, boot, eq_comm] using hq.2)

/-- The ledger at boot, on a disk whose root directory is allocated. -/
theorem ledger_boot (d : Disk) (hroot : (d.dinode ROOTINO).type ≠ .free) :
    Ledger 0 0 0 (boot d) := by
  -- the one live entry is the first, on the root inode
  have hlive : ∀ i, 0 < ((boot d).refView.slot i).ref → i = 0 := fun i hi => by
    by_contra h0
    simp [boot, h0, Inode.view, Inode.empty] at hi
  constructor
  · intro i j hi hj _
    rw [hlive i hi, hlive j hj]
  · intro i hi
    rw [hlive i hi]
    rfl
  · intro i
    rw [holders_boot]
    split_ifs with hi
    · subst hi
      rfl
    · simp [boot, hi, Inode.view, Inode.empty]
  · intro i
    simp
  · intro f _
    rfl
  · intro i _ hvalid
    by_cases hi : i = 0
    · subst hi
      simp [boot, Inode.view, Inode.empty] at hvalid
    · simp [boot, hi, Inode.view, Inode.empty] at hvalid
  · intro i hlt
    rw [holders_boot] at hlt
    split_ifs at hlt with hi
    · subst hi
      exact hroot
    · simp at hlt
  · intro i
    simp
  · intro i hi
    simp at hi

/-- The ledger holds with nothing in hand in every state reached from boot. -/
theorem ledger_of_reachable (d : Disk) (hroot : (d.dinode ROOTINO).type ≠ .free) {s : FsState}
    (hs : Reachable step (boot d) s) : Ledger 0 0 0 s :=
  hs.inv (Ledger 0 0 0) (ledger_boot d hroot) fun _ _ _ _ hv hstep => ledger_step hv hstep

/-! ## Reference counts -/

/-- The reference counts of open files, pipes and inodes in state `s`. -/
structure RefCounts (s : FsState) : Prop where
  /-- An open file counts the descriptors, of any process, that name it. -/
  file_ref : ∀ f, (s.ftable f).ref = fdCount s.proc f
  /-- A file no descriptor names is on nothing. -/
  closed : ∀ f, (s.ftable f).ref = 0 → (s.ftable f).type = .none
  /-- The read end of a live pipe is open exactly while an open file reads it. -/
  read_end : ∀ pa pi, s.pipes pa = some pi →
    (pi.readopen = true ↔ ∃ f, (s.ftable f).pipeEnd = some (pa, true, false))
  /-- The write end of a live pipe is open exactly while an open file writes it. -/
  write_end : ∀ pa pi, s.pipes pa = some pi →
    (pi.writeopen = true ↔ ∃ f, (s.ftable f).pipeEnd = some (pa, false, true))
  /-- An end of a pipe is one open file. -/
  one_file : ∀ f g pa r w, (s.ftable f).pipeEnd = some (pa, r, w) →
    (s.ftable g).pipeEnd = some (pa, r, w) → f = g
  /-- An open file on a pipe reads it or writes it, and the pipe is live. -/
  pipe_live : ∀ f pa r w, (s.ftable f).pipeEnd = some (pa, r, w) → r = !w ∧ (s.pipes pa).isSome
  /-- A live pipe has an end open: it is freed when both are closed. -/
  pipe_open : ∀ pa pi, s.pipes pa = some pi → pi.readopen = true ∨ pi.writeopen = true
  /-- No system call closes a pipe that is freed. -/
  pipe_close : ∀ a, step s a ≠ .panic "pipeclose: freed pipe"
  /-- An entry of the inode table counts the open files on its inode or device and the live
  processes standing in it. -/
  inode_ref : ∀ i, (s.itable i).ref = s.refView.holders i

/-- The counts follow from the two ledgers with nothing in hand. -/
theorem RefCounts.of_ledgers {s : FsState} (hf : FileInv 0 0 s) (hl : Ledger 0 0 0 s) :
    RefCounts s where
  file_ref f := by simpa using hf.count f
  closed := hf.closed
  read_end _ _ hpi := hf.pipes.isOpen_iff hpi false
  write_end _ _ hpi := hf.pipes.isOpen_iff hpi true
  one_file f g pa r w hf' hg := hf.pipes.unique f g pa r r w hf' hg
  pipe_live f pa r w hend := by
    obtain ⟨hr, pi, hpi, -⟩ := hf.pipes.end_open f pa r w hend
    exact ⟨hr, by simp [hpi]⟩
  pipe_open pa pi hpi := by
    obtain ⟨w, hw⟩ := hf.pipes.live pa pi hpi
    cases w
    · exact Or.inl hw
    · exact Or.inr hw
  pipe_close := step_ne_freed_pipe hf
  inode_ref i := by simpa [Inode.view] using hl.count i

theorem refcounts_of_reachable (d : Disk) (hroot : (d.dinode ROOTINO).type ≠ .free)
    {s : FsState} (hs : Reachable step (boot d) s) : RefCounts s :=
  RefCounts.of_ledgers (fileInv_of_reachable d hs) (ledger_of_reachable d hroot hs)

/-- The image `mkfs` builds has its root directory allocated. `init` makes `/a` (the bytes
`47, 97`), moves into it, opens `/`, makes a pipe and dups its first descriptor: it stands in
`/a`, and the root and the two ends of the pipe are open, the root twice. The counts hold. -/
theorem refcounts_after_pipe_and_dup :
    ((mkfs FSSIZE).dinode ROOTINO).type ≠ .free ∧
      ∃ s, Reachable step (boot (mkfs FSSIZE)) s ∧ (s.itable (s.proc 0).cwd).inum = 2 ∧
        (∀ fd : Fin NOFILE, fd.val < 4 → ((s.proc 0).ofile fd).isSome) ∧ RefCounts s := by
  obtain ⟨s, hs, htest⟩ := Reachable.of_run_nextSat .init
    (show (run step (boot (mkfs FSSIZE))
      [.mkdir 0 [47, 97], .chdir 0 [47, 97], .openFile 0 [47] O_RDONLY,
        .pipe 0 (some 4096) true true, .dup 0 0]).nextSat
      (fun s => decide ((s.itable (s.proc 0).cwd).inum = 2 ∧
        ∀ fd : Fin NOFILE, fd.val < 4 → ((s.proc 0).ofile fd).isSome)) = true by decide +kernel)
  obtain ⟨hcwd, hfds⟩ := of_decide_eq_true htest
  exact ⟨by decide, s, hs, hcwd, hfds, refcounts_of_reachable (mkfs FSSIZE) (by decide) hs⟩

end Xv6
