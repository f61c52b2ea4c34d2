import Xv6.Analysis.FileRefs.Files

/-!
# The system calls keep the ledger of open files

Every system call of a live process starts and ends with no file in hand and no debt,
and keeps the ledger of open files on the way: the references it takes are given to a
descriptor or closed again, on the error paths of `sys_open` and `sys_pipe` too. `fork`
takes one reference for each descriptor of the parent before the child has them, and
`exit` clears each descriptor after closing its file. So the ledger holds in every state
the file system reaches from boot, and no system call closes a pipe that is freed.
Source: kernel/sysfile.c:21-60, kernel/sysfile.c:100-124, kernel/sysfile.c:286-413,
kernel/sysfile.c:457-486, kernel/proc.c:273-359
-/

set_option autoImplicit false

namespace Xv6

open StateExcept Fs TransitionSystem

variable {p : Fin NPROC} {h d h' : Multiset (Fin NFILE)}

/-- The process of a system call stays live. -/
theorem Running.alive_update {s : FsState} {q : Fin NPROC} {pr : Proc}
    (hs : (s.proc p).alive = true) (hq : q = p → pr.alive = true) :
    (Function.update s.proc q pr p).alive = true := by
  by_cases hqp : p = q
  · subst hqp
    rw [Function.update_self]
    exact hq rfl
  · rw [Function.update_of_ne hqp]
    exact hs

/-- A descriptor of the process is cleared: its file comes into hand. -/
theorem Running.clearFd {s : FsState} {fd : Fin NOFILE} {f : Fin NFILE} (hs : Running p h d s)
    (hsome : (s.proc p).ofile fd = some f) (hin : IntoHand f h d h' 0) :
    Running p h' 0 { s with
      proc := Function.update s.proc p
        { s.proc p with ofile := Function.update (s.proc p).ofile fd none } } :=
  ⟨hs.1.setFd_none hsome hin (by simpa using fdCount_pos hsome),
    Running.alive_update hs.2 fun _ => hs.2⟩

/-- The way out of a path system call: the transaction ends, and `v` is returned. -/
theorem endOp_return_fspec {α : Type} (v : α) :
    FSpec (Running p h d) (do endOp; return v) fun _ => Running p h d :=
  (fspec_of_inner inner_endOp).bind fun _ => Spec.pure fun _ hs => hs

/-- The way out with an inode locked: it is released first. -/
theorem iunlockput_return_fspec {α : Type} (ip : Fin NINODE) (v : α) :
    FSpec (Running p h d) (do iunlockput ip; endOp; return v) fun _ => Running p h d :=
  (fspec_of_inner (inner_iunlockput ip)).bind fun _ => endOp_return_fspec v

/-- Code of the inode layer keeps the ledger and what holds of the processes. -/
theorem fspec_of_inner_proc {α : Type} {x : FsM α} (hx : Inner x) (F : (Fin NPROC → Proc) → Prop) :
    FSpec (fun s => Running p h d s ∧ F s.proc) x fun _ s => Running p h d s ∧ F s.proc :=
  (fspec_of_inner hx).and ((keepsProc_of_inner hx).triple F fun _ _ => trivial)

/-! ## Descriptors -/

theorem sys_close_fspec (fd : ℕ) : FSpec (Running p 0 0) (sys_close p fd) fun _ => Running p 0 0 := by
  unfold sys_close
  refine (argfd_fspec fd).bind fun r => ?_
  rcases r with _ | ⟨fd', f⟩
  · exact Spec.pure fun _ hs => hs.1
  -- the descriptor lets the file go into hand, and `fileclose` drops it
  refine Spec.bind (R := fun _ => Running p (f ::ₘ 0) 0)
    (Spec.modify fun s hs => hs.1.clearFd (hs.2 fd' f rfl) (IntoHand.held f 0 0)) fun _ => ?_
  exact ((fileclose_fspec f (OutOfHand.held f 0 0)).mono (fun _ hs => ⟨hs, by simp⟩)
    fun _ _ hs => hs).bind fun _ => Spec.pure fun _ hs => hs

theorem sys_dup_fspec (fd : ℕ) : FSpec (Running p 0 0) (sys_dup p fd) fun _ => Running p 0 0 := by
  unfold sys_dup
  refine (argfd_fspec fd).bind fun r => ?_
  rcases r with _ | ⟨fd', f⟩
  · exact Spec.pure fun _ hs => hs.1
  -- the new descriptor counts the file before `filedup` does
  refine ((fdalloc_fspec f (OutOfHand.debt f 0 0)).mono (fun s hs => ⟨hs.1, ?_⟩)
    fun _ _ hs => hs).bind fun r => ?_
  · simp
  rcases r with _ | fd''
  · exact Spec.pure fun _ hs => hs
  · exact (filedup_fspec f (IntoHand.debt f 0 0)).of_and.bind fun _ => Spec.pure fun _ hs => hs

/-! ## Pipes -/

/-- The failures of `sys_pipe` after `pipealloc`: both ends are closed, and the pipe with
them. -/
theorem closeEnds_fspec (rf wf : Fin NFILE) :
    FSpec (Running p (rf ::ₘ wf ::ₘ 0) 0) (do fileclose rf; fileclose wf; return (-1 : ℤ))
      fun _ => Running p 0 0 :=
  ((fileclose_fspec rf (OutOfHand.held rf (wf ::ₘ 0) 0)).mono (fun _ hs => ⟨hs, hs.1.debt_le rf⟩)
    fun _ _ hs => hs).bind fun _ =>
      ((fileclose_fspec wf (OutOfHand.held wf 0 0)).mono (fun _ hs => ⟨hs, hs.1.debt_le wf⟩)
        fun _ _ hs => hs).bind fun _ => Spec.pure fun _ hs => hs

/-- `sys_pipe`: the two ends go to two descriptors, or on any failure are closed again. -/
theorem sys_pipe_fspec (page : Option ℕ) (ok0 ok1 : Bool) :
    FSpec (Running p 0 0) (sys_pipe p page ok0 ok1) fun _ => Running p 0 0 := by
  unfold sys_pipe
  refine (pipealloc_fspec page).bind fun r => ?_
  rcases r with _ | ⟨rf, wf⟩
  · exact Spec.pure fun _ hs => hs
  refine Spec.of_pinned fun s₀ ⟨hrun₀, hne⟩ => ?_
  rw [Multiset.cons_swap] at hrun₀
  -- the read end to a descriptor
  refine Spec.bind ((fdalloc_fspec rf (OutOfHand.held rf (wf ::ₘ 0) 0)).mono (fun s hs => ?_)
    fun _ _ hs => hs) fun r0 => ?_
  · subst hs
    exact ⟨hrun₀, (hrun₀.1.debt_le rf).trans (Nat.le_succ _)⟩
  rcases r0 with _ | fd0
  · exact closeEnds_fspec rf wf
  -- the write end to a descriptor, the read end's kept
  refine Spec.bind (((fdalloc_fspec wf (OutOfHand.held wf 0 0)).and (fdalloc_keeps wf p fd0 rf)).mono
    (fun s hs => ⟨⟨hs.1, by simp⟩, hs.2⟩) fun _ _ hs => hs) fun r1 => ?_
  rcases r1 with _ | fd1
  · -- no descriptor: the read end's is cleared, and both ends are closed
    exact Spec.bind (R := fun _ => Running p (rf ::ₘ wf ::ₘ 0) 0)
      (Spec.modify fun s hs => hs.1.clearFd hs.2 (IntoHand.held rf (wf ::ₘ 0) 0))
      fun _ => closeEnds_fspec rf wf
  refine Spec.ite (fun _ => Spec.pure fun _ hs => hs.1.1) fun _ => ?_
  -- a descriptor was not copied out: both are cleared, and both ends closed
  refine Spec.bind (R := fun _ s => Running p (rf ::ₘ 0) 0 s ∧ (s.proc p).ofile fd1 = some wf)
    (Spec.modify fun s hs => ?_) fun _ => ?_
  · obtain ⟨⟨hrun, hfd1⟩, hfd0⟩ := hs
    have h10 : fd1 ≠ fd0 := fun h10 => by
      subst h10
      rw [hfd0] at hfd1
      exact hne (Option.some.inj hfd1)
    refine ⟨hrun.clearFd hfd0 (IntoHand.held rf 0 0), ?_⟩
    simp [Function.update_of_ne h10, hfd1]
  refine Spec.bind (R := fun _ => Running p (wf ::ₘ rf ::ₘ 0) 0)
    (Spec.modify fun s hs => hs.1.clearFd hs.2 (IntoHand.held wf (rf ::ₘ 0) 0)) fun _ => ?_
  rw [Multiset.cons_swap]
  exact closeEnds_fspec rf wf

/-! ## Opening and writing -/

/-- The part of `sys_open` that makes the file: on any failure it is closed again before
the inode is released. -/
theorem openInode_fspec (ip : Fin NINODE) (omode : ℕ) :
    FSpec (Running p 0 0) (openInode p ip omode) fun _ => Running p 0 0 := by
  unfold openInode
  refine Spec.get_bind fun _ => ?_
  dsimp only
  refine Spec.ite (fun _ => (iunlockput_return_fspec ip _).of_and) fun _ => ?_
  refine filealloc_fspec.of_and.bind fun r => ?_
  rcases r with _ | f
  · exact iunlockput_return_fspec ip _
  -- the file is open on nothing until the descriptor names it
  refine Spec.bind (((fdalloc_fspec f (OutOfHand.held f 0 0)).and
    ((keepsFtable_fdalloc f).triple (fun ft => (ft f).type = .none) fun _ _ => trivial)).mono
      (fun s hs => ⟨⟨hs.1, by simp⟩, hs.2.1⟩) fun _ _ hs => hs) fun r => ?_
  rcases r with _ | fd
  · exact ((fileclose_fspec f (OutOfHand.held f 0 0)).mono (fun _ hs => ⟨hs.1, by simp⟩)
      fun _ _ hs => hs).bind fun _ => iunlockput_return_fspec ip _
  -- a file the descriptor names has a reference, and is no pipe's end
  have hopen : ∀ s, (Running p 0 0 s ∧ (s.proc p).ofile fd = some f) ∧ (s.ftable f).type = .none →
      Running p 0 0 s ∧ (s.ftable f).type ≠ .pipe ∧ 0 < (s.ftable f).ref := by
    rintro s ⟨⟨hrun, hfd⟩, htype⟩
    have hc := hrun.1.count f
    have hpos := fdCount_pos hfd
    simp only [Multiset.count_zero, add_zero] at hc
    refine ⟨hrun, by rw [htype]; decide, ?_⟩
    omega
  dsimp only
  -- a device or an inode; the code after each `if` is the same in both branches
  refine Spec.ite (fun _ => ?_) fun _ => ?_
  all_goals
    refine Spec.bind (Spec.mono (modifyFile_off_pipe_fspec f _ fun _ _ => ⟨rfl, by simp⟩) hopen
      fun _ _ hs => hs) fun _ => ?_
    refine Spec.bind (modifyFile_off_pipe_fspec f _ fun _ hnp => ⟨rfl, hnp⟩) fun _ => ?_
    refine Spec.ite (fun _ => ?_) fun _ => ?_
    · exact (fspec_of_inner (inner_itrunc ip)).of_and.bind fun _ =>
        (fspec_of_inner (inner_iunlock ip)).bind fun _ => endOp_return_fspec _
    · exact (fspec_of_inner (inner_iunlock ip)).of_and.bind fun _ => endOp_return_fspec _

theorem sys_open_fspec (path : List UInt8) (omode : ℕ) :
    FSpec (Running p 0 0) (sys_open p path omode) fun _ => Running p 0 0 := by
  unfold sys_open
  refine (fspec_of_inner inner_beginOp).bind fun _ => Spec.ite (fun _ => ?_) fun _ => ?_
  · refine (fspec_of_inner (inner_create _ _ _ _ _)).bind fun r => ?_
    rcases r with _ | ip
    · exact endOp_return_fspec _
    · exact openInode_fspec ip omode
  · refine (fspec_of_inner (inner_namei _ _)).bind fun r => ?_
    rcases r with _ | ip
    · exact endOp_return_fspec _
    refine (fspec_of_inner (inner_ilock ip)).bind fun _ => Spec.get_bind fun _ => ?_
    exact Spec.ite (fun _ => (iunlockput_return_fspec ip _).of_and) fun _ =>
      (openInode_fspec ip omode).of_and

theorem filewriteLoop_fspec (f : Fin NFILE) (max : ℕ) :
    ∀ fuel src i, FSpec (Running p h 0) (filewriteLoop f max fuel src i) fun _ => Running p h 0
  | 0, _, _ => Spec.pure fun _ hs => hs
  | fuel + 1, src, i => by
    rw [filewriteLoop]
    refine Spec.ite (fun _ => Spec.pure fun _ hs => hs) fun _ => ?_
    dsimp only
    refine (fspec_of_inner inner_beginOp).bind fun _ => Spec.get_bind fun _ => ?_
    refine (fspec_of_inner (inner_ilock _)).of_and.bind fun _ => Spec.get_bind fun _ => ?_
    refine (fspec_of_inner (inner_writei _ _ _)).of_and.bind fun r => ?_
    -- the offset moves on; the file keeps its count and its end
    refine Spec.ite (fun _ => Spec.bind (modifyFile_keep_fspec f _ fun _ => ⟨rfl, rfl, rfl⟩)
      fun _ => ?_) fun _ => ?_
    all_goals
      refine (fspec_of_inner (inner_iunlock _)).bind fun _ => (fspec_of_inner inner_endOp).bind
        fun _ => ?_
      exact Spec.ite (fun _ => Spec.pure fun _ hs => hs) fun _ => filewriteLoop_fspec f max fuel _ _

theorem filewrite_fspec (f : Fin NFILE) (src : List (Option UInt8)) :
    FSpec (Running p h 0) (filewrite f src) fun _ => Running p h 0 := by
  unfold filewrite
  refine Spec.get_bind fun _ => Spec.ite (fun _ => Spec.pure fun _ hs => hs.1) fun _ => ?_
  split
  · exact Spec.pure fun _ hs => hs.1
  · exact Spec.pure fun _ hs => hs.1
  · exact Spec.throw (by decide)
  · exact (filewriteLoop_fspec f _ _ _ _).of_and.bind fun _ => Spec.pure fun _ hs => hs

theorem sys_write_fspec (fd : ℕ) (src : List (Option UInt8)) :
    FSpec (Running p 0 0) (sys_write p fd src) fun _ => Running p 0 0 := by
  unfold sys_write
  refine (argfd_fspec fd).bind fun r => ?_
  rcases r with _ | ⟨_, f⟩
  · exact Spec.pure fun _ hs => hs.1
  · exact (filewrite_fspec f src).of_and

theorem sys_chdir_fspec (path : List UInt8) :
    FSpec (Running p 0 0) (sys_chdir p path) fun _ => Running p 0 0 := by
  unfold sys_chdir
  refine (fspec_of_inner inner_beginOp).bind fun _ => (fspec_of_inner (inner_namei _ _)).bind
    fun r => ?_
  rcases r with _ | ip
  · exact endOp_return_fspec _
  refine (fspec_of_inner (inner_ilock ip)).bind fun _ => Spec.get_bind fun _ => ?_
  refine Spec.ite (fun _ => (iunlockput_return_fspec ip _).of_and) fun _ => ?_
  refine (fspec_of_inner (inner_iunlock ip)).of_and.bind fun _ => Spec.get_bind fun _ => ?_
  refine (fspec_of_inner (inner_iput _)).of_and.bind fun _ =>
    (fspec_of_inner inner_endOp).bind fun _ => ?_
  -- the new directory changes nothing the ledger counts
  refine Spec.bind (R := fun _ => Running p 0 0) (Spec.modify fun s hs => ?_) fun _ =>
    Spec.pure fun _ hs => hs
  obtain ⟨hv, halive⟩ := hs
  exact ⟨hv.setProc_ofile rfl fun h0 => absurd h0 (by simp [halive]),
    Running.alive_update halive fun _ => halive⟩

/-! ## Processes -/

/-- `fork`'s loop over the parent's descriptors: one reference more to each file they
name, in hand until the child has them. -/
theorem forkDups_fspec (pr : Proc) (π : Fin NPROC → Proc) :
    ∀ (fds : List (Fin NOFILE)) (h : Multiset (Fin NFILE)),
      FSpec (fun s => Running p h 0 s ∧ s.proc = π)
        (fds.forM fun fd => do if let some f := pr.ofile fd then filedup f)
        fun _ s => Running p (h + ↑(fds.filterMap pr.ofile)) 0 s ∧ s.proc = π := by
  intro fds
  induction fds with
  | nil =>
    intro h
    exact Spec.pure fun _ hs => by simpa using hs
  | cons fd fds ih =>
    intro h
    rw [List.forM_eq_forM, List.forM_cons, ← List.forM_eq_forM]
    cases hfd : pr.ofile fd with
    | none =>
      rw [List.filterMap_cons_none hfd]
      exact (Spec.pure fun _ hs => hs).bind fun _ => ih h
    | some f =>
      dsimp only
      -- `filedup` changes no process
      refine Spec.bind ((filedup_fspec f (IntoHand.held f h 0)).and
        ((keepsProc_filedup f).triple (· = π) fun _ _ => trivial)) fun _ =>
          (ih (f ::ₘ h)).mono (fun _ hs => hs) fun _ _ hs => ?_
      rw [List.filterMap_cons_some hfd, ← Multiset.cons_coe, Multiset.add_cons, ← Multiset.cons_add]
      exact hs

theorem fork_fspec : FSpec (Running p 0 0) (fork p) fun _ => Running p 0 0 := by
  unfold fork
  refine Spec.get_bind_of fun s₀ hrun₀ => ?_
  dsimp only
  split
  · exact Spec.pure fun _ hs => hs ▸ hrun₀
  next np hfind =>
  have hdead : (s₀.proc np).alive = false := by simpa using List.find?_some hfind
  refine Spec.bind ((forkDups_fspec (s₀.proc p) s₀.proc (List.finRange NOFILE) 0).mono
    (fun s hs => ⟨hs ▸ hrun₀, hs ▸ rfl⟩) fun _ _ hs => hs) fun _ => ?_
  refine Spec.bind (fspec_of_inner_proc (inner_idup _) (· = s₀.proc)) fun _ => ?_
  -- the child takes the references in hand
  refine Spec.bind (R := fun _ => Running p 0 0) (Spec.modify fun s hs => ?_) fun _ =>
    Spec.pure fun _ hs => hs
  obtain ⟨⟨hv, halive⟩, hπ⟩ := hs
  rw [zero_add] at hv
  refine ⟨FileInv.forkProc (h := 0) ?_ (hπ ▸ hdead) rfl, ?_⟩
  · simpa using hv
  · refine Running.alive_update halive fun _ => rfl

/-- One round of `exit`'s loop: its descriptor is clear after it, the file closed first. -/
theorem exitClose_fspec (fd : Fin NOFILE) (fds : List (Fin NOFILE)) :
    FSpec (fun s => Running p 0 0 s ∧ ∀ fd', fd' ∉ fd :: fds → (s.proc p).ofile fd' = none)
      (do
        if let some f := ((← get).proc p).ofile fd then
          fileclose f
          modifyProc p fun pr => { pr with ofile := Function.update pr.ofile fd none })
      fun _ s => Running p 0 0 s ∧ ∀ fd', fd' ∉ fds → (s.proc p).ofile fd' = none := by
  refine Spec.get_bind_of fun s₀ ⟨hrun₀, hclear₀⟩ => ?_
  -- a descriptor other than `fd` that the loop has passed was clear before
  have hpassed : ∀ fd', fd' ∉ fds → fd' ≠ fd → (s₀.proc p).ofile fd' = none := fun fd' hfds hfd =>
    hclear₀ fd' (by simp [hfd, hfds])
  split
  · next f hsome =>
    -- `fileclose` leaves the descriptor as it is, and the process clears it
    refine Spec.bind (((fileclose_fspec (p := p) f (OutOfHand.debt f 0 0)).and
      ((keepsProc_fileclose f).triple (· = s₀.proc) fun _ _ => trivial)).mono (fun s hs => ?_)
        fun _ _ hs => hs) fun _ => Spec.modify fun s hs => ?_
    · subst hs
      exact ⟨⟨hrun₀, by simpa using Nat.one_le_of_lt (fdCount_pos hsome)⟩, rfl⟩
    obtain ⟨hrun, hπ⟩ := hs
    refine ⟨hrun.clearFd (by rw [hπ]; exact hsome) (IntoHand.debt f 0 0), fun fd' hfds => ?_⟩
    by_cases hfd : fd' = fd
    · subst hfd
      simp
    · simp [Function.update_of_ne hfd, hπ, hpassed fd' hfds hfd]
  · next hnone =>
    refine Spec.pure fun s hs => ?_
    subst hs
    refine ⟨hrun₀, fun fd' hfds => ?_⟩
    by_cases hfd : fd' = fd
    · subst hfd
      exact Option.eq_none_iff_forall_ne_some.2 hnone
    · exact hpassed fd' hfds hfd

/-- `exit`: every descriptor is cleared after its file is closed, so the process that
leaves holds no file. -/
theorem exit_fspec : FSpec (Running p 0 0) (exit p) fun _ => FileInv 0 0 := by
  unfold exit
  refine Spec.ite_throw (by decide) fun _ => ?_
  refine Spec.bind ((Spec.forM (fun fds s => Running p 0 0 s ∧
    ∀ fd', fd' ∉ fds → (s.proc p).ofile fd' = none) exitClose_fspec (List.finRange NOFILE)).mono
      (fun _ hs => ⟨hs, fun fd' hfd' => absurd (List.mem_finRange fd') hfd'⟩) fun _ _ hs => hs)
    fun _ => ?_
  have hkeep : ∀ {α : Type} {x : FsM α}, Inner x →
      FSpec (fun s => Running p 0 0 s ∧ ∀ fd, (s.proc p).ofile fd = none) x
        fun _ s => Running p 0 0 s ∧ ∀ fd, (s.proc p).ofile fd = none :=
    fun hx => fspec_of_inner_proc hx fun π => ∀ fd, (π p).ofile fd = none
  refine Spec.bind ((hkeep inner_beginOp).mono (fun _ hs => ⟨hs.1, fun fd => hs.2 fd (by simp)⟩)
    fun _ _ hs => hs) fun _ => Spec.get_bind fun _ => ?_
  refine (hkeep (inner_iput _)).of_and.bind fun _ => (hkeep inner_endOp).bind fun _ => ?_
  -- the process goes with no descriptor left
  exact Spec.modify fun s ⟨⟨hv, _⟩, hclear⟩ => hv.setProc_ofile rfl fun _ => hclear

/-! ## Every step -/

theorem code_fspec (a : FsAct) : FSpec (Running a.proc 0 0) a.code fun _ => FileInv 0 0 := by
  have hdrop : ∀ {α : Type} {x : FsM α}, FSpec (Running a.proc 0 0) x (fun _ => Running a.proc 0 0) →
      FSpec (Running a.proc 0 0) (discard x) fun _ => FileInv 0 0 :=
    fun hx => Spec.discard (hx.mono (fun _ hs => hs) fun _ _ hs => hs.1)
  cases a with
  | openFile p path omode => exact hdrop (sys_open_fspec path omode)
  | close p fd => exact hdrop (sys_close_fspec fd)
  | dup p fd => exact hdrop (sys_dup_fspec fd)
  | pipe p page ok0 ok1 => exact hdrop (sys_pipe_fspec page ok0 ok1)
  | write p fd src => exact hdrop (sys_write_fspec fd src)
  | link p old new => exact hdrop (fspec_of_inner (inner_sys_link _ _ _))
  | unlink p path => exact hdrop (fspec_of_inner (inner_sys_unlink _ _))
  | mkdir p path => exact hdrop (fspec_of_inner (inner_sys_mkdir _ _))
  | mknod p path major minor => exact hdrop (fspec_of_inner (inner_sys_mknod _ _ _ _))
  | chdir p path => exact hdrop (sys_chdir_fspec path)
  | exec p path => exact hdrop (fspec_of_inner (inner_exec _ _))
  | fork p => exact hdrop fork_fspec
  | exit p => exact exit_fspec

/-- A step that moves keeps the ledger. -/
theorem fileInv_step {s s' : FsState} {a : FsAct} (hv : FileInv 0 0 s) (h : step s a = .next s') :
    FileInv 0 0 s' := by
  obtain ⟨halive, r, hrun⟩ := step_next h
  exact (code_fspec a).triple s r s' ⟨hv, halive⟩ hrun

/-- No step from a state with the ledger closes a pipe that is freed. -/
theorem step_ne_freed_pipe {s : FsState} (hv : FileInv 0 0 s) (a : FsAct) :
    step s a ≠ .panic "pipeclose: freed pipe" := by
  intro h
  obtain ⟨halive, hrun⟩ := step_panic h
  exact (code_fspec a).fails s _ ⟨hv, halive⟩ hrun rfl

/-- At boot no file is open and no pipe is allocated. -/
theorem fileInv_boot (d : Disk) : FileInv 0 0 (boot d) where
  count f := by simp [boot, File.empty, fdCount, Count.countWhere]
  debt_le f := by simp
  closed f _ := rfl
  dead p _ fd := rfl
  pipes := by
    refine ⟨fun f pa r w hf => ?_, fun pa pi w hpi => ?_, fun f f' pa r w hf hf' => ?_,
      fun pa pi hpi => ?_⟩
    all_goals simp [boot, File.empty, File.pipeEnd] at *

theorem fileInv_of_reachable (d : Disk) {s : FsState} (hs : Reachable step (boot d) s) :
    FileInv 0 0 s :=
  hs.inv (FileInv 0 0) (fileInv_boot d) fun _ _ _ _ hv h => fileInv_step hv h

end Xv6
