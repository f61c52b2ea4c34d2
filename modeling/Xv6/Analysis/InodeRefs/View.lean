import Xv6.Model.Fs.Syscall
import Xv6.Lib.StateExcept

/-!
# What the accounting of inode references reads

The references to the entries of the inode table are counted by the entries themselves,
and held by open files and by live processes' current directories. What a statement
about them reads of the state is small: each entry's count, device, inode number,
whether it has been read and its type; the type of each disk inode; each open file's
count, kind and entry; each process's liveness and current directory. That is the
`RefView` of a state.

Most of the code leaves the view as it is: the block allocator, the contents of files and
directories, the log, the descriptors of a process. This module proves so, function by
function, with the rules of `StateExcept.Keeps`. `iupdate` writes the entry's type back
to the disk and keeps the view only where the two already agree; so do `writei` and
`itrunc`, which end with it.
Source: kernel/fs.c:64-517, kernel/sysfile.c:169-182, kernel/file.c:28-57
-/

set_option autoImplicit false

namespace Xv6

open StateExcept Fs

/-- What the accounting reads of an entry of the inode table. -/
structure SlotView where
  ref : ℕ
  dev : ℕ
  inum : ℕ
  valid : Bool
  type : IType
  deriving DecidableEq

/-- What the accounting of inode references reads of the state. -/
structure RefView where
  slot : Fin NINODE → SlotView
  dtype : ℕ → IType
  file : Fin NFILE → ℕ × FdType × Fin NINODE
  proc : Fin NPROC → Bool × Fin NINODE

/-- The view of an entry of the inode table. -/
def Inode.view (ip : Inode) : SlotView :=
  ⟨ip.ref, ip.dev, ip.inum, ip.valid, ip.di.type⟩

/-- The view of an open file: its count, its kind and its entry. -/
def File.view (f : File) : ℕ × FdType × Fin NINODE :=
  (f.ref, f.type, f.ip)

/-- The view of a state. -/
def FsState.refView (s : FsState) : RefView where
  slot i := (s.itable i).view
  dtype n := (s.disk.dinode n).type
  file f := (s.ftable f).view
  proc p := ((s.proc p).alive, (s.proc p).cwd)

@[simp] theorem refView_slot (s : FsState) (i : Fin NINODE) :
    s.refView.slot i = (s.itable i).view := rfl

@[simp] theorem refView_dtype (s : FsState) (n : ℕ) :
    s.refView.dtype n = (s.disk.dinode n).type := rfl

@[simp] theorem refView_file (s : FsState) (f : Fin NFILE) :
    s.refView.file f = (s.ftable f).view := rfl

@[simp] theorem refView_proc (s : FsState) (p : Fin NPROC) :
    s.refView.proc p = ((s.proc p).alive, (s.proc p).cwd) := rfl

/-- An entry agrees with the disk on its type. -/
def RefView.coh (v : RefView) (i : Fin NINODE) : Prop :=
  (v.slot i).type = v.dtype (v.slot i).inum

namespace RefView

/-- The view with entry `i` of the inode table replaced. -/
def setSlot (v : RefView) (i : Fin NINODE) (x : SlotView) : RefView :=
  { v with slot := Function.update v.slot i x }

/-- The view with the type of disk inode `n` replaced. -/
def setDtype (v : RefView) (n : ℕ) (t : IType) : RefView :=
  { v with dtype := Function.update v.dtype n t }

/-- The view with open file `f` replaced. -/
def setFile (v : RefView) (f : Fin NFILE) (x : ℕ × FdType × Fin NINODE) : RefView :=
  { v with file := Function.update v.file f x }

/-- The view with process `p` replaced. -/
def setProc (v : RefView) (p : Fin NPROC) (x : Bool × Fin NINODE) : RefView :=
  { v with proc := Function.update v.proc p x }

@[simp] theorem setSlot_self (v : RefView) (i : Fin NINODE) : v.setSlot i (v.slot i) = v := by
  simp [setSlot]

@[simp] theorem setDtype_self (v : RefView) (n : ℕ) : v.setDtype n (v.dtype n) = v := by
  simp [setDtype]

@[simp] theorem setFile_self (v : RefView) (f : Fin NFILE) : v.setFile f (v.file f) = v := by
  simp [setFile]

@[simp] theorem setProc_self (v : RefView) (p : Fin NPROC) : v.setProc p (v.proc p) = v := by
  simp [setProc]

theorem setSlot_setSlot (v : RefView) (i : Fin NINODE) (x y : SlotView) :
    (v.setSlot i x).setSlot i y = v.setSlot i y := by
  simp [setSlot]

theorem setSlot_setDtype (v : RefView) (i : Fin NINODE) (x : SlotView) (n : ℕ) (t : IType) :
    (v.setSlot i x).setDtype n t = (v.setDtype n t).setSlot i x := rfl

end RefView

/-! ## The view of an updated state -/

theorem refView_itable (s : FsState) (i : Fin NINODE) (ip : Inode) :
    { s with itable := Function.update s.itable i ip }.refView = s.refView.setSlot i ip.view := by
  have hslot : (fun j => (Function.update s.itable i ip j).view) =
      Function.update (fun j => (s.itable j).view) i ip.view := by
    funext j
    by_cases hj : j = i
    · subst hj
      simp
    · simp [Function.update_of_ne hj]
  simp only [FsState.refView, RefView.setSlot, hslot]

theorem refView_dinode (s : FsState) (n : ℕ) (di : DInode) :
    { s with disk := { s.disk with dinode := Function.update s.disk.dinode n di } }.refView =
      s.refView.setDtype n di.type := by
  have hd : (fun m => (Function.update s.disk.dinode n di m).type) =
      Function.update (fun m => (s.disk.dinode m).type) n di.type := by
    funext m
    by_cases hm : m = n
    · subst hm
      simp
    · simp [Function.update_of_ne hm]
  simp only [FsState.refView, RefView.setDtype, hd]

theorem refView_ftable (s : FsState) (f : Fin NFILE) (ff : File) :
    { s with ftable := Function.update s.ftable f ff }.refView = s.refView.setFile f ff.view := by
  have hf : (fun g => (Function.update s.ftable f ff g).view) =
      Function.update (fun g => (s.ftable g).view) f ff.view := by
    funext g
    by_cases hg : g = f
    · subst hg
      simp
    · simp [Function.update_of_ne hg]
  simp only [FsState.refView, RefView.setFile, hf]

theorem refView_procs (s : FsState) (p : Fin NPROC) (pr : Proc) :
    { s with proc := Function.update s.proc p pr }.refView =
      s.refView.setProc p (pr.alive, pr.cwd) := by
  have hp : (fun q => ((Function.update s.proc p pr q).alive, (Function.update s.proc p pr q).cwd)) =
      Function.update (fun q => ((s.proc q).alive, (s.proc q).cwd)) p (pr.alive, pr.cwd) := by
    funext q
    by_cases hq : q = p
    · subst hq
      simp
    · simp [Function.update_of_ne hq]
  simp only [FsState.refView, RefView.setProc, hp]

/-! ## The primitive updates -/

/-- A change of an entry of the inode table that acts on its view through `G`. -/
theorem view_modifyInode (i : Fin NINODE) (g : Inode → Inode) (G : SlotView → SlotView)
    (hg : ∀ ip, (g ip).view = G ip.view) (v : RefView) :
    Triple (fun s => s.refView = v) (modifyInode i g)
      fun _ s => s.refView = v.setSlot i (G (v.slot i)) := by
  refine Triple.modify fun s hs => ?_
  rw [refView_itable, hg, ← refView_slot, hs]

/-- `iupdate` writes the entry's type to its disk inode. -/
theorem view_iupdate (i : Fin NINODE) (v : RefView) :
    Triple (fun s => s.refView = v) (iupdate i)
      fun _ s => s.refView = v.setDtype (v.slot i).inum (v.slot i).type := by
  intro s a s' hs hrun
  rw [run_iupdate] at hrun
  cases hrun
  subst hs
  exact refView_dinode s _ _

variable (c : RefView → Prop)

theorem keeps_logWrite (b : ℕ) : Keeps FsState.refView c (logWrite b) :=
  Keeps.modify fun _ _ => rfl

theorem keeps_modifyData (b : ℕ) (f : (ℕ → UInt8) → ℕ → UInt8) :
    Keeps FsState.refView c (modifyData b f) :=
  Keeps.modify fun _ _ => rfl

/-- A change of the copy of a disk inode that keeps its type. -/
theorem keeps_modifyDi (i : Fin NINODE) (f : DInode → DInode) (hf : ∀ d, (f d).type = d.type) :
    Keeps FsState.refView c (modifyDi i f) :=
  Keeps.modify fun s _ => by
    rw [refView_itable, show ({ s.itable i with di := f (s.itable i).di } : Inode).view =
      s.refView.slot i by simp [Inode.view, hf], RefView.setSlot_self]

theorem keeps_iupdate (i : Fin NINODE) :
    Keeps FsState.refView (fun v => v.coh i) (iupdate i) := by
  refine Keeps.of_run fun s a s' hc hrun => ?_
  rw [run_iupdate] at hrun
  cases hrun
  show { s with disk := _ }.refView = _
  rw [refView_dinode, show (s.itable i).di.type = s.refView.dtype (s.itable i).inum from hc,
    RefView.setDtype_self]

/-- A pipe is not in the view. -/
theorem keeps_pipeclose (pa : ℕ) (writable : Bool) : Keeps FsState.refView c (pipeclose pa writable) := by
  unfold pipeclose
  refine Keeps.get_bind fun s₀ => ?_
  split
  · exact Keeps.throw
  · exact Keeps.modify fun _ _ => rfl

theorem keeps_beginOp : Keeps FsState.refView c beginOp :=
  Keeps.modify fun _ _ => rfl

theorem keeps_endOp : Keeps FsState.refView c endOp :=
  Keeps.pure

/-- A change of a process that keeps it alive or dead in the same directory. -/
theorem keeps_modifyProc (p : Fin NPROC) (g : Proc → Proc)
    (hg : ∀ pr, (g pr).alive = pr.alive ∧ (g pr).cwd = pr.cwd) :
    Keeps FsState.refView c (modifyProc p g) := by
  refine Keeps.modify fun s _ => ?_
  rw [refView_procs, (hg _).1, (hg _).2]
  exact RefView.setProc_self _ _

/-- A change of an open file that keeps its count, kind and entry. -/
theorem keeps_modifyFile (f : Fin NFILE) (g : File → File) (hg : ∀ ff, (g ff).view = ff.view) :
    Keeps FsState.refView c (modifyFile f g) := by
  refine Keeps.modify fun s _ => ?_
  rw [refView_ftable, hg]
  exact RefView.setFile_self _ _

theorem keeps_argfd (p : Fin NPROC) (fd : ℕ) : Keeps FsState.refView c (argfd p fd) := by
  unfold argfd
  split
  · exact Keeps.get_bind fun _ => Keeps.pure
  · exact Keeps.pure

theorem keeps_fdalloc (p : Fin NPROC) (f : Fin NFILE) : Keeps FsState.refView c (fdalloc p f) := by
  unfold fdalloc
  refine Keeps.get_bind fun _ => ?_
  split
  · exact Keeps.pure
  · exact (keeps_modifyProc c _ _ (by intro; exact ⟨rfl, rfl⟩)).bind fun _ => Keeps.pure

/-! ## Blocks and file contents -/

theorem keeps_bzero (dev b : ℕ) : Keeps FsState.refView c (bzero dev b) :=
  (keeps_modifyData c _ _).bind fun _ => keeps_logWrite c _

theorem keeps_balloc (dev : ℕ) : Keeps FsState.refView c (balloc dev) := by
  intro v hv
  unfold balloc
  refine Triple.get_bind fun s₀ => ?_
  split
  · exact Triple.throw
  · refine Triple.bind (Triple.set fun s hs => ?_) fun _ =>
      ((keeps_logWrite c _).bind fun _ => (keeps_bzero c _ _).bind fun _ => Keeps.pure) v hv
    rw [← hs.1, hs.2]
    rfl

theorem keeps_bfree (dev b : ℕ) : Keeps FsState.refView c (bfree dev b) := by
  refine Keeps.of_run fun s a s' _ hrun => ?_
  rw [run_bfree] at hrun
  split at hrun
  · cases hrun
    rfl
  · cases hrun

theorem keeps_bmap (i : Fin NINODE) (bn : ℕ) : Keeps FsState.refView c (bmap i bn) := by
  unfold bmap
  refine Keeps.get_bind fun s₀ => ?_
  have hnew : ∀ k, Keeps FsState.refView c (do
      let addr ← balloc (s₀.itable i).dev
      modifyDi i fun d => { d with addrs := Function.update d.addrs k addr }
      pure addr) := fun _ =>
    (keeps_balloc c _).bind fun _ => (keeps_modifyDi c _ _ (by intro; rfl)).bind fun _ => Keeps.pure
  split
  · exact Keeps.ite (fun _ => hnew _) fun _ => Keeps.pure
  · dsimp only
    refine Keeps.ite (fun _ => ?_) fun _ => Keeps.throw
    -- the rest of the indirect case, after the indirect block is known
    have hind : ∀ ind, Keeps FsState.refView c (do
        let s ← get
        if getWord (s.disk.data ind) (bn - NDIRECT) = 0 then do
          let addr ← balloc (s₀.itable i).dev
          modifyData ind fun blk => setWord blk (bn - NDIRECT) addr
          logWrite ind
          pure addr
        else pure (getWord (s.disk.data ind) (bn - NDIRECT))) := fun _ =>
      Keeps.get_bind fun _ => Keeps.ite (fun _ => (keeps_balloc c _).bind fun _ =>
        (keeps_modifyData c _ _).bind fun _ => (keeps_logWrite c _).bind fun _ => Keeps.pure)
        fun _ => Keeps.pure
    exact Keeps.ite (fun _ => (keeps_balloc c _).bind fun _ =>
      (keeps_modifyDi c _ _ (by intro; rfl)).bind fun _ => hind _) fun _ => hind _

theorem keeps_readiLoop (i : Fin NINODE) :
    ∀ fuel off rem, Keeps FsState.refView c (readiLoop i fuel off rem)
  | 0, _, _ => Keeps.pure
  | fuel + 1, off, rem => by
    rw [readiLoop]
    exact Keeps.ite (fun _ => Keeps.pure) fun _ => (keeps_bmap c _ _).bind fun _ =>
      Keeps.get_bind fun _ => (keeps_readiLoop i fuel _ _).bind fun _ => Keeps.pure

theorem keeps_readi (i : Fin NINODE) (off n : ℕ) : Keeps FsState.refView c (readi i off n) := by
  unfold readi
  exact Keeps.get_bind fun _ => Keeps.ite (fun _ => Keeps.pure) fun _ => keeps_readiLoop c i _ _ _

theorem keeps_writeiLoop (i : Fin NINODE) :
    ∀ fuel src off tot, Keeps FsState.refView c (writeiLoop i fuel src off tot)
  | 0, _, _, _ => Keeps.pure
  | fuel + 1, src, off, tot => by
    rw [writeiLoop]
    refine Keeps.ite (fun _ => Keeps.pure) fun _ => (keeps_bmap c _ _).bind fun _ => ?_
    dsimp only
    split
    · exact (keeps_modifyData c _ _).bind fun _ => Keeps.pure
    · exact (keeps_modifyData c _ _).bind fun _ => (keeps_logWrite c _).bind fun _ =>
        keeps_writeiLoop i fuel _ _ _

/-- `writei` ends with `iupdate`, so it keeps the view of an entry that agrees with the
disk. -/
theorem keeps_writei (i : Fin NINODE) (src : List (Option UInt8)) (off : ℕ) :
    Keeps FsState.refView (fun v => v.coh i) (writei i src off) := by
  unfold writei
  refine Keeps.get_bind fun _ => Keeps.ite (fun _ => Keeps.pure) fun _ =>
    Keeps.ite (fun _ => Keeps.pure) fun _ => (keeps_writeiLoop _ i _ _ _ _).bind fun r => ?_
  obtain ⟨tot, off'⟩ := r
  have hend : Keeps FsState.refView (fun v => v.coh i) (do iupdate i; pure (tot : ℤ)) :=
    (keeps_iupdate i).bind fun _ => Keeps.pure
  refine Keeps.get_bind fun _ => ?_
  dsimp only
  exact Keeps.ite (fun _ => (keeps_modifyDi _ _ _ (by intro; rfl)).bind fun _ => hend) fun _ => hend

theorem keeps_itruncDirect (i : Fin NINODE) (k : Fin NDIRECT) :
    Keeps FsState.refView c (itruncDirect i k) := by
  unfold itruncDirect
  exact Keeps.get_bind fun _ => Keeps.ite (fun _ => (keeps_bfree c _ _).bind fun _ =>
    keeps_modifyDi c _ _ (by intro; rfl)) fun _ => Keeps.pure

theorem keeps_itruncIndirect (i : Fin NINODE) : Keeps FsState.refView c (itruncIndirect i) := by
  unfold itruncIndirect
  refine Keeps.get_bind fun _ => Keeps.ite (fun _ => Keeps.get_bind fun _ => ?_) fun _ => Keeps.pure
  exact (Keeps.forM (fun _ => Keeps.ite (fun _ => keeps_bfree c _ _) fun _ => Keeps.pure) _).bind
    fun _ => (keeps_bfree c _ _).bind fun _ => keeps_modifyDi c _ _ (by intro; rfl)

/-- `itrunc` ends with `iupdate`, so it keeps the view of an entry that agrees with the
disk. -/
theorem keeps_itrunc (i : Fin NINODE) : Keeps FsState.refView (fun v => v.coh i) (itrunc i) := by
  unfold itrunc
  exact (Keeps.forM (keeps_itruncDirect _ i) _).bind fun _ => (keeps_itruncIndirect _ i).bind
    fun _ => (keeps_modifyDi _ _ _ (by intro; rfl)).bind fun _ => keeps_iupdate i

theorem keeps_iunlock (i : Fin NINODE) : Keeps FsState.refView c (iunlock i) := by
  unfold iunlock
  exact Keeps.get_bind fun _ => Keeps.ite (fun _ => Keeps.throw) fun _ => Keeps.pure

/-! ## Directories -/

theorem keeps_emptyDirentLoop (dp : Fin NINODE) (last : ℕ) :
    ∀ offs, Keeps FsState.refView c (emptyDirentLoop dp last offs)
  | [] => Keeps.pure
  | off :: offs => by
    rw [emptyDirentLoop]
    refine (keeps_readi c _ _ _).bind fun _ => ?_
    dsimp only
    refine Keeps.ite (fun _ => Keeps.throw.bind fun _ => ?_) fun _ => ?_
    all_goals exact Keeps.ite (fun _ => Keeps.pure) fun _ => keeps_emptyDirentLoop dp last offs

theorem keeps_isdirempty_loop (dp : Fin NINODE) :
    ∀ offs, Keeps FsState.refView c (isdirempty.loop dp offs)
  | [] => Keeps.pure
  | off :: offs => by
    rw [isdirempty.loop]
    refine (keeps_readi c _ _ _).bind fun _ => ?_
    dsimp only
    refine Keeps.ite (fun _ => Keeps.throw.bind fun _ => ?_) fun _ => ?_
    all_goals exact Keeps.ite (fun _ => Keeps.pure) fun _ => keeps_isdirempty_loop dp offs

theorem keeps_isdirempty (dp : Fin NINODE) : Keeps FsState.refView c (isdirempty dp) := by
  unfold isdirempty
  exact Keeps.get_bind fun _ => keeps_isdirempty_loop c dp _

end Xv6
