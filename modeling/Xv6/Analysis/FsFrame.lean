import Xv6.Model.Fs.System
import Xv6.Lib.StateExcept

/-!
# The inode layer leaves the open files alone

The block allocator, the inode table, file contents and directories (`fs.c`) write the
disk, the inode table and the record of logged blocks, and nothing else: the open-file
table, the processes and the pipes come through each of their functions as they were.
`FsState.outer` is that part of the state. None of these functions closes a pipe either,
so none of their panics is `pipeclose`'s on a freed pipe. The lemmas below prove both,
function by function, with the rules of `StateExcept.Confined`, and so for the system
calls made of those functions alone (`link`, `unlink`, `mkdir`, `mknod`, `exec`). A
property of the open-file layer then holds across them by `Keeps.triple`.
Source: kernel/fs.c:64-517, kernel/fs.c:527-680, kernel/sysfile.c:100-345
-/

set_option autoImplicit false

namespace Xv6

open StateExcept

/-- The open-file table, the processes and the pipes. -/
def FsState.outer (s : FsState) :
    (Fin NFILE → File) × (Fin NPROC → Proc) × (ℕ → Option (Pipe UInt8)) :=
  (s.ftable, s.proc, s.pipes)

namespace Fs

/-- `x` is code of the inode layer: it leaves the open-file layer as it found it, and
does not stop on a freed pipe. -/
abbrev Inner {α : Type} (x : FsM α) : Prop :=
  Confined FsState.outer (· ≠ "pipeclose: freed pipe") x

/-! ## Blocks and the inode table -/

theorem inner_logWrite (b : ℕ) : Inner (logWrite b) :=
  Confined.modify fun _ => rfl

theorem inner_modifyInode (i : Fin NINODE) (g : Inode → Inode) :
    Inner (modifyInode i g) :=
  Confined.modify fun _ => rfl

theorem inner_modifyDi (i : Fin NINODE) (g : DInode → DInode) : Inner (modifyDi i g) :=
  inner_modifyInode i _

theorem inner_modifyData (b : ℕ) (g : (ℕ → UInt8) → ℕ → UInt8) :
    Inner (modifyData b g) :=
  Confined.modify fun _ => rfl

theorem inner_beginOp : Inner beginOp :=
  Confined.modify fun _ => rfl

theorem inner_endOp : Inner endOp :=
  Confined.pure

theorem inner_bzero (dev b : ℕ) : Inner (bzero dev b) :=
  (inner_modifyData _ _).bind fun _ => inner_logWrite _

theorem inner_balloc (dev : ℕ) : Inner (balloc dev) := by
  unfold balloc
  refine ⟨fun v hv => Triple.get_bind fun s₀ => ?_, FailsWith.get_bind fun _ => ?_⟩
  · split
    · exact Triple.throw
    · -- the bitmap is the disk's
      refine Triple.bind (Triple.set fun s hs => ?_) fun _ =>
        ((inner_logWrite _).bind fun _ => (inner_bzero _ _).bind fun _ => Confined.pure).keeps v hv
      rw [← hs.1, hs.2]
      rfl
  · split
    · exact FailsWith.throw (by decide)
    · exact FailsWith.set.bind_any fun _ =>
        ((inner_logWrite _).bind fun _ => (inner_bzero _ _).bind fun _ => Confined.pure).fails

theorem inner_bfree (dev b : ℕ) : Inner (bfree dev b) := by
  refine ⟨Keeps.of_run fun s a s' _ hrun => ?_, fun s e _ hrun => ?_⟩
  all_goals
    rw [run_bfree] at hrun
    split at hrun
  · cases hrun
    rfl
  · cases hrun
  · cases hrun
  · cases hrun
    decide

theorem inner_iupdate (i : Fin NINODE) : Inner (iupdate i) := by
  refine ⟨Keeps.of_run fun s a s' _ hrun => ?_, fun s e _ hrun => ?_⟩
  all_goals
    rw [run_iupdate] at hrun
    cases hrun
  rfl

theorem inner_iget (dev inum : ℕ) : Inner (iget dev inum) := by
  unfold iget
  refine Confined.get_bind fun _ => ?_
  split
  · exact (inner_modifyInode _ _).bind fun _ => Confined.pure
  · split
    · exact Confined.throw (by decide)
    · exact (inner_modifyInode _ _).bind fun _ => Confined.pure

theorem inner_idup (i : Fin NINODE) : Inner (idup i) :=
  inner_modifyInode i _

theorem inner_ialloc (dev : ℕ) (type : IType) : Inner (ialloc dev type) := by
  unfold ialloc
  refine ⟨fun v hv => Triple.get_bind fun s₀ => ?_, FailsWith.get_bind fun _ => ?_⟩
  · split
    · exact Triple.throw
    · -- the disk inode is the disk's
      refine Triple.bind (Triple.set fun s hs => ?_) fun _ =>
        ((inner_logWrite _).bind fun _ => inner_iget _ _).keeps v hv
      rw [← hs.1, hs.2]
      rfl
  · split
    · exact FailsWith.throw (by decide)
    · exact FailsWith.set.bind_any fun _ => ((inner_logWrite _).bind fun _ => inner_iget _ _).fails

theorem inner_ilock (i : Fin NINODE) : Inner (ilock i) := by
  unfold ilock
  refine Confined.get_bind fun _ => ?_
  dsimp only
  refine Confined.ite (fun _ => (Confined.throw (by decide)).bind fun _ => ?_) fun _ => ?_
  all_goals exact Confined.ite (fun _ => Confined.get_bind fun _ => (inner_modifyInode i _).bind
    fun _ => Confined.ite (fun _ => Confined.throw (by decide)) fun _ => Confined.pure) fun _ => Confined.pure

theorem inner_iunlock (i : Fin NINODE) : Inner (iunlock i) := by
  unfold iunlock
  exact Confined.get_bind fun _ => Confined.ite (fun _ => Confined.throw (by decide)) fun _ => Confined.pure

/-! ## File contents -/

theorem inner_bmap (i : Fin NINODE) (bn : ℕ) : Inner (bmap i bn) := by
  unfold bmap
  refine Confined.get_bind fun s₀ => ?_
  split
  · exact Confined.ite (fun _ => (inner_balloc _).bind fun _ =>
      (inner_modifyDi _ _).bind fun _ => Confined.pure) fun _ => Confined.pure
  · dsimp only
    refine Confined.ite (fun _ => ?_) fun _ => Confined.throw (by decide)
    -- the rest of the indirect case, after the indirect block is known
    have hind : ∀ ind, Inner (do
        let s ← get
        if getWord (s.disk.data ind) (bn - NDIRECT) = 0 then do
          let addr ← balloc (s₀.itable i).dev
          modifyData ind fun blk => setWord blk (bn - NDIRECT) addr
          logWrite ind
          pure addr
        else pure (getWord (s.disk.data ind) (bn - NDIRECT))) := fun _ =>
      Confined.get_bind fun _ => Confined.ite (fun _ => (inner_balloc _).bind fun _ =>
        (inner_modifyData _ _).bind fun _ => (inner_logWrite _).bind fun _ => Confined.pure)
        fun _ => Confined.pure
    exact Confined.ite (fun _ => (inner_balloc _).bind fun _ =>
      (inner_modifyDi _ _).bind fun _ => hind _) fun _ => hind _

theorem inner_itruncDirect (i : Fin NINODE) (k : Fin NDIRECT) :
    Inner (itruncDirect i k) := by
  unfold itruncDirect
  exact Confined.get_bind fun _ => Confined.ite (fun _ => (inner_bfree _ _).bind fun _ =>
    inner_modifyDi _ _) fun _ => Confined.pure

theorem inner_itruncIndirect (i : Fin NINODE) : Inner (itruncIndirect i) := by
  unfold itruncIndirect
  refine Confined.get_bind fun _ => Confined.ite (fun _ => Confined.get_bind fun _ => ?_) fun _ => Confined.pure
  exact (Confined.forM (fun _ => Confined.ite (fun _ => inner_bfree _ _) fun _ => Confined.pure) _).bind
    fun _ => (inner_bfree _ _).bind fun _ => inner_modifyDi _ _

theorem inner_itrunc (i : Fin NINODE) : Inner (itrunc i) := by
  unfold itrunc
  exact (Confined.forM (inner_itruncDirect i) _).bind fun _ => (inner_itruncIndirect i).bind
    fun _ => (inner_modifyDi _ _).bind fun _ => inner_iupdate i

theorem inner_iput (i : Fin NINODE) : Inner (iput i) := by
  unfold iput
  refine Confined.get_bind fun _ => ?_
  dsimp only
  refine Confined.ite (fun _ => ?_) fun _ => inner_modifyInode i _
  exact (inner_itrunc i).bind fun _ => (inner_modifyInode i _).bind fun _ =>
    (inner_iupdate i).bind fun _ => (inner_modifyInode i _).bind fun _ =>
      inner_modifyInode i _

theorem inner_iunlockput (i : Fin NINODE) : Inner (iunlockput i) :=
  (inner_iunlock i).bind fun _ => inner_iput i

theorem inner_readiLoop (i : Fin NINODE) :
    ∀ fuel off rem, Inner (readiLoop i fuel off rem)
  | 0, _, _ => Confined.pure
  | fuel + 1, off, rem => by
    rw [readiLoop]
    exact Confined.ite (fun _ => Confined.pure) fun _ => (inner_bmap _ _).bind fun _ =>
      Confined.get_bind fun _ => (inner_readiLoop i fuel _ _).bind fun _ => Confined.pure

theorem inner_readi (i : Fin NINODE) (off n : ℕ) : Inner (readi i off n) := by
  unfold readi
  exact Confined.get_bind fun _ => Confined.ite (fun _ => Confined.pure) fun _ => inner_readiLoop i _ _ _

theorem inner_writeiLoop (i : Fin NINODE) :
    ∀ fuel src off tot, Inner (writeiLoop i fuel src off tot)
  | 0, _, _, _ => Confined.pure
  | fuel + 1, src, off, tot => by
    rw [writeiLoop]
    refine Confined.ite (fun _ => Confined.pure) fun _ => (inner_bmap _ _).bind fun _ => ?_
    dsimp only
    split
    · exact (inner_modifyData _ _).bind fun _ => Confined.pure
    · exact (inner_modifyData _ _).bind fun _ => (inner_logWrite _).bind fun _ =>
        inner_writeiLoop i fuel _ _ _

theorem inner_writei (i : Fin NINODE) (src : List (Option UInt8)) (off : ℕ) :
    Inner (writei i src off) := by
  unfold writei
  refine Confined.get_bind fun _ => Confined.ite (fun _ => Confined.pure) fun _ =>
    Confined.ite (fun _ => Confined.pure) fun _ => (inner_writeiLoop i _ _ _ _).bind fun r => ?_
  obtain ⟨tot, off'⟩ := r
  have hend : Inner (do iupdate i; pure (tot : ℤ)) :=
    (inner_iupdate i).bind fun _ => Confined.pure
  refine Confined.get_bind fun _ => ?_
  dsimp only
  exact Confined.ite (fun _ => (inner_modifyDi _ _).bind fun _ => hend) fun _ => hend

/-! ## Directories and path names -/

theorem inner_dirlookupLoop (dp : Fin NINODE) (name : List UInt8) :
    ∀ offs, Inner (dirlookupLoop dp name offs)
  | [] => Confined.pure
  | off :: offs => by
    rw [dirlookupLoop]
    refine (inner_readi dp off 16).bind fun _ => ?_
    dsimp only
    have hfound : ∀ inum, Inner (do
        let s ← get
        let ip ← iget (s.itable dp).dev inum
        pure (some (ip, off))) := fun _ =>
      Confined.get_bind fun _ => (inner_iget _ _).bind fun _ => Confined.pure
    refine Confined.ite (fun _ => (Confined.throw (by decide)).bind fun _ => ?_) fun _ => ?_
    all_goals
      refine Confined.ite (fun _ => inner_dirlookupLoop dp name offs) fun _ => ?_
      exact Confined.ite (fun _ => hfound _) fun _ => inner_dirlookupLoop dp name offs

theorem inner_dirlookup (dp : Fin NINODE) (name : List UInt8) :
    Inner (dirlookup dp name) := by
  unfold dirlookup
  refine Confined.get_bind fun _ => ?_
  dsimp only
  refine Confined.ite (fun _ => (Confined.throw (by decide)).bind fun _ => ?_) fun _ => ?_
  all_goals exact inner_dirlookupLoop dp name _

theorem inner_emptyDirentLoop (dp : Fin NINODE) (last : ℕ) :
    ∀ offs, Inner (emptyDirentLoop dp last offs)
  | [] => Confined.pure
  | off :: offs => by
    rw [emptyDirentLoop]
    refine (inner_readi _ _ _).bind fun _ => ?_
    dsimp only
    refine Confined.ite (fun _ => (Confined.throw (by decide)).bind fun _ => ?_) fun _ => ?_
    all_goals exact Confined.ite (fun _ => Confined.pure) fun _ => inner_emptyDirentLoop dp last offs

theorem inner_dirlink (dp : Fin NINODE) (name : List UInt8) (inum : ℕ) :
    Inner (dirlink dp name inum) := by
  unfold dirlink
  refine (inner_dirlookup dp name).bind fun r => ?_
  split
  · exact (inner_iput _).bind fun _ => Confined.pure
  · refine Confined.get_bind fun _ => (inner_emptyDirentLoop _ _ _).bind fun _ =>
      (inner_writei _ _ _).bind fun _ => ?_
    exact Confined.ite (fun _ => (Confined.throw (by decide)).bind fun _ => Confined.pure) fun _ => Confined.pure

theorem inner_namexLoop (np : Bool) :
    ∀ fuel ip path name, Inner (namexLoop np fuel ip path name)
  | 0, _, _, _ => Confined.pure
  | fuel + 1, ip, path, name => by
    rw [namexLoop]
    split
    · exact Confined.ite (fun _ => (inner_iput ip).bind fun _ => Confined.pure) fun _ => Confined.pure
    · refine (inner_ilock ip).bind fun _ => Confined.get_bind fun _ => ?_
      refine Confined.ite (fun _ => (inner_iunlockput ip).bind fun _ => Confined.pure) fun _ =>
        Confined.ite (fun _ => (inner_iunlock ip).bind fun _ => Confined.pure)
          fun _ => (inner_dirlookup ip _).bind fun r => ?_
      rcases r with _ | ⟨next, off⟩
      · exact (inner_iunlockput ip).bind fun _ => Confined.pure
      · exact (inner_iunlockput ip).bind fun _ => inner_namexLoop np fuel next _ _

theorem inner_namex (p : Fin NPROC) (path : List UInt8) (np : Bool) :
    Inner (namex p path np) := by
  unfold namex
  dsimp only
  exact Confined.ite (fun _ => (inner_iget _ _).bind fun _ => inner_namexLoop np _ _ _ _)
    fun _ => Confined.get_bind fun _ => (inner_idup _).bind fun _ =>
      Confined.pure.bind fun _ => inner_namexLoop np _ _ _ _

theorem inner_namei (p : Fin NPROC) (path : List UInt8) : Inner (namei p path) :=
  (inner_namex p path false).bind fun _ => Confined.pure

theorem inner_nameiparent (p : Fin NPROC) (path : List UInt8) :
    Inner (nameiparent p path) :=
  inner_namex p path true

theorem inner_isdirempty (dp : Fin NINODE) : Inner (isdirempty dp) := by
  -- the loop over the entries past `.` and `..`
  have hloop : ∀ offs, Inner (isdirempty.loop dp offs) := by
    intro offs
    induction offs with
    | nil => exact Confined.pure
    | cons off offs ih =>
      rw [isdirempty.loop]
      refine (inner_readi _ _ _).bind fun _ => ?_
      dsimp only
      refine Confined.ite (fun _ => (Confined.throw (by decide)).bind fun _ => ?_) fun _ => ?_
      all_goals exact Confined.ite (fun _ => Confined.pure) fun _ => ih
  unfold isdirempty
  exact Confined.get_bind fun _ => hloop _

/-! ## System calls of the inode layer alone -/

theorem inner_create (p : Fin NPROC) (path : List UInt8) (type : IType) (major minor : ℤ) :
    Inner (create p path type major minor) := by
  unfold create
  refine (inner_nameiparent p path).bind fun r => ?_
  rcases r with _ | ⟨dp, name⟩
  · exact Confined.pure
  refine (inner_ilock dp).bind fun _ => (inner_dirlookup dp name).bind fun r => ?_
  rcases r with _ | ⟨ip, _⟩
  · -- a new inode, with `.` and `..` for a directory, linked into the parent
    dsimp only
    refine Confined.get_bind fun _ => (inner_ialloc _ _).bind fun ip => (inner_ilock ip).bind
      fun _ => (inner_modifyDi _ _).bind fun _ => (inner_iupdate _).bind fun _ => ?_
    refine Confined.ite (fun _ => ?_) fun _ => ?_
    -- a directory gets `.` and `..` first; both branches then link the name into `dp`
    refine (inner_modifyDi _ _).bind fun _ => (inner_iupdate _).bind fun _ =>
      Confined.get_bind fun _ => (inner_dirlink _ _ _).bind fun _ => Confined.ite_throw (by decide) ?_
    refine Confined.get_bind fun _ => (inner_dirlink _ _ _).bind fun _ => Confined.ite_throw (by decide) ?_
    all_goals exact Confined.get_bind fun _ => (inner_dirlink _ _ _).bind fun _ =>
      Confined.ite_throw (by decide) ((inner_iunlockput dp).bind fun _ => Confined.pure)
  · -- the name exists
    dsimp only
    refine (inner_iunlockput dp).bind fun _ => (inner_ilock ip).bind fun _ =>
      Confined.get_bind fun _ => ?_
    exact Confined.ite (fun _ => Confined.pure) fun _ => (inner_iunlockput ip).bind fun _ => Confined.pure

theorem inner_linkBad (ip : Fin NINODE) : Inner (linkBad ip) :=
  (inner_ilock ip).bind fun _ => (inner_modifyDi _ _).bind fun _ =>
    (inner_iupdate ip).bind fun _ => (inner_iunlockput ip).bind fun _ =>
      inner_endOp.bind fun _ => Confined.pure

theorem inner_sys_link (p : Fin NPROC) (old new : List UInt8) :
    Inner (sys_link p old new) := by
  unfold sys_link
  refine inner_beginOp.bind fun _ => (inner_namei p old).bind fun r => ?_
  rcases r with _ | ip
  · exact inner_endOp.bind fun _ => Confined.pure
  refine (inner_ilock ip).bind fun _ => Confined.get_bind fun _ => Confined.ite
    (fun _ => (inner_iunlockput ip).bind fun _ => inner_endOp.bind fun _ => Confined.pure)
    fun _ => ?_
  refine (inner_modifyDi _ _).bind fun _ => (inner_iupdate ip).bind fun _ =>
    (inner_iunlock ip).bind fun _ => (inner_nameiparent p new).bind fun r => ?_
  rcases r with _ | ⟨dp, name⟩
  · exact inner_linkBad ip
  refine (inner_ilock dp).bind fun _ => Confined.get_bind fun _ => Confined.get_bind fun _ =>
    Confined.ite (fun _ => (inner_iunlockput dp).bind fun _ => inner_linkBad ip)
    fun _ => Confined.get_bind fun _ => (inner_dirlink _ _ _).bind fun _ => ?_
  exact Confined.ite (fun _ => (inner_iunlockput dp).bind fun _ => inner_linkBad ip)
    fun _ => (inner_iunlockput dp).bind fun _ => (inner_iput ip).bind fun _ =>
      inner_endOp.bind fun _ => Confined.pure

theorem inner_unlinkBad (dp : Fin NINODE) : Inner (unlinkBad dp) :=
  (inner_iunlockput dp).bind fun _ => inner_endOp.bind fun _ => Confined.pure

theorem inner_sys_unlink (p : Fin NPROC) (path : List UInt8) :
    Inner (sys_unlink p path) := by
  unfold sys_unlink
  refine inner_beginOp.bind fun _ => (inner_nameiparent p path).bind fun r => ?_
  rcases r with _ | ⟨dp, name⟩
  · exact inner_endOp.bind fun _ => Confined.pure
  refine (inner_ilock dp).bind fun _ => Confined.ite (fun _ => inner_unlinkBad dp)
    fun _ => (inner_dirlookup dp name).bind fun r => ?_
  rcases r with _ | ⟨ip, off⟩
  · exact inner_unlinkBad dp
  refine (inner_ilock ip).bind fun _ => Confined.get_bind fun _ => Confined.ite_throw (by decide) ?_
  -- the entry is cleared, then the directory and the inode lose a link
  have htail : Inner (do
      iunlockput dp
      modifyDi ip fun d => { d with nlink := d.nlink - 1 }
      iupdate ip
      iunlockput ip
      endOp
      pure (0 : ℤ)) :=
    (inner_iunlockput dp).bind fun _ => (inner_modifyDi _ _).bind fun _ =>
      (inner_iupdate ip).bind fun _ => (inner_iunlockput ip).bind fun _ =>
        inner_endOp.bind fun _ => Confined.pure
  refine Confined.get_bind fun _ => ?_
  dsimp only
  refine Confined.ite (fun _ => (Confined.map (inner_isdirempty ip)).bind fun _ => ?_)
    fun _ => Confined.pure.bind fun _ => ?_
  -- `isdirempty` decides whether the inode is busy
  all_goals
    refine Confined.ite (fun _ => (inner_iunlockput ip).bind fun _ => inner_unlinkBad dp)
      fun _ => (inner_writei _ _ _).bind fun _ => Confined.ite_throw (by decide) (Confined.get_bind fun _ => ?_)
    exact Confined.ite (fun _ => (inner_modifyDi _ _).bind fun _ =>
      (inner_iupdate dp).bind fun _ => htail) fun _ => htail

theorem inner_sys_mkdir (p : Fin NPROC) (path : List UInt8) : Inner (sys_mkdir p path) := by
  unfold sys_mkdir
  refine inner_beginOp.bind fun _ => (inner_create _ _ _ _ _).bind fun r => ?_
  rcases r with _ | ip
  · exact inner_endOp.bind fun _ => Confined.pure
  · exact (inner_iunlockput ip).bind fun _ => inner_endOp.bind fun _ => Confined.pure

theorem inner_sys_mknod (p : Fin NPROC) (path : List UInt8) (major minor : ℤ) :
    Inner (sys_mknod p path major minor) := by
  unfold sys_mknod
  refine inner_beginOp.bind fun _ => (inner_create _ _ _ _ _).bind fun r => ?_
  rcases r with _ | ip
  · exact inner_endOp.bind fun _ => Confined.pure
  · exact (inner_iunlockput ip).bind fun _ => inner_endOp.bind fun _ => Confined.pure

theorem inner_exec (p : Fin NPROC) (path : List UInt8) : Inner (exec p path) := by
  unfold exec
  refine inner_beginOp.bind fun _ => (inner_namei p path).bind fun r => ?_
  rcases r with _ | ip
  · exact inner_endOp.bind fun _ => Confined.pure
  · exact (inner_ilock ip).bind fun _ => (inner_readi _ _ _).bind fun _ =>
      (inner_iunlockput ip).bind fun _ => inner_endOp.bind fun _ => Confined.pure

end Fs

end Xv6
