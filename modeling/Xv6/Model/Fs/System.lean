import Xv6.Model.Fs.Syscall
import Xv6.Lib.Reach

/-!
# The file system as a transition system

The image `mkfs` writes, the state `userinit` leaves, and a step for each system call
of a live process. A system call runs to its end in one step, its panics stopping the
machine with their text: xv6 holds an inode's sleep-lock across every use of it, and
the runs below are those of one process after another.
Source: mkfs/mkfs.c:69-171, kernel/proc.c:222-247, kernel/exec.c:12-31
-/

set_option autoImplicit false

namespace Xv6.Fs

open TransitionSystem

/-- The blocks of the log, the inodes and the bitmap that `mkfs` lays out for a disk of
`fssize` blocks: boot block, superblock, log, inode blocks, bitmap blocks. -/
def nmeta (fssize : ℕ) : ℕ :=
  2 + LOGSIZE + (NINODES / IPB + 1) + (fssize / BPB + 1)

/-- The superblock `mkfs` writes. -/
def mkfsSb (fssize : ℕ) : Superblock where
  size := fssize
  nblocks := fssize - nmeta fssize
  ninodes := NINODES
  nlog := LOGSIZE
  logstart := 2
  inodestart := 2 + LOGSIZE
  bmapstart := 2 + LOGSIZE + (NINODES / IPB + 1)

/-- The root directory's first block: `.` and `..`, both naming the root. -/
def rootBlock : List UInt8 :=
  Dirent.encode ⟨ROOTINO, [46]⟩ ++ Dirent.encode ⟨ROOTINO, [46, 46]⟩

/-- The root inode of the image: a directory with one link, whose size `mkfs` rounds up
to a whole block. -/
def rootDinode (fssize : ℕ) : DInode where
  type := .dir
  major := 0
  minor := 0
  nlink := 1
  size := BSIZE
  addrs k := if k = 0 then nmeta fssize else 0

/-- The image `mkfs` builds with no user files: the root directory in the first data
block and the blocks up to it marked in use. Written here as the system's boot image;
`Xv6.Fs.Mkfs.image_nil` shows that `main` of `mkfs.c`, run on no file, writes it. -/
def mkfs (fssize : ℕ) : Disk where
  sb := mkfsSb fssize
  used b := decide (b < nmeta fssize + 1)
  dinode inum := if inum = ROOTINO then rootDinode fssize else DInode.zero
  data b k := if b = nmeta fssize then rootBlock.getD k 0 else 0

/-- An unused entry of the inode table. -/
def Inode.empty : Inode := ⟨0, 0, 0, false, DInode.zero⟩

/-- An unused entry of the open-file table. -/
def File.empty : File := ⟨.none, 0, false, false, 0, 0, 0, 0⟩

/-- The state after `userinit`: process 0 is `init`, whose current directory is the
root inode that `namei("/")` put in the first entry of the table, not yet read. -/
def boot (d : Disk) : FsState where
  disk := d
  itable i := if i = 0 then { Inode.empty with dev := ROOTDEV, inum := ROOTINO, ref := 1 }
    else Inode.empty
  ftable _ := File.empty
  proc p := { alive := p = 0, cwd := 0, ofile := fun _ => none }
  logged := []
  pipes _ := none

/-- The file-system part of `exec`: look the program up and read its ELF header; the
loading of its segments reads the same inode and is left out. -/
def exec (p : Fin NPROC) (path : List UInt8) : FsM ℤ := do
  beginOp
  match ← namei p path with
  | none =>
    endOp
    return -1
  | some ip =>
    ilock ip
    let _ ← readi ip 0 64
    iunlockput ip
    endOp
    return -1

/-- The system calls, each made by a process. -/
inductive FsAct where
  | openFile (p : Fin NPROC) (path : List UInt8) (omode : ℕ)
  | close (p : Fin NPROC) (fd : ℕ)
  | dup (p : Fin NPROC) (fd : ℕ)
  | pipe (p : Fin NPROC) (page : Option ℕ) (ok0 ok1 : Bool)
  | write (p : Fin NPROC) (fd : ℕ) (src : List (Option UInt8))
  | link (p : Fin NPROC) (old new : List UInt8)
  | unlink (p : Fin NPROC) (path : List UInt8)
  | mkdir (p : Fin NPROC) (path : List UInt8)
  | mknod (p : Fin NPROC) (path : List UInt8) (major minor : ℤ)
  | chdir (p : Fin NPROC) (path : List UInt8)
  | exec (p : Fin NPROC) (path : List UInt8)
  | fork (p : Fin NPROC)
  | exit (p : Fin NPROC)

/-- The process making a system call. -/
def FsAct.proc : FsAct → Fin NPROC
  | .openFile p .. | .close p .. | .dup p .. | .pipe p .. | .write p .. | .link p .. | .unlink p ..
  | .mkdir p .. | .mknod p .. | .chdir p .. | .exec p .. | .fork p | .exit p => p

/-- The code a system call runs; its return value is the caller's and is dropped. -/
def FsAct.code : FsAct → FsM Unit
  | .openFile p path omode => discard (sys_open p path omode)
  | .close p fd => discard (sys_close p fd)
  | .dup p fd => discard (sys_dup p fd)
  | .pipe p page ok0 ok1 => discard (sys_pipe p page ok0 ok1)
  | .write p fd src => discard (sys_write p fd src)
  | .link p old new => discard (sys_link p old new)
  | .unlink p path => discard (sys_unlink p path)
  | .mkdir p path => discard (sys_mkdir p path)
  | .mknod p path major minor => discard (sys_mknod p path major minor)
  | .chdir p path => discard (sys_chdir p path)
  | .exec p path => discard (Fs.exec p path)
  | .fork p => discard (Fs.fork p)
  | .exit p => Fs.exit p

/-- One system call of a live process; a panic stops the machine. -/
def step (s : FsState) (a : FsAct) : Outcome FsState :=
  if (s.proc a.proc).alive then
    match a.code.run s with
    | .ok (_, s') => .next s'
    | .error msg => .panic msg
  else .blocked

/-- A step that moves is a run of the call's code to its end. -/
theorem step_next {s s' : FsState} {a : FsAct} (h : step s a = .next s') :
    (s.proc a.proc).alive = true ∧ ∃ r, a.code.run s = .ok (r, s') := by
  unfold step at h
  split at h
  · next halive =>
    refine ⟨halive, ?_⟩
    split at h
    · next r s'' hrun =>
      cases h
      exact ⟨r, hrun⟩
    · cases h
  · cases h

/-- A step that panics is a run of the call's code that fails with the panic's text. -/
theorem step_panic {s : FsState} {a : FsAct} {msg : String} (h : step s a = .panic msg) :
    (s.proc a.proc).alive = true ∧ a.code.run s = .error msg := by
  unfold step at h
  split at h
  · next halive =>
    refine ⟨halive, ?_⟩
    split at h
    · cases h
    · next msg' hrun =>
      cases h
      exact hrun
  · cases h

end Xv6.Fs
