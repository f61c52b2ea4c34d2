import Xv6.Param
import Xv6.Model.Pipe
import Mathlib.Data.Int.Notation
import Mathlib.Data.List.Basic

/-!
# The state of the file system

The disk as the code sees it through the buffer cache, the in-memory inode table, the
open-file table and the processes' file references. Every function of `fs.c`,
`sysfile.c` and `file.c` modelled in the next modules runs in `FsM`: it reads and
writes this state and fails with the text of a `panic`.

The disk keeps the free bitmap and the inodes in their own tables, since only
`balloc`/`bfree` read and write the bitmap blocks and only `ialloc`, `iupdate` and
`ilock` the inode blocks; `BBLOCK` and `IBLOCK` give the blocks they live in. Every
other block is `BSIZE` bytes, read as a file's data, as `uint` block numbers (an
indirect block) or as `struct dirent`s (a directory). Writes go to this state directly,
which is what `bread` returns after them; `logged` records every block passed to
`log_write` during the current transaction, in order, which is all the log needs to
know of an operation. A pipe lives in a page of its own, named by its address; `pipes`
holds the `struct pipe` of each page that is a pipe, as `Xv6.Pipe` models it.
-/

set_option autoImplicit false

namespace Xv6

instance : NeZero NINODE := ⟨by decide⟩
instance : NeZero NFILE := ⟨by decide⟩
instance : NeZero NPROC := ⟨by decide⟩
instance : NeZero NOFILE := ⟨by decide⟩

/-- `T_DIR`, `T_FILE`, `T_DEVICE` of `stat.h`, and 0 for a free inode. -/
inductive IType where
  | free
  | dir
  | file
  | device
  deriving DecidableEq, Repr

/-- `struct dinode`. -/
structure DInode where
  type : IType
  major : ℤ
  minor : ℤ
  nlink : ℤ
  size : ℕ
  addrs : Fin (NDIRECT + 1) → ℕ

/-- A `dinode` after `memset(dip, 0, sizeof(*dip))`. -/
def DInode.zero : DInode where
  type := .free
  major := 0
  minor := 0
  nlink := 0
  size := 0
  addrs := fun _ => 0

/-- `struct superblock`, without the magic number that only `fsinit` checks. -/
structure Superblock where
  size : ℕ
  nblocks : ℕ
  ninodes : ℕ
  nlog : ℕ
  logstart : ℕ
  inodestart : ℕ
  bmapstart : ℕ

/-- `IBLOCK(i, sb)`: the block holding inode `i`. -/
def IBLOCK (i : ℕ) (sb : Superblock) : ℕ := i / IPB + sb.inodestart

/-- `BBLOCK(b, sb)`: the bitmap block holding the bit of block `b`. -/
def BBLOCK (b : ℕ) (sb : Superblock) : ℕ := b / BPB + sb.bmapstart

/-- The disk: the superblock, the free bitmap (`used b` is the bit of block `b`), the
inodes, and the bytes of every other block. -/
structure Disk where
  sb : Superblock
  used : ℕ → Bool
  dinode : ℕ → DInode
  data : ℕ → ℕ → UInt8

/-- `struct inode`: an entry of the inode table; `di` is the copy of the disk inode,
meaningful when `valid`. -/
structure Inode where
  dev : ℕ
  inum : ℕ
  ref : ℕ
  valid : Bool
  di : DInode

/-- The kinds of `struct file`. -/
inductive FdType where
  | none
  | pipe
  | inode
  | device
  deriving DecidableEq, Repr

/-- `struct file`; `pipe`, the address of the pipe, is meaningful for pipe files, and
`ip`, which points into the inode table, for inode and device files. -/
structure File where
  type : FdType
  ref : ℕ
  readable : Bool
  writable : Bool
  pipe : ℕ
  ip : Fin NINODE
  off : ℕ
  major : ℤ

/-- The file-system part of `struct proc`: whether the slot holds a live process, its
current directory and its open files. -/
structure Proc where
  alive : Bool
  cwd : Fin NINODE
  ofile : Fin NOFILE → Option (Fin NFILE)

/-- The file system's state. -/
structure FsState where
  disk : Disk
  itable : Fin NINODE → Inode
  ftable : Fin NFILE → File
  proc : Fin NPROC → Proc
  logged : List ℕ
  pipes : ℕ → Option (Pipe UInt8)

/-- The code of `fs.c`, `sysfile.c` and `file.c` runs on the state and may panic. -/
abbrev FsM := StateT FsState (Except String)

namespace Fs

/-- `log_write(bp)` of block `b` as the file-system code sees it: the block joins the
record of the current transaction. The header, its absorption and the two panics of
`log_write` (a transaction that outgrows the log, a call outside `begin_op`) are
`Xv6.Log.logWrite`'s, which `Xv6.LogSys` runs on the blocks recorded here. -/
def logWrite (b : ℕ) : FsM Unit :=
  modify fun s => { s with logged := s.logged ++ [b] }

/-- Change the inode table entry `i`. -/
def modifyInode (i : Fin NINODE) (f : Inode → Inode) : FsM Unit :=
  modify fun s => { s with itable := Function.update s.itable i (f (s.itable i)) }

/-- Change the copy of the disk inode in entry `i`. -/
def modifyDi (i : Fin NINODE) (f : DInode → DInode) : FsM Unit :=
  modifyInode i fun ip => { ip with di := f ip.di }

/-- Change the bytes of block `b`. -/
def modifyData (b : ℕ) (f : (ℕ → UInt8) → ℕ → UInt8) : FsM Unit :=
  modify fun s => { s with disk := { s.disk with data := Function.update s.disk.data b (f (s.disk.data b)) } }

theorem run_logWrite (b : ℕ) (s : FsState) :
    (logWrite b).run s = .ok (⟨⟩, { s with logged := s.logged ++ [b] }) := rfl

theorem run_modifyInode (i : Fin NINODE) (f : Inode → Inode) (s : FsState) :
    (modifyInode i f).run s =
      .ok (⟨⟩, { s with itable := Function.update s.itable i (f (s.itable i)) }) := rfl

theorem run_modifyDi (i : Fin NINODE) (f : DInode → DInode) (s : FsState) :
    (modifyDi i f).run s = .ok (⟨⟩, { s with
      itable := Function.update s.itable i { s.itable i with di := f (s.itable i).di } }) := rfl

/-! ## Bytes -/

/-- The `uint` at index `j` of a block read as `uint*`, little-endian. -/
def getWord (blk : ℕ → UInt8) (j : ℕ) : ℕ :=
  (blk (4 * j)).toNat + 2 ^ 8 * (blk (4 * j + 1)).toNat + 2 ^ 16 * (blk (4 * j + 2)).toNat +
    2 ^ 24 * (blk (4 * j + 3)).toNat

/-- `a[j] = x` for a block read as `uint*`. -/
def setWord (blk : ℕ → UInt8) (j x : ℕ) : ℕ → UInt8 := fun k =>
  if k = 4 * j then x.toUInt8
  else if k = 4 * j + 1 then (x / 2 ^ 8).toUInt8
  else if k = 4 * j + 2 then (x / 2 ^ 16).toUInt8
  else if k = 4 * j + 3 then (x / 2 ^ 24).toUInt8
  else blk k

/-- `struct dirent`: an inode number and a name of at most `DIRSIZ` bytes, the bytes
before the first zero. -/
structure Dirent where
  inum : ℕ
  name : List UInt8

/-- The 16 bytes of a `struct dirent`: `ushort inum`, then `name` padded with zeros as
`strncpy` leaves it. -/
def Dirent.encode (de : Dirent) : List UInt8 :=
  [de.inum.toUInt8, (de.inum / 2 ^ 8).toUInt8] ++
    (de.name.take DIRSIZ ++ List.replicate (DIRSIZ - de.name.length) 0)

@[simp]
theorem Dirent.length_encode (de : Dirent) : de.encode.length = 16 := by
  simp only [Dirent.encode, List.length_append, List.length_cons, List.length_nil,
    List.length_take, List.length_replicate]
  have : DIRSIZ = 14 := rfl
  omega

/-- A `struct dirent` read from 16 bytes. -/
def Dirent.decode (bs : List UInt8) : Dirent where
  inum := (bs.getD 0 0).toNat + 2 ^ 8 * (bs.getD 1 0).toNat
  name := ((bs.drop 2).take DIRSIZ).takeWhile (· ≠ 0)

/-- `namecmp(s, t) == 0`: `strncmp` over at most `DIRSIZ` bytes. -/
def nameEq (s t : List UInt8) : Bool :=
  (s.takeWhile (· ≠ 0)).take DIRSIZ == (t.takeWhile (· ≠ 0)).take DIRSIZ

end Fs

end Xv6
