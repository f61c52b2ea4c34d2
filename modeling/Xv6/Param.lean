import Mathlib

/-!
# Kernel constants

The constants of `kernel/param.h`, `kernel/fs.h`, `kernel/riscv.h` and `kernel/pipe.c`
that the models read, under their C names. They are plain definitions; the log's and the
pipe's sizes, which the arithmetic of their proofs needs, have an `_eq` lemma beside them.
-/

set_option autoImplicit false

namespace Xv6

/-- Max number of blocks any FS op writes (`param.h`). -/
def MAXOPBLOCKS : ℕ := 10

/-- Max data blocks in the on-disk log, as `param.h` documents it. -/
def LOGSIZE : ℕ := MAXOPBLOCKS * 3

/-- Size of the disk block cache (`param.h`). -/
def NBUF : ℕ := MAXOPBLOCKS * 3

/-- Size of the file system image in blocks, used by `mkfs` (`param.h`). -/
def FSSIZE : ℕ := 1000

/-- Block size in bytes (`fs.h`). -/
def BSIZE : ℕ := 1024

/-- Number of direct block addresses in an inode (`fs.h`). -/
def NDIRECT : ℕ := 12

/-- Number of addresses in an indirect block: `BSIZE / sizeof(uint)` (`fs.h`). -/
def NINDIRECT : ℕ := BSIZE / 4

/-- Largest file, in blocks (`fs.h`). -/
def MAXFILE : ℕ := NDIRECT + NINDIRECT

/-- Bitmap bits per block (`fs.h`). -/
def BPB : ℕ := BSIZE * 8

/-- Bytes of a pipe's ring buffer (`pipe.c`). -/
def PIPESIZE : ℕ := 512

/-- Maximum number of processes (`param.h`). -/
def NPROC : ℕ := 64

/-- Open files per process (`param.h`). -/
def NOFILE : ℕ := 16

/-- Open files per system (`param.h`). -/
def NFILE : ℕ := 100

/-- Maximum number of active inodes (`param.h`). -/
def NINODE : ℕ := 50

/-- Maximum major device number (`param.h`). -/
def NDEV : ℕ := 10

/-- Device number of the root disk (`param.h`). -/
def ROOTDEV : ℕ := 1

/-- Max `exec` arguments (`param.h`). -/
def MAXARG : ℕ := 32

/-- Maximum file path name (`param.h`). -/
def MAXPATH : ℕ := 128

/-- The root inode number (`fs.h`). -/
def ROOTINO : ℕ := 1

/-- Inodes per block: `BSIZE / sizeof(struct dinode)`, a `dinode` being 64 bytes (`fs.h`). -/
def IPB : ℕ := BSIZE / 64

/-- Bytes of a name in a directory entry (`fs.h`). -/
def DIRSIZ : ℕ := 14

/-- Inodes of the image `mkfs` builds (`mkfs.c`). -/
def NINODES : ℕ := 200

/-- Bytes per page (`riscv.h`). -/
def PGSIZE : ℕ := 4096

/-- `PGROUNDUP(sz)`: `sz` rounded up to a page boundary (`riscv.h`). -/
def PGROUNDUP (sz : ℕ) : ℕ := (sz + PGSIZE - 1) / PGSIZE * PGSIZE

@[simp] theorem MAXOPBLOCKS_eq : MAXOPBLOCKS = 10 := rfl
@[simp] theorem LOGSIZE_eq : LOGSIZE = 30 := rfl
@[simp] theorem NBUF_eq : NBUF = 30 := rfl
@[simp] theorem PIPESIZE_eq : PIPESIZE = 512 := rfl

end Xv6
