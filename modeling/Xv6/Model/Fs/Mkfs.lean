import Xv6.Model.Fs.System

/-!
# `mkfs` with the files of the build (`mkfs/mkfs.c`)

`Xv6.Fs.mkfs` is the image `mkfs` writes when it is given no file (`image_nil`, in
`Xv6.Analysis.MkfsEmpty`). This module follows
`main` over a list of files: it zeroes the image and writes the superblock, allocates the
root directory with `.` and `..`, then gives each file an inode, an entry in the root
and its bytes, read `BSIZE` at a time; it fixes the size of the root and last writes
the bitmap. `freeinode` and `freeblock` are the counters of the C code, and an `assert`
that fails is a `throw` of its condition. `rinode`/`winode` read and write the disk
inodes, `rsect`/`wsect` the bytes of a block. A file is its name as the build passes it
and its bytes: the `open` and `read` of the host do not fail.
Source: mkfs/mkfs.c:68-294
-/

set_option autoImplicit false

namespace Xv6.Fs.Mkfs

/-- What `mkfs` keeps as it writes the image: the image, and the next free inode and
block. -/
structure MkfsState where
  disk : Disk
  freeinode : ℕ
  freeblock : ℕ

/-- `mkfs` runs on its state and stops with the condition of a failed `assert`. -/
abbrev MkfsM := StateT MkfsState (Except String)

/-- `winode(inum, &din)`. -/
def winode (inum : ℕ) (din : DInode) : MkfsM Unit :=
  modify fun s => { s with disk := { s.disk with dinode := Function.update s.disk.dinode inum din } }

/-- `rinode(inum, &din)`. -/
def rinode (inum : ℕ) : MkfsM DInode :=
  return (← get).disk.dinode inum

/-- `rsect(sec, buf)`. -/
def rsect (sec : ℕ) : MkfsM (ℕ → UInt8) :=
  return (← get).disk.data sec

/-- `wsect(sec, buf)`. -/
def wsect (sec : ℕ) (buf : ℕ → UInt8) : MkfsM Unit :=
  modify fun s => { s with disk := { s.disk with data := Function.update s.disk.data sec buf } }

/-- `freeblock++`. -/
def nextFreeblock : MkfsM ℕ := do
  let s ← get
  set { s with freeblock := s.freeblock + 1 }
  return s.freeblock

/-- `ialloc(type)`: the next inode, written as an empty inode of `type` with one link. -/
def ialloc (type : IType) : MkfsM ℕ := do
  let s ← get
  set { s with freeinode := s.freeinode + 1 }
  winode s.freeinode { DInode.zero with type := type, nlink := 1 }
  return s.freeinode

/-- `balloc(used)`: the bitmap block with the bits of blocks `0 .. used - 1` set. It is
the only bitmap block of a disk of `FSSIZE < BPB` blocks, and every other bit is 0. -/
def balloc (used : ℕ) : MkfsM Unit := do
  if ¬ used < BSIZE * 8 then throw "used < BSIZE*8"
  modify fun s => { s with disk := { s.disk with used := fun b => decide (b < used) } }

/-- The first half of the body of `iappend`'s loop: the block `x` that holds file block
`fbn`, taken from `freeblock` (with the indirect block first, past the direct blocks)
if there is none. -/
def iappendBlock (din : DInode) (fbn : ℕ) : MkfsM (DInode × ℕ) := do
  if h : fbn < NDIRECT then
    let k : Fin (NDIRECT + 1) := ⟨fbn, Nat.lt_succ_of_lt h⟩
    if din.addrs k = 0 then
      let b ← nextFreeblock
      return ({ din with addrs := Function.update din.addrs k b }, b)
    return (din, din.addrs k)
  let mut din := din
  if din.addrs (Fin.last NDIRECT) = 0 then
    let b ← nextFreeblock
    din := { din with addrs := Function.update din.addrs (Fin.last NDIRECT) b }
  let ind := din.addrs (Fin.last NDIRECT)
  let indirect ← rsect ind
  if getWord indirect (fbn - NDIRECT) = 0 then
    let b ← nextFreeblock
    wsect ind (setWord indirect (fbn - NDIRECT) b)
    return (din, b)
  return (din, getWord indirect (fbn - NDIRECT))

/-- The loop of `iappend`: copy `p` from offset `off` on, one block at a time, into the
local copy `din` of the inode. Each round copies at least one byte, so `fuel = p.length`
rounds are enough. Returns the inode and the offset reached. -/
def iappendLoop : ℕ → DInode → ℕ → List UInt8 → MkfsM (DInode × ℕ)
  | 0, din, off, _ => return (din, off)
  | fuel + 1, din, off, p => do
    if p = [] then return (din, off)
    let fbn := off / BSIZE
    if ¬ fbn < MAXFILE then throw "fbn < MAXFILE"
    let (din, x) ← iappendBlock din fbn
    let n1 := min p.length ((fbn + 1) * BSIZE - off)
    let buf ← rsect x
    -- `bcopy(p, buf + off - (fbn * BSIZE), n1)`
    wsect x fun k =>
      if off - fbn * BSIZE ≤ k ∧ k < off - fbn * BSIZE + n1 then p.getD (k - (off - fbn * BSIZE)) 0
      else buf k
    iappendLoop fuel din (off + n1) (p.drop n1)

/-- `iappend(inum, p, n)`: the bytes `p` added at the end of inode `inum`. -/
def iappend (inum : ℕ) (p : List UInt8) : MkfsM Unit := do
  let din ← rinode inum
  let (din, off) ← iappendLoop p.length din din.size p
  winode inum { din with size := off }

/-- The loop `while((cc = read(fd, buf, sizeof(buf))) > 0) iappend(inum, buf, cc)`: the
bytes of a file in pieces of `BSIZE`, the last one shorter. -/
def appendFile (inum : ℕ) : ℕ → List UInt8 → MkfsM Unit
  | 0, _ => return ()
  | fuel + 1, bytes =>
    if bytes = [] then return ()
    else do
      iappend inum (bytes.take BSIZE)
      appendFile inum fuel (bytes.drop BSIZE)

/-- `"user/"`. -/
def userDir : List UInt8 := [117, 115, 101, 114, 47]

/-- `'_'`. -/
def underscore : UInt8 := 95

/-- The round of `main`'s loop for the file `name` with bytes `bytes`: the name loses a
leading `user/` and then a leading `_`, and must hold no `/` in between. -/
def addFile (rootino : ℕ) (name bytes : List UInt8) : MkfsM Unit := do
  let shortname := if name.take 5 = userDir then name.drop 5 else name
  if slash ∈ shortname then throw "index(shortname, '/') == 0"
  let shortname := if shortname.head? = some underscore then shortname.drop 1 else shortname
  let inum ← ialloc .file
  -- `strncpy(de.name, shortname, DIRSIZ)`
  iappend rootino (Dirent.encode ⟨inum, shortname⟩)
  appendFile inum bytes.length bytes

/-- `main` after the image is opened and zeroed: the root, the files, the size of the
root rounded past its last entry to a block, the bitmap. -/
def main (files : List (List UInt8 × List UInt8)) : MkfsM Unit := do
  let rootino ← ialloc .dir
  if rootino ≠ ROOTINO then throw "rootino == ROOTINO"
  iappend rootino (Dirent.encode ⟨rootino, dot⟩)
  iappend rootino (Dirent.encode ⟨rootino, dotdot⟩)
  files.forM fun f => addFile rootino f.1 f.2
  -- fix size of root inode dir
  let din ← rinode rootino
  let off := (din.size / BSIZE + 1) * BSIZE
  winode rootino { din with size := off }
  balloc (← get).freeblock

/-- The image once `main` has zeroed its blocks and written the superblock, and the
first values of the counters. -/
def init : MkfsState where
  disk :=
    { sb := mkfsSb FSSIZE
      used := fun _ => false
      dinode := fun _ => DInode.zero
      data := fun _ _ => 0 }
  freeinode := 1
  freeblock := nmeta FSSIZE

/-- The image `mkfs` writes for `files`, or the condition of the `assert` that stops it. -/
def image (files : List (List UInt8 × List UInt8)) : Except String Disk :=
  ((main files).run init).map fun r => r.2.disk

end Xv6.Fs.Mkfs
