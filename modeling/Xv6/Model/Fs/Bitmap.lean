import Xv6.Model.Fs.State

/-!
# The free bitmap at the level of bits (`balloc`, `bfree`)

The file-system model keeps the free bitmap as a table of its own (`Disk.used`). Here it
is what `fs.c` reads and writes: bit `bi % 8` of byte `bi / 8` of the block
`BBLOCK(b, sb)`, an ordinary block of the disk. `balloc`'s outer loop steps `b` over
`0, BPB, 2·BPB, …` below `sb.size`, reading one bitmap block each time, and its inner loop
tries `b + bi` for `bi < BPB` below `sb.size`; the first clear bit is set, and the block it
stands for is zeroed by `bzero`, through the same buffer cache. `bfree(b)` recomputes the
position from `b % BPB`.

The blocks are the bytes the buffer cache shows, with every write seen by the next
`bread`, and the blocks passed to `log_write`; `brelse` changes neither. `sb` is the global
superblock. `b` and `bi` are `int`s in the code; the model takes them as naturals, which
they are while `sb.size + BPB` fits in an `int`.
Source: kernel/fs.c:49-103, kernel/fs.h:47-51
-/

set_option autoImplicit false

namespace Xv6.Bitmap

/-- The disk's blocks as `bread` returns them, and the blocks passed to `log_write`. -/
structure Blocks where
  data : ℕ → ℕ → UInt8
  logged : List ℕ

/-- The bitmap code runs on the blocks and may panic. -/
abbrev BitM := StateT Blocks (Except String)

/-- `log_write(bp)` of block `b`. -/
def logWrite (b : ℕ) : BitM Unit :=
  modify fun s => { s with logged := s.logged ++ [b] }

/-- The blocks with byte `i` of block `blk` changed by `f`. -/
def updateByte (data : ℕ → ℕ → UInt8) (blk i : ℕ) (f : UInt8 → UInt8) : ℕ → ℕ → UInt8 :=
  Function.update data blk (Function.update (data blk) i (f (data blk i)))

/-- Change byte `i` of block `blk` in its buffer. -/
def modifyByte (blk i : ℕ) (f : UInt8 → UInt8) : BitM Unit :=
  modify fun s => { s with data := updateByte s.data blk i f }

/-- `bzero(dev, bno)`. -/
def bzero (_dev bno : ℕ) : BitM Unit := do
  modify fun s => { s with data := Function.update s.data bno fun _ => 0 }
  logWrite bno

variable (sb : Superblock)

/-- The inner loop of `balloc` from `bi` on, at most `n` iterations, over the bitmap block
of `b`: the block it allocated, or `none` when it runs past `BPB` or `sb.size`. -/
def ballocInner (dev b : ℕ) : ℕ → ℕ → BitM (Option ℕ)
  | 0, _ => return none
  | n + 1, bi => do
    if bi < BPB ∧ b + bi < sb.size then
      let m : UInt8 := 1 <<< (bi % 8).toUInt8
      let s ← get
      if s.data (BBLOCK b sb) (bi / 8) &&& m = 0 then
        -- `bp->data[bi/8] |= m`, then the block is zeroed through the cache
        modifyByte (BBLOCK b sb) (bi / 8) (· ||| m)
        logWrite (BBLOCK b sb)
        bzero dev (b + bi)
        return some (b + bi)
      else ballocInner dev b n (bi + 1)
    else return none

/-- The outer loop of `balloc` from `b` on, at most `n` iterations. -/
def ballocOuter (dev : ℕ) : ℕ → ℕ → BitM ℕ
  | 0, _ => throw "balloc: out of blocks"
  | n + 1, b => do
    if b < sb.size then
      match ← ballocInner sb dev b BPB 0 with
      | some r => return r
      | none => ballocOuter dev n (b + BPB)
    else throw "balloc: out of blocks"

/-- `balloc(dev)`: the outer loop runs `⌈sb.size / BPB⌉` times at most. -/
def balloc (dev : ℕ) : BitM ℕ := ballocOuter sb dev (sb.size / BPB + 1) 0

/-- `bfree(dev, b)`. -/
def bfree (_dev b : ℕ) : BitM Unit := do
  let bi := b % BPB
  let m : UInt8 := 1 <<< (bi % 8).toUInt8
  let s ← get
  if s.data (BBLOCK b sb) (bi / 8) &&& m = 0 then throw "freeing free block"
  modifyByte (BBLOCK b sb) (bi / 8) (· &&& ~~~m)
  logWrite (BBLOCK b sb)

end Xv6.Bitmap
