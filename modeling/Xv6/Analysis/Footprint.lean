import Xv6.Model.Fs.System
import Xv6.Lib.StateExcept
import Mathlib.Data.Finset.Card

/-!
# The log footprint of truncating a file

`itrunc` frees every block of a file inside the caller's transaction, and each `bfree`
logs the bitmap block that holds the freed block's bit. The blocks it logs are therefore
the bitmap block of every block of the file, in the order it frees them, then the inode's
block; as a set, one bitmap block per `BPB`-block region the file touches. Nothing bounds
the number of regions but the disk's size, so on a large disk one `unlink`, or the last
`close` of an unlinked file, logs more than `MAXOPBLOCKS` distinct blocks.
Source: kernel/fs.c:93-103, kernel/fs.c:405-437
-/

set_option autoImplicit false

namespace Xv6.Fs

open TransitionSystem StateExcept

/-- A disk of ten bitmap regions, laid out as `mkfs` lays it out, whose root directory
names a file `f` (inode 2) with one block in each region. -/
def tenRegionDisk : Disk :=
  let d := mkfs (10 * BPB)
  { d with
    used := fun b => d.used b || (b % BPB == 100 && b < 10 * BPB)
    dinode := fun inum =>
      if inum = 2 then
        { DInode.zero with
          type := .file
          nlink := 1
          size := 10 * BSIZE
          addrs := fun k => if k.val < 10 then k.val * BPB + 100 else 0 }
      else d.dinode inum
    data := fun b k =>
      if b = nmeta (10 * BPB) ∧ 32 ≤ k ∧ k < 48 then (Dirent.encode ⟨2, [102]⟩).getD (k - 32) 0
      else d.data b k }

/-- Unlinking `f` frees its ten blocks in the same transaction: the transaction logs the
ten bitmap blocks, the inode's block and the root directory's block. -/
theorem unlink_logs_more_than_maxopblocks :
    ∃ s', step (boot tenRegionDisk) (.unlink 0 [102]) = .next s' ∧
      MAXOPBLOCKS < s'.logged.dedup.length := by
  obtain ⟨s', hs', hlen⟩ := Outcome.exists_of_nextSat (o := step (boot tenRegionDisk) (.unlink 0 [102]))
    (p := fun s' => decide (MAXOPBLOCKS < s'.logged.dedup.length)) (by decide +kernel)
  exact ⟨s', hs', of_decide_eq_true hlen⟩

end Xv6.Fs
