import Xv6.Model.Fs.System

/-!
# Directories as they stand on the disk

The directory tree a reader of the disk sees: a directory inode's bytes below its size,
read block by block through its direct and indirect addresses, cut into 16-byte
entries. `mkfs` builds a root whose first two entries are `.` and `..`, both naming the
root.

From there the system calls do not keep the tree whole. `sys_unlink` removes an empty
directory even when a process is still in it, and a later `unlink` of its parent frees
the parent's inode while the orphan's `..` still names it: `chdir("..")` from the
orphan then reaches the freed inode and `ilock` panics. And `create` never looks at
the link count of the directory `nameiparent` returns, so a process standing in an
unlinked directory creates a file that no linked directory names.
Source: kernel/sysfile.c:184-284, kernel/sysfile.c:390-413, kernel/fs.c:288-306
-/

set_option autoImplicit false

namespace Xv6

open TransitionSystem Fs

/-- The block holding block `bn` of a file on the disk, 0 where there is none. -/
def Disk.blockOf (d : Disk) (di : DInode) (bn : ℕ) : ℕ :=
  if h : bn < NDIRECT then di.addrs ⟨bn, Nat.lt_succ_of_lt h⟩
  else if bn - NDIRECT < NINDIRECT ∧ di.addrs (Fin.last NDIRECT) ≠ 0 then
    getWord (d.data (di.addrs (Fin.last NDIRECT))) (bn - NDIRECT)
  else 0

/-- The byte at offset `off` of a file on the disk. -/
def Disk.fileByte (d : Disk) (di : DInode) (off : ℕ) : UInt8 :=
  d.data (d.blockOf di (off / BSIZE)) (off % BSIZE)

/-- The entries of a directory on the disk, as inode number and name, at the offsets the
directory loops visit. -/
def Disk.dirents (d : Disk) (di : DInode) : List (ℕ × List UInt8) :=
  (direntOffsets di.size).map fun off =>
    let de := Dirent.decode ((List.range 16).map fun k => d.fileByte di (off + k))
    (de.inum, de.name)

/-- A path written as characters. -/
def path (cs : List Char) : List UInt8 :=
  cs.map fun c => c.toNat.toUInt8

theorem mkfs_fileByte_root (n k : ℕ) (hk : k < BSIZE) :
    (mkfs n).fileByte (rootDinode n) k = rootBlock.getD k 0 := by
  have hb : (mkfs n).blockOf (rootDinode n) 0 = nmeta n := by
    rw [Disk.blockOf, dif_pos (by decide)]
    rfl
  rw [Disk.fileByte, Nat.div_eq_of_lt hk, Nat.mod_eq_of_lt hk, hb]
  simp [mkfs]

/-- Whatever the size of the disk, the root `mkfs` writes begins with `.` and `..`, both
naming the root. -/
theorem mkfs_root_dirents (n : ℕ) :
    ((mkfs n).dirents (rootDinode n)).take 2 = [(ROOTINO, dot), (ROOTINO, dotdot)] := by
  have hoffs : (direntOffsets (rootDinode n).size).take 2 = [0, 16] := by
    simp [direntOffsets, rootDinode, BSIZE, List.range_succ]
  -- both entries lie in the root block
  have hread : ∀ off, off ≤ 16 →
      ((List.range 16).map fun k => (mkfs n).fileByte (rootDinode n) (off + k)) =
        (List.range 16).map fun k => rootBlock.getD (off + k) 0 := by
    intro off hoff
    refine List.map_congr_left fun k hk => mkfs_fileByte_root n _ ?_
    rw [List.mem_range] at hk
    rw [BSIZE]
    omega
  rw [Disk.dirents, ← List.map_take, hoffs, List.map_cons, List.map_cons, List.map_nil,
    hread 0 (by omega), hread 16 (Nat.le_refl _)]
  rfl

/-- `init` makes `/a` and `/a/b`, moves into `/a/b`, unlinks `/a/b` (empty, so allowed)
and then `/a`, which frees `/a`'s inode; `/a/b`'s `..` still names it, and
`chdir("..")` panics in `ilock`. -/
theorem chdir_dotdot_reaches_freed_inode :
    ∃ s, Reachable step (boot (mkfs FSSIZE)) s ∧
      step s (.chdir 0 dotdot) = .panic "ilock: no type" := by
  have hrun : (run step (boot (mkfs FSSIZE))
      [.mkdir 0 (path ['/', 'a']), .mkdir 0 (path ['/', 'a', '/', 'b']),
        .chdir 0 (path ['/', 'a', '/', 'b']), .unlink 0 (path ['/', 'a', '/', 'b']),
        .unlink 0 (path ['/', 'a'])]).nextSat
      (fun s => (step s (.chdir 0 dotdot)).panicMsg == some "ilock: no type") = true := by
    decide +kernel
  obtain ⟨s, hs, hpanic⟩ := Reachable.of_run_nextSat .init hrun
  exact ⟨s, hs, Outcome.eq_panic_of_panicMsg (beq_iff_eq.1 hpanic)⟩

/-- `init` makes `/a`, moves into it and unlinks it; `open("x", O_CREATE)` then adds an
entry for a new inode with one link to `/a`, whose link count is 0, and the root, the
only linked directory, does not name the new inode. -/
theorem create_links_into_unlinked_dir :
    ∃ s, Reachable step (boot (mkfs FSSIZE)) s ∧
      (s.disk.dinode 2).type = .dir ∧ (s.disk.dinode 2).nlink = 0 ∧
      (3, path ['x']) ∈ s.disk.dirents (s.disk.dinode 2) ∧ (s.disk.dinode 3).nlink = 1 ∧
      ∀ e ∈ s.disk.dirents (s.disk.dinode ROOTINO), e.1 ≠ 3 := by
  have hrun : (run step (boot (mkfs FSSIZE))
      [.mkdir 0 (path ['/', 'a']), .chdir 0 (path ['/', 'a']), .unlink 0 (path ['/', 'a']),
        .openFile 0 (path ['x']) (O_CREATE ||| O_RDWR)]).nextSat
      (fun s => decide ((s.disk.dinode 2).type = .dir ∧ (s.disk.dinode 2).nlink = 0 ∧
        (3, path ['x']) ∈ s.disk.dirents (s.disk.dinode 2) ∧ (s.disk.dinode 3).nlink = 1 ∧
        ∀ e ∈ s.disk.dirents (s.disk.dinode ROOTINO), e.1 ≠ 3)) = true := by
    decide +kernel
  obtain ⟨s, hs, horphan⟩ := Reachable.of_run_nextSat .init hrun
  exact ⟨s, hs, of_decide_eq_true horphan⟩

end Xv6
