import Xv6.Analysis.MkfsBlocks

/-!
# `mkfs` with no file writes `Xv6.Fs.mkfs`

The boot state of the system model starts from `Xv6.Fs.mkfs FSSIZE`, written by hand as
the image with only the root. This module runs `main` of `mkfs.c` on no file and finds that
image: `ialloc` gives the root inode 1, `iappend` puts `.` into the first block it hands out
and `..` after it in the same block, and the root's size is rounded up to one block
(`image_nil`).

Each `iappend` here fits in one direct block, so its loop makes one round: a run equation
for that round (`iappendLoop_run_fresh`, `iappendLoop_run_held`, one for a slot that holds
no block yet and one for a slot that does) gives the state it leaves.
Source: mkfs/mkfs.c:120-171, mkfs/mkfs.c:252-294
-/

set_option autoImplicit false

namespace Xv6.Fs.Mkfs

open StateExcept

section Runs

variable {fuel off : ℕ} {din : DInode} {p : List UInt8} {s : MkfsState}

theorem iappendLoop_run_nil (fuel : ℕ) (din : DInode) (off : ℕ) (s : MkfsState) :
    (iappendLoop fuel din off []).run s = .ok ((din, off), s) := by
  cases fuel <;> rfl

/-- The bytes of one round of `iappend`'s loop over the old bytes of block `x`. -/
def overlay (off : ℕ) (p : List UInt8) (old : ℕ → UInt8) : ℕ → UInt8 := fun k =>
  if off - off / BSIZE * BSIZE ≤ k ∧ k < off - off / BSIZE * BSIZE + p.length then
    p.getD (k - (off - off / BSIZE * BSIZE)) 0
  else old k

/-- The last round of `iappend`'s loop, into a direct slot that holds no block: the slot
takes `freeblock`, which takes the bytes. -/
theorem iappendLoop_run_fresh (hp : p ≠ []) (hfbn : off / BSIZE < NDIRECT)
    (hz : din.addrs ⟨off / BSIZE, Nat.lt_succ_of_lt hfbn⟩ = 0)
    (hfit : off + p.length ≤ (off / BSIZE + 1) * BSIZE) :
    (iappendLoop (fuel + 1) din off p).run s =
      .ok (({ din with
          addrs := Function.update din.addrs ⟨off / BSIZE, Nat.lt_succ_of_lt hfbn⟩ s.freeblock },
          off + p.length),
        { s with
          freeblock := s.freeblock + 1
          disk := { s.disk with
            data := Function.update s.disk.data s.freeblock
              (overlay off p (s.disk.data s.freeblock)) } }) := by
  have hmax : off / BSIZE < MAXFILE := by
    simp only [MAXFILE, NINDIRECT] at hfbn ⊢
    omega
  have hn : min p.length ((off / BSIZE + 1) * BSIZE - off) = p.length := Nat.min_eq_left (by omega)
  simp only [iappendLoop, hp, if_false, hmax, not_true_eq_false, iappendBlock, hfbn, dif_pos, hz,
    if_true]
  rw [hn, List.drop_length]
  simp only [StateT.run_bind, nextFreeblock_run, rsect, wsect, iappendLoop_run_nil]
  rfl

/-- The last round of `iappend`'s loop, into a direct slot that holds a block. -/
theorem iappendLoop_run_held (hp : p ≠ []) (hfbn : off / BSIZE < NDIRECT)
    (hz : din.addrs ⟨off / BSIZE, Nat.lt_succ_of_lt hfbn⟩ ≠ 0)
    (hfit : off + p.length ≤ (off / BSIZE + 1) * BSIZE) :
    (iappendLoop (fuel + 1) din off p).run s =
      .ok ((din, off + p.length),
        { s with
          disk := { s.disk with
            data := Function.update s.disk.data (din.addrs ⟨off / BSIZE, Nat.lt_succ_of_lt hfbn⟩)
              (overlay off p (s.disk.data (din.addrs ⟨off / BSIZE, Nat.lt_succ_of_lt hfbn⟩))) } }) := by
  have hmax : off / BSIZE < MAXFILE := by
    simp only [MAXFILE, NINDIRECT] at hfbn ⊢
    omega
  have hn : min p.length ((off / BSIZE + 1) * BSIZE - off) = p.length := Nat.min_eq_left (by omega)
  simp only [iappendLoop, hp, if_false, hmax, not_true_eq_false, iappendBlock, hfbn, dif_pos, hz,
    if_false]
  rw [hn, List.drop_length]
  simp only [StateT.run_bind, rsect, wsect, iappendLoop_run_nil]
  rfl

/-- `iappend` of bytes that fit in the direct block the inode's size is in, when its slot
holds no block. -/
theorem iappend_run_fresh {inum : ℕ} (hp : p ≠ [])
    (hfbn : (s.disk.dinode inum).size / BSIZE < NDIRECT)
    (hz : (s.disk.dinode inum).addrs ⟨_, Nat.lt_succ_of_lt hfbn⟩ = 0)
    (hfit : (s.disk.dinode inum).size + p.length ≤ ((s.disk.dinode inum).size / BSIZE + 1) * BSIZE) :
    (iappend inum p).run s = .ok ((), { s with
      freeblock := s.freeblock + 1
      disk := ({ s.disk with
        data := Function.update s.disk.data s.freeblock
          (overlay (s.disk.dinode inum).size p (s.disk.data s.freeblock)) }).withInode inum
        { s.disk.dinode inum with
          addrs := Function.update (s.disk.dinode inum).addrs ⟨_, Nat.lt_succ_of_lt hfbn⟩ s.freeblock
          size := (s.disk.dinode inum).size + p.length } }) := by
  obtain ⟨n, hn⟩ := Nat.exists_eq_add_one_of_ne_zero (List.length_pos_iff.2 hp).ne'
  have hloop := @iappendLoop_run_fresh n _ _ _ s hp hfbn hz hfit
  rw [← hn] at hloop
  simp only [iappend, StateT.run_bind, rinode, StateT.run_get, StateT.run_pure, pure_bind, hloop]
  rfl

/-- `iappend` of bytes that fit in the direct block the inode's size is in, when its slot
holds a block. -/
theorem iappend_run_held {inum : ℕ} (hp : p ≠ [])
    (hfbn : (s.disk.dinode inum).size / BSIZE < NDIRECT)
    (hz : (s.disk.dinode inum).addrs ⟨_, Nat.lt_succ_of_lt hfbn⟩ ≠ 0)
    (hfit : (s.disk.dinode inum).size + p.length ≤ ((s.disk.dinode inum).size / BSIZE + 1) * BSIZE) :
    (iappend inum p).run s = .ok ((), { s with
      disk := ({ s.disk with
        data := Function.update s.disk.data ((s.disk.dinode inum).addrs ⟨_, Nat.lt_succ_of_lt hfbn⟩)
          (overlay (s.disk.dinode inum).size p
            (s.disk.data ((s.disk.dinode inum).addrs ⟨_, Nat.lt_succ_of_lt hfbn⟩))) }).withInode inum
        { s.disk.dinode inum with size := (s.disk.dinode inum).size + p.length } }) := by
  obtain ⟨n, hn⟩ := Nat.exists_eq_add_one_of_ne_zero (List.length_pos_iff.2 hp).ne'
  have hloop := @iappendLoop_run_held n _ _ _ s hp hfbn hz hfit
  rw [← hn] at hloop
  simp only [iappend, StateT.run_bind, rinode, StateT.run_get, StateT.run_pure, pure_bind, hloop]
  rfl

end Runs

/-- `.` at offset 0 and `..` at offset 16 of a zeroed block make the root's block. -/
theorem overlay_root (k : ℕ) :
    overlay 16 (Dirent.encode ⟨ROOTINO, dotdot⟩) (overlay 0 (Dirent.encode ⟨ROOTINO, dot⟩) fun _ => 0) k =
      rootBlock.getD k 0 := by
  by_cases hk : k < 32
  · revert k
    decide
  · have hlen : rootBlock.length ≤ k := by
      rw [show rootBlock.length = 32 from rfl]
      omega
    simp only [overlay, List.getD_eq_default _ _ hlen]
    rw [if_neg (by simp [BSIZE]; omega), if_neg (by simp [BSIZE]; omega)]

/-- `main` of `mkfs.c` on no file writes the image the system model boots from. -/
theorem image_nil : image [] = .ok (mkfs FSSIZE) := by
  unfold image main
  simp only [StateT.run_bind, ialloc_run, ok_bind]
  rw [if_neg (by decide)]
  simp only [StateT.run_bind]
  rw [iappend_run_fresh (by decide) (by decide) (by decide) (by decide)]
  simp only [ok_bind]
  rw [iappend_run_held (by decide) (by decide) (by decide) (by decide)]
  simp only [ok_bind, StateT.run_bind, List.forM, StateT.run_pure, rinode, StateT.run_get, pure_bind,
    winode, StateT.run_modify, balloc]
  rw [if_neg (by decide)]
  simp only [StateT.run_modify]
  apply congrArg Except.ok
  simp only [Disk.withInode, mkfs, Function.update_idem, Function.update_self]
  have h1 : init.freeinode = ROOTINO := rfl
  have hF : init.freeblock = nmeta FSSIZE := rfl
  -- `..` went into the block `.` took
  have hslot : Function.update DInode.zero.addrs ⟨DInode.zero.size / BSIZE, by decide⟩ init.freeblock
      ⟨(DInode.zero.size + (Dirent.encode ⟨init.freeinode, dot⟩).length) / BSIZE, by decide⟩ =
        nmeta FSSIZE := by decide
  congr 1
  · funext i
    by_cases hi : i = ROOTINO
    · subst hi
      rw [Function.update_apply, if_pos h1.symm, if_pos rfl]
      unfold rootDinode
      congr 1
      funext j
      by_cases hj : j = 0
      · subst hj
        decide
      · rw [Function.update_of_ne fun e => hj (e.trans (Fin.ext (by decide))), if_neg hj]
        rfl
    · rw [Function.update_apply, if_neg fun e => hi (e.trans h1), if_neg hi]
      rfl
  · funext b k
    rw [hslot]
    by_cases hb : b = nmeta FSSIZE
    · subst hb
      rw [Function.update_self, if_pos rfl, Function.update_apply, if_pos hF.symm]
      exact overlay_root k
    · rw [Function.update_of_ne hb, Function.update_apply, if_neg fun e => hb (e.trans hF), if_neg hb]
      rfl
end Xv6.Fs.Mkfs
