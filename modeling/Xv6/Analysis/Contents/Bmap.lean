import Xv6.Analysis.BitmapAlloc
import Xv6.Analysis.Namespace
import Xv6.Lib.BlockMap

/-!
# `bmap`: the block map of a file

A file's bytes are read through its block map (`blocks`): its first `NDIRECT` blocks from
the addresses of its inode, the next `NINDIRECT` from the words of its indirect block. The
file is in shape (`FileOk`) when the map's blocks and the indirect block are distinct and
marked in use, and every block below the size is there.

`bmap i bn` below `MAXFILE` either panics because `balloc` found no free block, or returns
block `bn` of the file (`bmap_spec`). A block that is there is returned with nothing
changed; a missing one is taken from the free blocks, zeroed, and written into the
inode or the indirect block, taking the indirect block first where there is none. What
the call did is `Mapped`: the file is still in shape, its other blocks are where they
were, and the only bytes that changed are of blocks that were free and of the indirect
block.
Source: kernel/fs.c:62-84, kernel/fs.c:377-405
-/

set_option autoImplicit false

namespace Xv6.Fs

open BlockMap

/-! ## Block numbers in an indirect block -/

theorem getWord_setWord_self (blk : ℕ → UInt8) (j : ℕ) {x : ℕ} (hx : x < 2 ^ 32) :
    getWord (setWord blk j x) j = x := by
  simp [getWord, setWord]
  omega

theorem getWord_setWord_of_ne (blk : ℕ → UInt8) {j j' : ℕ} (x : ℕ) (h : j ≠ j') :
    getWord (setWord blk j x) j' = getWord blk j' := by
  -- the four bytes of word `j'` are none of word `j`'s
  simp (disch := omega) only [getWord, setWord, if_neg]

theorem getWord_zero (j : ℕ) : getWord (fun _ => 0) j = 0 := rfl

/-! ## The blocks of a file -/

/-- The block map of file `i`: block `bn` of the file is block `blocks s i bn` of the disk,
0 where it has none. -/
def blocks (s : FsState) (i : Fin NINODE) (bn : ℕ) : ℕ := s.disk.blockOf (s.itable i).di bn

/-- The indirect block of file `i`, 0 where it has none. -/
def indBlock (s : FsState) (i : Fin NINODE) : ℕ := (s.itable i).di.addrs (Fin.last NDIRECT)

/-- Byte `k` of file `i`, read through its block map. -/
def content (s : FsState) (i : Fin NINODE) (k : ℕ) : UInt8 := s.disk.fileByte (s.itable i).di k

theorem content_eq (s : FsState) (i : Fin NINODE) (k : ℕ) :
    content s i k = s.disk.data (blocks s i (k / BSIZE)) (k % BSIZE) := rfl

/-- The file's blocks are apart and marked in use, the block numbers fit a `uint`, block 0
is in use, and every block below the size is there. -/
structure FileOk (s : FsState) (i : Fin NINODE) : Prop where
  apart : Apart (blocks s i) MAXFILE (indBlock s i) s.disk.used
  zero : s.disk.used 0 = true
  small : s.disk.sb.size ≤ 2 ^ 32
  size_le : (s.itable i).di.size ≤ MAXFILE * BSIZE
  full : ∀ bn, bn * BSIZE < (s.itable i).di.size → blocks s i bn ≠ 0

theorem content_eq_flat (s : FsState) (i : Fin NINODE) :
    content s i = flat BSIZE (blocks s i) s.disk.data := rfl

/-- Block `b` is one of file `i`'s: a block of its map, or its indirect block. -/
def Owns (s : FsState) (i : Fin NINODE) (b : ℕ) : Prop :=
  (∃ bn < MAXFILE, blocks s i bn = b) ∨ b = indBlock s i

/-- Of the inode table, only the addresses of entry `i` differ. -/
def AddrsOnly (s s' : FsState) (i : Fin NINODE) : Prop :=
  ∃ addrs, s'.itable =
    Function.update s.itable i { s.itable i with di := { (s.itable i).di with addrs := addrs } }

theorem AddrsOnly.refl (s : FsState) (i : Fin NINODE) : AddrsOnly s s i :=
  ⟨(s.itable i).di.addrs, by simp⟩

theorem AddrsOnly.trans {s₁ s₂ s₃ : FsState} {i : Fin NINODE} (h₁ : AddrsOnly s₁ s₂ i)
    (h₂ : AddrsOnly s₂ s₃ i) : AddrsOnly s₁ s₃ i := by
  obtain ⟨a₁, h₁⟩ := h₁
  obtain ⟨a₂, h₂⟩ := h₂
  refine ⟨a₂, ?_⟩
  rw [h₂, h₁, Function.update_idem, Function.update_self]

theorem AddrsOnly.size {s s' : FsState} {i : Fin NINODE} (h : AddrsOnly s s' i) :
    (s'.itable i).di.size = (s.itable i).di.size := by
  obtain ⟨addrs, he⟩ := h
  rw [he, Function.update_self]

theorem AddrsOnly.other {s s' : FsState} {i j : Fin NINODE} (h : AddrsOnly s s' i) (hj : j ≠ i) :
    s'.itable j = s.itable j := by
  obtain ⟨addrs, he⟩ := h
  rw [he, Function.update_of_ne hj]

/-- Of the state, `s'` may differ from `s` only in the bitmap, the bytes of blocks, the
inode table and the blocks logged. -/
structure Touches (s s' : FsState) : Prop where
  sb : s'.disk.sb = s.disk.sb
  dinode : s'.disk.dinode = s.disk.dinode
  ftable : s'.ftable = s.ftable
  proc : s'.proc = s.proc
  pipes : s'.pipes = s.pipes

theorem Touches.refl (s : FsState) : Touches s s := ⟨rfl, rfl, rfl, rfl, rfl⟩

theorem Touches.trans {s₁ s₂ s₃ : FsState} (h₁ : Touches s₁ s₂) (h₂ : Touches s₂ s₃) :
    Touches s₁ s₃ :=
  ⟨h₂.sb.trans h₁.sb, h₂.dinode.trans h₁.dinode, h₂.ftable.trans h₁.ftable,
    h₂.proc.trans h₁.proc, h₂.pipes.trans h₁.pipes⟩

section FileOk

variable {s : FsState} {i : Fin NINODE}

theorem FileOk.ne_zero_of_free (h : FileOk s i) {b : ℕ} (hb : s.disk.used b = false) : b ≠ 0 := by
  rintro rfl
  rw [h.zero] at hb
  cases hb

theorem FileOk.lt_word (h : FileOk s i) {b : ℕ} (hb : b < s.disk.sb.size) : b < 2 ^ 32 :=
  lt_of_lt_of_le hb h.small

/-- A block below the size is a block below `MAXFILE`. -/
theorem FileOk.lt_maxfile (h : FileOk s i) {bn : ℕ} (hbn : bn * BSIZE < (s.itable i).di.size) :
    bn < MAXFILE := by
  have := h.size_le
  by_contra hle
  have : MAXFILE * BSIZE ≤ bn * BSIZE := Nat.mul_le_mul_right _ (not_lt.1 hle)
  omega

end FileOk

/-- After `userinit` on the image `mkfs` builds, no entry of the inode table has been read,
so each holds an empty file with no blocks. -/
theorem blocks_boot (n : ℕ) (i : Fin NINODE) : blocks (boot (mkfs n)) i = fun _ => 0 := by
  funext bn
  by_cases hi : i = 0 <;> simp [blocks, Disk.blockOf, boot, hi, Inode.empty, DInode.zero]

theorem indBlock_boot (n : ℕ) (i : Fin NINODE) : indBlock (boot (mkfs n)) i = 0 := by
  by_cases hi : i = 0 <;> simp [indBlock, boot, hi, Inode.empty, DInode.zero]

theorem fileOk_boot {n : ℕ} (hn : n ≤ 2 ^ 32) (i : Fin NINODE) : FileOk (boot (mkfs n)) i := by
  have hind := indBlock_boot n i
  have hsize : ((boot (mkfs n)).itable i).di.size = 0 := by
    by_cases hi : i = 0 <;> simp [boot, hi, Inode.empty, DInode.zero]
  have hb : ∀ bn, blocks (boot (mkfs n)) i bn = 0 := fun bn => congrFun (blocks_boot n i) bn
  refine ⟨⟨fun x _ _ _ _ hx => absurd (hb x) hx, fun _ _ h => absurd hind h,
    fun x _ hx => absurd (hb x) hx, fun h => absurd hind h⟩, by simp [boot, mkfs], hn,
    by rw [hsize]; exact Nat.zero_le _, fun bn hbn => absurd hbn (by rw [hsize]; exact Nat.not_lt_zero _)⟩

/-- The block map reads the entry's addresses, and the indirect block's data. -/
theorem blocks_congr {s s' : FsState} {i : Fin NINODE} (hdi : (s'.itable i).di = (s.itable i).di)
    (hind : indBlock s i ≠ 0 → s'.disk.data (indBlock s i) = s.disk.data (indBlock s i)) :
    blocks s' i = blocks s i := by
  funext bn
  unfold blocks Disk.blockOf
  rw [hdi]
  by_cases h0 : indBlock s i = 0
  · simp only [indBlock] at h0
    simp [h0]
  · rw [show (s.itable i).di.addrs (Fin.last NDIRECT) = indBlock s i from rfl, hind h0]


/-- A file whose only slot that holds a block is the first: block 0 of the file is there, and
no other. -/
theorem blocks_of_one_block {s : FsState} {i : Fin NINODE} {b : ℕ}
    (haddrs : ∀ k, (s.itable i).di.addrs k = if k = 0 then b else 0) (bn : ℕ) :
    blocks s i bn = if bn = 0 then b else 0 := by
  unfold blocks Disk.blockOf
  split
  · rename_i hbn
    rw [haddrs]
    by_cases h0 : bn = 0
    · subst h0
      rfl
    · rw [if_neg h0]
      exact if_neg fun h => h0 (congrArg Fin.val h)
  · rename_i hbn
    have hlast : (s.itable i).di.addrs (Fin.last NDIRECT) = 0 := by
      rw [haddrs, if_neg (by decide)]
    rw [hlast, if_neg (fun h => h.2 rfl), if_neg (by rintro rfl; exact hbn (by decide))]

/-- A file of at most one block, held in its first slot and marked in use, is in shape. -/
theorem fileOk_of_one_block {s : FsState} {i : Fin NINODE} {b : ℕ}
    (haddrs : ∀ k, (s.itable i).di.addrs k = if k = 0 then b else 0) (hb0 : b ≠ 0)
    (hused : s.disk.used b = true) (hzero : s.disk.used 0 = true) (hsmall : s.disk.sb.size ≤ 2 ^ 32)
    (hsize : (s.itable i).di.size ≤ BSIZE) : FileOk s i := by
  have hb := blocks_of_one_block haddrs
  have hind : indBlock s i = 0 := by
    rw [indBlock, haddrs, if_neg (by decide)]
  refine ⟨⟨fun x _ y _ hxy hx0 => ?_, fun _ _ h => absurd hind h, fun x _ hx0 => ?_,
    fun h => absurd hind h⟩, hzero, hsmall, le_trans hsize (Nat.le_mul_of_pos_left _ (by decide)),
    fun bn hbn => ?_⟩
  · rw [hb, hb] at hxy
    rw [hb] at hx0
    split_ifs at hxy hx0 <;> omega
  · rw [hb] at hx0 ⊢
    split_ifs at hx0 ⊢
    · exact hused
    · exact absurd rfl hx0
  · rw [hb, if_pos (by rw [show BSIZE = 1024 from rfl] at hsize hbn; omega)]
    exact hb0

/-! ## The steps of `bmap` -/

/-- The state after `balloc` took block `b`: marked, zeroed, and both logged. -/
def took (s : FsState) (b : ℕ) : FsState :=
  { s with
    disk := { s.disk with
      used := Function.update s.disk.used b true
      data := Function.update s.disk.data b fun _ => 0 }
    logged := s.logged ++ [BBLOCK b s.disk.sb, b] }

/-- Address slot `k` of entry `i` set to `b`. -/
def setAddr (s : FsState) (i : Fin NINODE) (k : Fin (NDIRECT + 1)) (b : ℕ) : FsState :=
  { s with itable := Function.update s.itable i { s.itable i with
      di := { (s.itable i).di with addrs := Function.update (s.itable i).di.addrs k b } } }

/-- Entry `j` of the indirect block `ind` set to `b`, and `ind` logged. -/
def setEntry (s : FsState) (ind j b : ℕ) : FsState :=
  { s with
    disk := { s.disk with data := Function.update s.disk.data ind (setWord (s.disk.data ind) j b) }
    logged := s.logged ++ [ind] }

/-- `balloc` takes a free block below the disk's size, or panics. -/
theorem balloc_cases (dev : ℕ) (s : FsState) :
    (balloc dev).run s = .error "balloc: out of blocks" ∨
      ∃ b, b < s.disk.sb.size ∧ s.disk.used b = false ∧ (balloc dev).run s = .ok (b, took s b) := by
  cases hf : (List.range s.disk.sb.size).find? (fun b => !s.disk.used b) with
  | none => exact .inl (Bitmap.fs_balloc_run_none dev hf)
  | some b =>
    have hp := List.find?_some hf
    have hm := List.mem_of_find?_eq_some hf
    exact .inr ⟨b, List.mem_range.1 hm, by simpa using hp, Bitmap.fs_balloc_run_some dev hf⟩

section Steps

variable {s : FsState} {i : Fin NINODE}

theorem blocks_took (h : Apart (blocks s i) MAXFILE (indBlock s i) s.disk.used) {b : ℕ}
    (hb : s.disk.used b = false) : blocks (took s b) i = blocks s i :=
  blocks_congr rfl fun hind => Function.update_of_ne (h.ind_ne_of_unmarked hb hind) _ _

theorem blocks_setAddr_direct {bn : ℕ} (hbn : bn < NDIRECT) (b : ℕ) :
    blocks (setAddr s i ⟨bn, Nat.lt_succ_of_lt hbn⟩ b) i = Function.update (blocks s i) bn b := by
  funext bn'
  by_cases he : bn' = bn
  · subst he
    rw [Function.update_self]
    simp [blocks, setAddr, Disk.blockOf, hbn]
  · rw [Function.update_of_ne he]
    simp only [blocks, setAddr, Function.update_self, Disk.blockOf]
    by_cases h' : bn' < NDIRECT
    · rw [dif_pos h', dif_pos h', Function.update_of_ne (by simp [Fin.ext_iff, he])]
    · rw [dif_neg h', dif_neg h', Function.update_of_ne (by simp [Fin.ext_iff, Fin.last]; omega)]

theorem blocks_setAddr_last (hind : indBlock s i = 0) {b : ℕ} (hz : s.disk.data b = fun _ => 0) :
    blocks (setAddr s i (Fin.last NDIRECT) b) i = blocks s i := by
  funext bn'
  simp only [blocks, setAddr, Function.update_self, Disk.blockOf]
  by_cases h' : bn' < NDIRECT
  · rw [dif_pos h', dif_pos h', Function.update_of_ne (by simp [Fin.ext_iff, Fin.last]; omega)]
  · -- the new indirect block is zeroed, and there was none
    rw [dif_neg h', dif_neg h', hz]
    simp only [indBlock] at hind
    simp [hind, getWord_zero]

theorem indBlock_setAddr_last (b : ℕ) : indBlock (setAddr s i (Fin.last NDIRECT) b) i = b := by
  simp [indBlock, setAddr]

theorem blocks_setEntry (hind : indBlock s i ≠ 0) {bn : ℕ} (hbn : NDIRECT ≤ bn)
    (hlt : bn - NDIRECT < NINDIRECT) {b : ℕ} (hb : b < 2 ^ 32) :
    blocks (setEntry s (indBlock s i) (bn - NDIRECT) b) i = Function.update (blocks s i) bn b := by
  have hlast : (s.itable i).di.addrs (Fin.last NDIRECT) = indBlock s i := rfl
  funext bn'
  by_cases he : bn' = bn
  · subst he
    simp [blocks, setEntry, Disk.blockOf, show ¬ bn' < NDIRECT by omega, hlt, hlast, hind,
      getWord_setWord_self _ _ hb]
  · -- another entry of the indirect block, or a direct block
    rw [Function.update_of_ne he]
    by_cases h' : bn' < NDIRECT
    · simp [blocks, setEntry, Disk.blockOf, h']
    · have hj : bn - NDIRECT ≠ bn' - NDIRECT := by omega
      simp [blocks, setEntry, Disk.blockOf, h', hlast, getWord_setWord_of_ne _ _ hj]

end Steps

/-! ## `bmap` -/

/-- What `bmap i bn` did from `s` to `s'`, returning `addr`: block `bn` of the file is now
`addr`, a block it had, or one that was free and is now zeroed; the file's other blocks are
as they were, and its indirect block is the one it had or one that was free; only blocks that
were free and the indirect block changed their bytes; only the entry's addresses changed. -/
structure Mapped (s s' : FsState) (i : Fin NINODE) (bn addr : ℕ) : Prop where
  ok : FileOk s' i
  addr_eq : blocks s' i bn = addr
  addr_ne : addr ≠ 0
  others : ∀ bn', bn' ≠ bn → blocks s' i bn' = blocks s i bn'
  fresh : blocks s i bn = 0 → s.disk.used addr = false ∧ s'.disk.data addr = fun _ => 0
  same : blocks s i bn ≠ 0 → s' = s
  used : ∀ b, s.disk.used b = true → s'.disk.used b = true
  ind : indBlock s' i = indBlock s i ∨ s.disk.used (indBlock s' i) = false
  frame : ∀ b, s.disk.used b = true → b ≠ indBlock s i → s'.disk.data b = s.disk.data b
  entry : AddrsOnly s s' i
  touches : Touches s s'

section Bmap

variable {s : FsState} {i : Fin NINODE} {bn : ℕ}

theorem Mapped.refl (h : FileOk s i) (hb : blocks s i bn ≠ 0) : Mapped s s i bn (blocks s i bn) where
  ok := h
  addr_eq := rfl
  addr_ne := hb
  others _ _ := rfl
  fresh h0 := absurd h0 hb
  same _ := rfl
  used _ hb := hb
  ind := .inl rfl
  frame _ _ _ := rfl
  entry := AddrsOnly.refl s i
  touches := Touches.refl s

theorem bmap_run_direct (hbn : bn < NDIRECT) (ha : blocks s i bn ≠ 0) :
    (bmap i bn).run s = .ok (blocks s i bn, s) := by
  have hb : blocks s i bn = (s.itable i).di.addrs ⟨bn, Nat.lt_succ_of_lt hbn⟩ := by
    simp [blocks, Disk.blockOf, hbn]
  rw [hb] at ha ⊢
  simp [bmap, hbn, ha]
  rfl

theorem bmap_run_direct_alloc (hbn : bn < NDIRECT) (ha : blocks s i bn = 0) {b : ℕ} {s₁ : FsState}
    (hrun : (balloc (s.itable i).dev).run s = .ok (b, s₁)) :
    (bmap i bn).run s = .ok (b, setAddr s₁ i ⟨bn, Nat.lt_succ_of_lt hbn⟩ b) := by
  have ha' : (s.itable i).di.addrs ⟨bn, Nat.lt_succ_of_lt hbn⟩ = 0 := by
    simpa [blocks, Disk.blockOf, hbn] using ha
  simp [bmap, hbn, ha', StateT.run_bind, hrun, StateExcept.ok_bind, run_modifyDi]
  rfl

theorem bmap_run_direct_fail (hbn : bn < NDIRECT) (ha : blocks s i bn = 0) {e : String}
    (hrun : (balloc (s.itable i).dev).run s = .error e) : (bmap i bn).run s = .error e := by
  have ha' : (s.itable i).di.addrs ⟨bn, Nat.lt_succ_of_lt hbn⟩ = 0 := by
    simpa [blocks, Disk.blockOf, hbn] using ha
  simp [bmap, hbn, ha', StateT.run_bind, hrun]
  rfl

theorem blocks_of_ind (hd : ¬ bn < NDIRECT) (hlt : bn - NDIRECT < NINDIRECT) (hind : indBlock s i ≠ 0) :
    blocks s i bn = getWord (s.disk.data (indBlock s i)) (bn - NDIRECT) := by
  have hlast : (s.itable i).di.addrs (Fin.last NDIRECT) = indBlock s i := rfl
  simp [blocks, Disk.blockOf, hd, hlt, hlast, hind]

theorem bmap_run_ind (hd : ¬ bn < NDIRECT) (hlt : bn - NDIRECT < NINDIRECT) (hind : indBlock s i ≠ 0)
    (he : blocks s i bn ≠ 0) : (bmap i bn).run s = .ok (blocks s i bn, s) := by
  rw [blocks_of_ind hd hlt hind] at he ⊢
  have hlast : (s.itable i).di.addrs (Fin.last NDIRECT) = indBlock s i := rfl
  simp [bmap, hd, hlt, hlast, hind, he, StateT.run_bind]
  rfl

theorem bmap_run_ind_alloc (hd : ¬ bn < NDIRECT) (hlt : bn - NDIRECT < NINDIRECT)
    (hind : indBlock s i ≠ 0) (he : blocks s i bn = 0) {b : ℕ} {s₁ : FsState}
    (hrun : (balloc (s.itable i).dev).run s = .ok (b, s₁)) :
    (bmap i bn).run s = .ok (b, setEntry s₁ (indBlock s i) (bn - NDIRECT) b) := by
  rw [blocks_of_ind hd hlt hind] at he
  have hlast : (s.itable i).di.addrs (Fin.last NDIRECT) = indBlock s i := rfl
  simp [bmap, hd, hlt, hlast, hind, he, StateT.run_bind, hrun, StateExcept.ok_bind]
  rfl

theorem bmap_run_ind_fail (hd : ¬ bn < NDIRECT) (hlt : bn - NDIRECT < NINDIRECT)
    (hind : indBlock s i ≠ 0) (he : blocks s i bn = 0) {e : String}
    (hrun : (balloc (s.itable i).dev).run s = .error e) : (bmap i bn).run s = .error e := by
  rw [blocks_of_ind hd hlt hind] at he
  have hlast : (s.itable i).di.addrs (Fin.last NDIRECT) = indBlock s i := rfl
  simp [bmap, hd, hlt, hlast, hind, he, StateT.run_bind, hrun]
  rfl

theorem bmap_run_noind (hd : ¬ bn < NDIRECT) (hlt : bn - NDIRECT < NINDIRECT)
    (hind : indBlock s i = 0) {b₁ b₂ : ℕ} {s₁ s₂ : FsState}
    (hrun : (balloc (s.itable i).dev).run s = .ok (b₁, s₁)) (hz : s₁.disk.data b₁ = fun _ => 0)
    (hrun₂ : (balloc (s.itable i).dev).run (setAddr s₁ i (Fin.last NDIRECT) b₁) = .ok (b₂, s₂)) :
    (bmap i bn).run s = .ok (b₂, setEntry s₂ b₁ (bn - NDIRECT) b₂) := by
  have hlast : (s.itable i).di.addrs (Fin.last NDIRECT) = 0 := hind
  simp [bmap, hd, hlt, hlast, StateT.run_bind, hrun, StateExcept.ok_bind, run_modifyDi]
  -- the new indirect block is zeroed, so its entry is 0 and a second block is taken
  rw [hz, getWord_zero, if_pos rfl]
  change StateT.run _ (setAddr s₁ i (Fin.last NDIRECT) b₁) = _
  rw [StateT.run_bind, hrun₂, StateExcept.ok_bind]
  rfl

theorem bmap_run_noind_fail (hd : ¬ bn < NDIRECT) (hlt : bn - NDIRECT < NINDIRECT)
    (hind : indBlock s i = 0) {e : String} (hrun : (balloc (s.itable i).dev).run s = .error e) :
    (bmap i bn).run s = .error e := by
  have hlast : (s.itable i).di.addrs (Fin.last NDIRECT) = 0 := hind
  simp [bmap, hd, hlt, hlast, StateT.run_bind, hrun]
  rfl

theorem bmap_run_noind_fail₂ (hd : ¬ bn < NDIRECT) (hlt : bn - NDIRECT < NINDIRECT)
    (hind : indBlock s i = 0) {b₁ : ℕ} {s₁ : FsState} {e : String}
    (hrun : (balloc (s.itable i).dev).run s = .ok (b₁, s₁)) (hz : s₁.disk.data b₁ = fun _ => 0)
    (hrun₂ : (balloc (s.itable i).dev).run (setAddr s₁ i (Fin.last NDIRECT) b₁) = .error e) :
    (bmap i bn).run s = .error e := by
  have hlast : (s.itable i).di.addrs (Fin.last NDIRECT) = 0 := hind
  simp [bmap, hd, hlt, hlast, StateT.run_bind, hrun, StateExcept.ok_bind, run_modifyDi]
  rw [hz, getWord_zero, if_pos rfl]
  change StateT.run _ (setAddr s₁ i (Fin.last NDIRECT) b₁) = _
  rw [StateT.run_bind, hrun₂]
  rfl

/-- `bmap` with a block it had to take: the constructor of `Mapped` from what each path
shows. -/
theorem Mapped.of_fresh {s' : FsState} (h : FileOk s i) (h0 : blocks s i bn = 0) {b : ℕ}
    (hfree : s.disk.used b = false) (hb0 : b ≠ 0)
    (hblocks : blocks s' i = Function.update (blocks s i) bn b)
    (hapart : Apart (blocks s' i) MAXFILE (indBlock s' i) s'.disk.used)
    (hz : s'.disk.data b = fun _ => 0)
    (hused : ∀ b', s.disk.used b' = true → s'.disk.used b' = true)
    (hind : indBlock s' i = indBlock s i ∨ s.disk.used (indBlock s' i) = false)
    (hframe : ∀ b', s.disk.used b' = true → b' ≠ indBlock s i → s'.disk.data b' = s.disk.data b')
    (hentry : AddrsOnly s s' i) (htouch : Touches s s') : Mapped s s' i bn b := by
  have hsize := hentry.size
  refine ⟨⟨hapart, hused 0 h.zero, htouch.sb ▸ h.small, hsize ▸ h.size_le, fun bn' hbn' => ?_⟩,
    by rw [hblocks, Function.update_self], hb0, fun bn' hne => by rw [hblocks, Function.update_of_ne hne],
    fun _ => ⟨hfree, hz⟩, fun hne => absurd h0 hne, hused, hind, hframe, hentry, htouch⟩
  -- a block below the size was there, or is the new one
  rw [hblocks]
  by_cases he : bn' = bn
  · rw [he, Function.update_self]
    exact hb0
  · rw [Function.update_of_ne he]
    exact h.full bn' (hsize ▸ hbn')

/-- A direct block that was missing, taken by `balloc`. -/
theorem mapped_direct (h : FileOk s i) (hbn : bn < NDIRECT) (h0 : blocks s i bn = 0) {b : ℕ}
    (hfree : s.disk.used b = false) :
    Mapped s (setAddr (took s b) i ⟨bn, Nat.lt_succ_of_lt hbn⟩ b) i bn b := by
  have hb0 := h.ne_zero_of_free hfree
  have hblocks : blocks (setAddr (took s b) i ⟨bn, Nat.lt_succ_of_lt hbn⟩ b) i =
      Function.update (blocks s i) bn b := by
    rw [blocks_setAddr_direct hbn, blocks_took h.apart hfree]
  have hind : indBlock (setAddr (took s b) i ⟨bn, Nat.lt_succ_of_lt hbn⟩ b) i = indBlock s i := by
    simp only [indBlock, setAddr, took, Function.update_self]
    rw [Function.update_of_ne (by simp [Fin.ext_iff, Fin.last]; omega)]
  refine Mapped.of_fresh h h0 hfree hb0 hblocks ?_ (by simp [setAddr, took]) ?_ (.inl hind) ?_
    ⟨_, rfl⟩ ⟨rfl, rfl, rfl, rfl, rfl⟩
  · rw [hblocks, hind]
    exact h.apart.update h0 hfree hb0
  · intro b' hb'
    simp [setAddr, took, Function.update_apply, hb']
  · intro b' hb' _
    have : b' ≠ b := fun he => by rw [he, hfree] at hb'; cases hb'
    simp [setAddr, took, Function.update_of_ne this]

/-- An entry of the indirect block that was missing, taken by `balloc`. -/
theorem mapped_ind (h : FileOk s i) (hd : ¬ bn < NDIRECT) (hlt : bn - NDIRECT < NINDIRECT)
    (hind : indBlock s i ≠ 0) (h0 : blocks s i bn = 0) {b : ℕ} (hb : b < s.disk.sb.size)
    (hfree : s.disk.used b = false) :
    Mapped s (setEntry (took s b) (indBlock s i) (bn - NDIRECT) b) i bn b := by
  have hb0 := h.ne_zero_of_free hfree
  have hne : indBlock s i ≠ b := h.apart.ind_ne_of_unmarked hfree hind
  have hblocks : blocks (setEntry (took s b) (indBlock s i) (bn - NDIRECT) b) i =
      Function.update (blocks s i) bn b := by
    have := blocks_setEntry (s := took s b) (i := i) hind (by omega) hlt (h.lt_word hb)
    rw [blocks_took h.apart hfree] at this
    exact this
  refine Mapped.of_fresh h h0 hfree hb0 hblocks ?_ ?_ ?_ (.inl rfl) ?_
    ⟨(s.itable i).di.addrs, by simp [setEntry, took]⟩ ⟨rfl, rfl, rfl, rfl, rfl⟩
  · rw [hblocks]
    exact h.apart.update h0 hfree hb0
  · simp [setEntry, took, Function.update_of_ne hne.symm]
  · intro b' hb'
    simp [setEntry, took, Function.update_apply, hb']
  · intro b' hb' hb'ind
    have : b' ≠ b := fun he => by rw [he, hfree] at hb'; cases hb'
    simp [setEntry, took, Function.update_of_ne this, Function.update_of_ne hb'ind]

/-- A block past the direct ones when the file has no indirect block: `balloc` takes the
indirect block, then the block. -/
theorem mapped_noind (h : FileOk s i) (hd : ¬ bn < NDIRECT) (hlt : bn - NDIRECT < NINDIRECT)
    (hind : indBlock s i = 0) (h0 : blocks s i bn = 0) {b₁ b₂ : ℕ}
    (hfree₁ : s.disk.used b₁ = false)
    (hb₂ : b₂ < (setAddr (took s b₁) i (Fin.last NDIRECT) b₁).disk.sb.size)
    (hfree₂ : (setAddr (took s b₁) i (Fin.last NDIRECT) b₁).disk.used b₂ = false) :
    Mapped s (setEntry (took (setAddr (took s b₁) i (Fin.last NDIRECT) b₁) b₂) b₁ (bn - NDIRECT) b₂)
      i bn b₂ := by
  set s₂ := setAddr (took s b₁) i (Fin.last NDIRECT) b₁ with hs₂
  have hb₁0 := h.ne_zero_of_free hfree₁
  have hb₂1 : b₂ ≠ b₁ := by
    rintro rfl
    simp [hs₂, setAddr, took] at hfree₂
  have hfree₂' : s.disk.used b₂ = false := by
    simpa [hs₂, setAddr, took, Function.update_of_ne hb₂1] using hfree₂
  have hb₂0 := h.ne_zero_of_free hfree₂'
  -- after the first `balloc`, the file has the zeroed indirect block and the same map
  have hblocks₂ : blocks s₂ i = blocks s i := by
    rw [hs₂, blocks_setAddr_last (s := took s b₁) hind (by simp [took]), blocks_took h.apart hfree₁]
  have hind₂ : indBlock s₂ i = b₁ := indBlock_setAddr_last b₁
  have hapart₂ : Apart (blocks s₂ i) MAXFILE (indBlock s₂ i) s₂.disk.used := by
    rw [hblocks₂, hind₂]
    exact (hind ▸ h.apart).setInd hfree₁ hb₁0
  have hblocks : blocks (setEntry (took s₂ b₂) b₁ (bn - NDIRECT) b₂) i =
      Function.update (blocks s i) bn b₂ := by
    have := blocks_setEntry (s := took s₂ b₂) (i := i) (hind₂ ▸ hb₁0) (by omega) hlt
      (h.lt_word hb₂)
    rw [blocks_took hapart₂ hfree₂, hblocks₂] at this
    rw [← hind₂]
    exact this
  have hindF : indBlock (setEntry (took s₂ b₂) b₁ (bn - NDIRECT) b₂) i = b₁ := hind₂
  refine Mapped.of_fresh h h0 hfree₂' hb₂0 hblocks ?_ ?_ ?_ (.inr (hindF ▸ hfree₁)) ?_ ⟨_, rfl⟩ ⟨rfl, rfl, rfl, rfl, rfl⟩
  · rw [hblocks, hindF]
    have := hapart₂.update (hblocks₂ ▸ h0) hfree₂ hb₂0
    rw [hblocks₂, hind₂] at this
    exact this
  · simp [setEntry, took, hs₂, setAddr, Function.update_of_ne hb₂1]
  · intro b' hb'
    simp [setEntry, took, hs₂, setAddr, Function.update_apply, hb']
  · intro b' hb' _
    have h₁ : b' ≠ b₁ := fun he => by rw [he, hfree₁] at hb'; cases hb'
    have h₂ : b' ≠ b₂ := fun he => by rw [he, hfree₂'] at hb'; cases hb'
    simp [setEntry, took, hs₂, setAddr, Function.update_of_ne h₁, Function.update_of_ne h₂]

theorem blocks_of_noind (hd : ¬ bn < NDIRECT) (hind : indBlock s i = 0) : blocks s i bn = 0 := by
  have hlast : (s.itable i).di.addrs (Fin.last NDIRECT) = 0 := hind
  simp [blocks, Disk.blockOf, hd, hlast]

/-- `bmap` of a block the file has returns it and changes nothing. -/
theorem bmap_run_of_ne (hbn : bn < MAXFILE) (hb : blocks s i bn ≠ 0) :
    (bmap i bn).run s = .ok (blocks s i bn, s) := by
  by_cases hd : bn < NDIRECT
  · exact bmap_run_direct hd hb
  have hlt : bn - NDIRECT < NINDIRECT := by
    unfold MAXFILE at hbn
    omega
  have hind : indBlock s i ≠ 0 := fun hind => hb (blocks_of_noind hd hind)
  exact bmap_run_ind hd hlt hind hb

/-- `bmap` below `MAXFILE` on a file in shape: it panics for want of a free block, or maps
block `bn`, taking what it needs. -/
theorem bmap_spec (h : FileOk s i) (hbn : bn < MAXFILE) :
    (bmap i bn).run s = .error "balloc: out of blocks" ∨
      ∃ addr s', (bmap i bn).run s = .ok (addr, s') ∧ Mapped s s' i bn addr := by
  by_cases h0 : blocks s i bn = 0
  swap
  · exact .inr ⟨_, s, bmap_run_of_ne hbn h0, Mapped.refl h h0⟩
  have hz : ∀ b, (took s b).disk.data b = fun _ => 0 := fun b => by simp [took]
  by_cases hd : bn < NDIRECT
  · rcases balloc_cases (s.itable i).dev s with he | ⟨b, -, hfree, hrun⟩
    · exact .inl (bmap_run_direct_fail hd h0 he)
    · exact .inr ⟨_, _, bmap_run_direct_alloc hd h0 hrun, mapped_direct h hd h0 hfree⟩
  have hlt : bn - NDIRECT < NINDIRECT := by
    unfold MAXFILE at hbn
    omega
  by_cases hind : indBlock s i = 0
  · -- no indirect block yet: `bmap` takes it, then the block
    rcases balloc_cases (s.itable i).dev s with he | ⟨b₁, -, hfree₁, hrun⟩
    · exact .inl (bmap_run_noind_fail hd hlt hind he)
    rcases balloc_cases (s.itable i).dev (setAddr (took s b₁) i (Fin.last NDIRECT) b₁) with
      he | ⟨b₂, hb₂, hfree₂, hrun₂⟩
    · exact .inl (bmap_run_noind_fail₂ hd hlt hind hrun (hz b₁) he)
    · exact .inr ⟨_, _, bmap_run_noind hd hlt hind hrun (hz b₁) hrun₂,
        mapped_noind h hd hlt hind h0 hfree₁ hb₂ hfree₂⟩
  · rcases balloc_cases (s.itable i).dev s with he | ⟨b, hb, hfree, hrun⟩
    · exact .inl (bmap_run_ind_fail hd hlt hind h0 he)
    · exact .inr ⟨_, _, bmap_run_ind_alloc hd hlt hind h0 hrun,
        mapped_ind h hd hlt hind h0 hb hfree⟩

end Bmap

/-! ## What `bmap` keeps -/

section Mapped

variable {s s' : FsState} {i : Fin NINODE} {bn addr : ℕ}

/-- A byte of the file in a block it had is as it was. -/
theorem Mapped.content_of_ne (hm : Mapped s s' i bn addr) (h : FileOk s i) {k : ℕ}
    (hk : k / BSIZE < MAXFILE) (hb : blocks s i (k / BSIZE) ≠ 0) :
    content s' i k = content s i k := by
  by_cases he : k / BSIZE = bn
  · rw [hm.same (he ▸ hb)]
  · have hind : blocks s i (k / BSIZE) ≠ indBlock s i := by
      by_cases h0 : indBlock s i = 0
      · rw [h0]
        exact hb
      · exact h.apart.ne_ind _ hk h0
    rw [content_eq, content_eq, hm.others _ he,
      hm.frame _ (h.apart.marked _ hk hb) hind]

/-- A block of the file after `bmap` was one before, or was free. -/
theorem Mapped.owns (hm : Mapped s s' i bn addr) {b : ℕ} (hb : Owns s' i b) :
    Owns s i b ∨ s.disk.used b = false := by
  rcases hb with ⟨bn', hbn', rfl⟩ | rfl
  · by_cases he : bn' = bn
    · subst he
      by_cases h0 : blocks s i bn' = 0
      · rw [hm.addr_eq]
        exact .inr (hm.fresh h0).1
      · rw [hm.same h0]
        exact .inl (.inl ⟨bn', hbn', rfl⟩)
    · rw [hm.others _ he]
      exact .inl (.inl ⟨bn', hbn', rfl⟩)
  · rcases hm.ind with he | he
    · exact .inl (.inr he)
    · exact .inr he

end Mapped

end Xv6.Fs
