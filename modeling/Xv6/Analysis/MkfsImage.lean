import Xv6.Model.Fs.Mkfs
import Xv6.Analysis.Namespace
import Xv6.Lib.StateExcept

/-!
# The root directory of the image `mkfs` writes

`iappend` takes a block from `freeblock` each time it reaches a slot of the inode that
holds none, so a file that only `iappend` has written holds a block in slot `j` exactly
when its size passes `j * BSIZE` (`SlotsFor`). The root gets one 16-byte entry for `.`,
`..` and each file; `main` then rounds its size with `((off/BSIZE) + 1) * BSIZE`. When
the entries fill their last block exactly, this adds a whole block that no entry reached
and no block backs: a hole below the size, which the kernel's `bmap` fills on the first
read of it, outside any transaction.
Source: mkfs/mkfs.c:120-167, mkfs/mkfs.c:252-294
-/

set_option autoImplicit false

namespace Xv6.Fs.Mkfs

open StateExcept

/-- The slots of `din` that hold a block are exactly those that a file of `size` bytes,
written from its start, needs: slot `j` once `size` passes `j * BSIZE`, the indirect
slot `NDIRECT` once it passes the direct blocks. -/
def SlotsFor (din : DInode) (size : ℕ) : Prop :=
  ∀ j : Fin (NDIRECT + 1), din.addrs j ≠ 0 ↔ j.val * BSIZE < size

/-- The inodes and `freeinode`, which only `winode` and `ialloc` change. -/
def inodesView (s : MkfsState) : (ℕ → DInode) × ℕ :=
  (s.disk.dinode, s.freeinode)

/-- A new inode of `ialloc` needs no block. -/
theorem slotsFor_new (type : IType) : SlotsFor { DInode.zero with type := type, nlink := 1 } 0 := by
  intro j
  simp [DInode.zero]

/-- One round of `iappend`'s loop at offset `off` fills the slot of block `off / BSIZE`,
or the indirect slot past the direct blocks, and copies `n` bytes that stay in that
block: the slots are then those of `off + n` bytes. -/
theorem slotsFor_step {din din' : DInode} {off n : ℕ} (h : SlotsFor din off)
    (h' : ∀ j, din'.addrs j ≠ 0 ↔ din.addrs j ≠ 0 ∨ j.val = min (off / BSIZE) NDIRECT)
    (hn : 0 < n) (hle : off + n ≤ (off / BSIZE + 1) * BSIZE) : SlotsFor din' (off + n) := by
  intro j
  have hj : j.val ≤ 12 := Nat.lt_succ_iff.1 j.isLt
  have hm : min (off / BSIZE) NDIRECT = min (off / 1024) 12 := rfl
  have hB : BSIZE = 1024 := rfl
  rw [h', h j, hm, hB]
  rw [hB] at hle
  omega

/-! ## The steps of `iappend` -/

theorem nextFreeblock_run (s : MkfsState) :
    nextFreeblock.run s = .ok (s.freeblock, { s with freeblock := s.freeblock + 1 }) := rfl

theorem keeps_nextFreeblock : Keeps inodesView (fun _ => True) nextFreeblock :=
  Keeps.of_run fun s _ s' _ hrun => by
    rw [nextFreeblock_run] at hrun
    cases hrun
    rfl

theorem keeps_rsect (sec : ℕ) : Keeps inodesView (fun _ => True) (rsect sec) :=
  Keeps.get_bind fun _ => Keeps.pure

theorem keeps_wsect (sec : ℕ) (buf : ℕ → UInt8) : Keeps inodesView (fun _ => True) (wsect sec buf) :=
  Keeps.modify fun _ _ => rfl

/-- `freeblock` stays positive, and a block taken from it is not 0. -/
theorem nextFreeblock_pos : Triple (fun s => 0 < s.freeblock) nextFreeblock
    fun b s => 0 < b ∧ 0 < s.freeblock := by
  intro s b s' hs hrun
  rw [nextFreeblock_run] at hrun
  cases hrun
  exact ⟨hs, Nat.succ_pos _⟩

theorem wsect_pos (sec : ℕ) (buf : ℕ → UInt8) :
    Triple (fun s => 0 < s.freeblock) (wsect sec buf) fun _ s => 0 < s.freeblock :=
  Triple.modify fun _ hs => hs

theorem keeps_iappendBlock (din : DInode) (fbn : ℕ) :
    Keeps inodesView (fun _ => True) (iappendBlock din fbn) := by
  unfold iappendBlock
  split
  · exact Keeps.ite (fun _ => keeps_nextFreeblock.bind fun _ => Keeps.pure) fun _ => Keeps.pure
  · -- the indirect case, once the indirect slot holds a block
    have hind : ∀ din' : DInode, Keeps inodesView (fun _ => True) (do
        let indirect ← rsect (din'.addrs (Fin.last NDIRECT))
        if getWord indirect (fbn - NDIRECT) = 0 then do
          let b ← nextFreeblock
          wsect (din'.addrs (Fin.last NDIRECT)) (setWord indirect (fbn - NDIRECT) b)
          pure (din', b)
        else pure (din', getWord indirect (fbn - NDIRECT))) := fun _ =>
      (keeps_rsect _).bind fun _ => Keeps.ite (fun _ => keeps_nextFreeblock.bind fun _ =>
        (keeps_wsect _ _).bind fun _ => Keeps.pure) fun _ => Keeps.pure
    exact Keeps.ite (fun _ => keeps_nextFreeblock.bind fun _ => hind _) fun _ => hind _

/-- The block `iappendBlock` returns sits in the slot of `fbn`, or past the direct
blocks in the indirect block, which then holds a block too: the slots that hold a block
are the old ones and the slot of `fbn`. -/
theorem iappendBlock_slots (din : DInode) (fbn : ℕ) :
    Triple (fun s => 0 < s.freeblock) (iappendBlock din fbn) fun r s => 0 < s.freeblock ∧
      ∀ j, r.1.addrs j ≠ 0 ↔ din.addrs j ≠ 0 ∨ j.val = min fbn NDIRECT := by
  unfold iappendBlock
  split
  · rename_i hfbn
    refine Triple.ite (fun hz => Triple.bind nextFreeblock_pos fun b => Triple.pure ?_)
      fun hz => Triple.pure ?_
    · rintro s ⟨hb, hs⟩
      refine ⟨hs, fun j => ?_⟩
      by_cases hj : j = ⟨fbn, Nat.lt_succ_of_lt hfbn⟩
      · subst hj
        simp [Nat.min_eq_left hfbn.le, Nat.pos_iff_ne_zero.1 hb]
      · have hj' : j.val ≠ fbn := fun h => hj (Fin.ext h)
        simp [Function.update_of_ne hj, Nat.min_eq_left hfbn.le, hj']
    · intro s hs
      refine ⟨hs, fun j => ?_⟩
      rw [Nat.min_eq_left hfbn.le]
      constructor
      · exact Or.inl
      · rintro (h | h)
        · exact h
        · rwa [show j = ⟨fbn, Nat.lt_succ_of_lt hfbn⟩ from Fin.ext h]
  · rename_i hfbn
    rw [Nat.min_eq_right (Nat.le_of_not_lt hfbn)]
    -- past the direct blocks the inode itself changes at most in the indirect slot
    have hind : ∀ din' : DInode, (∀ j, din'.addrs j ≠ 0 ↔ din.addrs j ≠ 0 ∨ j.val = NDIRECT) →
        Triple (fun s => 0 < s.freeblock) (do
          let indirect ← rsect (din'.addrs (Fin.last NDIRECT))
          if getWord indirect (fbn - NDIRECT) = 0 then do
            let b ← nextFreeblock
            wsect (din'.addrs (Fin.last NDIRECT)) (setWord indirect (fbn - NDIRECT) b)
            pure (din', b)
          else pure (din', getWord indirect (fbn - NDIRECT)))
          fun r s => 0 < s.freeblock ∧ ∀ j, r.1.addrs j ≠ 0 ↔ din.addrs j ≠ 0 ∨ j.val = NDIRECT := by
      intro din' hdin'
      refine Triple.get_bind fun _ => Triple.ite (fun _ => ?_) fun _ => Triple.pure ?_
      · refine Triple.bind (nextFreeblock_pos.mono (fun _ hs => hs.1) fun _ _ h => h) fun _ => ?_
        refine Triple.bind ((wsect_pos _ _).mono (fun _ hs => hs.2) fun _ _ h => h) fun _ => ?_
        exact Triple.pure fun _ hs => ⟨hs, hdin'⟩
      · intro s hs
        exact ⟨hs.1, hdin'⟩
    refine Triple.ite (fun hz => Triple.bind nextFreeblock_pos fun b => ?_) fun hz => ?_
    · refine Triple.of_pinned fun s₀ hs₀ => (hind _ fun j => ?_).mono (fun s h => h ▸ hs₀.2)
        fun _ _ h => h
      by_cases hj : j = Fin.last NDIRECT
      · subst hj
        simp [Nat.pos_iff_ne_zero.1 hs₀.1]
      · have hj' : j.val ≠ NDIRECT := fun h => hj (Fin.ext h)
        simp [Function.update_of_ne hj, hj']
    · refine hind din fun j => ⟨Or.inl, ?_⟩
      rintro (h | h)
      · exact h
      · rwa [show j = Fin.last NDIRECT from Fin.ext h]

theorem keeps_iappendLoop :
    ∀ fuel din off p, Keeps inodesView (fun _ => True) (iappendLoop fuel din off p)
  | 0, _, _, _ => Keeps.pure
  | fuel + 1, din, off, p => by
    rw [iappendLoop]
    refine Keeps.ite (fun _ => Keeps.pure) fun _ => Keeps.ite_throw ?_
    dsimp only
    refine (keeps_iappendBlock _ _).bind fun r => ?_
    obtain ⟨din', x⟩ := r
    exact (keeps_rsect _).bind fun _ => (keeps_wsect _ _).bind fun _ => keeps_iappendLoop fuel _ _ _

/-- The loop of `iappend`, given as many rounds as bytes, copies all of `p` and leaves
the slots of the inode those of its new size. It is run on `fuel = p.length`. -/
theorem iappendLoop_slots : ∀ fuel din off p, p.length ≤ fuel → SlotsFor din off →
    Triple (fun s => 0 < s.freeblock) (iappendLoop fuel din off p)
      fun r s => 0 < s.freeblock ∧ r.2 = off + p.length ∧ SlotsFor r.1 r.2
  | 0, din, off, p, hp, hslots => by
    rw [List.length_eq_zero_iff.1 (Nat.le_zero.1 hp)]
    exact Triple.pure fun _ hs => ⟨hs, rfl, hslots⟩
  | fuel + 1, din, off, p, hp, hslots => by
    rw [iappendLoop]
    refine Triple.ite (fun hnil => ?_) fun hnil => Triple.ite_throw fun _ => ?_
    · subst hnil
      exact Triple.pure fun _ hs => ⟨hs, rfl, hslots⟩
    have hlen : 0 < p.length := List.length_pos_iff.2 hnil
    refine Triple.bind (iappendBlock_slots _ _) fun r => ?_
    obtain ⟨din', x⟩ := r
    -- the bytes of this round stay in the block of `off`
    have hn1 : 0 < min p.length ((off / BSIZE + 1) * BSIZE - off) := by
      have := Nat.lt_div_mul_add (a := off) (show 0 < BSIZE by decide)
      rw [Nat.add_comm] at this
      exact Nat.lt_min.2 ⟨hlen, by rw [Nat.add_mul, Nat.one_mul]; omega⟩
    have hle : off + min p.length ((off / BSIZE + 1) * BSIZE - off) ≤ (off / BSIZE + 1) * BSIZE := by
      have := Nat.lt_div_mul_add (a := off) (show 0 < BSIZE by decide)
      rw [Nat.add_mul, Nat.one_mul]
      omega
    refine Triple.of_pinned fun s₀ hs₀ => ?_
    refine Triple.get_bind fun _ => Triple.bind ((wsect_pos _ _).mono (fun _ h => h.1 ▸ hs₀.1)
      fun _ _ h => h) fun _ => ?_
    refine (iappendLoop_slots fuel _ _ _ (by rw [List.length_drop]; omega)
      (slotsFor_step hslots hs₀.2 hn1 hle)).mono (fun _ h => h) fun r s h => ⟨h.1, ?_, h.2.2⟩
    rw [h.2.1, List.length_drop]
    omega

/-! ## `iappend` and the loops of `main` -/

theorem rinode_spec (inum : ℕ) {P : MkfsState → Prop} :
    Triple P (rinode inum) fun din s => P s ∧ din = s.disk.dinode inum :=
  Triple.get_bind fun _ => Triple.pure fun _ h => ⟨h.1, by rw [h.2]⟩

theorem ialloc_run (type : IType) (s : MkfsState) : (ialloc type).run s =
    .ok (s.freeinode, { s with
      freeinode := s.freeinode + 1
      disk := { s.disk with
        dinode := Function.update s.disk.dinode s.freeinode { DInode.zero with type := type, nlink := 1 } } }) :=
  rfl

theorem winode_spec (inum : ℕ) (din : DInode) (s₀ : MkfsState) :
    Triple (· = s₀) (winode inum din) fun _ s =>
      s.disk.dinode = Function.update s₀.disk.dinode inum din :=
  Triple.modify fun _ h => by rw [h]

/-- The bitmap is the last thing `main` writes, and it is not an inode. -/
theorem keeps_balloc (used : ℕ) : Keeps (fun s => s.disk.dinode) (fun _ => True) (balloc used) := by
  unfold balloc
  exact Keeps.ite_throw (Keeps.modify fun _ _ => rfl)

/-- `ialloc` hands out `freeinode`, as an inode of `type` with one link and no block. -/
theorem ialloc_spec (type : IType) (D : ℕ → DInode) (F : ℕ) :
    Triple (fun s => 0 < s.freeblock ∧ inodesView s = (D, F)) (ialloc type) fun inum s =>
      0 < s.freeblock ∧ inum = F ∧
        inodesView s = (Function.update D F { DInode.zero with type := type, nlink := 1 }, F + 1) := by
  intro s inum s' hs hrun
  rw [ialloc_run] at hrun
  cases hrun
  obtain ⟨hpos, hview⟩ := hs
  simp only [inodesView, Prod.mk.injEq] at hview
  obtain ⟨hD, hF⟩ := hview
  subst hD hF
  exact ⟨hpos, rfl, rfl⟩

/-- `iappend` adds the bytes of `p` to the size of inode `inum`, whose slots stay those
of its size; it changes no other inode and not `freeinode`. -/
theorem iappend_spec (inum : ℕ) (p : List UInt8) (D : ℕ → DInode) (F : ℕ) :
    Triple (fun s => 0 < s.freeblock ∧ inodesView s = (D, F) ∧ SlotsFor (D inum) (D inum).size)
      (iappend inum p) fun _ s => 0 < s.freeblock ∧ s.freeinode = F ∧
        (∀ i, i ≠ inum → s.disk.dinode i = D i) ∧
        (s.disk.dinode inum).size = (D inum).size + p.length ∧
        SlotsFor (s.disk.dinode inum) (s.disk.dinode inum).size := by
  unfold iappend
  refine Triple.bind (rinode_spec inum) fun din => Triple.of_pinned fun s₀ hs₀ => ?_
  obtain ⟨⟨hpos, hview, hslots⟩, hdin⟩ := hs₀
  have hD : s₀.disk.dinode = D := congrArg Prod.fst hview
  rw [hdin, hD]
  -- the loop keeps the inodes, and the slots follow its offset
  have hloop := (iappendLoop_slots p.length (D inum) (D inum).size p le_rfl hslots).frame
    (keeps_iappendLoop _ _ _ _) (· = (D, F))
  refine Triple.bind (hloop.mono (fun s h => ?_) fun _ _ h => h) fun r => ?_
  · subst h
    exact ⟨hpos, hview⟩
  · obtain ⟨din', off⟩ := r
    refine Triple.modify fun s h => ?_
    obtain ⟨⟨hpos', hoff, hslots'⟩, hview'⟩ := h
    have hD' : s.disk.dinode = D := congrArg Prod.fst hview'
    refine ⟨hpos', congrArg Prod.snd hview', fun i hi => ?_, ?_, ?_⟩
    · simp [Function.update_of_ne hi, hD']
    · simpa using hoff
    · simp only [Function.update_self]
      exact hslots'

/-- `appendFile`, given a round for each byte, adds the bytes of the file to inode
`inum` and keeps its slots those of its size; it changes no other inode. -/
theorem appendFile_spec (inum : ℕ) : ∀ fuel (bytes : List UInt8) (D : ℕ → DInode) (F : ℕ),
    bytes.length ≤ fuel →
    Triple (fun s => 0 < s.freeblock ∧ inodesView s = (D, F) ∧ SlotsFor (D inum) (D inum).size)
      (appendFile inum fuel bytes) fun _ s => 0 < s.freeblock ∧ s.freeinode = F ∧
        (∀ i, i ≠ inum → s.disk.dinode i = D i) ∧
        (s.disk.dinode inum).size = (D inum).size + bytes.length ∧
        SlotsFor (s.disk.dinode inum) (s.disk.dinode inum).size
  | 0, bytes, D, F, hb => by
    rw [List.length_eq_zero_iff.1 (Nat.le_zero.1 hb)]
    refine Triple.pure fun s h => ?_
    have hD : s.disk.dinode = D := congrArg Prod.fst h.2.1
    rw [hD]
    exact ⟨h.1, congrArg Prod.snd h.2.1, fun _ _ => rfl, rfl, h.2.2⟩
  | fuel + 1, bytes, D, F, hb => by
    rw [appendFile]
    refine Triple.ite (fun hnil => ?_) fun hnil => ?_
    · subst hnil
      exact appendFile_spec inum 0 [] D F le_rfl
    refine Triple.bind (iappend_spec inum _ D F) fun _ => Triple.of_pinned fun s₁ hs₁ => ?_
    obtain ⟨hpos, hF, hother, hsize, hslots⟩ := hs₁
    have hrest := appendFile_spec inum fuel (bytes.drop BSIZE) s₁.disk.dinode F (by
      rw [List.length_drop]
      have : 0 < BSIZE := by decide
      omega)
    refine (hrest.mono (fun s h => ?_) fun _ s h => ?_)
    · subst h
      exact ⟨hpos, by rw [inodesView, hF], hslots⟩
    · refine ⟨h.1, h.2.1, fun i hi => (h.2.2.1 i hi).trans (hother i hi), ?_, h.2.2.2.2⟩
      rw [h.2.2.2.1, hsize, Nat.add_assoc, ← List.length_append, List.take_append_drop]

/-- The root after `k` entries: the inodes handed out so far lie past it, and its size
and slots are those of `k` entries of 16 bytes. -/
def RootAt (k : ℕ) (s : MkfsState) : Prop :=
  ROOTINO < s.freeinode ∧ 0 < s.freeblock ∧ (s.disk.dinode ROOTINO).size = 16 * k ∧
    SlotsFor (s.disk.dinode ROOTINO) (16 * k)

/-- The entry `iappend` adds to the root takes its size and slots one entry further. -/
theorem iappend_root (de : Dirent) (k : ℕ) :
    Triple (RootAt k) (iappend ROOTINO de.encode) fun _ => RootAt (k + 1) := by
  refine Triple.of_pinned fun s₀ hs₀ => ?_
  obtain ⟨hF, hpos, hsize, hslots⟩ := hs₀
  refine (iappend_spec ROOTINO de.encode s₀.disk.dinode s₀.freeinode).mono (fun s h => ?_)
    fun _ s h => ?_
  · subst h
    exact ⟨hpos, rfl, hsize ▸ hslots⟩
  · obtain ⟨hpos', hF', -, hsize', hslots'⟩ := h
    have hk : 16 * (k + 1) = 16 * k + 16 := by ring
    rw [Dirent.length_encode, hsize, ← hk] at hsize'
    exact ⟨hF' ▸ hF, hpos', hsize', hsize' ▸ hslots'⟩

/-- A file takes one entry of the root; its inode and its blocks are not the root's. -/
theorem addFile_root (name bytes : List UInt8) (k : ℕ) :
    Triple (RootAt k) (addFile ROOTINO name bytes) fun _ => RootAt (k + 1) := by
  unfold addFile
  refine Triple.ite_throw fun _ => Triple.of_pinned fun s₀ hs₀ => ?_
  obtain ⟨hF, hpos, hsize, hslots⟩ := hs₀
  refine Triple.bind ((ialloc_spec .file s₀.disk.dinode s₀.freeinode).mono
    (fun s h => by subst h; exact ⟨hpos, rfl⟩) fun _ _ h => h) fun inum =>
      Triple.of_pinned fun s₁ hs₁ => ?_
  obtain ⟨hpos₁, rfl, hview₁⟩ := hs₁
  have hD₁ : s₁.disk.dinode =
      Function.update s₀.disk.dinode s₀.freeinode { DInode.zero with type := .file, nlink := 1 } :=
    congrArg Prod.fst hview₁
  have hroot₁ : s₁.disk.dinode ROOTINO = s₀.disk.dinode ROOTINO := by
    rw [hD₁, Function.update_of_ne (Nat.ne_of_lt hF)]
  -- the entry in the root
  refine Triple.bind ((iappend_spec ROOTINO _ s₁.disk.dinode s₁.freeinode).mono (fun s h => ?_)
    fun _ _ h => h) fun _ => Triple.of_pinned fun s₂ hs₂ => ?_
  · subst h
    refine ⟨hpos₁, rfl, ?_⟩
    rw [hroot₁, hsize]
    exact hslots
  obtain ⟨hpos₂, hF₂, hother₂, hsize₂, hslots₂⟩ := hs₂
  have hroot₂ : (s₂.disk.dinode ROOTINO).size = 16 * (k + 1) := by
    rw [hsize₂, Dirent.length_encode, hroot₁, hsize]
    ring
  have hnew₂ : s₂.disk.dinode s₀.freeinode = { DInode.zero with type := .file, nlink := 1 } := by
    rw [hother₂ _ (Nat.ne_of_gt hF), hD₁, Function.update_self]
  -- the bytes of the file, in its own inode
  refine (appendFile_spec s₀.freeinode bytes.length bytes s₂.disk.dinode s₂.freeinode le_rfl).mono
    (fun s h => ?_) fun _ s h => ?_
  · subst h
    refine ⟨hpos₂, rfl, ?_⟩
    rw [hnew₂]
    exact slotsFor_new .file
  · obtain ⟨hpos₃, hF₃, hother₃, -, -⟩ := h
    have hroot₃ : s.disk.dinode ROOTINO = s₂.disk.dinode ROOTINO := hother₃ _ (Nat.ne_of_lt hF)
    have hF₁ : s₁.freeinode = s₀.freeinode + 1 := congrArg Prod.snd hview₁
    refine ⟨by omega, hpos₃, hroot₃ ▸ hroot₂, ?_⟩
    rw [hroot₃, ← hroot₂]
    exact hslots₂

/-- `main` gives the root an entry for `.`, `..` and each file, and then rounds its size
up past the last entry to a block, one block further when the entries end on a block. -/
theorem main_root (files : List (List UInt8 × List UInt8)) :
    Triple (· = init) (main files) fun _ s =>
      (s.disk.dinode ROOTINO).size = (16 * (files.length + 2) / BSIZE + 1) * BSIZE ∧
      SlotsFor (s.disk.dinode ROOTINO) (16 * (files.length + 2)) := by
  unfold main
  refine Triple.bind ((ialloc_spec .dir init.disk.dinode init.freeinode).mono
    (fun s h => by subst h; exact ⟨by decide, rfl⟩) fun _ _ h => h) fun rootino =>
      Triple.of_pinned fun s₁ hs₁ => ?_
  obtain ⟨hpos₁, rfl, hview₁⟩ := hs₁
  refine Triple.ite_throw fun _ => ?_
  have hr : init.freeinode = ROOTINO := rfl
  rw [hr] at hview₁ ⊢
  -- the root is inode 1, empty
  have h₀ : RootAt 0 s₁ := by
    have hD₁ : s₁.disk.dinode = Function.update init.disk.dinode ROOTINO
        { DInode.zero with type := .dir, nlink := 1 } := congrArg Prod.fst hview₁
    have hF₁ : s₁.freeinode = ROOTINO + 1 := congrArg Prod.snd hview₁
    unfold RootAt
    rw [hD₁, hF₁, Function.update_self]
    exact ⟨by decide, hpos₁, rfl, slotsFor_new .dir⟩
  refine Triple.bind ((iappend_root _ 0).mono (fun s h => h ▸ h₀) fun _ _ h => h) fun _ => ?_
  refine Triple.bind (iappend_root _ 1) fun _ => ?_
  -- one entry for each file
  have hloop := Triple.forM (fun bs s => ∃ k, k + bs.length = files.length + 2 ∧ RootAt k s)
    (fun b bs s a s' hs hrun => by
      obtain ⟨k, hk, hroot⟩ := hs
      refine ⟨k + 1, ?_, addFile_root b.1 b.2 k s a s' hroot hrun⟩
      rw [List.length_cons] at hk
      omega) files
  refine Triple.bind (hloop.mono (fun s h => ⟨2, Nat.add_comm _ _, h⟩) fun _ _ h => h) fun _ => ?_
  -- the size of the root, then the bitmap
  refine Triple.bind (rinode_spec _) fun din => Triple.of_pinned fun s₂ hs₂ => ?_
  obtain ⟨⟨k, hk, -, -, hsize, hslots⟩, rfl⟩ := hs₂
  rw [List.length_nil, Nat.add_zero] at hk
  subst hk
  refine Triple.bind (winode_spec _ _ s₂) fun _ => Triple.get_bind fun _ => ?_
  refine ((keeps_balloc _).triple (fun D => (D ROOTINO).size =
    (16 * (files.length + 2) / BSIZE + 1) * BSIZE ∧ SlotsFor (D ROOTINO) (16 * (files.length + 2)))
    fun _ _ => trivial).mono (fun s h => ?_) fun _ _ h => h
  rw [h.1]
  simp only [Function.update_self]
  exact ⟨by rw [hsize], hslots⟩

theorem image_eq_ok {files : List (List UInt8 × List UInt8)} {d : Disk} (h : image files = .ok d) :
    ∃ s, (main files).run init = .ok (⟨⟩, s) ∧ s.disk = d := by
  unfold image at h
  cases hrun : (main files).run init with
  | error e =>
    rw [hrun] at h
    cases h
  | ok r =>
    rw [hrun] at h
    cases h
    exact ⟨r.2, rfl, rfl⟩

/-- The root of every image `mkfs` writes holds blocks for its entries, `.`, `..` and
one per file, and its size is rounded up past the last of them to a whole block, one
block further when the entries fill their last block. -/
theorem image_root {files : List (List UInt8 × List UInt8)} {d : Disk} (h : image files = .ok d) :
    (d.dinode ROOTINO).size = (16 * (files.length + 2) / BSIZE + 1) * BSIZE ∧
      SlotsFor (d.dinode ROOTINO) (16 * (files.length + 2)) := by
  obtain ⟨s, hrun, rfl⟩ := image_eq_ok h
  exact main_root files init ⟨⟩ s rfl hrun

/-- The root of an image has a hole, a slot below its size that holds no block, exactly
when its entries end on a block boundary that a direct slot follows. -/
theorem image_root_hole_iff {files : List (List UInt8 × List UInt8)} {d : Disk}
    (h : image files = .ok d) :
    (∃ j : Fin (NDIRECT + 1), j.val * BSIZE < (d.dinode ROOTINO).size ∧ (d.dinode ROOTINO).addrs j = 0) ↔
      (files.length + 2) % (BSIZE / 16) = 0 ∧ (files.length + 2) / (BSIZE / 16) ≤ NDIRECT := by
  obtain ⟨hsize, hslots⟩ := image_root h
  have hslots : ∀ j : Fin (NDIRECT + 1),
      (d.dinode ROOTINO).addrs j ≠ 0 ↔ j.val * 1024 < 16 * (files.length + 2) := hslots
  have hB : BSIZE = 1024 := rfl
  have hD : NDIRECT = 12 := rfl
  rw [hsize, hB]
  constructor
  · rintro ⟨j, hlt, hz⟩
    have hj : j.val ≤ 12 := Nat.lt_succ_iff.1 j.isLt
    have hnot := (hslots j).not.1 (not_not.2 hz)
    rw [hD]
    omega
  · rintro ⟨hdvd, hle⟩
    rw [hD] at hle
    refine ⟨⟨(files.length + 2) / 64, by rw [hD]; omega⟩, by simp only; omega, ?_⟩
    by_contra hne
    have := (hslots _).1 hne
    simp only at this
    omega

/-- The 62 files `00` .. `61` of the build, all empty. -/
def sixtyTwoFiles : List (List UInt8 × List UInt8) :=
  (List.range 62).map fun i => ([UInt8.ofNat (48 + i / 10), UInt8.ofNat (48 + i % 10)], [])

theorem mkfs_root_hole_with_sixty_two_files :
    ∃ d, image sixtyTwoFiles = .ok d ∧ (d.dinode ROOTINO).size = 2 * BSIZE ∧
      (d.dinode ROOTINO).addrs 1 = 0 := by
  obtain ⟨d, hd⟩ := exists_eq_ok_of_toBool (show (image sixtyTwoFiles).toBool = true by decide +kernel)
  obtain ⟨hsize, hslots⟩ := image_root hd
  have hlen : sixtyTwoFiles.length = 62 := by simp [sixtyTwoFiles]
  refine ⟨d, hd, by rw [hsize, hlen]; rfl, ?_⟩
  by_contra hne
  exact absurd ((hslots 1).1 hne) (by rw [hlen]; decide)

/-- On that image the first process opens `/` and reads 2048 bytes from it, as `ls`
does 16 at a time: `fileread` takes no transaction, and `readi` reaches the second block
of the root, which `bmap` allocates, so `log_write` is called for the bitmap block and
the new block, where the kernel panics with `log_write outside of trans`. -/
theorem read_of_root_logs_outside_transaction :
    ((image sixtyTwoFiles).bind fun d => (do
      let fd ← sys_open 0 (path ['/']) O_RDONLY
      let before ← get
      let r ← sys_read 0 fd.toNat (List.replicate (2 * BSIZE) true)
      let after ← get
      return (r, (before.logged, after.logged), (before.disk.used 47, after.disk.used 47)) :
        FsM (Option ℤ × (List ℕ × List ℕ) × (Bool × Bool))).run' (boot d)) =
      .ok (some 2048, ([], [BBLOCK 47 (mkfsSb FSSIZE), 47]), (false, true)) := by
  decide +kernel

end Xv6.Fs.Mkfs
