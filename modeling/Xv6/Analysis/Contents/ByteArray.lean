import Xv6.Analysis.Contents.Write
import Xv6.Lib.Splice

/-!
# Files as byte strings

What a file holds is its byte string `contents s i`, the bytes below its size. On a file in
shape, `readi` is a read of the byte string (`readi_slice`), and `writei` at an offset up to
the size and a range within `MAXFILE` blocks is a write of it in place (`writei_splice`): the
bytes before `off` stay, the bytes stored replace what was there, the bytes past them stay,
and a write past the end makes the string longer. The bytes stored are those `writei`
returns and, where it stops at a source byte it cannot read, those `copyin` copied before
it; the size grows only by the first. A `readi` of the range a `writei` just
wrote returns the bytes written (`writei_readi`), which is `slice_splice` on the byte
strings; and a `writei` changes no other file whose blocks are none of its own
(`writei_keeps_other_files`).
Source: kernel/fs.c:455-517
-/

set_option autoImplicit false

namespace Xv6.Fs

open BlockMap Splice

/-- File `i` as a byte string: its bytes below the size. -/
def contents (s : FsState) (i : Fin NINODE) : List UInt8 :=
  (List.range (s.itable i).di.size).map (content s i)

section Contents

variable {s s' : FsState} {i : Fin NINODE}

theorem length_contents (s : FsState) (i : Fin NINODE) :
    (contents s i).length = (s.itable i).di.size := by
  rw [contents, List.length_map, List.length_range]

theorem getElem?_contents (s : FsState) (i : Fin NINODE) (k : ℕ) :
    (contents s i)[k]? = if k < (s.itable i).di.size then some (content s i k) else none := by
  by_cases hk : k < (s.itable i).di.size
  · rw [if_pos hk, contents, List.getElem?_map, List.getElem?_range hk]
    rfl
  · rw [if_neg hk, List.getElem?_eq_none (by rw [length_contents]; omega)]

/-- The bytes `readi` returns are a slice of the byte string. -/
theorem range_eq_slice (s : FsState) (i : Fin NINODE) (off n : ℕ) :
    (List.range (min (off + n) (s.itable i).di.size - off)).map (fun k => content s i (off + k)) =
      slice (contents s i) off n := by
  apply List.ext_getElem?
  intro k
  rw [getElem?_slice, getElem?_contents]
  by_cases hk : k < min (off + n) (s.itable i).di.size - off
  · rw [List.getElem?_map, List.getElem?_range hk, if_pos (by omega), if_pos (by omega)]
    rfl
  · rw [List.getElem?_eq_none (by rw [List.length_map, List.length_range]; omega)]
    by_cases hk' : k < n
    · rw [if_pos hk', if_neg (by omega)]
    · rw [if_neg hk']

/-- What `writei` wrote, as a write of the byte string: the bytes it stored from the source,
those it returns and those `copyin` copied of the chunk it stopped at, spliced in at `off`,
and the string cut at the new size. -/
theorem Written.contents_eq {src : List (Option UInt8)} {off n e : ℕ}
    (hw : Written s s' i src off n e) (hoff : off ≤ (s.itable i).di.size) :
    ∃ w, (src.take e).mapM id = some w ∧
      contents s' i = (splice (contents s i) off w).take (max (s.itable i).di.size (off + n)) := by
  refine ⟨(List.range e).map (fun k => content s' i (off + k)), ?_, ?_⟩
  · -- the source's first `e` bytes are the bytes now in the file
    have hsrc : src.take e = ((List.range e).map (fun k => content s' i (off + k))).map some := by
      apply List.ext_getElem?
      intro k
      by_cases hk : k < e
      · have := hw.written (off + k) (by omega) (by omega)
        rw [Nat.add_sub_cancel_left] at this
        rw [List.getElem?_take_of_lt hk, this, List.getElem?_map, List.getElem?_map,
          List.getElem?_range hk]
        rfl
      · rw [List.getElem?_eq_none (by rw [List.length_take]; omega),
          List.getElem?_eq_none (by simp only [List.length_map, List.length_range]; omega)]
    rw [hsrc]
    exact mapM_id_map_some _
  · have hlen : off ≤ (contents s i).length := by
      rw [length_contents]
      exact hoff
    apply List.ext_getElem?
    intro k
    rw [List.getElem?_take, getElem?_splice hlen, getElem?_contents, getElem?_contents, hw.size,
      List.length_map, List.length_range]
    by_cases hs : k < max (s.itable i).di.size (off + n)
    · rw [if_pos hs, if_pos hs]
      by_cases h₁ : k < off
      · rw [if_pos h₁, if_pos (by omega), hw.kept k (by omega) (.inl h₁)]
      by_cases h₂ : k < off + e
      · rw [if_neg h₁, if_pos h₂, List.getElem?_map, List.getElem?_range (by omega), Option.map_some,
          Nat.add_sub_cancel' (not_lt.1 h₁)]
      · -- past the bytes stored: the old bytes, below the old size
        have hk : k < (s.itable i).di.size := by
          have := hw.le
          omega
        rw [if_neg h₁, if_neg h₂, if_pos hk, hw.kept k hk (.inr (not_lt.1 h₂))]
    · rw [if_neg hs, if_neg hs]

/-- A `writei` that wrote all of the source is the splice of its bytes. -/
theorem Written.contents_eq_of_all {src : List (Option UInt8)} {off n e : ℕ}
    (hw : Written s s' i src off n e) (hoff : off ≤ (s.itable i).di.size) (hn : n = src.length) :
    ∃ w, (src.take n).mapM id = some w ∧ contents s' i = splice (contents s i) off w := by
  obtain ⟨w, hsrc, hc⟩ := hw.contents_eq hoff
  rw [hw.end_eq hn] at hsrc
  have hlen : w.length = n := by
    have := congrArg List.length (eq_map_some_of_mapM_id hsrc)
    rw [List.length_take, List.length_map] at this
    omega
  refine ⟨w, hsrc, ?_⟩
  rw [hc, List.take_of_length_le]
  rw [length_splice (by rw [length_contents]; exact hoff), length_contents, hlen]

theorem contents_congr {j : Fin NINODE} (hsize : (s'.itable j).di.size = (s.itable j).di.size)
    (h : ∀ k < (s.itable j).di.size, content s' j k = content s j k) :
    contents s' j = contents s j := by
  rw [contents, contents, hsize]
  exact List.map_congr_left fun k hk => h k (List.mem_range.1 hk)

end Contents

/-! ## `readi` and `writei` on the byte string -/

section ReadWrite

variable {s : FsState} {i : Fin NINODE}

/-- `readi` on a file in shape is a read of its byte string: it returns the bytes from `off`
up to `off + n` or the end of the file, and changes nothing. -/
theorem readi_slice (h : FileOk s i) {off n : ℕ} (hw : off + n < 2 ^ 32) :
    (readi i off n).run s = .ok (slice (contents s i) off n, s) := by
  rw [readi_spec h hw, range_eq_slice]

theorem readi_slice_on_boot : FileOk (boot (mkfs 2000)) 1 ∧ 0 + 10 < 2 ^ 32 ∧
    (readi 1 0 10).run (boot (mkfs 2000)) =
      .ok (slice (contents (boot (mkfs 2000)) 1) 0 10, boot (mkfs 2000)) :=
  ⟨fileOk_boot (by norm_num) 1, by norm_num, readi_slice (fileOk_boot (by norm_num) 1) (by norm_num)⟩

/-- A `writei` of bytes that can all be read, then a `readi` of the same range: `writei`
panics for want of a free block, or writes them all, and `readi` returns them. -/
theorem writei_readi (h : FileOk s i) (bytes : List UInt8) {off : ℕ}
    (hoff : off ≤ (s.itable i).di.size) (hmax : off + bytes.length ≤ MAXFILE * BSIZE) :
    (writei i (bytes.map some) off).run s = .error "balloc: out of blocks" ∨
      ∃ s', (writei i (bytes.map some) off).run s = .ok ((bytes.length : ℤ), s') ∧
        (readi i off bytes.length).run s' = .ok (bytes, s') := by
  have hmax' : off + (bytes.map some).length ≤ MAXFILE * BSIZE := by
    rwa [List.length_map]
  rcases writei_spec h hoff hmax' with he | ⟨n, e, s', hrun, hw⟩
  · exact .inl he.1
  have hn : n = bytes.length := by
    rw [hw.all (by simp), List.length_map]
  obtain ⟨w, hsrc, hc⟩ := hw.contents_eq_of_all hoff (by rw [hn, List.length_map])
  subst hn
  -- the bytes read from the source are the bytes themselves
  have hwb : w = bytes := by
    rw [List.take_of_length_le (by rw [List.length_map]), mapM_id_map_some] at hsrc
    exact (Option.some.inj hsrc).symm
  subst hwb
  refine .inr ⟨s', hrun, ?_⟩
  have hlt : off + w.length < 2 ^ 32 := lt_of_le_of_lt hmax maxfile_bytes
  rw [readi_spec hw.ok hlt, range_eq_slice, hc,
    slice_splice (by rw [length_contents]; exact hoff)]

theorem writei_readi_on_boot : FileOk (boot (mkfs 2000)) 1 ∧
    0 ≤ ((boot (mkfs 2000)).itable 1).di.size ∧
    0 + ([7, 8, 9] : List UInt8).length ≤ MAXFILE * BSIZE ∧
    ((writei 1 (([7, 8, 9] : List UInt8).map some) 0).run (boot (mkfs 2000)) =
        .error "balloc: out of blocks" ∨
      ∃ s', (writei 1 (([7, 8, 9] : List UInt8).map some) 0).run (boot (mkfs 2000)) =
          .ok ((([7, 8, 9] : List UInt8).length : ℤ), s') ∧
        (readi 1 0 ([7, 8, 9] : List UInt8).length).run s' = .ok ([7, 8, 9], s')) :=
  ⟨fileOk_boot (by norm_num) 1, Nat.zero_le _, by decide,
    writei_readi (fileOk_boot (by norm_num) 1) [7, 8, 9] (Nat.zero_le _) (by decide)⟩

/-- `writei` on file `i` leaves every other file whose blocks are none of file `i`'s: its
entry in the table and its byte string. -/
theorem writei_keeps_other_files (h : FileOk s i) {j : Fin NINODE} (hj : FileOk s j)
    (hji : j ≠ i) (hdisj : ∀ b ≠ 0, Owns s j b → ¬ Owns s i b) {src : List (Option UInt8)}
    {off : ℕ} (hoff : off ≤ (s.itable i).di.size) (hmax : off + src.length ≤ MAXFILE * BSIZE) :
    (writei i src off).run s = .error "balloc: out of blocks" ∨
      ∃ r s', (writei i src off).run s = .ok (r, s') ∧ s'.itable j = s.itable j ∧
        contents s' j = contents s j := by
  rcases writei_spec h hoff hmax with he | ⟨n, e, s', hrun, hw⟩
  · exact .inl he.1
  have hentry := hw.others j hji
  refine .inr ⟨_, s', hrun, hentry, contents_congr (by rw [hentry]) fun k hk => ?_⟩
  exact hw.other_content hj hji hdisj hk

/-- The image `mkfs` builds with the root loaded in entry 0, and in entry 1 inode 2, a file
of 3 bytes in the block after the root's. -/
def twoFiles : FsState :=
  { boot (mkfs FSSIZE) with
    itable := Function.update (Function.update (boot (mkfs FSSIZE)).itable 0
      { (boot (mkfs FSSIZE)).itable 0 with di := rootDinode FSSIZE, valid := true }) 1
      { Inode.empty with
        inum := 2
        ref := 1
        valid := true
        di := { DInode.zero with
          type := .file
          nlink := 1
          size := 3
          addrs := fun k => if k.val = 0 then nmeta FSSIZE + 1 else 0 } }
    disk := { mkfs FSSIZE with
      used := fun b => decide (b < nmeta FSSIZE + 2)
      data := Function.update (mkfs FSSIZE).data (nmeta FSSIZE + 1)
        fun k => if k < 3 then 7 else 0 } }

/-- Entry 0 is the root `mkfs` wrote. -/
theorem twoFiles_root : (twoFiles.itable 0).di = rootDinode FSSIZE := by
  simp [twoFiles, Function.update_of_ne (show (0 : Fin NINODE) ≠ 1 by decide)]

theorem twoFiles_addrs_zero (k : Fin (NDIRECT + 1)) :
    (twoFiles.itable 0).di.addrs k = if k = 0 then nmeta FSSIZE else 0 := by
  rw [twoFiles_root]
  rfl

theorem twoFiles_addrs_one (k : Fin (NDIRECT + 1)) :
    (twoFiles.itable 1).di.addrs k = if k = 0 then nmeta FSSIZE + 1 else 0 := by
  simp [twoFiles]

/-- The root and the file each hold one block, not the other's. -/
theorem twoFiles_apart : ∀ b ≠ 0, Owns twoFiles 0 b → ¬ Owns twoFiles 1 b := by
  have hind : ∀ j : Fin NINODE, (∀ k, (twoFiles.itable j).di.addrs k = if k = 0 then
      (twoFiles.itable j).di.addrs 0 else 0) → indBlock twoFiles j = 0 := fun j h => by
    rw [indBlock, h, if_neg (by decide)]
  intro b hb0 h0 h1
  rcases h0 with ⟨bn, -, hbn⟩ | hbi
  · rcases h1 with ⟨bn', -, hbn'⟩ | hbi'
    · rw [blocks_of_one_block twoFiles_addrs_zero] at hbn
      rw [blocks_of_one_block twoFiles_addrs_one] at hbn'
      split_ifs at hbn hbn' <;> omega
    · rw [indBlock, twoFiles_addrs_one, if_neg (by decide)] at hbi'
      exact hb0 hbi'
  · rw [indBlock, twoFiles_addrs_zero, if_neg (by decide)] at hbi
    exact hb0 hbi

theorem fileOk_twoFiles_zero : FileOk twoFiles 0 :=
  fileOk_of_one_block twoFiles_addrs_zero (by decide) (by decide) (by decide) (by decide)
    (by rw [twoFiles_root]; exact le_rfl)

theorem fileOk_twoFiles_one : FileOk twoFiles 1 :=
  fileOk_of_one_block twoFiles_addrs_one (by decide) (by decide) (by decide) (by decide)
    (by simp [twoFiles]; decide)

/-- Two bytes appended to the file of entry 1 leave the root, which holds a block of its own,
as it was. -/
theorem writei_keeps_other_files_on_two_files : FileOk twoFiles 1 ∧ FileOk twoFiles 0 ∧
    (0 : Fin NINODE) ≠ 1 ∧ (∀ b ≠ 0, Owns twoFiles 0 b → ¬ Owns twoFiles 1 b) ∧
    3 ≤ (twoFiles.itable 1).di.size ∧
    3 + ([some 8, some 9] : List (Option UInt8)).length ≤ MAXFILE * BSIZE ∧
    ((writei 1 [some 8, some 9] 3).run twoFiles = .error "balloc: out of blocks" ∨
      ∃ r s', (writei 1 [some 8, some 9] 3).run twoFiles = .ok (r, s') ∧
        s'.itable 0 = twoFiles.itable 0 ∧ contents s' 0 = contents twoFiles 0) := by
  have hsize : 3 ≤ (twoFiles.itable 1).di.size := by simp [twoFiles]
  exact ⟨fileOk_twoFiles_one, fileOk_twoFiles_zero, by decide, twoFiles_apart, hsize, by decide,
    writei_keeps_other_files fileOk_twoFiles_one fileOk_twoFiles_zero (by decide) twoFiles_apart
      hsize (by decide)⟩

end ReadWrite

end Xv6.Fs
