import Xv6.Analysis.Contents.ByteArray
import Xv6.Lib.SlotMap
import Xv6.Analysis.Namespace

/-!
# Directories as maps from names to inodes

A directory is a file of 16-byte `struct dirent`s, an entry with inode number 0 being free.
Read through `contents`, its entries are a list of slots (`dirents`), and the directory
loops of `fs.c` and `sysfile.c` are the operations of `SlotMap` on that list: `dirlookup`
finds the first entry in use whose name compares equal under `namecmp`, `dirlink` writes the
new entry into the first free slot or after the last, `sys_unlink` sets the slot it found
free, and `isdirempty` asks whether any slot past `.` and `..` is in use.

A directory in shape (`DirOk`) is a file in shape of whole entries whose entries in use
have distinct names. `dirlink` of an absent name and the erasure of `sys_unlink` keep it,
and each changes the map at its name only (`dirlink_adds`, `unlink_erases`).
Source: kernel/fs.c:521-583, kernel/sysfile.c:168-239
-/

set_option autoImplicit false

namespace Xv6.Fs

open BlockMap Splice

/-! ## Entries -/

/-- The name an entry is compared and stored by: the bytes before the first zero, at most
`DIRSIZ` of them. -/
def nameKey (name : List UInt8) : List UInt8 := (name.takeWhile (· ≠ 0)).take DIRSIZ

theorem nameKey_take (name : List UInt8) : nameKey (name.take DIRSIZ) = nameKey name := by
  simp only [nameKey, List.take_takeWhile, List.take_take, Nat.min_self]

theorem nameEq_iff (s t : List UInt8) : nameEq s t = true ↔ nameKey s = nameKey t := by
  simp [nameEq, nameKey]

theorem nameKey_nameKey (name : List UInt8) : nameKey (nameKey name) = nameKey name := by
  have hall : ∀ x ∈ nameKey name, decide (x ≠ 0) = true := fun x hx => by
    have := List.mem_takeWhile_imp (List.mem_of_mem_take hx)
    simpa using this
  rw [nameKey, List.takeWhile_eq_self_iff.2 hall, List.take_of_length_le]
  rw [nameKey, List.length_take]
  exact Nat.min_le_left _ _

/-- An entry written with `strncpy` and read back: the `ushort` of the inode number, and the
name cut at its first zero and to `DIRSIZ` bytes. -/
theorem decode_encode (de : Dirent) : Dirent.decode de.encode = ⟨de.inum % 2 ^ 16, nameKey de.name⟩ := by
  have hname : ((de.encode.drop 2).take DIRSIZ).takeWhile (· ≠ 0) = nameKey de.name := by
    have hlen : (de.name.take DIRSIZ ++ List.replicate (DIRSIZ - de.name.length) 0).length = DIRSIZ := by
      simp only [List.length_append, List.length_take, List.length_replicate]
      omega
    simp only [Dirent.encode, List.cons_append, List.nil_append, List.drop_succ_cons, List.drop_zero]
    rw [List.take_of_length_le hlen.le, List.takeWhile_append, List.takeWhile_replicate,
      nameKey, List.take_takeWhile]
    -- the padding starts with a zero, so the name stops where it did
    split
    · rename_i hl
      rw [if_neg (by decide), List.append_nil, (List.takeWhile_prefix _).eq_of_length hl]
    · rfl
  have hinum : (de.encode.getD 0 0).toNat + 2 ^ 8 * (de.encode.getD 1 0).toNat = de.inum % 2 ^ 16 := by
    simp [Dirent.encode]
    omega
  rw [Dirent.decode, hname, hinum]

/-- A zeroed entry: no inode, no name. -/
theorem decode_zero : Dirent.decode (List.replicate 16 0) = ⟨0, []⟩ := rfl

/-! ## Directories -/

/-- The entries of directory `dp`: its byte string cut into 16-byte `struct dirent`s at the
offsets the directory loops visit. -/
def dirents (s : FsState) (dp : Fin NINODE) : List Dirent :=
  (direntOffsets (s.itable dp).di.size).map fun off => Dirent.decode (slice (contents s dp) off 16)

/-- An entry is in use where its inode number is not 0. -/
def direntUsed (de : Dirent) : Bool := de.inum != 0

/-- An entry holds the name it is compared by. -/
def direntKey (de : Dirent) : List UInt8 := nameKey de.name

theorem length_direntOffsets {size : ℕ} (h : size % 16 = 0) :
    (direntOffsets size).length = size / 16 := by
  rw [direntOffsets, List.length_map, List.length_range]
  omega

theorem length_dirents {s : FsState} {dp : Fin NINODE} (h : (s.itable dp).di.size % 16 = 0) :
    (dirents s dp).length = (s.itable dp).di.size / 16 := by
  rw [dirents, List.length_map, length_direntOffsets h]

theorem getElem_dirents {s : FsState} {dp : Fin NINODE} {j : ℕ} (hj : j < (dirents s dp).length) :
    (dirents s dp)[j] = Dirent.decode (slice (contents s dp) (j * 16) 16) := by
  simp [dirents, direntOffsets]

theorem getElem?_dirents {s : FsState} {dp : Fin NINODE} (h : (s.itable dp).di.size % 16 = 0)
    (j : ℕ) : (dirents s dp)[j]? =
      if j < (s.itable dp).di.size / 16 then
        some (Dirent.decode (slice (contents s dp) (j * 16) 16))
      else none := by
  by_cases hj : j < (s.itable dp).di.size / 16
  · rw [if_pos hj, List.getElem?_eq_getElem (by rw [length_dirents h]; exact hj), getElem_dirents]
  · rw [if_neg hj, List.getElem?_eq_none (by rw [length_dirents h]; omega)]

/-- A directory in shape: a file in shape of whole entries, whose entries in use have
distinct names. -/
structure DirOk (s : FsState) (dp : Fin NINODE) : Prop where
  file : FileOk s dp
  dir : (s.itable dp).di.type = .dir
  whole : (s.itable dp).di.size % 16 = 0
  apart : SlotMap.KeysApart direntUsed direntKey (dirents s dp)

/-! ## The root `mkfs` writes -/

/-- The state after `init`'s first `ilock` of the root: entry 0 of the inode table holds the
root inode `mkfs` wrote. -/
def rootLoaded (n : ℕ) : FsState :=
  { boot (mkfs n) with
    itable := Function.update (boot (mkfs n)).itable 0
      { (boot (mkfs n)).itable 0 with di := rootDinode n, valid := true } }

theorem itable_rootLoaded (n : ℕ) : ((rootLoaded n).itable 0).di = rootDinode n := by
  simp [rootLoaded]

theorem blocks_rootLoaded (n bn : ℕ) : blocks (rootLoaded n) 0 bn = if bn = 0 then nmeta n else 0 :=
  blocks_of_one_block (fun k => by rw [itable_rootLoaded]; rfl) bn

theorem fileOk_rootLoaded {n : ℕ} (hn : n ≤ 2 ^ 32) : FileOk (rootLoaded n) 0 :=
  fileOk_of_one_block (b := nmeta n) (fun k => by rw [itable_rootLoaded]; rfl)
    (Nat.ne_of_gt (Nat.add_pos_right _ (Nat.succ_pos _))) (by simp [rootLoaded, boot, mkfs])
    (by simp [rootLoaded, boot, mkfs]) hn (by rw [itable_rootLoaded]; exact le_rfl)

theorem length_rootBlock : rootBlock.length = 32 := rfl

/-- The entries of the root `mkfs` writes: `.` and `..`, both naming the root, and 62 free
slots. -/
theorem dirents_rootLoaded (n : ℕ) :
    dirents (rootLoaded n) 0 = [⟨ROOTINO, dot⟩, ⟨ROOTINO, dotdot⟩] ++ List.replicate 62 ⟨0, []⟩ := by
  have hsize : ((rootLoaded n).itable 0).di.size = 1024 := by
    rw [itable_rootLoaded]
    rfl
  -- entry `j` is read from the root block
  have hent : ∀ j < 64, (dirents (rootLoaded n) 0)[j]? =
      some (Dirent.decode ((List.range 16).map fun t => rootBlock.getD (j * 16 + t) 0)) := by
    intro j hj
    rw [getElem?_dirents (by rw [hsize]) j, hsize, if_pos (by omega), ← range_eq_slice, hsize,
      show min (j * 16 + 16) 1024 - j * 16 = 16 by omega]
    refine congrArg (fun l => some (Dirent.decode l)) (List.map_congr_left fun t ht => ?_)
    rw [List.mem_range] at ht
    rw [content, itable_rootLoaded]
    exact mkfs_fileByte_root n _ (by rw [show BSIZE = 1024 from rfl]; omega)
  apply List.ext_getElem?
  intro j
  by_cases hj : j < 64
  · rw [hent j hj]
    rcases (by omega : j = 0 ∨ j = 1 ∨ 2 ≤ j) with rfl | rfl | h2
    · rfl
    · rfl
    · have hzero : ((List.range 16).map fun t => rootBlock.getD (j * 16 + t) 0) =
          List.replicate 16 0 := by
        refine List.ext_getElem (by simp) fun t ht _ => ?_
        rw [List.getElem_map, List.getElem_range, List.getElem_replicate,
          List.getD_eq_default _ _ (by rw [length_rootBlock]; omega)]
      rw [hzero, decode_zero, List.getElem?_append_right (by simp; omega),
        List.getElem?_replicate, if_pos (by simp; omega)]
  · rw [List.getElem?_eq_none (by rw [length_dirents (by rw [hsize]), hsize]; omega),
      List.getElem?_eq_none (by simp; omega)]

theorem dirOk_rootLoaded {n : ℕ} (hn : n ≤ 2 ^ 32) : DirOk (rootLoaded n) 0 where
  file := fileOk_rootLoaded hn
  dir := by
    rw [itable_rootLoaded]
    rfl
  whole := by
    rw [itable_rootLoaded, show (rootDinode n).size = 1024 from rfl]
  apart := by
    rw [dirents_rootLoaded]
    refine SlotMap.KeysApart.append_free (fun e he => ?_)
      (.cons (fun _ => rfl) (.cons (fun _ => rfl) .nil))
    rw [List.eq_of_mem_replicate he]
    rfl

section Lookup

variable {s : FsState} {dp : Fin NINODE}

/-- `readi` of the 16 bytes of an entry inside the directory. -/
theorem readi_entry (h : FileOk s dp) {j : ℕ} (hj : j * 16 + 16 ≤ (s.itable dp).di.size) :
    (readi dp (j * 16) 16).run s = .ok (slice (contents s dp) (j * 16) 16, s) := by
  have hw : j * 16 + 16 < 2 ^ 32 := lt_of_le_of_lt hj (lt_of_le_of_lt h.size_le maxfile_bytes)
  rw [readi_spec h hw, range_eq_slice]

theorem length_slice_entry {j : ℕ} (hj : j * 16 + 16 ≤ (s.itable dp).di.size) :
    (slice (contents s dp) (j * 16) 16).length = 16 := by
  rw [length_slice, length_contents]
  omega

/-- One round of `dirlookup`'s loop, at an entry inside the directory: it stops at an entry
in use with the name, and goes on past the others. -/
theorem dirlookupLoop_run_cons (h : FileOk s dp) (name : List UInt8) {j : ℕ}
    (hj : j * 16 + 16 ≤ (s.itable dp).di.size) (offs : List ℕ) :
    (dirlookupLoop dp name (j * 16 :: offs)).run s =
      if direntUsed (Dirent.decode (slice (contents s dp) (j * 16) 16)) ∧
          direntKey (Dirent.decode (slice (contents s dp) (j * 16) 16)) = nameKey name then
        ((iget (s.itable dp).dev (Dirent.decode (slice (contents s dp) (j * 16) 16)).inum).run s).map
          fun r => (some (r.1, j * 16), r.2)
      else (dirlookupLoop dp name offs).run s := by
  simp only [dirlookupLoop, StateT.run_bind, readi_entry h hj, StateExcept.ok_bind,
    length_slice_entry hj, ne_eq, not_true_eq_false, if_false]
  generalize Dirent.decode (slice (contents s dp) (j * 16) 16) = de
  by_cases hu : de.inum = 0
  · simp [hu, direntUsed]
  · by_cases hn : nameKey de.name = nameKey name
    · have he : nameEq name de.name = true := (nameEq_iff _ _).2 hn.symm
      simp [hu, he, hn, direntUsed, direntKey, StateT.run_bind]
      rfl
    · have he : nameEq name de.name = false := by
        rw [← Bool.not_eq_true, nameEq_iff]
        exact fun h' => hn h'.symm
      simp [hu, he, hn, direntUsed, direntKey]

/-- `dirlookup`'s loop from entry `j` on stops at the slot a lookup of the name finds among
the entries from `j`, and takes a reference to its inode there. -/
theorem dirlookupLoop_run (h : FileOk s dp) (hsz : (s.itable dp).di.size % 16 = 0)
    (name : List UInt8) : ∀ n j, j + n = (s.itable dp).di.size / 16 →
      (dirlookupLoop dp name ((List.range' j n).map (· * 16))).run s =
        match SlotMap.find direntUsed direntKey (nameKey name) ((dirents s dp).drop j) with
        | none => .ok (none, s)
        | some (k, de) =>
          ((iget (s.itable dp).dev de.inum).run s).map fun r => (some (r.1, (j + k) * 16), r.2)
  | 0, j, hj => by
    rw [List.drop_eq_nil_of_le (by rw [length_dirents hsz]; omega)]
    rfl
  | n + 1, j, hj => by
    have hjlt : j < (dirents s dp).length := by
      rw [length_dirents hsz]
      omega
    rw [List.range'_succ, List.map_cons, dirlookupLoop_run_cons h name (by omega),
      List.drop_eq_getElem_cons hjlt, getElem_dirents, SlotMap.find_cons,
      dirlookupLoop_run h hsz name n (j + 1) (by omega)]
    split
    · rfl
    · cases SlotMap.find direntUsed direntKey (nameKey name) ((dirents s dp).drop (j + 1)) with
      | none => rfl
      | some p =>
        simp only [Option.map_some]
        rw [Nat.add_assoc, Nat.add_comm 1 p.1]

theorem direntOffsets_eq {size : ℕ} (hsz : size % 16 = 0) :
    direntOffsets size = (List.range' 0 (size / 16)).map (· * 16) := by
  rw [direntOffsets, List.range_eq_range', show (size + 15) / 16 = size / 16 by omega]

theorem dirlookup_eq_loop (hdir : (s.itable dp).di.type = .dir)
    (hsz : (s.itable dp).di.size % 16 = 0) (name : List UInt8) :
    (dirlookup dp name).run s = (dirlookupLoop dp name
      ((List.range' 0 ((s.itable dp).di.size / 16)).map (· * 16))).run s := by
  simp [dirlookup, hdir, direntOffsets_eq hsz]

/-- `dirlookup` of a name no entry in use holds finds nothing and changes nothing. -/
theorem dirlookup_run_none (h : FileOk s dp) (hdir : (s.itable dp).di.type = .dir)
    (hsz : (s.itable dp).di.size % 16 = 0) {name : List UInt8}
    (habsent : SlotMap.find direntUsed direntKey (nameKey name) (dirents s dp) = none) :
    (dirlookup dp name).run s = .ok (none, s) := by
  rw [dirlookup_eq_loop hdir hsz, dirlookupLoop_run h hsz name _ 0 (Nat.zero_add _),
    List.drop_zero, habsent]

/-- `dirlookup` on a directory in shape is a lookup in its entries: it stops at the first
entry in use whose name compares equal, takes a reference to its inode with `iget` and
returns it with the entry's offset, and returns nothing, changing nothing, where there is
none. -/
theorem dirlookup_finds (h : FileOk s dp) (hdir : (s.itable dp).di.type = .dir)
    (hsz : (s.itable dp).di.size % 16 = 0) (name : List UInt8) :
    (dirlookup dp name).run s =
      match SlotMap.find direntUsed direntKey (nameKey name) (dirents s dp) with
      | none => .ok (none, s)
      | some (k, de) =>
        ((iget (s.itable dp).dev de.inum).run s).map fun r => (some (r.1, k * 16), r.2) := by
  rw [dirlookup_eq_loop hdir hsz, dirlookupLoop_run h hsz name _ 0 (Nat.zero_add _),
    List.drop_zero]
  simp only [Nat.zero_add]

theorem dirlookup_finds_on_root : FileOk (rootLoaded FSSIZE) 0 ∧
    ((rootLoaded FSSIZE).itable 0).di.type = .dir ∧
    ((rootLoaded FSSIZE).itable 0).di.size % 16 = 0 ∧
    (dirlookup 0 dotdot).run (rootLoaded FSSIZE) =
      match SlotMap.find direntUsed direntKey (nameKey dotdot) (dirents (rootLoaded FSSIZE) 0) with
      | none => .ok (none, rootLoaded FSSIZE)
      | some (k, de) => ((iget ((rootLoaded FSSIZE).itable 0).dev de.inum).run
          (rootLoaded FSSIZE)).map fun r => (some (r.1, k * 16), r.2) := by
  have h := dirOk_rootLoaded (n := FSSIZE) (by norm_num [FSSIZE])
  exact ⟨h.file, h.dir, h.whole, dirlookup_finds h.file h.dir h.whole dotdot⟩

/-- One round of `dirlink`'s search for a free entry, at an entry inside the directory. -/
theorem emptyDirentLoop_run_cons (h : FileOk s dp) (last : ℕ) {j : ℕ}
    (hj : j * 16 + 16 ≤ (s.itable dp).di.size) (offs : List ℕ) :
    (emptyDirentLoop dp last (j * 16 :: offs)).run s =
      if direntUsed (Dirent.decode (slice (contents s dp) (j * 16) 16)) then
        (emptyDirentLoop dp last offs).run s
      else .ok (j * 16, s) := by
  simp only [emptyDirentLoop, StateT.run_bind, readi_entry h hj, StateExcept.ok_bind,
    length_slice_entry hj, ne_eq, not_true_eq_false, if_false]
  generalize Dirent.decode (slice (contents s dp) (j * 16) 16) = de
  by_cases hu : de.inum = 0
  · simp [hu, direntUsed]
    rfl
  · simp [hu, direntUsed]

/-- `dirlink`'s search from entry `j` on stops at the first free entry from `j`, or at the
end of the directory. -/
theorem emptyDirentLoop_run (h : FileOk s dp) (hsz : (s.itable dp).di.size % 16 = 0) :
    ∀ n j, j + n = (s.itable dp).di.size / 16 →
      (emptyDirentLoop dp (((s.itable dp).di.size + 15) / 16 * 16)
          ((List.range' j n).map (· * 16))).run s =
        .ok ((j + SlotMap.firstFree direntUsed ((dirents s dp).drop j)) * 16, s)
  | 0, j, hj => by
    rw [List.drop_eq_nil_of_le (by rw [length_dirents hsz]; omega)]
    simp only [List.range'_zero, List.map_nil, emptyDirentLoop, SlotMap.firstFree]
    rw [show ((s.itable dp).di.size + 15) / 16 * 16 = (j + 0) * 16 by omega]
    rfl
  | n + 1, j, hj => by
    have hjlt : j < (dirents s dp).length := by
      rw [length_dirents hsz]
      omega
    rw [List.range'_succ, List.map_cons, emptyDirentLoop_run_cons h _ (by omega),
      List.drop_eq_getElem_cons hjlt, getElem_dirents, SlotMap.firstFree,
      emptyDirentLoop_run h hsz n (j + 1) (by omega)]
    split
    · rw [Nat.add_assoc, Nat.add_comm 1]
    · rfl

end Lookup

/-! ## `dirlink` -/

section Link

variable {s : FsState} {dp : Fin NINODE} {name : List UInt8} {inum : ℕ}

/-- `dirlink` of a name no entry in use holds: the entry is written at the first free
slot, or at the end. -/
theorem dirlink_run_absent (h : FileOk s dp) (hdir : (s.itable dp).di.type = .dir)
    (hsz : (s.itable dp).di.size % 16 = 0)
    (habsent : SlotMap.find direntUsed direntKey (nameKey name) (dirents s dp) = none) :
    (dirlink dp name inum).run s =
      (do
        let r ← writei dp ((Dirent.mk inum (name.take DIRSIZ)).encode.map some)
          (SlotMap.firstFree direntUsed (dirents s dp) * 16)
        if r ≠ 16 then throw "dirlink"
        return true).run s := by
  have hloop := emptyDirentLoop_run h hsz _ 0 (Nat.zero_add _)
  rw [List.drop_zero, Nat.zero_add] at hloop
  simp only [dirlink, StateT.run_bind, dirlookup_run_none h hdir hsz habsent, StateExcept.ok_bind]
  simp [direntOffsets_eq hsz, hloop]
  rfl

/-- The entries after `writei` wrote 16 bytes `w` at entry `f`, at most one past the end:
entry `f` holds `w` as read back, the others are as they were. -/
theorem getElem?_dirents_written (hsz : (s.itable dp).di.size % 16 = 0) {f : ℕ}
    (hf : f ≤ (s.itable dp).di.size / 16) {w : List UInt8} (hw16 : w.length = 16)
    {s' : FsState} {e : ℕ} (hw : Written s s' dp (w.map some) (f * 16) 16 e) (j : ℕ) :
    (dirents s' dp)[j]? = if j = f then some (Dirent.decode w) else (dirents s dp)[j]? := by
  have hoff : f * 16 ≤ (s.itable dp).di.size := by omega
  obtain ⟨w', hsrc, hc⟩ := hw.contents_eq_of_all hoff (by rw [List.length_map, hw16])
  have hwe : w' = w := by
    rw [List.take_of_length_le (by simp [hw16]), mapM_id_map_some] at hsrc
    exact (Option.some.inj hsrc).symm
  subst hwe
  have hsz' : (s'.itable dp).di.size % 16 = 0 := by
    rw [hw.size]
    omega
  rw [getElem?_dirents hsz', getElem?_dirents hsz, hc,
    slice_splice_block (by rw [length_contents]; exact hoff) hw16, hw.size]
  by_cases hj : j = f
  · rw [if_pos (by omega), if_pos hj, if_pos hj]
  · rw [if_neg hj, if_neg hj]
    by_cases hjl : j < (s.itable dp).di.size / 16
    · rw [if_pos (by omega), if_pos hjl]
    · rw [if_neg (by omega), if_neg hjl]

/-- A whole entry written at entry `f` keeps the directory in shape, as far as its file and
its whole entries go. -/
theorem Written.dirOk {f e : ℕ} (h : DirOk s dp) {src : List (Option UInt8)} {s' : FsState}
    (hw : Written s s' dp src (f * 16) 16 e)
    (hapart : SlotMap.KeysApart direntUsed direntKey (dirents s' dp)) : DirOk s' dp := by
  refine ⟨hw.ok, ?_, ?_, hapart⟩
  · obtain ⟨addrs, he⟩ := hw.entry
    rw [he]
    exact h.dir
  · have := h.whole
    rw [hw.size]
    omega

/-- `dirlink` of a name absent from a directory in shape, with an inode number that is not 0
and fits the entry's `ushort`: it panics, which it can only do when every entry is in use
(growing the directory needs a free block, or would pass `MAXFILE` blocks), or puts the
entry into the first free slot or after the last, keeping the directory in shape. -/
theorem dirlink_adds (h : DirOk s dp) (hinum : 0 < inum) (hinum' : inum < 2 ^ 16)
    (habsent : SlotMap.find direntUsed direntKey (nameKey name) (dirents s dp) = none) :
    ((dirlink dp name inum).run s = .error "balloc: out of blocks" ∨
        (dirlink dp name inum).run s = .error "dirlink") ∧
        (∀ de ∈ dirents s dp, direntUsed de = true) ∨
      ∃ s', (dirlink dp name inum).run s = .ok (true, s') ∧
        dirents s' dp = SlotMap.insert direntUsed (dirents s dp) ⟨inum, nameKey name⟩ ∧
        DirOk s' dp := by
  rw [dirlink_run_absent h.file h.dir h.whole habsent]
  have hfle : SlotMap.firstFree direntUsed (dirents s dp) ≤ (s.itable dp).di.size / 16 :=
    length_dirents h.whole ▸ SlotMap.firstFree_le _
  -- a write that grows the directory only comes where every entry is in use
  have hfull : (s.itable dp).di.size < SlotMap.firstFree direntUsed (dirents s dp) * 16 + 16 →
      ∀ e ∈ dirents s dp, direntUsed e = true := fun hlt =>
    SlotMap.used_of_length_le_firstFree (by rw [length_dirents h.whole]; omega)
  have hlen : ((Dirent.mk inum (name.take DIRSIZ)).encode.map some).length = 16 := by simp
  by_cases hbig : MAXFILE * BSIZE < SlotMap.firstFree direntUsed (dirents s dp) * 16 + 16
  · refine .inl ⟨.inr ?_, hfull (lt_of_le_of_lt h.file.size_le hbig)⟩
    rw [StateT.run_bind, writei_run_big (by rw [hlen]; exact hbig)]
    rfl
  rcases writei_spec h.file (show SlotMap.firstFree direntUsed (dirents s dp) * 16 ≤ _ by omega)
    (by rw [hlen]; omega) with ⟨he, hlt⟩ | ⟨n, e, s', hrun, hw⟩
  · refine .inl ⟨.inl ?_, hfull (by rwa [hlen] at hlt)⟩
    rw [StateT.run_bind, he]
    rfl
  have hn : n = 16 := by
    rw [hw.all (by simp), hlen]
  subst hn
  have hde : Dirent.decode (Dirent.mk inum (name.take DIRSIZ)).encode = ⟨inum, nameKey name⟩ := by
    rw [decode_encode, Nat.mod_eq_of_lt hinum', nameKey_take]
  have hents : dirents s' dp = SlotMap.insert direntUsed (dirents s dp) ⟨inum, nameKey name⟩ := by
    apply List.ext_getElem?
    intro j
    rw [getElem?_dirents_written h.whole hfle (Dirent.length_encode _) hw,
      SlotMap.getElem?_insert, hde]
  refine .inr ⟨s', ?_, hents, hw.dirOk h ?_⟩
  · rw [StateT.run_bind, hrun]
    rfl
  · have hu : direntUsed ⟨inum, nameKey name⟩ = true := by
      simp [direntUsed]
      omega
    have hkey : direntKey ⟨inum, nameKey name⟩ = nameKey name := nameKey_nameKey name
    rw [hents]
    exact h.apart.insert hu (by rw [hkey]; exact habsent)

theorem dirlink_adds_on_root : DirOk (rootLoaded FSSIZE) 0 ∧ 0 < 2 ∧ 2 < 2 ^ 16 ∧
    SlotMap.find direntUsed direntKey (nameKey [97]) (dirents (rootLoaded FSSIZE) 0) = none ∧
    (((dirlink 0 [97] 2).run (rootLoaded FSSIZE) = .error "balloc: out of blocks" ∨
        (dirlink 0 [97] 2).run (rootLoaded FSSIZE) = .error "dirlink") ∧
        (∀ de ∈ dirents (rootLoaded FSSIZE) 0, direntUsed de = true) ∨
      ∃ s', (dirlink 0 [97] 2).run (rootLoaded FSSIZE) = .ok (true, s') ∧
        dirents s' 0 = SlotMap.insert direntUsed (dirents (rootLoaded FSSIZE) 0) ⟨2, nameKey [97]⟩ ∧
        DirOk s' 0) := by
  have h := dirOk_rootLoaded (n := FSSIZE) (by norm_num [FSSIZE])
  have habsent : SlotMap.find direntUsed direntKey (nameKey [97])
      (dirents (rootLoaded FSSIZE) 0) = none := by
    rw [dirents_rootLoaded]
    rfl
  exact ⟨h, by decide, by decide, habsent, dirlink_adds h (by decide) (by decide) habsent⟩

end Link

/-! ## `sys_unlink` -/

section Unlink

variable {s : FsState} {dp : Fin NINODE}

/-- `sys_unlink`'s erasure of the entry a lookup of `key` found: the write of 16 zero bytes at
its offset succeeds, the directory keeps its size and its shape, and a lookup then finds
nothing under `key` and what it found before under every other name. -/
theorem unlink_erases (h : DirOk s dp) {key : List UInt8} {k : ℕ} {de : Dirent}
    (hfind : SlotMap.find direntUsed direntKey key (dirents s dp) = some (k, de)) :
    ∃ s', (writei dp (List.replicate 16 (some 0)) (k * 16)).run s = .ok (16, s') ∧
      DirOk s' dp ∧ (s'.itable dp).di.size = (s.itable dp).di.size ∧
      ∀ key', SlotMap.find direntUsed direntKey key' (dirents s' dp) =
        if key' = key then none else SlotMap.find direntUsed direntKey key' (dirents s dp) := by
  obtain ⟨hk, -⟩ := SlotMap.find_eq_some hfind
  rw [length_dirents h.whole] at hk
  have hsrc : List.replicate 16 (some (0 : UInt8)) = (List.replicate 16 0).map some :=
    (List.map_replicate ..).symm
  have hend : k * 16 + 16 ≤ (s.itable dp).di.size := by omega
  have hmax : k * 16 + (List.replicate 16 (some (0 : UInt8))).length ≤ MAXFILE * BSIZE := by
    rw [List.length_replicate]
    exact le_trans hend h.file.size_le
  rcases writei_spec h.file (show k * 16 ≤ _ by omega) hmax with
    ⟨-, hlt⟩ | ⟨n, e, s', hrun, hw⟩
  · rw [List.length_replicate] at hlt
    omega
  have hn : n = 16 := by
    rw [hw.all (by simp), List.length_replicate]
  subst hn
  have hsize : (s'.itable dp).di.size = (s.itable dp).di.size := by
    rw [hw.size]
    omega
  -- the write is the entry's slot set free
  have hents : dirents s' dp = (dirents s dp).set k ⟨0, []⟩ := by
    apply List.ext_getElem?
    intro j
    rw [hsrc] at hw
    rw [getElem?_dirents_written h.whole (by omega) (List.length_replicate ..) hw, decode_zero,
      List.getElem?_set]
    by_cases hj : j = k
    · rw [if_pos hj, if_pos hj.symm, if_pos (by rw [length_dirents h.whole]; omega)]
    · rw [if_neg hj, if_neg (Ne.symm hj)]
  have hfree : direntUsed ⟨0, []⟩ = false := rfl
  refine ⟨s', hrun, hw.dirOk h ?_, hsize, ?_⟩
  · rw [hents]
    exact h.apart.set_free hfree k
  · intro key'
    rw [hents]
    exact SlotMap.find_set_free hfree h.apart hfind key'

theorem unlink_erases_on_root : DirOk (rootLoaded FSSIZE) 0 ∧
    SlotMap.find direntUsed direntKey (nameKey dotdot) (dirents (rootLoaded FSSIZE) 0) =
      some (1, ⟨ROOTINO, dotdot⟩) ∧
    ∃ s', (writei 0 (List.replicate 16 (some 0)) (1 * 16)).run (rootLoaded FSSIZE) = .ok (16, s') ∧
      DirOk s' 0 ∧ (s'.itable 0).di.size = ((rootLoaded FSSIZE).itable 0).di.size ∧
      ∀ key', SlotMap.find direntUsed direntKey key' (dirents s' 0) =
        if key' = nameKey dotdot then none
        else SlotMap.find direntUsed direntKey key' (dirents (rootLoaded FSSIZE) 0) := by
  have h := dirOk_rootLoaded (n := FSSIZE) (by norm_num [FSSIZE])
  have hfind : SlotMap.find direntUsed direntKey (nameKey dotdot)
      (dirents (rootLoaded FSSIZE) 0) = some (1, ⟨ROOTINO, dotdot⟩) := by
    rw [dirents_rootLoaded]
    rfl
  exact ⟨h, hfind, unlink_erases h hfind⟩

/-- `isdirempty`'s loop from entry `j` on: whether no entry from `j` on is in use. -/
theorem isdirempty_loop_run (h : FileOk s dp) (hsz : (s.itable dp).di.size % 16 = 0) :
    ∀ n j, j + n = (s.itable dp).di.size / 16 →
      (isdirempty.loop dp ((List.range' j n).map (· * 16))).run s =
        .ok (((dirents s dp).drop j).all (fun de => !direntUsed de), s)
  | 0, j, hj => by
    rw [List.drop_eq_nil_of_le (by rw [length_dirents hsz]; omega)]
    rfl
  | n + 1, j, hj => by
    have hjlt : j < (dirents s dp).length := by
      rw [length_dirents hsz]
      omega
    have hj16 : j * 16 + 16 ≤ (s.itable dp).di.size := by omega
    rw [List.range'_succ, List.map_cons, List.drop_eq_getElem_cons hjlt, getElem_dirents,
      List.all_cons]
    simp only [isdirempty.loop, StateT.run_bind, readi_entry h hj16, StateExcept.ok_bind,
      length_slice_entry hj16, ne_eq, not_true_eq_false, if_false]
    by_cases hu : (Dirent.decode (slice (contents s dp) (j * 16) 16)).inum = 0
    · simp [hu, direntUsed, isdirempty_loop_run h hsz n (j + 1) (by omega)]
    · have hb : ((Dirent.decode (slice (contents s dp) (j * 16) 16)).inum != 0) = true :=
        bne_iff_ne.2 hu
      simp [hu, direntUsed, hb]
      rfl

/-- `isdirempty` on a directory in shape: whether no entry past the first two (`.` and
`..`) is in use. -/
theorem isdirempty_run (h : FileOk s dp) (hsz : (s.itable dp).di.size % 16 = 0) :
    (isdirempty dp).run s = .ok (((dirents s dp).drop 2).all (fun de => !direntUsed de), s) := by
  have hloop := isdirempty_loop_run h hsz ((s.itable dp).di.size / 16 - 2) 2
  by_cases h2 : 2 ≤ (s.itable dp).di.size / 16
  · simp only [isdirempty, StateT.run_bind, StateT.run_get, pure_bind]
    rw [direntOffsets_eq hsz, ← List.map_drop, List.drop_range']
    exact hloop (by omega)
  · have hnil : (dirents s dp).drop 2 = [] :=
      List.drop_eq_nil_of_le (by rw [length_dirents hsz]; omega)
    simp only [isdirempty, StateT.run_bind, StateT.run_get, pure_bind]
    rw [direntOffsets_eq hsz, ← List.map_drop, List.drop_eq_nil_of_le (by simp; omega), hnil]
    rfl

theorem isdirempty_run_on_root : FileOk (rootLoaded FSSIZE) 0 ∧
    ((rootLoaded FSSIZE).itable 0).di.size % 16 = 0 ∧
    (isdirempty 0).run (rootLoaded FSSIZE) =
      .ok (((dirents (rootLoaded FSSIZE) 0).drop 2).all (fun de => !direntUsed de),
        rootLoaded FSSIZE) := by
  have h := dirOk_rootLoaded (n := FSSIZE) (by norm_num [FSSIZE])
  exact ⟨h.file, h.whole, isdirempty_run h.file h.whole⟩

end Unlink

end Xv6.Fs
