import Xv6.Analysis.InodeRefs.View
import Xv6.Lib.Count
import Mathlib.Data.Multiset.AddSub

/-!
# The ledger of inode references

An entry of the inode table counts the references to it: one for each open file on its
inode, one for each live process standing in it as its current directory, and one for
each that the running code holds in hand (a result of `iget`, `idup` or `namex` not yet
given to a file or a process, nor dropped by `iput`). Two moments break the equation the
other way: `sys_chdir` and `exit` drop the reference of the process's current directory
with `iput` before they change the process, so for a while the process is still counted
and the entry is not. The ledger names both: `held` for the references in hand and
`debt` for those dropped ahead of time, both empty between system calls.

`RefInv` is the ledger with what it protects: at most one live entry per inode, all on
the root device, each counting exactly its references; a live entry that has been read
agrees with the disk and is not free; and the disk inode of an entry that a file or a
process refers to (beyond the debt) is allocated. `loaded` are entries the running code
has read (`ilock`) and still holds, so their inode is allocated too.

Each lemma below is what one update of the view does to the ledger: one more reference
in hand, an entry recycled for another inode, an entry read from the disk, a reference
dropped (freeing the inode or not), an inode allocated, an open file opened or closed, a
process leaving or entering a directory.
Source: kernel/fs.c:242-358, kernel/file.c:28-83, kernel/sysfile.c:390-413
-/

set_option autoImplicit false

namespace Xv6

open Count

/-- An open file holds a reference to entry `i` while it is open on an inode or a device
there. -/
def fileHolds (i : Fin NINODE) (f : ℕ × FdType × Fin NINODE) : Prop :=
  0 < f.1 ∧ (f.2.1 = .inode ∨ f.2.1 = .device) ∧ f.2.2 = i

/-- A live process holds a reference to its current directory. -/
def procHolds (i : Fin NINODE) (p : Bool × Fin NINODE) : Prop :=
  p.1 = true ∧ p.2 = i

instance (i : Fin NINODE) : DecidablePred (fileHolds i) :=
  fun f => inferInstanceAs (Decidable (0 < f.1 ∧ (f.2.1 = .inode ∨ f.2.1 = .device) ∧ f.2.2 = i))

instance (i : Fin NINODE) : DecidablePred (procHolds i) :=
  fun p => inferInstanceAs (Decidable (p.1 = true ∧ p.2 = i))

namespace RefView

/-- The references to entry `i` that the state records. -/
def holders (v : RefView) (i : Fin NINODE) : ℕ :=
  countWhere (fileHolds i) v.file + countWhere (procHolds i) v.proc

@[simp] theorem setSlot_slot (v : RefView) (i j : Fin NINODE) (x : SlotView) :
    (v.setSlot i x).slot j = Function.update v.slot i x j := rfl

@[simp] theorem setSlot_dtype (v : RefView) (i : Fin NINODE) (x : SlotView) :
    (v.setSlot i x).dtype = v.dtype := rfl

@[simp] theorem setSlot_file (v : RefView) (i : Fin NINODE) (x : SlotView) :
    (v.setSlot i x).file = v.file := rfl

@[simp] theorem setSlot_holders (v : RefView) (i : Fin NINODE) (x : SlotView) :
    (v.setSlot i x).holders = v.holders := rfl

@[simp] theorem setDtype_slot (v : RefView) (n : ℕ) (t : IType) :
    (v.setDtype n t).slot = v.slot := rfl

@[simp] theorem setDtype_dtype (v : RefView) (n m : ℕ) (t : IType) :
    (v.setDtype n t).dtype m = Function.update v.dtype n t m := rfl

@[simp] theorem setDtype_file (v : RefView) (n : ℕ) (t : IType) :
    (v.setDtype n t).file = v.file := rfl

@[simp] theorem setDtype_holders (v : RefView) (n : ℕ) (t : IType) :
    (v.setDtype n t).holders = v.holders := rfl

@[simp] theorem setFile_slot (v : RefView) (f : Fin NFILE) (x : ℕ × FdType × Fin NINODE) :
    (v.setFile f x).slot = v.slot := rfl

@[simp] theorem setFile_dtype (v : RefView) (f : Fin NFILE) (x : ℕ × FdType × Fin NINODE) :
    (v.setFile f x).dtype = v.dtype := rfl

@[simp] theorem setFile_file (v : RefView) (f g : Fin NFILE) (x : ℕ × FdType × Fin NINODE) :
    (v.setFile f x).file g = Function.update v.file f x g := rfl

@[simp] theorem setProc_slot (v : RefView) (p : Fin NPROC) (x : Bool × Fin NINODE) :
    (v.setProc p x).slot = v.slot := rfl

@[simp] theorem setProc_dtype (v : RefView) (p : Fin NPROC) (x : Bool × Fin NINODE) :
    (v.setProc p x).dtype = v.dtype := rfl

@[simp] theorem setProc_file (v : RefView) (p : Fin NPROC) (x : Bool × Fin NINODE) :
    (v.setProc p x).file = v.file := rfl

/-- Replacing a file changes the references to `j` by what it held and what it holds. -/
theorem holders_setFile (v : RefView) (f : Fin NFILE) (x : ℕ × FdType × Fin NINODE)
    (j : Fin NINODE) :
    (v.setFile f x).holders j + (if fileHolds j (v.file f) then 1 else 0) =
      v.holders j + (if fileHolds j x then 1 else 0) := by
  have h := countWhere_update (fileHolds j) v.file f x
  simp only [holders, setFile]
  omega

/-- Replacing a process changes the references to `j` by what it held and what it holds. -/
theorem holders_setProc (v : RefView) (p : Fin NPROC) (x : Bool × Fin NINODE) (j : Fin NINODE) :
    (v.setProc p x).holders j + (if procHolds j (v.proc p) then 1 else 0) =
      v.holders j + (if procHolds j x then 1 else 0) := by
  have h := countWhere_update (procHolds j) v.proc p x
  simp only [holders, setProc]
  omega

/-- A live process counts as a reference to its current directory. -/
theorem holders_pos_of_proc {v : RefView} {p : Fin NPROC} {c : Fin NINODE}
    (hp : v.proc p = (true, c)) : 0 < v.holders c := by
  have : 0 < countWhere (procHolds c) v.proc := countWhere_pos (i := p) (by simp [procHolds, hp])
  unfold holders
  omega

/-- An open file on an inode or a device counts as a reference to its entry. -/
theorem holders_pos_of_file {v : RefView} {f : Fin NFILE} (h0 : 0 < (v.file f).1)
    (ht : (v.file f).2.1 = .inode ∨ (v.file f).2.1 = .device) : 0 < v.holders (v.file f).2.2 := by
  have : 0 < countWhere (fileHolds (v.file f).2.2) v.file :=
    countWhere_pos (i := f) ⟨h0, ht, rfl⟩
  unfold holders
  omega

end RefView

/-- The ledger of inode references, with the references `held` in hand, those dropped
ahead of time (`debt`) and the entries `loaded` by the running code. -/
structure RefInv (v : RefView) (held debt loaded : Multiset (Fin NINODE)) : Prop where
  unique : ∀ i j, 0 < (v.slot i).ref → 0 < (v.slot j).ref →
    (v.slot i).inum = (v.slot j).inum → i = j
  dev : ∀ i, 0 < (v.slot i).ref → (v.slot i).dev = ROOTDEV
  count : ∀ i, (v.slot i).ref + debt.count i = v.holders i + held.count i
  debt_le : ∀ i, debt.count i ≤ v.holders i
  closed : ∀ f, (v.file f).1 = 0 → (v.file f).2.1 = .none
  coherent : ∀ i, 0 < (v.slot i).ref → (v.slot i).valid = true →
    v.coh i ∧ (v.slot i).type ≠ .free
  allocated : ∀ i, debt.count i < v.holders i → v.dtype (v.slot i).inum ≠ .free
  loaded_le : ∀ i, loaded.count i ≤ (v.slot i).ref
  loaded_valid : ∀ i ∈ loaded, (v.slot i).valid = true

/-- The ledger holds in state `s`. -/
def Ledger (held debt loaded : Multiset (Fin NINODE)) (s : FsState) : Prop :=
  RefInv s.refView held debt loaded

/-- Dropping one reference to entry `i` takes it out of hand, or adds it to the debt while
a file or a process still counts it. -/
structure Drop (v : RefView) (i : Fin NINODE) (h d h' d' : Multiset (Fin NINODE)) : Prop where
  count : h'.count i + d.count i + 1 = h.count i + d'.count i
  frame : ∀ j, j ≠ i → h'.count j = h.count j ∧ d'.count j = d.count j
  debt_mono : d.count i ≤ d'.count i
  debt_le : d'.count i ≤ v.holders i

/-- A reference in hand is dropped. -/
theorem Drop.held {v : RefView} {h d L : Multiset (Fin NINODE)} {i : Fin NINODE}
    (hv : RefInv v (i ::ₘ h) d L) : Drop v i (i ::ₘ h) d h d where
  count := by
    rw [Multiset.count_cons_self]
    omega
  frame j hj := ⟨by rw [Multiset.count_cons_of_ne hj], rfl⟩
  debt_mono := le_rfl
  debt_le := hv.debt_le i

/-- The reference of a file or a process is dropped ahead of time. -/
theorem Drop.debt {v : RefView} {h d : Multiset (Fin NINODE)} {i : Fin NINODE}
    (hd : d.count i < v.holders i) : Drop v i h d h (i ::ₘ d) where
  count := by
    rw [Multiset.count_cons_self]
    omega
  frame j hj := ⟨rfl, by rw [Multiset.count_cons_of_ne hj]⟩
  debt_mono := by
    rw [Multiset.count_cons_self]
    exact Nat.le_succ _
  debt_le := by
    rw [Multiset.count_cons_self]
    exact hd

namespace RefInv

variable {v : RefView} {h d L : Multiset (Fin NINODE)}

/-- An entry has at least the references held in hand. -/
theorem held_le (hv : RefInv v h d L) (i : Fin NINODE) : h.count i ≤ (v.slot i).ref := by
  have := hv.count i
  have := hv.debt_le i
  omega

/-- An entry loaded by the running code is live. -/
theorem ref_pos_of_loaded (hv : RefInv v h d L) {i : Fin NINODE} (hi : i ∈ L) :
    0 < (v.slot i).ref :=
  lt_of_lt_of_le (Multiset.count_pos.2 hi) (hv.loaded_le i)

/-- An entry loaded by the running code agrees with the disk, on an allocated inode. -/
theorem coh_of_loaded (hv : RefInv v h d L) {i : Fin NINODE} (hi : i ∈ L) :
    v.coh i ∧ (v.slot i).type ≠ .free :=
  hv.coherent i (hv.ref_pos_of_loaded hi) (hv.loaded_valid i hi)

theorem dtype_of_loaded (hv : RefInv v h d L) {i : Fin NINODE} (hi : i ∈ L) :
    v.dtype (v.slot i).inum ≠ .free := by
  obtain ⟨hcoh, hfree⟩ := hv.coh_of_loaded hi
  rw [← hcoh]
  exact hfree

/-- Forgetting loaded entries keeps the ledger. -/
theorem anti_loaded (hv : RefInv v h d L) {L' : Multiset (Fin NINODE)} (hL : L' ≤ L) :
    RefInv v h d L' where
  __ := hv
  loaded_le i := (Multiset.count_le_of_le i hL).trans (hv.loaded_le i)
  loaded_valid i hi := hv.loaded_valid i (Multiset.mem_of_le hL hi)

/-! ## The inode table and the disk -/

/-- Entry `i` with its count replaced: every entry keeps all but its count. -/
theorem setSlot_ref_slot (i j : Fin NINODE) (r : ℕ) :
    (v.setSlot i { v.slot i with ref := r }).slot j =
      { v.slot j with ref := if j = i then r else (v.slot j).ref } := by
  by_cases hj : j = i
  · subst hj
    simp
  · simp [hj]

/-- An entry changes its count, and the references in hand or ahead of time change to
match: `iget` finding the inode, `idup`, and an `iput` that frees nothing. -/
theorem setRef (hv : RefInv v h d L) {i : Fin NINODE} {r : ℕ} {h' d' : Multiset (Fin NINODE)}
    (hi : 0 < (v.slot i).ref) (hcount : r + d'.count i = v.holders i + h'.count i)
    (hframe : ∀ j, j ≠ i → h'.count j = h.count j ∧ d'.count j = d.count j)
    (hdebt : d.count i ≤ d'.count i) (hdebt' : d'.count i ≤ v.holders i) (hL : L.count i ≤ r) :
    RefInv (v.setSlot i { v.slot i with ref := r }) h' d' L := by
  -- an entry live after the change was live before it
  have hpos : ∀ j, 0 < ((v.setSlot i { v.slot i with ref := r }).slot j).ref →
      0 < (v.slot j).ref := by
    intro j hj
    rw [setSlot_ref_slot] at hj
    split_ifs at hj with hji
    · subst hji
      exact hi
    · exact hj
  constructor
  · intro j k hj hk hjk
    simp only [setSlot_ref_slot] at hjk
    exact hv.unique j k (hpos j hj) (hpos k hk) hjk
  · intro j hj
    simp only [setSlot_ref_slot]
    exact hv.dev j (hpos j hj)
  · intro j
    simp only [setSlot_ref_slot, RefView.setSlot_holders]
    split_ifs with hji
    · subst hji
      exact hcount
    · rw [(hframe j hji).1, (hframe j hji).2]
      exact hv.count j
  · intro j
    simp only [RefView.setSlot_holders]
    by_cases hji : j = i
    · subst hji
      exact hdebt'
    · rw [(hframe j hji).2]
      exact hv.debt_le j
  · exact hv.closed
  · intro j hj hvalid
    simp only [RefView.coh, setSlot_ref_slot, RefView.setSlot_dtype] at hvalid ⊢
    exact hv.coherent j (hpos j hj) hvalid
  · intro j hlt
    simp only [setSlot_ref_slot, RefView.setSlot_dtype, RefView.setSlot_holders] at hlt ⊢
    by_cases hji : j = i
    · subst hji
      exact hv.allocated j (lt_of_le_of_lt hdebt hlt)
    · rw [(hframe j hji).2] at hlt
      exact hv.allocated j hlt
  · intro j
    simp only [setSlot_ref_slot]
    split_ifs with hji
    · subst hji
      exact hL
    · exact hv.loaded_le j
  · intro j hj
    simp only [setSlot_ref_slot]
    exact hv.loaded_valid j hj

/-- The last reference to an entry read from the disk is dropped with no link left: `iput`
frees the inode on the disk and the entry forgets it. -/
theorem free (hv : RefInv v h d L) {i : Fin NINODE} {h' d' : Multiset (Fin NINODE)}
    (hi : (v.slot i).ref = 1) (hcount : d'.count i = v.holders i + h'.count i)
    (hframe : ∀ j, j ≠ i → h'.count j = h.count j ∧ d'.count j = d.count j)
    (hdebt' : d'.count i ≤ v.holders i) (hL : L.count i = 0) :
    RefInv ((v.setDtype (v.slot i).inum .free).setSlot i
      ⟨0, (v.slot i).dev, (v.slot i).inum, false, .free⟩) h' d' L := by
  set v' := (v.setDtype (v.slot i).inum .free).setSlot i
    ⟨0, (v.slot i).dev, (v.slot i).inum, false, .free⟩
  have hother : ∀ j, j ≠ i → v'.slot j = v.slot j := fun j hj => by
    simp [v', Function.update_of_ne hj]
  have hdead : (v'.slot i).ref = 0 := by simp [v']
  -- a live entry other than `i` holds another inode, whose disk type is unchanged
  have hinum : ∀ j, j ≠ i → 0 < (v.slot j).ref → (v.slot j).inum ≠ (v.slot i).inum :=
    fun j hj hpos heq => hj (hv.unique j i hpos (by omega) heq)
  have hdtype : ∀ j, j ≠ i → 0 < (v.slot j).ref → v'.dtype (v.slot j).inum = v.dtype (v.slot j).inum :=
    fun j hj hpos => by simp [v', Function.update_of_ne (hinum j hj hpos)]
  constructor
  · intro j k hj hk hjk
    have hji : j ≠ i := by rintro rfl; omega
    have hki : k ≠ i := by rintro rfl; omega
    rw [hother j hji, hother k hki] at *
    exact hv.unique j k hj hk hjk
  · intro j hj
    have hji : j ≠ i := by rintro rfl; omega
    rw [hother j hji] at *
    exact hv.dev j hj
  · intro j
    by_cases hji : j = i
    · subst hji
      rw [hdead]
      change 0 + d'.count j = v.holders j + h'.count j
      omega
    · rw [hother j hji, (hframe j hji).1, (hframe j hji).2]
      exact hv.count j
  · intro j
    by_cases hji : j = i
    · subst hji
      exact hdebt'
    · rw [(hframe j hji).2]
      exact hv.debt_le j
  · exact hv.closed
  · intro j hj hvalid
    have hji : j ≠ i := by rintro rfl; omega
    rw [hother j hji] at *
    unfold RefView.coh
    rw [hother j hji, hdtype j hji hj]
    exact hv.coherent j hj hvalid
  · intro j hlt
    by_cases hji : j = i
    · subst hji
      change d'.count j < v.holders j at hlt
      omega
    · rw [hother j hji]
      change d'.count j < v.holders j at hlt
      rw [(hframe j hji).2] at hlt
      by_cases hpos : 0 < (v.slot j).ref
      · rw [hdtype j hji hpos]
        exact hv.allocated j hlt
      · -- a dead entry is referenced by no more than the debt
        have := hv.count j
        omega
  · intro j
    by_cases hji : j = i
    · subst hji
      rw [hL]
      exact Nat.zero_le _
    · rw [hother j hji]
      exact hv.loaded_le j
  · intro j hj
    have hji : j ≠ i := by rintro rfl; exact absurd hL (Multiset.count_ne_zero.2 hj)
    rw [hother j hji]
    exact hv.loaded_valid j hj

/-- One more reference in hand to a live entry: `iget` finding the inode, `idup`. -/
theorem incRef (hv : RefInv v h d L) {i : Fin NINODE} (hi : 0 < (v.slot i).ref) :
    RefInv (v.setSlot i { v.slot i with ref := (v.slot i).ref + 1 }) (i ::ₘ h) d L := by
  have hcount := hv.count i
  have hL := hv.loaded_le i
  refine hv.setRef hi ?_ (fun j hj => ⟨Multiset.count_cons_of_ne hj h, rfl⟩) le_rfl
    (hv.debt_le i) (by omega)
  rw [Multiset.count_cons_self]
  omega

/-- `iput` that frees nothing: the entry loses one reference. -/
theorem put (hv : RefInv v h d L) {i : Fin NINODE} {h' d' : Multiset (Fin NINODE)}
    (hdrop : Drop v i h d h' d') (hL : L.count i < (v.slot i).ref) :
    RefInv (v.setSlot i { v.slot i with ref := (v.slot i).ref - 1 }) h' d' L := by
  have hcount := hv.count i
  have hdc := hdrop.count
  exact hv.setRef (by omega) (by omega) hdrop.frame hdrop.debt_mono hdrop.debt_le (by omega)

/-- `iput` of the last reference to an inode with no link: the inode is freed. -/
theorem putFree (hv : RefInv v h d L) {i : Fin NINODE} {h' d' : Multiset (Fin NINODE)}
    (hdrop : Drop v i h d h' d') (hL : L.count i < (v.slot i).ref) (hi : (v.slot i).ref = 1) :
    RefInv ((v.setDtype (v.slot i).inum .free).setSlot i
      ⟨0, (v.slot i).dev, (v.slot i).inum, false, .free⟩) h' d' L := by
  have hcount := hv.count i
  have hdc := hdrop.count
  exact hv.free hi (by omega) hdrop.frame hdrop.debt_le (by omega)

/-- `iget` recycles a free entry for inode `n`, which no live entry holds. -/
theorem recycle (hv : RefInv v h d L) {i : Fin NINODE} {n : ℕ} (hi : (v.slot i).ref = 0)
    (hn : ∀ j, 0 < (v.slot j).ref → (v.slot j).inum ≠ n) :
    RefInv (v.setSlot i ⟨1, ROOTDEV, n, false, (v.slot i).type⟩) (i ::ₘ h) d L := by
  set v' := v.setSlot i ⟨1, ROOTDEV, n, false, (v.slot i).type⟩
  have hother : ∀ j, j ≠ i → v'.slot j = v.slot j := fun j hj => by
    simp [v', Function.update_of_ne hj]
  have hnew : v'.slot i = ⟨1, ROOTDEV, n, false, (v.slot i).type⟩ := by simp [v']
  -- the entry was referenced by no more than the debt
  have hfree := hv.count i
  have hLi : L.count i = 0 := by
    have := hv.loaded_le i
    omega
  constructor
  · intro j k hj hk hjk
    by_cases hji : j = i
    · by_cases hki : k = i
      · rw [hji, hki]
      · rw [hji, hnew, hother k hki] at hjk
        rw [hother k hki] at hk
        exact absurd hjk.symm (hn k hk)
    · by_cases hki : k = i
      · rw [hki, hnew, hother j hji] at hjk
        rw [hother j hji] at hj
        exact absurd hjk (hn j hj)
      · rw [hother j hji, hother k hki] at *
        exact hv.unique j k hj hk hjk
  · intro j hj
    by_cases hji : j = i
    · rw [hji, hnew]
    · rw [hother j hji] at *
      exact hv.dev j hj
  · intro j
    rw [Multiset.count_cons]
    by_cases hji : j = i
    · subst hji
      rw [hnew, if_pos rfl]
      change 1 + d.count j = v.holders j + (h.count j + 1)
      omega
    · rw [hother j hji, if_neg hji]
      exact hv.count j
  · exact hv.debt_le
  · exact hv.closed
  · intro j hj hvalid
    by_cases hji : j = i
    · rw [hji, hnew] at hvalid
      cases hvalid
    · unfold RefView.coh
      rw [hother j hji] at *
      exact hv.coherent j hj hvalid
  · intro j hlt
    by_cases hji : j = i
    · subst hji
      change d.count j < v.holders j at hlt
      omega
    · rw [hother j hji]
      exact hv.allocated j hlt
  · intro j
    by_cases hji : j = i
    · subst hji
      rw [hLi]
      exact Nat.zero_le _
    · rw [hother j hji]
      exact hv.loaded_le j
  · intro j hj
    have hji : j ≠ i := by rintro rfl; exact absurd hLi (Multiset.count_ne_zero.2 hj)
    rw [hother j hji]
    exact hv.loaded_valid j hj

/-- `ilock` reads entry `i` from the disk: it takes the disk inode's type, which is not
free, and the running code has it loaded once more. -/
theorem load (hv : RefInv v h d L) {i : Fin NINODE} (hi : L.count i < (v.slot i).ref)
    (hfree : v.dtype (v.slot i).inum ≠ .free) :
    RefInv (v.setSlot i { v.slot i with valid := true, type := v.dtype (v.slot i).inum })
      h d (i ::ₘ L) := by
  set v' := v.setSlot i { v.slot i with valid := true, type := v.dtype (v.slot i).inum }
  have hother : ∀ j, j ≠ i → v'.slot j = v.slot j := fun j hj => by
    simp [v', Function.update_of_ne hj]
  have hnew : v'.slot i = { v.slot i with valid := true, type := v.dtype (v.slot i).inum } := by
    simp [v']
  -- every entry keeps its count, device and inode number
  have hsame : ∀ j, (v'.slot j).ref = (v.slot j).ref ∧ (v'.slot j).dev = (v.slot j).dev ∧
      (v'.slot j).inum = (v.slot j).inum := by
    intro j
    by_cases hji : j = i
    · subst hji
      rw [hnew]
      exact ⟨rfl, rfl, rfl⟩
    · rw [hother j hji]
      exact ⟨rfl, rfl, rfl⟩
  constructor
  · intro j k hj hk hjk
    rw [(hsame j).1] at hj
    rw [(hsame k).1] at hk
    rw [(hsame j).2.2, (hsame k).2.2] at hjk
    exact hv.unique j k hj hk hjk
  · intro j hj
    rw [(hsame j).1] at hj
    rw [(hsame j).2.1]
    exact hv.dev j hj
  · intro j
    rw [(hsame j).1]
    exact hv.count j
  · exact hv.debt_le
  · exact hv.closed
  · intro j hj hvalid
    unfold RefView.coh
    by_cases hji : j = i
    · subst hji
      rw [hnew]
      exact ⟨rfl, hfree⟩
    · rw [hother j hji] at *
      exact hv.coherent j hj hvalid
  · intro j hlt
    rw [(hsame j).2.2]
    exact hv.allocated j hlt
  · intro j
    rw [(hsame j).1, Multiset.count_cons]
    by_cases hji : j = i
    · subst hji
      rw [if_pos rfl]
      omega
    · rw [if_neg hji, Nat.add_zero]
      exact hv.loaded_le j
  · intro j hj
    by_cases hji : j = i
    · rw [hji, hnew]
    · rw [hother j hji]
      exact hv.loaded_valid j ((Multiset.mem_cons.1 hj).resolve_left hji)

/-- `ilock` of an entry already read: the running code has it loaded once more. -/
theorem lock (hv : RefInv v h d L) {i : Fin NINODE} (hi : L.count i < (v.slot i).ref)
    (hvalid : (v.slot i).valid = true) : RefInv v h d (i ::ₘ L) where
  __ := hv
  loaded_le j := by
    rw [Multiset.count_cons]
    by_cases hji : j = i
    · subst hji
      rw [if_pos rfl]
      omega
    · rw [if_neg hji, Nat.add_zero]
      exact hv.loaded_le j
  loaded_valid j hj := by
    by_cases hji : j = i
    · rw [hji]
      exact hvalid
    · exact hv.loaded_valid j ((Multiset.mem_cons.1 hj).resolve_left hji)

/-- `ialloc` gives a free disk inode a type. -/
theorem alloc (hv : RefInv v h d L) {n : ℕ} {t : IType} (hn : v.dtype n = .free)
    (ht : t ≠ .free) : RefInv (v.setDtype n t) h d L where
  __ := hv
  coherent j hj hvalid := by
    obtain ⟨hcoh, hfree⟩ := hv.coherent j hj hvalid
    -- a live entry read from the disk does not hold the free inode
    have hjn : (v.slot j).inum ≠ n := by
      rintro heq
      rw [RefView.coh, heq, hn] at hcoh
      exact hfree hcoh
    refine ⟨?_, hfree⟩
    simp only [RefView.coh, RefView.setDtype_slot, RefView.setDtype_dtype,
      Function.update_of_ne hjn]
    exact hcoh
  allocated j hlt := by
    simp only [RefView.setDtype_slot, RefView.setDtype_dtype]
    by_cases hjn : (v.slot j).inum = n
    · rw [hjn, Function.update_self]
      exact ht
    · rw [Function.update_of_ne hjn]
      exact hv.allocated j hlt

/-! ## The references recorded by files and processes -/

/-- A change of what the files and processes record, the table and the disk left alone,
keeps the ledger when the counts still balance. -/
theorem of_holders {v' : RefView} {h' d' : Multiset (Fin NINODE)} (hv : RefInv v h d L)
    (hslot : v'.slot = v.slot) (hdtype : v'.dtype = v.dtype)
    (hclosed : ∀ f, (v'.file f).1 = 0 → (v'.file f).2.1 = .none)
    (hcount : ∀ i, (v.slot i).ref + d'.count i = v'.holders i + h'.count i)
    (hdebt : ∀ i, d'.count i ≤ v'.holders i)
    (halloc : ∀ i, d'.count i < v'.holders i → v.dtype (v.slot i).inum ≠ .free) :
    RefInv v' h' d' L where
  unique := by
    rw [hslot]
    exact hv.unique
  dev := by
    rw [hslot]
    exact hv.dev
  count := by
    rw [hslot]
    exact hcount
  debt_le := hdebt
  closed := hclosed
  coherent := by
    unfold RefView.coh
    rw [hslot, hdtype]
    exact hv.coherent
  allocated := by
    rw [hslot, hdtype]
    exact halloc
  loaded_le := by
    rw [hslot]
    exact hv.loaded_le
  loaded_valid := by
    rw [hslot]
    exact hv.loaded_valid

/-- A change of a file that holds the same references as before: `filedup`, `fileclose`
of a file still open elsewhere or of one on no inode, `filealloc`. -/
theorem file_same (hv : RefInv v h d L) {f : Fin NFILE} {y : ℕ × FdType × Fin NINODE}
    (hsame : ∀ j, fileHolds j y ↔ fileHolds j (v.file f)) (hy : y.1 = 0 → y.2.1 = .none) :
    RefInv (v.setFile f y) h d L := by
  have hhold : ∀ j, (v.setFile f y).holders j = v.holders j := by
    intro j
    have := RefView.holders_setFile v f y j
    simp only [hsame j] at this
    omega
  refine hv.of_holders rfl rfl (fun g hg => ?_) (fun j => ?_) (fun j => ?_) (fun j => ?_)
  · by_cases hgf : g = f
    · subst hgf
      simp only [RefView.setFile_file, Function.update_self] at hg ⊢
      exact hy hg
    · simp only [RefView.setFile_file, Function.update_of_ne hgf] at hg ⊢
      exact hv.closed g hg
  · rw [hhold]
    exact hv.count j
  · rw [hhold]
    exact hv.debt_le j
  · rw [hhold]
    exact hv.allocated j

/-- A file changes its count but stays open: `filedup`, and `fileclose` of a file still
open elsewhere. -/
theorem file_ref (hv : RefInv v h d L) {f : Fin NFILE} {r : ℕ} (h0 : 0 < (v.file f).1)
    (hr : 0 < r) : RefInv (v.setFile f (r, (v.file f).2)) h d L :=
  hv.file_same (fun j => by simp only [fileHolds, hr, h0, true_and]) fun h1 => by
    simp at h1
    omega

/-- `filealloc` takes a closed file, which holds nothing. -/
theorem file_open (hv : RefInv v h d L) {f : Fin NFILE} (h0 : (v.file f).1 = 0) :
    RefInv (v.setFile f (1, (v.file f).2)) h d L := by
  have hnone := hv.closed f h0
  refine hv.file_same (fun j => ?_) fun h1 => by simp at h1
  simp [fileHolds, hnone, h0]

/-- The last `fileclose` of a file on no inode or device releases nothing. -/
theorem file_drop (hv : RefInv v h d L) {f : Fin NFILE}
    (ht : ¬((v.file f).2.1 = .inode ∨ (v.file f).2.1 = .device)) :
    RefInv (v.setFile f (0, .none, (v.file f).2.2)) h d L :=
  hv.file_same (fun j => by simp [fileHolds, ht]) fun _ => rfl

/-- The last `fileclose` of a file on an inode or a device closes it and puts its
reference in hand, for the `iput` that follows. -/
theorem file_release (hv : RefInv v h d L) {f : Fin NFILE} (h0 : 0 < (v.file f).1)
    (ht : (v.file f).2.1 = .inode ∨ (v.file f).2.1 = .device)
    (hd : d.count (v.file f).2.2 < v.holders (v.file f).2.2) :
    RefInv (v.setFile f (0, .none, (v.file f).2.2)) ((v.file f).2.2 ::ₘ h) d L := by
  set x := (v.file f).2.2
  have hhold : ∀ j, (v.setFile f (0, .none, x)).holders j + (if j = x then 1 else 0) =
      v.holders j := by
    intro j
    have := RefView.holders_setFile v f (0, .none, x) j
    have hj : fileHolds j (v.file f) ↔ j = x := by
      simp only [fileHolds, h0, ht, true_and]
      exact eq_comm
    simp only [hj] at this
    simp only [fileHolds, lt_irrefl, false_and, if_false] at this
    omega
  refine hv.of_holders rfl rfl (fun g hg => ?_) (fun j => ?_) (fun j => ?_) (fun j => ?_)
  · by_cases hgf : g = f
    · subst hgf
      simp
    · simp only [RefView.setFile_file, Function.update_of_ne hgf] at hg ⊢
      exact hv.closed g hg
  · have := hhold j
    have := hv.count j
    rw [Multiset.count_cons]
    split_ifs at * <;> omega
  · have := hhold j
    have := hv.debt_le j
    split_ifs at * with hj
    · subst hj
      omega
    · omega
  · intro hlt
    have := hhold j
    exact hv.allocated j (by split_ifs at * <;> omega)

/-- `sys_open` gives the reference in hand to the file it opened, which held nothing. The
inode was loaded, so it is allocated. -/
theorem file_take {f : Fin NFILE} {x : Fin NINODE} {t : FdType} (hv : RefInv v (x ::ₘ h) d L)
    (hf : (v.file f).1 = 1) (hnone : (v.file f).2.1 = .none) (ht : t = .inode ∨ t = .device)
    (hx : x ∈ L) : RefInv (v.setFile f (1, t, x)) h d L := by
  have hhold : ∀ j, (v.setFile f (1, t, x)).holders j = v.holders j + (if j = x then 1 else 0) := by
    intro j
    have := RefView.holders_setFile v f (1, t, x) j
    have hj : fileHolds j (1, t, x) ↔ j = x := by
      simp only [fileHolds, ht, zero_lt_one, true_and]
      exact eq_comm
    simp only [hj] at this
    simp only [fileHolds, hnone, reduceCtorEq, or_self, false_and, and_false, if_false] at this
    omega
  refine hv.of_holders rfl rfl (fun g hg => ?_) (fun j => ?_) (fun j => ?_) (fun j => ?_)
  · by_cases hgf : g = f
    · subst hgf
      simp at hg
    · simp only [RefView.setFile_file, Function.update_of_ne hgf] at hg ⊢
      exact hv.closed g hg
  · have := hv.count j
    rw [hhold, Multiset.count_cons] at *
    split_ifs at * <;> omega
  · have := hv.debt_le j
    rw [hhold]
    omega
  · rw [hhold]
    intro hlt
    by_cases hj : j = x
    · subst hj
      exact hv.dtype_of_loaded hx
    · rw [if_neg hj] at hlt
      exact hv.allocated j hlt

/-- A live process leaves its current directory (`exit`, or `sys_chdir` leaving the old
one), whose reference was dropped ahead of time. -/
theorem proc_release {p : Fin NPROC} {c : Fin NINODE} (hv : RefInv v h (c ::ₘ d) L)
    (hp : v.proc p = (true, c)) : RefInv (v.setProc p (false, c)) h d L := by
  have hhold : ∀ j, (v.setProc p (false, c)).holders j + (if j = c then 1 else 0) =
      v.holders j := by
    intro j
    have := RefView.holders_setProc v p (false, c) j
    have hj : procHolds j (v.proc p) ↔ j = c := by
      simp only [procHolds, hp, true_and]
      exact eq_comm
    simp only [hj] at this
    simp only [procHolds, Bool.false_eq_true, false_and, if_false] at this
    omega
  refine hv.of_holders rfl rfl hv.closed (fun j => ?_) (fun j => ?_) (fun j => ?_)
  · have := hhold j
    have := hv.count j
    rw [Multiset.count_cons] at this
    split_ifs at * <;> omega
  · have := hhold j
    have := hv.debt_le j
    rw [Multiset.count_cons] at this
    split_ifs at * <;> omega
  · intro hlt
    have := hhold j
    refine hv.allocated j ?_
    rw [Multiset.count_cons]
    split_ifs at * <;> omega

/-- A process that was not alive comes to stand in directory `c`, taking the reference in
hand (`fork`'s child, `sys_chdir`'s new directory). The inode is allocated: a process
already stands there, or it was loaded. -/
theorem proc_acquire {p : Fin NPROC} {c : Fin NINODE} (hv : RefInv v (c ::ₘ h) d L)
    (hp : (v.proc p).1 = false) (hc : d.count c < v.holders c ∨ c ∈ L) :
    RefInv (v.setProc p (true, c)) h d L := by
  have hhold : ∀ j, (v.setProc p (true, c)).holders j = v.holders j + (if j = c then 1 else 0) := by
    intro j
    have := RefView.holders_setProc v p (true, c) j
    have hj : procHolds j (true, c) ↔ j = c := by
      simp only [procHolds, true_and]
      exact eq_comm
    simp only [hj] at this
    simp only [procHolds, hp, Bool.false_eq_true, false_and, if_false] at this
    omega
  refine hv.of_holders rfl rfl hv.closed (fun j => ?_) (fun j => ?_) (fun j => ?_)
  · have := hv.count j
    rw [hhold, Multiset.count_cons] at *
    split_ifs at * <;> omega
  · have := hv.debt_le j
    rw [hhold]
    omega
  · rw [hhold]
    intro hlt
    by_cases hj : j = c
    · subst hj
      rcases hc with hc | hc
      · exact hv.allocated j hc
      · exact hv.dtype_of_loaded hc
    · rw [if_neg hj] at hlt
      exact hv.allocated j hlt

end RefInv

end Xv6
