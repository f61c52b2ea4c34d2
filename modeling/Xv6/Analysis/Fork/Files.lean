import Xv6.Analysis.Fork.Alloc

/-!
# What `fork` shares and copies besides memory (`kernel/proc.c`)

`fork` gives the child every open file of the parent, `np->ofile[i] = filedup(p->ofile[i])`,
and its current directory, `np->cwd = idup(p->cwd)`. Over the whole loop the child's
descriptors become the parent's and each file's count goes up by the number of the parent's
descriptors that name it (`forkFiles_run`). The loop is taken one descriptor at a time: the
state after the descriptors `done` is `shared s p np done`.

`safestrcpy(np->name, p->name, sizeof(p->name))` copies the name up to its first NUL; the
byte at index 15 is always 0, so a name without a NUL in its 16 bytes is cut.
Source: kernel/proc.c:272-319, kernel/file.c:46-56, kernel/fs.c:278-284, kernel/string.c:84-96
-/

set_option autoImplicit false

namespace Xv6

/-! ## `safestrcpy` -/

section Strcpy

variable {N : ℕ}

theorem getAt_setAt (a : Fin N → UInt8) (k : ℕ) (v : UInt8) {i : ℕ} (hi : i < N) :
    getAt (setAt a k v) i = if i = k then v else getAt a i := by
  simp [getAt, setAt, hi]

theorem getAt_of_le (a : Fin N → UInt8) {i : ℕ} (hi : N ≤ i) : getAt a i = 0 := by
  simp [getAt, Nat.not_lt.2 hi]

/-- The loop writes nothing below the index it starts at. -/
theorem safestrcpyLoop_below (t : Fin N → UInt8) :
    ∀ (n k : ℕ) (s : Fin N → UInt8) (i : ℕ), i < k → getAt (safestrcpyLoop t n k s) i = getAt s i
  | 0, _, _, _, _ => rfl
  | 1, k, s, i, hi => by
    by_cases hiN : i < N
    · rw [safestrcpyLoop, getAt_setAt _ _ _ hiN, if_neg (by omega)]
    · rw [getAt_of_le _ (Nat.not_lt.1 hiN), getAt_of_le _ (Nat.not_lt.1 hiN)]
  | n + 2, k, s, i, hi => by
    by_cases hiN : i < N
    · rw [safestrcpyLoop]
      split_ifs
      · rw [getAt_setAt _ _ _ hiN, if_neg (by omega), getAt_setAt _ _ _ hiN, if_neg (by omega)]
      · rw [safestrcpyLoop_below t (n + 1) (k + 1) _ i (by omega), getAt_setAt _ _ _ hiN,
          if_neg (by omega)]
    · rw [getAt_of_le _ (Nat.not_lt.1 hiN), getAt_of_le _ (Nat.not_lt.1 hiN)]

/-- From index `k` up to the first NUL of `t`, the loop with `n` bytes left copies `t`, and
the last byte it may write is 0. -/
theorem safestrcpyLoop_get (t : Fin N → UInt8) :
    ∀ (n k : ℕ) (s : Fin N → UInt8) (i : ℕ), k ≤ i → i < k + n →
      (∀ j, k ≤ j → j < i → getAt t j ≠ 0) →
      getAt (safestrcpyLoop t n k s) i = if i + 1 = k + n then 0 else getAt t i
  | 0, _, _, _, h1, h2, _ => by omega
  | 1, k, s, i, h1, h2, _ => by
    rw [if_pos (by omega)]
    by_cases hiN : i < N
    · rw [safestrcpyLoop, getAt_setAt _ _ _ hiN, if_pos (by omega)]
    · exact getAt_of_le _ (Nat.not_lt.1 hiN)
  | n + 2, k, s, i, h1, h2, hne => by
    have hend : k + 1 + (n + 1) = k + (n + 2) := by omega
    rw [safestrcpyLoop]
    by_cases hiN : i < N
    case neg => rw [getAt_of_le _ (Nat.not_lt.1 hiN), getAt_of_le _ (Nat.not_lt.1 hiN), ite_self]
    by_cases h0 : getAt t k = 0
    · -- a NUL at `k`: `i` can only be `k`
      have hik : i = k := by
        by_contra hik
        exact hne k (le_refl k) (by omega) h0
      subst hik
      rw [if_pos h0, getAt_setAt _ _ _ hiN, if_neg (by omega), getAt_setAt _ _ _ hiN, if_pos rfl,
        if_neg (show ¬ i + 1 = i + (n + 2) by omega)]
    · rw [if_neg h0]
      by_cases hik : i = k
      · subst hik
        rw [safestrcpyLoop_below t (n + 1) (i + 1) _ i (by omega), getAt_setAt _ _ _ hiN, if_pos rfl,
          if_neg (show ¬ i + 1 = i + (n + 2) by omega)]
      · have hlt : i < k + 1 + (n + 1) := by omega
        rw [safestrcpyLoop_get t (n + 1) (k + 1) _ i (by omega) hlt
          (fun j hj hj' => hne j (by omega) hj'), hend]

theorem getAt_val (a : Fin N → UInt8) (j : Fin N) : getAt a j.val = a j := by
  simp [getAt]

/-- `safestrcpy(s, t, N)` of a NUL-terminated `t` agrees with `t` up to its first NUL. -/
theorem safestrcpy_eq_upto_nul (s t : Fin N → UInt8) (hnul : ∃ k, t k = 0) (k : Fin N)
    (hk : ∀ j, j < k → t j ≠ 0) : safestrcpy s t N k = t k := by
  have hne : ∀ j, 0 ≤ j → j < k.val → getAt t j ≠ 0 := fun j _ hj => by
    rw [show j = (⟨j, by omega⟩ : Fin N).val from rfl, getAt_val]
    exact hk ⟨j, by omega⟩ hj
  have h := safestrcpyLoop_get t N 0 s k.val (Nat.zero_le _) (by omega) hne
  rw [getAt_val, getAt_val] at h
  rw [safestrcpy, h]
  split_ifs with hlast
  · -- the last byte: every byte before it is non-zero, so it is the NUL
    obtain ⟨j, hj⟩ := hnul
    have hjk : ¬ j < k := fun hlt => hk j hlt hj
    have : j = k := Fin.ext (by omega)
    rw [← this, hj]
  · rfl

end Strcpy

namespace Fork

open Vm

/-! ## The open files and the current directory -/

/-- One turn of the loop of `forkFiles`: the descriptor `fd` of `p`, if open, is shared with
`np`. -/
def dupFd (p np : Fin NPROC) (fd : Fin NOFILE) : FsM Unit := do
  if let some f := ((← get).proc p).ofile fd then
    Fs.filedup f
    Fs.modifyProc np fun pr => { pr with ofile := Function.update pr.ofile fd (some f) }

theorem forkFiles_eq (p np : Fin NPROC) : forkFiles p np = (do
    (List.finRange NOFILE).forM (dupFd p np)
    let cwd := ((← get).proc p).cwd
    Fs.idup cwd
    Fs.modifyProc np fun pr => { pr with cwd := cwd, alive := true }) := rfl

/-- The file system after the loop of `forkFiles` has shared the descriptors `done` of `p`
with `np`. -/
def shared (s : FsState) (p np : Fin NPROC) (done : List (Fin NOFILE)) : FsState :=
  { s with
    ftable := fun f => { s.ftable f with
      ref := (s.ftable f).ref + done.countP fun fd => (s.proc p).ofile fd = some f }
    proc := Function.update s.proc np { s.proc np with
      ofile := fun fd =>
        if fd ∈ done then ((s.proc p).ofile fd).or ((s.proc np).ofile fd) else (s.proc np).ofile fd } }

section Files

variable {s t : FsState} {p np : Fin NPROC}

theorem filedup_run {f : Fin NFILE} (h : 1 ≤ (t.ftable f).ref) :
    (Fs.filedup f).run t = .ok ((), { t with
      ftable := Function.update t.ftable f { t.ftable f with ref := (t.ftable f).ref + 1 } }) := by
  simp [Fs.filedup, Fs.modifyFile, Nat.one_le_iff_ne_zero.1 h]
  rfl

theorem dupFd_none {fd : Fin NOFILE} (hp : (t.proc p).ofile fd = none) :
    (dupFd p np fd).run t = .ok ((), t) := by
  simp [dupFd, hp]
  rfl

theorem dupFd_some {fd : Fin NOFILE} {f : Fin NFILE} (hp : (t.proc p).ofile fd = some f)
    (h : 1 ≤ (t.ftable f).ref) :
    (dupFd p np fd).run t = .ok ((), { t with
      ftable := Function.update t.ftable f { t.ftable f with ref := (t.ftable f).ref + 1 }
      proc := Function.update t.proc np
        { t.proc np with ofile := Function.update (t.proc np).ofile fd (some f) } }) := by
  simp [dupFd, hp, StateT.run_bind, filedup_run h, Fs.modifyProc]

/-- One descriptor more: `dupFd` takes `shared s p np done` to `shared s p np (done ++ [fd])`. -/
theorem dupFd_shared (hne : p ≠ np)
    (href : ∀ fd f, (s.proc p).ofile fd = some f → 1 ≤ (s.ftable f).ref)
    (done : List (Fin NOFILE)) (fd : Fin NOFILE) :
    (dupFd p np fd).run (shared s p np done) = .ok ((), shared s p np (done ++ [fd])) := by
  have hpp : (shared s p np done).proc p = s.proc p := Function.update_of_ne hne _ _
  cases hf : (s.proc p).ofile fd with
  | none =>
    rw [dupFd_none (by rw [hpp, hf])]
    -- nothing is shared: no count changes and the child's descriptor stays
    have hcount : ∀ f, (done ++ [fd]).countP (fun fd' => (s.proc p).ofile fd' = some f) =
        done.countP fun fd' => (s.proc p).ofile fd' = some f := fun f => by simp [hf]
    have hofile : ∀ fd', (if fd' ∈ done ++ [fd] then ((s.proc p).ofile fd').or ((s.proc np).ofile fd')
        else (s.proc np).ofile fd') =
        if fd' ∈ done then ((s.proc p).ofile fd').or ((s.proc np).ofile fd') else (s.proc np).ofile fd' := by
      intro fd'
      by_cases h : fd' = fd
      · subst h
        simp [hf]
      · simp [h]
    simp only [shared, hcount, hofile]
  | some f =>
    have hr : 1 ≤ ((shared s p np done).ftable f).ref :=
      le_trans (href fd f hf) (Nat.le_add_right _ _)
    rw [dupFd_some (by rw [hpp, hf]) hr]
    -- `f` is counted once more, and the child's descriptor `fd` is `f`
    have hft : Function.update (shared s p np done).ftable f
        { (shared s p np done).ftable f with ref := ((shared s p np done).ftable f).ref + 1 } =
        (shared s p np (done ++ [fd])).ftable := by
      funext f'
      by_cases h : f' = f
      · subst h
        simp [shared, hf, List.countP_append, Nat.add_assoc]
      · rw [Function.update_of_ne h]
        simp [shared, List.countP_append, hf, Ne.symm h]
    have hpr : Function.update (shared s p np done).proc np
        { (shared s p np done).proc np with
          ofile := Function.update ((shared s p np done).proc np).ofile fd (some f) } =
        (shared s p np (done ++ [fd])).proc := by
      funext q
      by_cases hq : q = np
      · subst hq
        simp only [shared, Function.update_self]
        congr 1
        funext fd'
        by_cases h : fd' = fd
        · subst h
          simp [hf]
        · simp [h]
      · simp [shared, Function.update_of_ne hq]
    rw [hft, hpr]
    rfl

/-- `forkFiles p np` never panics when every file `p` holds is open: `np` gets the
descriptors of `p` where `p` has one, the current directory of `p` and the mark of a live
process; each file's count goes up by the number of descriptors of `p` that name it and
the directory's inode count by one; nothing else changes. -/
theorem forkFiles_run (hne : p ≠ np)
    (href : ∀ fd f, (s.proc p).ofile fd = some f → 1 ≤ (s.ftable f).ref) :
    (forkFiles p np).run s = .ok ((), { s with
      ftable := fun f => { s.ftable f with
        ref := (s.ftable f).ref + (List.finRange NOFILE).countP fun fd => (s.proc p).ofile fd = some f }
      itable := Function.update s.itable (s.proc p).cwd
        { s.itable (s.proc p).cwd with ref := (s.itable (s.proc p).cwd).ref + 1 }
      proc := Function.update s.proc np { s.proc np with
        ofile := fun fd => ((s.proc p).ofile fd).or ((s.proc np).ofile fd)
        cwd := (s.proc p).cwd
        alive := true } }) := by
  -- the loop, one descriptor at a time
  obtain ⟨s1, hloop, rfl⟩ := StateExcept.run_forM_prefix (fun done t => t = shared s p np done)
    (List.finRange NOFILE) (fun done fd _ t _ ht => ⟨_, by rw [ht]; exact dupFd_shared hne href done fd, rfl⟩)
    (List.finRange NOFILE) [] s rfl (by simp [shared])
  rw [forkFiles_eq, StateT.run_bind, hloop, StateExcept.ok_bind]
  simp [Function.update_of_ne hne, Fs.idup, Fs.modifyInode, Fs.modifyProc, shared]
  rfl

end Files

end Fork

end Xv6
