import Xv6.Analysis.FsFrame
import Xv6.Lib.Count
import Mathlib.Data.Multiset.AddSub

/-!
# The ledger of open files

A `struct file` counts its references in `ref`: one for each descriptor of a process that
names it, and one for each the running code holds in hand (a file from `filealloc`, or
one taken out of a descriptor, not yet given to a descriptor nor closed). Two moments
break the equation the other way: `sys_dup` writes the descriptor before `filedup`
counts it, and `exit` closes a file before it clears the descriptor. `FileInv` names
both, `held` and `debt`, empty between system calls, as `Xv6.RefInv` does for the inode
table.

The pipes are matched with the open files. An open file on a pipe is one end of it: it
reads or writes, not both, and the pipe is live with that end open; each open end of a
live pipe is one open file; and a live pipe has an end open, so that it is freed when
the last of its files is closed. `PipeInv` says so over the ends of the open files and
the pipes. It is kept by the two changes that make or close an end, `pipealloc`'s new
pipe and `pipeclose`'s close of one end, and by every update of the files that keeps
their ends.
Source: kernel/file.c:28-83, kernel/pipe.c:22-74, kernel/sysfile.c:21-60
-/

set_option autoImplicit false

namespace Xv6

open Count

namespace Pipe

variable {α : Type}

/-- Whether end `w` is open: the write end when `w`, the read end otherwise. -/
def isOpen (pi : Pipe α) (w : Bool) : Bool :=
  if w then pi.writeopen else pi.readopen

@[simp] theorem isOpen_alloc (junk : Fin PIPESIZE → α) (w : Bool) :
    (alloc junk).isOpen w = true := by
  cases w <;> rfl

/-- `pipeclose` closes the end it is given and no other. -/
theorem isOpen_close (pi : Pipe α) (w w' : Bool) :
    (pi.close w).1.isOpen w' = (w' != w && pi.isOpen w') := by
  cases w <;> cases w' <;> simp [close, isOpen]

/-- `pipeclose` frees the pipe exactly when the other end is closed too. -/
theorem close_freed (pi : Pipe α) (w : Bool) : (pi.close w).2 = !pi.isOpen (!w) := by
  cases w <;> simp [close, isOpen]

end Pipe

/-- The end of a pipe that an open file is: the pipe's page, and whether the file reads
and writes. A closed file, or one that is not on a pipe, is no end. -/
def File.pipeEnd (ff : File) : Option (ℕ × Bool × Bool) :=
  if 0 < ff.ref ∧ ff.type = .pipe then some (ff.pipe, ff.readable, ff.writable) else none

theorem File.pipeEnd_of_not_pipe {ff : File} (h : ff.type ≠ .pipe) : ff.pipeEnd = none := by
  simp [pipeEnd, h]

/-! ## Pipes and their ends -/

section PipeInv

variable {ι α : Type} [DecidableEq ι]

/-- The live pipes matched with the ends that the open files are. -/
structure PipeInv (ends : ι → Option (ℕ × Bool × Bool)) (pipes : ℕ → Option (Pipe α)) :
    Prop where
  /-- An end reads or writes, not both, and its pipe is live with that end open. -/
  end_open : ∀ f pa r w, ends f = some (pa, r, w) →
    r = !w ∧ ∃ pi, pipes pa = some pi ∧ pi.isOpen w = true
  /-- Each open end of a live pipe is an open file. -/
  open_end : ∀ pa pi w, pipes pa = some pi → pi.isOpen w = true → ∃ f, ends f = some (pa, !w, w)
  /-- No two open files are one end. -/
  unique : ∀ f g pa r r' w, ends f = some (pa, r, w) → ends g = some (pa, r', w) → f = g
  /-- A live pipe has an end open. -/
  live : ∀ pa pi, pipes pa = some pi → ∃ w, pi.isOpen w = true

variable {ends : ι → Option (ℕ × Bool × Bool)} {pipes : ℕ → Option (Pipe α)}

namespace PipeInv

omit [DecidableEq ι] in
/-- No open file is an end of a page that is not a pipe. -/
theorem not_end_of_none (hv : PipeInv ends pipes) {pa : ℕ} (hpa : pipes pa = none) (f : ι)
    (r w : Bool) : ends f ≠ some (pa, r, w) := by
  intro hf
  obtain ⟨-, pi, hpi, -⟩ := hv.end_open f pa r w hf
  rw [hpa] at hpi
  cases hpi

omit [DecidableEq ι] in
/-- An end of a live pipe is open exactly when an open file is that end. -/
theorem isOpen_iff (hv : PipeInv ends pipes) {pa : ℕ} {pi : Pipe α} (hpi : pipes pa = some pi)
    (w : Bool) : pi.isOpen w = true ↔ ∃ f, ends f = some (pa, !w, w) := by
  refine ⟨hv.open_end pa pi w hpi, fun ⟨f, hf⟩ => ?_⟩
  obtain ⟨-, pi', hpi', hopen⟩ := hv.end_open f pa _ _ hf
  rw [hpi] at hpi'
  cases hpi'
  exact hopen

/-- `pipealloc`: a new pipe in a page that was none, its read end `f0` and its write end
`f1` two files that were no end. -/
theorem alloc (hv : PipeInv ends pipes) {pa : ℕ} (hpa : pipes pa = none) {f0 f1 : ι}
    (h01 : f0 ≠ f1) (h0 : ends f0 = none) (h1 : ends f1 = none) (junk : Fin PIPESIZE → α) :
    PipeInv (Function.update (Function.update ends f0 (some (pa, true, false))) f1
        (some (pa, false, true)))
      (Function.update pipes pa (some (Pipe.alloc junk))) := by
  set ends' := Function.update (Function.update ends f0 (some (pa, true, false))) f1
    (some (pa, false, true))
  -- an end at the new page is one of the two files, and any other end is as it was
  have hends : ∀ g pa' r w, ends' g = some (pa', r, w) →
      (pa' = pa ∧ r = !w ∧ g = if w then f1 else f0) ∨ (pa' ≠ pa ∧ ends g = some (pa', r, w)) := by
    intro g pa' r w hg
    by_cases hg1 : g = f1
    · subst hg1
      simp only [ends', Function.update_self, Option.some.injEq, Prod.mk.injEq] at hg
      obtain ⟨rfl, rfl, rfl⟩ := hg
      exact .inl ⟨rfl, rfl, rfl⟩
    by_cases hg0 : g = f0
    · subst hg0
      simp only [ends', Function.update_of_ne hg1, Function.update_self, Option.some.injEq,
        Prod.mk.injEq] at hg
      obtain ⟨rfl, rfl, rfl⟩ := hg
      exact .inl ⟨rfl, rfl, rfl⟩
    simp only [ends', Function.update_of_ne hg1, Function.update_of_ne hg0] at hg
    refine .inr ⟨?_, hg⟩
    rintro rfl
    exact hv.not_end_of_none hpa g r w hg
  have hend0 : ends' f0 = some (pa, true, false) := by
    simp [ends', Function.update_of_ne h01]
  have hend1 : ends' f1 = some (pa, false, true) := by
    simp [ends']
  refine ⟨fun g pa' r w hg => ?_, fun pa' pi w hpi hopen => ?_, fun g g' pa' r r' w hg hg' => ?_,
    fun pa' pi hpi => ?_⟩
  · -- end_open
    rcases hends g pa' r w hg with ⟨rfl, hr, -⟩ | ⟨hne, hg⟩
    · exact ⟨hr, _, Function.update_self _ _ _, Pipe.isOpen_alloc _ _⟩
    · obtain ⟨hr, pi, hpi, hopen⟩ := hv.end_open g pa' r w hg
      exact ⟨hr, pi, by rw [Function.update_of_ne hne]; exact hpi, hopen⟩
  · -- open_end
    by_cases hne : pa' = pa
    · subst hne
      cases w
      · exact ⟨f0, hend0⟩
      · exact ⟨f1, hend1⟩
    · rw [Function.update_of_ne hne] at hpi
      obtain ⟨g, hg⟩ := hv.open_end pa' pi w hpi hopen
      have hg0 : g ≠ f0 := fun h => by subst h; rw [h0] at hg; cases hg
      have hg1 : g ≠ f1 := fun h => by subst h; rw [h1] at hg; cases hg
      refine ⟨g, ?_⟩
      simp only [ends', Function.update_of_ne hg1, Function.update_of_ne hg0]
      exact hg
  · -- unique
    rcases hends g pa' r w hg with ⟨hpa', -, rfl⟩ | ⟨hne, hg⟩ <;>
      rcases hends g' pa' r' w hg' with ⟨hpa'', -, rfl⟩ | ⟨hne', hg'⟩
    · rfl
    · exact absurd hpa' hne'
    · exact absurd hpa'' hne
    · exact hv.unique g g' pa' r r' w hg hg'
  · -- live
    by_cases hne : pa' = pa
    · exact ⟨true, by subst hne; rw [Function.update_self] at hpi; cases hpi; rfl⟩
    · rw [Function.update_of_ne hne] at hpi
      exact hv.live pa' pi hpi

/-- `pipeclose`: the last reference to the file `f` at end `w` of the pipe at `pa` is
gone, and the pipe closes that end; it is freed when the other end was closed. -/
theorem close (hv : PipeInv ends pipes) {f : ι} {pa : ℕ} {r w : Bool}
    (hf : ends f = some (pa, r, w)) {pi : Pipe α} (hpi : pipes pa = some pi) :
    PipeInv (Function.update ends f none)
      (Function.update pipes pa (if (pi.close w).2 then none else some (pi.close w).1)) := by
  -- the other files are the ends they were, and none of them is `f`'s end
  have hends : ∀ g x, Function.update ends f none g = some x → g ≠ f ∧ ends g = some x := by
    intro g x hg
    by_cases hgf : g = f
    · subst hgf
      rw [Function.update_self] at hg
      cases hg
    · rw [Function.update_of_ne hgf] at hg
      exact ⟨hgf, hg⟩
  have hother : ∀ g r' w', g ≠ f → ends g = some (pa, r', w') → w' = !w := by
    intro g r' w' hgf hg
    cases w' <;> cases w
    all_goals first
      | rfl
      | exact absurd (hv.unique g f pa r' r _ hg hf) hgf
  refine ⟨fun g pa' r' w' hg => ?_, fun pa' pi' w' hpi' hopen => ?_,
    fun g g' pa' r' r'' w' hg hg' => ?_, fun pa' pi' hpi' => ?_⟩
  · -- end_open: an end left at `pa` is the other one, so the pipe stays
    obtain ⟨hgf, hg⟩ := hends g _ hg
    obtain ⟨hr, pi', hpi', hopen⟩ := hv.end_open g pa' r' w' hg
    by_cases hne : pa' = pa
    · subst hne
      rw [hpi] at hpi'
      cases hpi'
      have hw := hother g r' w' hgf hg
      subst hw
      have hkept : (pi.close w).2 = false := by
        rw [Pipe.close_freed, hopen]
        rfl
      refine ⟨hr, (pi.close w).1, by rw [Function.update_self, hkept]; rfl, ?_⟩
      rw [Pipe.isOpen_close, hopen]
      cases w <;> rfl
    · exact ⟨hr, pi', by rw [Function.update_of_ne hne]; exact hpi', hopen⟩
  · -- open_end: an end still open at `pa` is the other one, and its file is not `f`
    by_cases hne : pa' = pa
    · subst hne
      rw [Function.update_self] at hpi'
      split at hpi'
      · cases hpi'
      · cases hpi'
        rw [Pipe.isOpen_close, Bool.and_eq_true, bne_iff_ne] at hopen
        obtain ⟨g, hg⟩ := hv.open_end pa' pi w' hpi hopen.2
        have hgf : g ≠ f := fun h => by
          subst h
          rw [hf] at hg
          simp only [Option.some.injEq, Prod.mk.injEq] at hg
          exact hopen.1 hg.2.2.symm
        exact ⟨g, by rw [Function.update_of_ne hgf]; exact hg⟩
    · rw [Function.update_of_ne hne] at hpi'
      obtain ⟨g, hg⟩ := hv.open_end pa' pi' w' hpi' hopen
      have hgf : g ≠ f := fun h => by
        subst h
        rw [hf] at hg
        simp only [Option.some.injEq, Prod.mk.injEq] at hg
        exact hne hg.1.symm
      exact ⟨g, by rw [Function.update_of_ne hgf]; exact hg⟩
  · -- unique
    exact hv.unique g g' pa' r' r'' w' (hends g _ hg).2 (hends g' _ hg').2
  · -- live: a pipe that is not freed has its other end open
    by_cases hne : pa' = pa
    · subst hne
      rw [Function.update_self] at hpi'
      split at hpi'
      · cases hpi'
      · next hkept =>
        cases hpi'
        have hother : pi.isOpen (!w) = true := by
          rw [Pipe.close_freed] at hkept
          simpa using hkept
        refine ⟨!w, ?_⟩
        rw [Pipe.isOpen_close, hother]
        cases w <;> rfl
    · rw [Function.update_of_ne hne] at hpi'
      exact hv.live pa' pi' hpi'

end PipeInv

end PipeInv

/-! ## Descriptors -/

/-- The descriptors, over all processes, that name open file `f`. -/
def fdCount (proc : Fin NPROC → Proc) (f : Fin NFILE) : ℕ :=
  ∑ p, countWhere (· = some f) (proc p).ofile

/-- Writing process `p` changes the count by the descriptors it had and has. -/
theorem fdCount_update (proc : Fin NPROC → Proc) (p : Fin NPROC) (pr : Proc) (f : Fin NFILE) :
    fdCount (Function.update proc p pr) f + countWhere (· = some f) (proc p).ofile =
      fdCount proc f + countWhere (· = some f) pr.ofile :=
  sum_update (fun pr : Proc => countWhere (· = some f) pr.ofile) proc p pr

/-- A process whose descriptors stay as they were keeps the count. -/
theorem fdCount_update_of_ofile (proc : Fin NPROC → Proc) {p : Fin NPROC} {pr : Proc}
    (h : pr.ofile = (proc p).ofile) (f : Fin NFILE) :
    fdCount (Function.update proc p pr) f = fdCount proc f := by
  have := fdCount_update proc p pr f
  rw [h] at this
  omega

/-- Writing descriptor `fd` of process `p` changes the count by what it named and names. -/
theorem fdCount_setFd (proc : Fin NPROC → Proc) (p : Fin NPROC) (fd : Fin NOFILE)
    (x : Option (Fin NFILE)) (f : Fin NFILE) :
    fdCount (Function.update proc p { proc p with ofile := Function.update (proc p).ofile fd x }) f +
        (if (proc p).ofile fd = some f then 1 else 0) =
      fdCount proc f + (if x = some f then 1 else 0) := by
  have hp := fdCount_update proc p { proc p with ofile := Function.update (proc p).ofile fd x } f
  have hfd := countWhere_update (· = some f) (proc p).ofile fd x
  dsimp only at hp ⊢
  omega

/-- A descriptor that names `f` is counted. -/
theorem fdCount_pos {proc : Fin NPROC → Proc} {p : Fin NPROC} {fd : Fin NOFILE} {f : Fin NFILE}
    (h : (proc p).ofile fd = some f) : 0 < fdCount proc f := by
  have hp : 0 < countWhere (· = some f) (proc p).ofile := countWhere_pos (i := fd) h
  have hle : countWhere (· = some f) (proc p).ofile ≤ fdCount proc f :=
    Finset.single_le_sum (f := fun q => countWhere (· = some f) (proc q).ofile)
      (fun _ _ => Nat.zero_le _) (Finset.mem_univ p)
  omega

/-! ## References that move

A reference to a file moves out of the hand when the running code gives it to a
descriptor or closes it, and into the hand when a descriptor lets it go or the file
gets one more. Each move is one of two: the hand held it, or a debt is made or paid. -/

/-- One reference to `f` leaves the hand: it was held, or it is owed from now on. -/
structure OutOfHand (f : Fin NFILE) (h d h' d' : Multiset (Fin NFILE)) : Prop where
  count : h'.count f + d.count f + 1 = h.count f + d'.count f
  frame : ∀ g, g ≠ f → h'.count g = h.count g ∧ d'.count g = d.count g

/-- One reference to `f` comes into hand: it is held from now on, or it pays a debt. -/
structure IntoHand (f : Fin NFILE) (h d h' d' : Multiset (Fin NFILE)) : Prop where
  count : h'.count f + d.count f = h.count f + d'.count f + 1
  frame : ∀ g, g ≠ f → h'.count g = h.count g ∧ d'.count g = d.count g
  debt_le : d'.count f ≤ d.count f

theorem OutOfHand.held (f : Fin NFILE) (h d : Multiset (Fin NFILE)) : OutOfHand f (f ::ₘ h) d h d :=
  ⟨by rw [Multiset.count_cons_self]; omega,
    fun _ hg => ⟨(Multiset.count_cons_of_ne hg h).symm, rfl⟩⟩

theorem OutOfHand.debt (f : Fin NFILE) (h d : Multiset (Fin NFILE)) : OutOfHand f h d h (f ::ₘ d) :=
  ⟨by rw [Multiset.count_cons_self]; omega, fun _ hg => ⟨rfl, Multiset.count_cons_of_ne hg d⟩⟩

theorem IntoHand.held (f : Fin NFILE) (h d : Multiset (Fin NFILE)) : IntoHand f h d (f ::ₘ h) d :=
  ⟨by rw [Multiset.count_cons_self]; omega, fun _ hg => ⟨Multiset.count_cons_of_ne hg h, rfl⟩,
    le_rfl⟩

theorem IntoHand.debt (f : Fin NFILE) (h d : Multiset (Fin NFILE)) : IntoHand f h (f ::ₘ d) h d :=
  ⟨by rw [Multiset.count_cons_self]; omega,
    fun _ hg => ⟨rfl, (Multiset.count_cons_of_ne hg d).symm⟩,
    by rw [Multiset.count_cons_self]; omega⟩

/-! ## The ledger -/

/-- The ledger of open files, with the references `held` in hand and those of `debt`,
counted by a descriptor and not (yet, or any more) by the file. -/
structure FileInv (held debt : Multiset (Fin NFILE)) (s : FsState) : Prop where
  count : ∀ f, (s.ftable f).ref + debt.count f = fdCount s.proc f + held.count f
  debt_le : ∀ f, debt.count f ≤ fdCount s.proc f
  closed : ∀ f, (s.ftable f).ref = 0 → (s.ftable f).type = .none
  dead : ∀ p, (s.proc p).alive = false → ∀ fd, (s.proc p).ofile fd = none
  pipes : PipeInv (fun f => (s.ftable f).pipeEnd) s.pipes

namespace FileInv

variable {h d h' d' : Multiset (Fin NFILE)} {s s' : FsState}

/-- The ledger reads the open files, the processes and the pipes alone. -/
theorem of_outer (hv : FileInv h d s) (he : s'.outer = s.outer) : FileInv h d s' := by
  obtain ⟨hf, hp, hpi⟩ : s'.ftable = s.ftable ∧ s'.proc = s.proc ∧ s'.pipes = s.pipes := by
    simpa [FsState.outer] using he
  refine ⟨fun f => ?_, fun f => ?_, fun f => ?_, fun p => ?_, ?_⟩
  · rw [hf, hp]
    exact hv.count f
  · rw [hp]
    exact hv.debt_le f
  · rw [hf]
    exact hv.closed f
  · rw [hp]
    exact hv.dead p
  · rw [hf, hpi]
    exact hv.pipes

/-- A file in hand is open. -/
theorem ref_pos_of_held (hv : FileInv h d s) {f : Fin NFILE} (hf : f ∈ h) : 0 < (s.ftable f).ref := by
  have hc := hv.count f
  have hd := hv.debt_le f
  have hpos := Multiset.count_pos.2 hf
  omega

/-- Writing file `f` with its end kept: the new count of references is accounted for. -/
theorem setFile (hv : FileInv h d s) {f : Fin NFILE} {ff : File}
    (hcount : ff.ref + d'.count f = fdCount s.proc f + h'.count f)
    (hframe : ∀ g, g ≠ f → h'.count g = h.count g ∧ d'.count g = d.count g)
    (hdebt : d'.count f ≤ fdCount s.proc f) (hclosed : ff.ref = 0 → ff.type = .none) (hend : ff.pipeEnd = (s.ftable f).pipeEnd) :
    FileInv h' d' { s with ftable := Function.update s.ftable f ff } := by
  have hends : (fun g => (Function.update s.ftable f ff g).pipeEnd) = fun g => (s.ftable g).pipeEnd := by
    funext g
    by_cases hg : g = f
    · subst hg
      rw [Function.update_self, hend]
    · rw [Function.update_of_ne hg]
  refine ⟨fun g => ?_, fun g => ?_, fun g => ?_, hv.dead, ?_⟩
  all_goals dsimp only
  · by_cases hg : g = f
    · subst hg
      rw [Function.update_self]
      exact hcount
    · rw [Function.update_of_ne hg, (hframe g hg).1, (hframe g hg).2]
      exact hv.count g
  · by_cases hg : g = f
    · subst hg
      exact hdebt
    · rw [(hframe g hg).2]
      exact hv.debt_le g
  · by_cases hg : g = f
    · subst hg
      rw [Function.update_self]
      exact hclosed
    · rw [Function.update_of_ne hg]
      exact hv.closed g
  · rw [hends]
    exact hv.pipes

/-- Writing process `p`: the new descriptors are accounted for, and a process that is not
live has none. -/
theorem setProc (hv : FileInv h d s) {p : Fin NPROC} {pr : Proc}
    (hcount : ∀ f, (s.ftable f).ref + d'.count f = fdCount (Function.update s.proc p pr) f + h'.count f)
    (hdebt : ∀ f, d'.count f ≤ fdCount (Function.update s.proc p pr) f)
    (hdead : pr.alive = false → ∀ fd, pr.ofile fd = none) :
    FileInv h' d' { s with proc := Function.update s.proc p pr } := by
  refine ⟨hcount, hdebt, hv.closed, fun q hq => ?_, hv.pipes⟩
  dsimp only at hq ⊢
  by_cases hqp : q = p
  · subst hqp
    rw [Function.update_self] at hq ⊢
    exact hdead hq
  · rw [Function.update_of_ne hqp] at hq ⊢
    exact hv.dead q hq

/-! ### What the calls do to the ledger -/

/-- A new count of references, for an open file or for one opened on nothing. -/
theorem setRef (hv : FileInv h d s) {f : Fin NFILE} {r : ℕ}
    (hcount : r + d'.count f = fdCount s.proc f + h'.count f)
    (hframe : ∀ g, g ≠ f → h'.count g = h.count g ∧ d'.count g = d.count g)
    (hdebt : d'.count f ≤ fdCount s.proc f) (hr : 0 < r)
    (hend : (s.ftable f).type = .pipe → 0 < (s.ftable f).ref) :
    FileInv h' d' { s with ftable := Function.update s.ftable f { s.ftable f with ref := r } } := by
  refine hv.setFile hcount hframe hdebt (fun h0 => absurd h0 hr.ne') ?_
  by_cases ht : (s.ftable f).type = .pipe
  · simp [File.pipeEnd, ht, hr, hend ht]
  · simp [File.pipeEnd, ht]

/-- One reference more: `filealloc` and `filedup`. -/
theorem incRef (hv : FileInv h d s) {f : Fin NFILE} (hin : IntoHand f h d h' d')
    (hend : (s.ftable f).type = .pipe → 0 < (s.ftable f).ref) :
    FileInv h' d' { s with
      ftable := Function.update s.ftable f { s.ftable f with ref := (s.ftable f).ref + 1 } } := by
  have hc := hv.count f
  have hd := hv.debt_le f
  have hin' := hin.count
  have hle := hin.debt_le
  exact hv.setRef (by omega) hin.frame (by omega) (Nat.succ_pos _) hend

/-- One reference less, not the last: `fileclose` of a file still open elsewhere. -/
theorem decRef (hv : FileInv h d s) {f : Fin NFILE} (hout : OutOfHand f h d h' d')
    (hdebt : d'.count f ≤ fdCount s.proc f) (hmore : 0 < (s.ftable f).ref - 1) :
    FileInv h' d' { s with
      ftable := Function.update s.ftable f { s.ftable f with ref := (s.ftable f).ref - 1 } } := by
  have hc := hv.count f
  have hout' := hout.count
  have hcount : (s.ftable f).ref - 1 + d'.count f = fdCount s.proc f + h'.count f := by omega
  exact hv.setRef hcount hout.frame hdebt hmore fun _ => by omega

/-- The count of the last reference closed, with what it left: the file is closed. -/
theorem count_close (hv : FileInv h d s) {f : Fin NFILE} (hout : OutOfHand f h d h' d')
    (hpos : ¬(s.ftable f).ref < 1) (hlast : ¬0 < (s.ftable f).ref - 1) :
    0 + d'.count f = fdCount s.proc f + h'.count f := by
  have hc := hv.count f
  have hout' := hout.count
  omega

/-- The last reference of a file that is not on a pipe: `fileclose` closes it. -/
theorem closeFile (hv : FileInv h d s) {f : Fin NFILE} (hout : OutOfHand f h d h' d')
    (hdebt : d'.count f ≤ fdCount s.proc f) (hpos : ¬(s.ftable f).ref < 1)
    (hlast : ¬0 < (s.ftable f).ref - 1) (hnp : (s.ftable f).type ≠ .pipe) :
    FileInv h' d' { s with
      ftable := Function.update s.ftable f { s.ftable f with ref := 0, type := .none } } :=
  hv.setFile (hv.count_close hout hpos hlast) hout.frame hdebt (fun _ => rfl)
    (by rw [File.pipeEnd_of_not_pipe hnp]; rfl)

/-- The last reference of a file on a pipe: `fileclose` closes it, and `pipeclose` its end
of the pipe, which it frees when the other end is closed. -/
theorem closePipe (hv : FileInv h d s) {f : Fin NFILE} (hout : OutOfHand f h d h' d')
    (hdebt : d'.count f ≤ fdCount s.proc f) (hpos : ¬(s.ftable f).ref < 1)
    (hlast : ¬0 < (s.ftable f).ref - 1) (hpipe : (s.ftable f).type = .pipe) {pi : Pipe UInt8}
    (hpi : s.pipes (s.ftable f).pipe = some pi) :
    FileInv h' d' { s with
      ftable := Function.update s.ftable f { s.ftable f with ref := 0, type := .none }
      pipes := Function.update s.pipes (s.ftable f).pipe
        (if (pi.close (s.ftable f).writable).2 then none
          else some (pi.close (s.ftable f).writable).1) } := by
  have hend : (s.ftable f).pipeEnd =
      some ((s.ftable f).pipe, (s.ftable f).readable, (s.ftable f).writable) := by
    have hpos' : 0 < (s.ftable f).ref := by omega
    simp [File.pipeEnd, hpipe, hpos']
  -- the file is no end any more
  have hends : (fun g => (Function.update s.ftable f
      { s.ftable f with ref := 0, type := .none } g).pipeEnd) =
      Function.update (fun g => (s.ftable g).pipeEnd) f none := by
    funext g
    by_cases hg : g = f
    · subst hg
      simp [File.pipeEnd]
    · simp [Function.update_of_ne hg]
  have hcount := hv.count_close hout hpos hlast
  refine ⟨fun g => ?_, fun g => ?_, fun g => ?_, hv.dead, ?_⟩
  all_goals dsimp only
  · by_cases hg : g = f
    · subst hg
      rw [Function.update_self]
      exact hcount
    · rw [Function.update_of_ne hg, (hout.frame g hg).1, (hout.frame g hg).2]
      exact hv.count g
  · by_cases hg : g = f
    · subst hg
      exact hdebt
    · rw [(hout.frame g hg).2]
      exact hv.debt_le g
  · by_cases hg : g = f
    · subst hg
      intro _
      rw [Function.update_self]
    · rw [Function.update_of_ne hg]
      exact hv.closed g
  · rw [hends]
    exact hv.pipes.close hend hpi

/-- `pipealloc`: a new pipe in a page that is not one, with the two files it allocated,
`f0` now its read end and `f1` its write end, their counts kept. -/
theorem pipealloc (hv : FileInv h d s) {f0 f1 : Fin NFILE} (h01 : f0 ≠ f1)
    (hn0 : (s.ftable f0).pipeEnd = none) (hn1 : (s.ftable f1).pipeEnd = none) {pa : ℕ}
    (hpa : s.pipes pa = none) (junk : Fin PIPESIZE → UInt8) {ff0 ff1 : File}
    (he0 : ff0.pipeEnd = some (pa, true, false)) (he1 : ff1.pipeEnd = some (pa, false, true))
    (href0 : ff0.ref = (s.ftable f0).ref) (href1 : ff1.ref = (s.ftable f1).ref) :
    FileInv h d { s with
      ftable := Function.update (Function.update s.ftable f0 ff0) f1 ff1
      pipes := Function.update s.pipes pa (some (Pipe.alloc junk)) } := by
  have hfile : ∀ g, g ≠ f0 → g ≠ f1 →
      Function.update (Function.update s.ftable f0 ff0) f1 ff1 g = s.ftable g := fun g hg0 hg1 => by
    rw [Function.update_of_ne hg1, Function.update_of_ne hg0]
  -- the two files keep their counts; every other file is as it was
  have href : ∀ g, (Function.update (Function.update s.ftable f0 ff0) f1 ff1 g).ref =
      (s.ftable g).ref := by
    intro g
    by_cases hg1 : g = f1
    · subst hg1
      rw [Function.update_self, href1]
    by_cases hg0 : g = f0
    · subst hg0
      rw [Function.update_of_ne hg1, Function.update_self, href0]
    · rw [hfile g hg0 hg1]
  have hends : (fun g => (Function.update (Function.update s.ftable f0 ff0) f1 ff1 g).pipeEnd) =
      Function.update (Function.update (fun g => (s.ftable g).pipeEnd) f0 (some (pa, true, false)))
        f1 (some (pa, false, true)) := by
    funext g
    by_cases hg1 : g = f1
    · subst hg1
      simp only [Function.update_self, he1]
    by_cases hg0 : g = f0
    · subst hg0
      simp only [Function.update_of_ne hg1, Function.update_self, he0]
    · simp only [hfile g hg0 hg1, Function.update_of_ne hg1, Function.update_of_ne hg0]
  refine ⟨fun g => ?_, hv.debt_le, fun g hg => ?_, hv.dead, ?_⟩
  all_goals dsimp only
  · rw [href]
    exact hv.count g
  · rw [href] at hg
    by_cases hg1 : g = f1
    · subst hg1
      rw [Function.update_self]
      have : ff1.pipeEnd = none := by simp [File.pipeEnd, href1, hg]
      rw [he1] at this
      cases this
    by_cases hg0 : g = f0
    · subst hg0
      rw [Function.update_of_ne hg1, Function.update_self]
      have : ff0.pipeEnd = none := by simp [File.pipeEnd, href0, hg]
      rw [he0] at this
      cases this
    · rw [hfile g hg0 hg1]
      exact hv.closed g hg
  · rw [hends]
    exact hv.pipes.alloc hpa h01 hn0 hn1 junk

/-- `fdalloc`: a descriptor of a live process that named nothing now names `f`. -/
theorem setFd_some (hv : FileInv h d s) {p : Fin NPROC} {fd : Fin NOFILE} {f : Fin NFILE}
    (halive : (s.proc p).alive = true) (hnone : (s.proc p).ofile fd = none)
    (hout : OutOfHand f h d h' d') (hdebt : d'.count f ≤ fdCount s.proc f + 1) :
    FileInv h' d' { s with
      proc := Function.update s.proc p
        { s.proc p with ofile := Function.update (s.proc p).ofile fd (some f) } } := by
  have hfd := fdCount_setFd s.proc p fd (some f)
  dsimp only at hfd
  refine hv.setProc (fun g => ?_) (fun g => ?_) fun hdead => absurd hdead (by simp [halive])
  all_goals dsimp only
  · have hc := hv.count g
    have hg := hfd g
    rw [hnone] at hg
    by_cases hgf : g = f
    · subst hgf
      have hout' := hout.count
      simp only [reduceCtorEq, if_false, if_true] at hg
      omega
    · rw [(hout.frame g hgf).1, (hout.frame g hgf).2]
      simp only [reduceCtorEq, if_false, Option.some.injEq, Ne.symm hgf] at hg
      omega
  · have hg := hfd g
    rw [hnone] at hg
    by_cases hgf : g = f
    · subst hgf
      simp only [reduceCtorEq, if_false, if_true] at hg
      omega
    · rw [(hout.frame g hgf).2]
      have hd := hv.debt_le g
      simp only [reduceCtorEq, if_false, Option.some.injEq, Ne.symm hgf] at hg
      omega

/-- `sys_close`, `exit` and the failures of `sys_pipe`: a descriptor that named `f` is
cleared. -/
theorem setFd_none (hv : FileInv h d s) {p : Fin NPROC} {fd : Fin NOFILE} {f : Fin NFILE}
    (hsome : (s.proc p).ofile fd = some f) (hin : IntoHand f h d h' d')
    (hdebt : d'.count f < fdCount s.proc f) :
    FileInv h' d' { s with
      proc := Function.update s.proc p
        { s.proc p with ofile := Function.update (s.proc p).ofile fd none } } := by
  have hfd := fdCount_setFd s.proc p fd none
  dsimp only at hfd
  have halive : (s.proc p).alive = true := by
    by_contra hdead
    have := hv.dead p (by simpa using hdead) fd
    rw [hsome] at this
    cases this
  refine hv.setProc (fun g => ?_) (fun g => ?_) fun hdead => absurd hdead (by simp [halive])
  all_goals dsimp only
  · have hc := hv.count g
    have hg := hfd g
    rw [hsome] at hg
    by_cases hgf : g = f
    · subst hgf
      have hin' := hin.count
      simp only [reduceCtorEq, if_false, if_true] at hg
      omega
    · rw [(hin.frame g hgf).1, (hin.frame g hgf).2]
      simp only [reduceCtorEq, if_false, Option.some.injEq, Ne.symm hgf] at hg
      omega
  · have hg := hfd g
    rw [hsome] at hg
    by_cases hgf : g = f
    · subst hgf
      simp only [reduceCtorEq, if_false, if_true] at hg
      omega
    · rw [(hin.frame g hgf).2]
      have hd := hv.debt_le g
      simp only [reduceCtorEq, if_false, Option.some.injEq, Ne.symm hgf] at hg
      omega

/-- `fork`: a slot of no process becomes a live child with the descriptors of `pr`, whose
references were taken beforehand. -/
theorem forkProc {pr : Proc} (hv : FileInv (h + ↑((List.finRange NOFILE).filterMap pr.ofile)) d s)
    {np : Fin NPROC} (hdead : (s.proc np).alive = false) (halive : pr.alive = true) :
    FileInv h d { s with proc := Function.update s.proc np pr } := by
  -- the slot had no descriptors, so the count grows by those of `pr`
  have hnp : ∀ f, countWhere (· = some f) (s.proc np).ofile = 0 := fun f =>
    countWhere_eq_zero.2 fun fd => by rw [hv.dead np hdead fd]; simp
  have hcount : ∀ f, fdCount (Function.update s.proc np pr) f =
      fdCount s.proc f + countWhere (· = some f) pr.ofile := fun f => by
    have := fdCount_update s.proc np pr f
    rw [hnp f] at this
    omega
  refine hv.setProc (fun f => ?_) (fun f => ?_) fun h0 => absurd halive (by simp [h0])
  · have hc := hv.count f
    rw [Multiset.count_add, Multiset.coe_count, count_filterMap_finRange] at hc
    rw [hcount]
    omega
  · rw [hcount]
    exact le_trans (hv.debt_le f) (Nat.le_add_right _ _)

/-- A change of a process that keeps its descriptors, and keeps it live or leaves it with
none: `chdir`'s new directory, and the end of `exit`. -/
theorem setProc_ofile (hv : FileInv h d s) {p : Fin NPROC} {pr : Proc}
    (hofile : pr.ofile = (s.proc p).ofile) (hdead : pr.alive = false → ∀ fd, pr.ofile fd = none) :
    FileInv h d { s with proc := Function.update s.proc p pr } := by
  refine hv.setProc (fun f => ?_) (fun f => ?_) hdead
  · rw [fdCount_update_of_ofile s.proc hofile]
    exact hv.count f
  · rw [fdCount_update_of_ofile s.proc hofile]
    exact hv.debt_le f

end FileInv

end Xv6
