import Xv6.Analysis.FileRefs.Inv

/-!
# The open-file layer keeps its ledger

The specifications of `file.c`, of `pipealloc` and of the descriptor helpers of
`sysfile.c` over `FileInv` while a live process runs: `filealloc` and `filedup` take a
reference, `fileclose` drops one (and with the last one closes the file's end of its
pipe), `fdalloc` gives one to a descriptor, and `pipealloc` makes a pipe with its two
ends in hand. None of their runs stops on a freed pipe: the only code that could,
`pipeclose`, is reached from the last reference of an open file on a pipe, and the
ledger says that pipe is live.
Source: kernel/file.c:28-83, kernel/pipe.c:22-52, kernel/kalloc.c:64-82,
kernel/sysfile.c:21-60
-/

set_option autoImplicit false

namespace Xv6

open StateExcept Fs

/-- A specification of the open-file layer: its runs from `P` end in `Q` or fail, and none
stops on a freed pipe. -/
abbrev FSpec {α : Type} (P : FsState → Prop) (x : FsM α) (Q : α → FsState → Prop) : Prop :=
  Spec P x Q (· ≠ "pipeclose: freed pipe")

/-- The ledger of open files while process `p` makes a system call. -/
def Running (p : Fin NPROC) (h d : Multiset (Fin NFILE)) (s : FsState) : Prop :=
  FileInv h d s ∧ (s.proc p).alive = true

variable {p : Fin NPROC} {h d h' d' : Multiset (Fin NFILE)}

theorem Running.of_outer {s s' : FsState} (hs : Running p h d s) (he : s'.outer = s.outer) :
    Running p h d s' := by
  have hp : s'.proc = s.proc := by
    simpa [FsState.outer] using congrArg (fun o => o.2.1) he
  exact ⟨hs.1.of_outer he, by rw [hp]; exact hs.2⟩

/-- Code of the inode layer keeps the ledger. -/
theorem fspec_of_inner {α : Type} {x : FsM α} (hx : Inner x) :
    FSpec (Running p h d) x fun _ => Running p h d :=
  Spec.of_confined hx fun _ _ he hs => hs.of_outer he

/-- Code of the inode layer keeps the processes. -/
theorem keepsProc_of_inner {α : Type} {x : FsM α} (hx : Inner x) :
    Keeps FsState.proc (fun _ => True) x :=
  hx.keeps.comp fun o => o.2.1

/-! ## Taking and dropping references -/

/-- What `filealloc` leaves: nothing new, or a file of the running code with one
reference, open on nothing, that it did not hold. -/
def AllocFile (p : Fin NPROC) (h d : Multiset (Fin NFILE)) : Option (Fin NFILE) → FsState → Prop
  | none => Running p h d
  | some f => fun s => Running p (f ::ₘ h) d s ∧ (s.ftable f).type = .none ∧ f ∉ h

theorem filealloc_fspec : FSpec (Running p h d) filealloc (AllocFile p h d) := by
  unfold filealloc
  refine Spec.get_bind fun s₀ => ?_
  split
  · exact Spec.pure fun _ hs => hs.1
  · next f hfind =>
    have h0 : (s₀.ftable f).ref = 0 := by
      have := List.find?_some hfind
      simpa using this
    refine Spec.bind (R := fun _ => AllocFile p h d (some f)) (Spec.modify fun s hs => ?_)
      fun _ => Spec.pure fun _ hs => hs
    obtain ⟨⟨hv, halive⟩, rfl⟩ := hs
    have hnone := hv.closed f h0
    have hc := hv.count f
    -- the file was closed, so the running code did not hold it
    have hnot : f ∉ h := fun hf => by
      have := hv.ref_pos_of_held hf
      omega
    have hcount : 1 + d.count f = fdCount s.proc f + (f ::ₘ h).count f := by
      rw [Multiset.count_cons_self]
      omega
    refine ⟨⟨hv.setRef hcount (IntoHand.held f h d).frame (hv.debt_le f) Nat.one_pos
      fun ht => absurd ht (by rw [hnone]; decide), halive⟩, ?_, hnot⟩
    simpa using hnone

/-- `filealloc` leaves every open file as it was. -/
theorem filealloc_keeps (g : Fin NFILE) (ff : File) :
    Triple (fun s => s.ftable g = ff ∧ 0 < ff.ref) filealloc fun _ s => s.ftable g = ff ∧ 0 < ff.ref := by
  unfold filealloc
  refine Triple.get_bind fun s₀ => ?_
  split
  · exact Triple.pure fun _ hs => hs.1
  · next f hfind =>
    have h0 : (s₀.ftable f).ref = 0 := by
      have := List.find?_some hfind
      simpa using this
    refine Triple.bind (R := fun _ s => s.ftable g = ff ∧ 0 < ff.ref) (Triple.modify fun s hs => ?_)
      fun _ => Triple.pure fun _ hs => hs
    obtain ⟨⟨hg, hpos⟩, rfl⟩ := hs
    have hgf : g ≠ f := fun h => by
      subst h
      rw [hg] at h0
      omega
    refine ⟨?_, hpos⟩
    dsimp only
    rw [Function.update_of_ne hgf]
    exact hg

theorem filedup_fspec (f : Fin NFILE) (hin : IntoHand f h d h' d') :
    FSpec (Running p h d) (filedup f) fun _ => Running p h' d' := by
  unfold filedup
  refine Spec.get_bind fun _ => Spec.ite_throw (by decide) fun hpos => Spec.modify fun s hs => ?_
  obtain ⟨⟨hv, halive⟩, rfl⟩ := hs
  exact ⟨hv.incRef hin fun _ => by omega, halive⟩

/-- `filedup` leaves the processes as they were. -/
theorem keepsProc_filedup (f : Fin NFILE) : Keeps FsState.proc (fun _ => True) (filedup f) := by
  unfold filedup modifyFile
  refine Keeps.get_bind fun _ => Keeps.ite_throw ?_
  exact Keeps.modify fun _ _ => rfl

/-- `fileclose`: one reference to `f` leaves the hand. The last one closes the file, and its
end of a pipe; the pipe is live, since the file was open on it. -/
theorem fileclose_fspec (f : Fin NFILE) (hout : OutOfHand f h d h' d') :
    FSpec (fun s => Running p h d s ∧ d'.count f ≤ fdCount s.proc f) (fileclose f)
      fun _ => Running p h' d' := by
  unfold fileclose
  refine Spec.get_bind_of fun s₀ ⟨⟨hv, halive⟩, hdebt⟩ => ?_
  dsimp only
  refine Spec.ite_throw (by decide) fun hpos => ?_
  refine Spec.ite (fun hmore => Spec.modify fun s hs => ?_) fun hlast => ?_
  · -- still open elsewhere
    subst hs
    exact ⟨hv.decRef hout hdebt hmore, halive⟩
  by_cases hpipe : (s₀.ftable f).type = .pipe
  · -- the last reference to an end of a pipe: `pipeclose` finds the pipe live
    have hend : (s₀.ftable f).pipeEnd =
        some ((s₀.ftable f).pipe, (s₀.ftable f).readable, (s₀.ftable f).writable) := by
      have hpos' : 0 < (s₀.ftable f).ref := by omega
      simp [File.pipeEnd, hpipe, hpos']
    obtain ⟨-, pi, hpi, -⟩ := hv.pipes.end_open f _ _ _ hend
    refine Spec.bind (R := fun _ s => s = { s₀ with
        ftable := Function.update s₀.ftable f { s₀.ftable f with ref := 0, type := .none } })
      (Spec.modify fun s hs => by rw [hs]) fun _ =>
        Spec.ite (fun _ => ?_) fun hn => absurd hpipe hn
    unfold pipeclose
    refine Spec.get_bind_of fun s₁ hs₁ => ?_
    subst hs₁
    dsimp only
    rw [hpi]
    dsimp only
    refine Spec.modify fun s hs => ?_
    subst hs
    exact ⟨hv.closePipe hout hdebt hpos hlast hpipe hpi, halive⟩
  · -- a file on nothing, on an inode or on a device: the inode goes in a transaction
    refine Spec.bind (R := fun _ => Running p h' d') (Spec.modify fun s hs => ?_) fun _ =>
      Spec.ite (fun hp => absurd hp hpipe) fun _ =>
        Spec.ite (fun _ => ?_) fun _ => Spec.pure fun _ hs => hs
    · subst hs
      exact ⟨hv.closeFile hout hdebt hpos hlast hpipe, halive⟩
    · exact (fspec_of_inner inner_beginOp).bind fun _ => (fspec_of_inner (inner_iput _)).bind
        fun _ => fspec_of_inner inner_endOp

/-- `fileclose` leaves the processes as they were. -/
theorem keepsProc_fileclose (f : Fin NFILE) : Keeps FsState.proc (fun _ => True) (fileclose f) := by
  unfold fileclose
  refine Keeps.get_bind fun s₀ => ?_
  dsimp only
  refine Keeps.ite_throw (Keeps.ite (fun _ => Keeps.modify fun _ _ => rfl) fun _ => ?_)
  refine Keeps.bind (Keeps.modify fun _ _ => rfl) fun _ => ?_
  refine Keeps.ite (fun _ => ?_) fun _ => ?_
  rotate_left
  · exact Keeps.ite (fun _ => (keepsProc_of_inner inner_beginOp).bind fun _ =>
      (keepsProc_of_inner (inner_iput _)).bind fun _ => keepsProc_of_inner inner_endOp)
      fun _ => Keeps.pure
  unfold pipeclose
  refine Keeps.get_bind fun _ => ?_
  split
  · exact Keeps.throw
  · exact Keeps.modify fun _ _ => rfl

/-- A change of an open file that keeps its count and its end: `filewrite`'s offset. -/
theorem modifyFile_keep_fspec (f : Fin NFILE) (g : File → File)
    (hg : ∀ ff, (g ff).ref = ff.ref ∧ (g ff).type = ff.type ∧ (g ff).pipeEnd = ff.pipeEnd) :
    FSpec (Running p h d) (modifyFile f g) fun _ => Running p h d := by
  refine Spec.modify fun s ⟨hv, halive⟩ => ⟨?_, halive⟩
  obtain ⟨href, htype, hend⟩ := hg (s.ftable f)
  refine hv.setFile (by rw [href]; exact hv.count f) (fun _ _ => ⟨rfl, rfl⟩) (hv.debt_le f)
    (fun h0 => ?_) hend
  rw [htype]
  exact hv.closed f (by rw [← href]; exact h0)

/-- A change of an open file that is and stays off the pipes, keeping its count:
`openInode`'s setting up of the file. -/
theorem modifyFile_off_pipe_fspec (f : Fin NFILE) (g : File → File)
    (hg : ∀ ff, ff.type ≠ .pipe → (g ff).ref = ff.ref ∧ (g ff).type ≠ .pipe) :
    FSpec (fun s => Running p h d s ∧ (s.ftable f).type ≠ .pipe ∧ 0 < (s.ftable f).ref)
      (modifyFile f g) fun _ s => Running p h d s ∧ (s.ftable f).type ≠ .pipe ∧ 0 < (s.ftable f).ref := by
  refine Spec.modify fun s ⟨⟨hv, halive⟩, hnp, hpos⟩ => ?_
  obtain ⟨href, hnp'⟩ := hg (s.ftable f) hnp
  refine ⟨⟨hv.setFile (by rw [href]; exact hv.count f) (fun _ _ => ⟨rfl, rfl⟩) (hv.debt_le f)
    (fun h0 => absurd h0 (by omega)) ?_, halive⟩, ?_, ?_⟩
  · rw [File.pipeEnd_of_not_pipe hnp, File.pipeEnd_of_not_pipe hnp']
  · simpa using hnp'
  · simpa [href] using hpos

/-! ## Descriptors -/

/-- What `fdalloc` leaves: no descriptor, or a descriptor of `p` that names `f`. -/
def FdRef (p : Fin NPROC) (f : Fin NFILE) (h d h' d' : Multiset (Fin NFILE)) :
    Option (Fin NOFILE) → FsState → Prop
  | none => Running p h d
  | some fd => fun s => Running p h' d' s ∧ (s.proc p).ofile fd = some f

/-- `fdalloc`: a reference to `f` leaves the hand for a new descriptor, if one is free. -/
theorem fdalloc_fspec (f : Fin NFILE) (hout : OutOfHand f h d h' d') :
    FSpec (fun s => Running p h d s ∧ d'.count f ≤ fdCount s.proc f + 1) (fdalloc p f)
      (FdRef p f h d h' d') := by
  unfold fdalloc
  refine Spec.get_bind fun s₀ => ?_
  split
  · exact Spec.pure fun _ hs => hs.1.1
  · next fd hfind =>
    have hnone : (s₀.proc p).ofile fd = none := by
      have := List.find?_some hfind
      simpa using this
    refine Spec.bind (R := fun _ => FdRef p f h d h' d' (some fd)) (Spec.modify fun s hs => ?_)
      fun _ => Spec.pure fun _ hs => hs
    obtain ⟨⟨⟨hv, halive⟩, hdebt⟩, rfl⟩ := hs
    refine ⟨⟨hv.setFd_some halive hnone hout hdebt, by simpa using halive⟩, by simp⟩

/-- `fdalloc` leaves every descriptor that names a file as it was. -/
theorem fdalloc_keeps (f : Fin NFILE) (q : Fin NPROC) (fd' : Fin NOFILE) (g : Fin NFILE) :
    Triple (fun s => (s.proc q).ofile fd' = some g) (fdalloc p f)
      fun _ s => (s.proc q).ofile fd' = some g := by
  unfold fdalloc
  refine Triple.get_bind fun s₀ => ?_
  split
  · exact Triple.pure fun _ hs => hs.1
  · next fd hfind =>
    have hnone : (s₀.proc p).ofile fd = none := by
      have := List.find?_some hfind
      simpa using this
    refine Triple.bind (R := fun _ s => (s.proc q).ofile fd' = some g) (Triple.modify fun s hs => ?_)
      fun _ => Triple.pure fun _ hs => hs
    obtain ⟨hs, rfl⟩ := hs
    by_cases hqp : q = p
    · subst hqp
      have hne : fd' ≠ fd := fun h => by
        subst h
        rw [hs] at hnone
        cases hnone
      simp [Function.update_of_ne hne, hs]
    · simp [Function.update_of_ne hqp, hs]

/-- `fdalloc` leaves the open files as they were. -/
theorem keepsFtable_fdalloc (f : Fin NFILE) : Keeps FsState.ftable (fun _ => True) (fdalloc p f) := by
  unfold fdalloc modifyProc
  refine Keeps.get_bind fun _ => ?_
  split
  · exact Keeps.pure
  · refine Keeps.bind (Keeps.modify fun _ _ => rfl) fun _ => Keeps.pure

/-- `argfd`: the descriptor and the file it names, if it is open. -/
theorem argfd_fspec (fd : ℕ) :
    FSpec (Running p h d) (argfd p fd) fun r s =>
      Running p h d s ∧ ∀ fd' f, r = some (fd', f) → (s.proc p).ofile fd' = some f := by
  unfold argfd
  split
  · refine Spec.get_bind fun s₀ => Spec.pure fun s hs => ⟨hs.1, fun fd' f hr => ?_⟩
    obtain ⟨-, rfl⟩ := hs
    obtain ⟨g, hg, hgf⟩ := Option.map_eq_some_iff.1 hr
    simp only [Prod.mk.injEq] at hgf
    obtain ⟨rfl, rfl⟩ := hgf
    exact hg
  · exact Spec.pure fun _ hs => ⟨hs, fun _ _ h => by cases h⟩

/-! ## Pipes -/

/-- `kalloc` for a pipe reads the state: the page it gives is not a pipe. -/
theorem kalloc_fspec (page : Option ℕ) {P : FsState → Prop} :
    FSpec P (kalloc page) fun r s => P s ∧ ∀ pa, r = some pa → s.pipes pa = none := by
  unfold kalloc
  split
  · exact Spec.pure fun _ hs => ⟨hs, fun _ h => by cases h⟩
  · next pa =>
    refine Spec.get_bind fun s₀ => Spec.pure fun s hs => ⟨hs.1, fun pa' hr => ?_⟩
    obtain ⟨-, rfl⟩ := hs
    split at hr
    · next hc =>
      cases hr
      simpa using hc.2
    · cases hr

/-- What `pipealloc` leaves: nothing new, or the two ends of a new pipe in hand. -/
def PipeRef (p : Fin NPROC) (h d : Multiset (Fin NFILE)) :
    Option (Fin NFILE × Fin NFILE) → FsState → Prop
  | none => Running p h d
  | some (rf, wf) => fun s => Running p (wf ::ₘ rf ::ₘ h) d s ∧ rf ≠ wf

theorem pipealloc_fspec (page : Option ℕ) :
    FSpec (Running p h d) (pipealloc page) (PipeRef p h d) := by
  unfold pipealloc
  refine filealloc_fspec.bind fun r0 => ?_
  rcases r0 with _ | f0
  · -- no file: nothing is allocated, and nothing closed
    simp only [Option.isSome_none, Bool.false_eq_true, if_false, false_and, pure_bind]
    exact Spec.pure fun _ hs => hs
  simp only [Option.isSome_some, if_true, true_and]
  refine Spec.of_pinned fun s₀ ⟨hrun0, ht0, hnot0⟩ => ?_
  have hpos0 : 0 < (s₀.ftable f0).ref := hrun0.1.ref_pos_of_held (Multiset.mem_cons_self _ _)
  -- the first file stays as it is while the second is allocated
  refine Spec.bind (((filealloc_fspec (p := p) (h := f0 ::ₘ h) (d := d)).and
    (filealloc_keeps f0 (s₀.ftable f0))).mono (fun s hs => ?_) fun _ _ hs => hs) fun r1 => ?_
  · subst hs
    exact ⟨hrun0, rfl, hpos0⟩
  rcases r1 with _ | f1
  · -- no second file: the first is closed
    simp only [Option.isSome_none, Bool.false_eq_true, if_false, pure_bind]
    refine ((fileclose_fspec f0 (OutOfHand.held f0 h d)).mono (fun s hs => ⟨hs.1, ?_⟩)
      fun _ _ hs => hs).bind fun _ => Spec.pure fun _ hs => hs
    exact hs.1.1.debt_le f0
  simp only [Option.isSome_some, if_true]
  refine (kalloc_fspec page).bind fun r2 => ?_
  rcases r2 with _ | pa
  · -- no page: both files are closed
    dsimp only
    refine Spec.bind (R := fun _ => Running p (f1 ::ₘ h) d)
      ((fileclose_fspec f0 (OutOfHand.held f0 (f1 ::ₘ h) d)).mono (fun s hs => ⟨?_, ?_⟩)
        fun _ _ hs => hs) fun _ => ?_
    · rw [Multiset.cons_swap]
      exact hs.1.1.1
    · exact hs.1.1.1.1.debt_le f0
    refine ((fileclose_fspec f1 (OutOfHand.held f1 h d)).mono (fun s hs => ⟨hs, ?_⟩)
      fun _ _ hs => hs).bind fun _ => Spec.pure fun _ hs => hs
    exact hs.1.debt_le f1
  -- a page: the pipe, then its two ends
  dsimp only
  refine Spec.of_pinned fun s₁ ⟨⟨⟨⟨hv1, halive1⟩, ht1, hnot1⟩, hf0, _⟩, hpa⟩ => ?_
  have h01 : f0 ≠ f1 := fun h => hnot1 (h ▸ Multiset.mem_cons_self _ _)
  have hn0 : (s₁.ftable f0).pipeEnd = none := File.pipeEnd_of_not_pipe (by rw [hf0, ht0]; decide)
  have hn1 : (s₁.ftable f1).pipeEnd = none := File.pipeEnd_of_not_pipe (by rw [ht1]; decide)
  have hr0 : 0 < (s₁.ftable f0).ref := by rw [hf0]; exact hpos0
  have hr1 : 0 < (s₁.ftable f1).ref := hv1.ref_pos_of_held (Multiset.mem_cons_self _ _)
  refine Spec.bind (R := fun _ s => s = { s₁ with
      pipes := Function.update s₁.pipes pa (some (Pipe.alloc fun _ => 5)) })
    (Spec.modify fun s hs => by rw [hs]) fun _ => Spec.of_pinned fun s₂ hs₂ => ?_
  refine Spec.bind (R := fun _ s => s = { s₂ with
      ftable := Function.update s₂.ftable f0
        { s₂.ftable f0 with type := .pipe, readable := true, writable := false, pipe := pa } })
    (Spec.modify fun s hs => by rw [hs]) fun _ => ?_
  refine Spec.bind (R := fun _ => PipeRef p h d (some (f0, f1))) (Spec.modify fun s hs => ?_)
    fun _ => Spec.pure fun _ hs => hs
  subst hs hs₂
  refine ⟨⟨hv1.pipealloc h01 hn0 hn1 (hpa pa rfl) _ ?_ ?_ rfl ?_, halive1⟩, h01⟩
  · simp [File.pipeEnd, hr0]
  · simp [File.pipeEnd, Function.update_of_ne (Ne.symm h01), hr1]
  · simp [Function.update_of_ne (Ne.symm h01)]

end Xv6
