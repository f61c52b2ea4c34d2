import Xv6.Model.Log
import Xv6.Lib.Reach

/-!
# The log as a concurrent system with crashes

`kernel/log.c` as a machine: the disk, the in-memory `struct log`, the buffer cache's
view of each block, and where every process is in the protocol. One step is one
lock-delimited piece of the code or one `bwrite`:

* `begin_op`, the bookkeeping of `log_write` and the first half of `end_op` each run
  under `log.lock`, so each is one step; a `sleep` in `begin_op` is a step that does
  not run, and the loop's retest after `wakeup` is the same step taken later;
* `commit()` runs without the lock, one `bwrite` per step: the `write_log` loop, the
  header write that is the commit point, the `install_trans(0)` loop, the header write
  that clears the log, and the end of `end_op` that clears `committing`;
* `recover_from_log` at boot is one `bwrite` per step as well;
* a crash can come between any two steps: memory is lost, the disk keeps every
  completed `bwrite`, and the next boot reads the header again.

`committed` is not kernel state: it records, at each commit point, the blocks of the
header and the contents the file system had given them (`cache`), so that what a
transaction was is available to the statements about crashes.
-/

set_option autoImplicit false

namespace Xv6

open TransitionSystem

/-- Where `commit()` is, for the process that runs it. -/
inductive CommitPc where
  | writeLog (tail : ℕ)
  | writeHead
  | install (tail : ℕ)
  | clearHead
  | finish
  deriving DecidableEq, Repr

/-- Where boot is: `recover_from_log` installing entry `tail`, its header write, or the
file system running. -/
inductive Boot where
  | recovering (tail : ℕ)
  | clearing
  | running
  deriving DecidableEq, Repr

/-- A process's place in the log protocol: outside any FS operation; between
`begin_op` and `end_op`, having passed the blocks `logged` to `log_write`; or in the
`commit()` its `end_op` started. -/
inductive OpState where
  | idle
  | active (logged : List ℕ)
  | committing
  deriving DecidableEq, Repr

/-- Whether the process is between `begin_op` and `end_op`. -/
def OpState.isActive : OpState → Bool
  | .active _ => true
  | _ => false

@[simp] theorem OpState.isActive_idle : OpState.idle.isActive = false := rfl
@[simp] theorem OpState.isActive_active (ws : List ℕ) : (OpState.active ws).isActive = true := rfl
@[simp] theorem OpState.isActive_committing : OpState.committing.isActive = false := rfl

/-- The state of the log system; `committed` is the record described above. -/
structure LogSys (ι β : Type) where
  disk : ℕ → β
  log : Log
  cache : ℕ → β
  proc : ι → OpState
  boot : Boot
  pc : CommitPc
  committed : List (List (ℕ × β))

/-- The steps: by a process, or by the machine (recovery at boot, a crash). In
`logWrite p b v` the process has set the buffer of block `b` to `v` and calls
`log_write` on it. -/
inductive LogAct (ι β : Type) where
  | beginOp (p : ι)
  | logWrite (p : ι) (b : ℕ) (v : β)
  | endOp (p : ι)
  | commitStep (p : ι)
  | recoverStep
  | crash

namespace LogSys

variable {ι β : Type} [DecidableEq ι]

/-- Power-on, and every boot after a crash: `initlog` takes the log geometry from the
superblock and `read_head` reads the header from the disk; the buffer cache is empty,
so `bread` returns the disk; no process is in an FS operation. -/
def reboot (hl : HeaderLayout β) (start size : ℕ) (d : ℕ → β) (committed : List (List (ℕ × β))) :
    LogSys ι β where
  disk := d
  log := { start, size, outstanding := 0, committing := false, lh := hl.get (d start) }
  cache := d
  proc := fun _ => .idle
  boot := .recovering 0
  pc := .finish
  committed := committed

/-- `begin_op` by `p`, once the file system runs. -/
def beginOpStep (s : LogSys ι β) (p : ι) : Outcome (LogSys ι β) :=
  if s.boot = .running ∧ s.proc p = .idle then
    match s.log.beginOp with
    | some log => .next { s with log, proc := Function.update s.proc p (.active []) }
    | none => .blocked
  else .blocked

/-- `log_write(b)` by `p` inside its operation, after setting the buffer to `v`. -/
def logWriteStep (s : LogSys ι β) (p : ι) (b : ℕ) (v : β) : Outcome (LogSys ι β) :=
  match s.proc p with
  | .active ws =>
    match s.log.logWrite b with
    | .ok log =>
      .next { s with log, cache := Function.update s.cache b v,
                     proc := Function.update s.proc p (.active (ws ++ [b])) }
    | .error msg => .panic msg
  | _ => .blocked

/-- The first half of `end_op` by `p`. The call that commits goes on into `commit()`,
whose test `log.lh.n > 0` is made here: no operation is admitted while `committing`
is set, so the header cannot change in between. -/
def endOpStep (s : LogSys ι β) (p : ι) : Outcome (LogSys ι β) :=
  match s.proc p with
  | .active _ =>
    match s.log.endOp with
    | .ok (log, true) =>
      .next { s with log, proc := Function.update s.proc p .committing,
                     pc := if 0 < log.lh.length then .writeLog 0 else .finish }
    | .ok (log, false) => .next { s with log, proc := Function.update s.proc p .idle }
    | .error msg => .panic msg
  | _ => .blocked

/-- One step of `commit()`, and of the end of `end_op`, by the committing process `p`. -/
def commitNext (hl : HeaderLayout β) (s : LogSys ι β) (p : ι) : LogSys ι β :=
  match s.pc with
  | .writeLog tail =>
    if tail < s.log.lh.length then
      { s with disk := writeLogBlock s.log s.cache tail s.disk, pc := .writeLog (tail + 1) }
    else { s with pc := .writeHead }
  | .writeHead =>
    { s with disk := writeHeadBlock hl s.log s.disk, pc := .install 0,
             committed := s.committed ++ [s.log.lh.map fun b => (b, s.cache b)] }
  | .install tail =>
    if tail < s.log.lh.length then
      { s with disk := installBlock s.log tail s.disk, pc := .install (tail + 1) }
    else { s with log := { s.log with lh := [] }, pc := .clearHead }
  | .clearHead => { s with disk := writeHeadBlock hl s.log s.disk, pc := .finish }
  | .finish =>
    { s with log := { s.log with committing := false }, proc := Function.update s.proc p .idle }

/-- A step of `commit()` runs only in the process that started it. -/
def commitStep (hl : HeaderLayout β) (s : LogSys ι β) (p : ι) : Outcome (LogSys ι β) :=
  if s.proc p = .committing then .next (s.commitNext hl p) else .blocked

/-- One step of `recover_from_log` (its `read_head` was done at boot). -/
def recoverStep (hl : HeaderLayout β) (s : LogSys ι β) : Outcome (LogSys ι β) :=
  match s.boot with
  | .recovering tail =>
    if tail < s.log.lh.length then
      .next { s with disk := installBlock s.log tail s.disk, boot := .recovering (tail + 1) }
    else .next { s with log := { s.log with lh := [] }, boot := .clearing }
  | .clearing => .next { s with disk := writeHeadBlock hl s.log s.disk, boot := .running }
  | .running => .blocked

/-- The log system's step. -/
def step (hl : HeaderLayout β) (s : LogSys ι β) : LogAct ι β → Outcome (LogSys ι β)
  | .beginOp p => s.beginOpStep p
  | .logWrite p b v => s.logWriteStep p b v
  | .endOp p => s.endOpStep p
  | .commitStep p => s.commitStep hl p
  | .recoverStep => s.recoverStep hl
  | .crash => .next (reboot hl s.log.start s.log.size s.disk s.committed)

/-! ## What each step can do -/

section Spec

variable (hl : HeaderLayout β) {s s' : LogSys ι β} {p : ι}

/-- `begin_op` returns exactly when the file system runs, `p` is in no operation, no
commit runs and the reservation fits. -/
theorem step_beginOp : s.step hl (.beginOp p) = .next s' ↔
    s.boot = .running ∧ s.proc p = .idle ∧ s.log.committing = false ∧
      s.log.lh.length + (s.log.outstanding + 1) * MAXOPBLOCKS ≤ LOGSIZE ∧
      s' = { s with log := { s.log with outstanding := s.log.outstanding + 1 },
                    proc := Function.update s.proc p (.active []) } := by
  simp only [step, beginOpStep]
  by_cases hrun : s.boot = .running ∧ s.proc p = .idle
  · rw [if_pos hrun]
    cases hb : s.log.beginOp with
    | none =>
      simp only [reduceCtorEq, false_iff, not_and]
      intro _ _ hc hle
      have := (@Log.beginOp_eq_some s.log { s.log with outstanding := s.log.outstanding + 1 }).2
        ⟨hc, hle, rfl⟩
      rw [hb] at this
      cases this
    | some log =>
      obtain ⟨hc, hle, rfl⟩ := Log.beginOp_eq_some.1 hb
      simp only [Outcome.next.injEq]
      constructor
      · intro e; exact ⟨hrun.1, hrun.2, hc, hle, e.symm⟩
      · intro e; exact e.2.2.2.2.symm
  · rw [if_neg hrun]
    simp only [reduceCtorEq, false_iff, not_and]
    intro h1 h2
    exact absurd ⟨h1, h2⟩ hrun

/-- `log_write` by an operation: the header gains `b` unless it holds it already, the
cache holds the new contents, and `b` joins the operation's logged blocks. -/
theorem step_logWrite {b : ℕ} {v : β} (h : s.step hl (.logWrite p b v) = .next s') :
    ∃ ws, s.proc p = .active ws ∧ s.log.lh.length < LOGSIZE ∧
      s.log.lh.length + 1 < s.log.size ∧ 1 ≤ s.log.outstanding ∧
      s' = { s with log := { s.log with lh := if b ∈ s.log.lh then s.log.lh else s.log.lh ++ [b] },
                    cache := Function.update s.cache b v,
                    proc := Function.update s.proc p (.active (ws ++ [b])) } := by
  simp only [step, logWriteStep] at h
  split at h
  · next ws hp =>
    split at h
    · next log hw =>
      obtain ⟨h1, h2, h3, rfl⟩ := Log.logWrite_eq_ok hw
      simp only [Outcome.next.injEq] at h
      exact ⟨ws, hp, h1, h2, h3, h.symm⟩
    · cases h
  · cases h

/-- `log_write` panics "too big a transaction" exactly when an operation calls it with
the header at `LOGSIZE` entries or at all but one block of the log region. -/
theorem step_logWrite_panic_too_big {b : ℕ} {v : β} :
    s.step hl (.logWrite p b v) = .panic "too big a transaction" ↔
      (∃ ws, s.proc p = .active ws) ∧
        (LOGSIZE ≤ s.log.lh.length ∨ s.log.size - 1 ≤ s.log.lh.length) := by
  simp only [step, logWriteStep]
  split
  · next ws hp =>
    rw [← @Log.logWrite_eq_error_too_big s.log b]
    split
    · next log hw => simp [hw]
    · next msg hw => simp [hw, hp]
  · next hp =>
    simp only [reduceCtorEq, false_iff, not_and]
    rintro ⟨ws, hws⟩
    exact absurd hws (hp ws)

/-- The first half of `end_op`: one operation fewer; the last one out starts the
commit (or, with an empty header, goes straight to the end of `end_op`). -/
theorem step_endOp (h : s.step hl (.endOp p) = .next s') :
    ∃ ws, s.proc p = .active ws ∧ s.log.committing = false ∧
      s' = if s.log.outstanding - 1 = 0 then
          { s with log := { s.log with outstanding := 0, committing := true },
                   proc := Function.update s.proc p .committing,
                   pc := if 0 < s.log.lh.length then .writeLog 0 else .finish }
        else
          { s with log := { s.log with outstanding := s.log.outstanding - 1 },
                   proc := Function.update s.proc p .idle } := by
  simp only [step, endOpStep] at h
  split at h
  · next ws hp =>
    split at h
    · next log he =>
      obtain ⟨hc, hdec, rfl⟩ := Log.endOp_eq_ok he
      have h0 : s.log.outstanding - 1 = 0 := of_decide_eq_true hdec.symm
      simp only [Outcome.next.injEq] at h
      refine ⟨ws, hp, hc, ?_⟩
      rw [if_pos h0, ← h, h0]
    · next log he =>
      obtain ⟨hc, hdec, rfl⟩ := Log.endOp_eq_ok he
      have h0 : ¬ s.log.outstanding - 1 = 0 := of_decide_eq_false hdec.symm
      simp only [Outcome.next.injEq] at h
      refine ⟨ws, hp, hc, ?_⟩
      rw [if_neg h0, ← h, ← hc]
    · cases h
  · cases h

/-- `end_op` panics exactly when an operation ends while `committing` is set. -/
theorem step_endOp_panic {msg : String} :
    s.step hl (.endOp p) = .panic msg ↔
      (∃ ws, s.proc p = .active ws) ∧ s.log.committing = true ∧ msg = "log.committing" := by
  simp only [step, endOpStep]
  split
  · next ws hp =>
    rw [← Log.endOp_eq_error]
    split
    · next log he => simp [he, hp]
    · next log he => simp [he, hp]
    · next m he => simp [he, hp]
  · next hp =>
    simp only [reduceCtorEq, false_iff, not_and]
    rintro ⟨ws, hws⟩
    exact absurd hws (hp ws)

theorem step_commitStep : s.step hl (.commitStep p) = .next s' ↔
    s.proc p = .committing ∧ s' = s.commitNext hl p := by
  simp only [step, commitStep]
  split
  · next hp => simp [hp, eq_comm]
  · next hp => simp [hp]

/-- The steps of `recover_from_log`: install one entry, clear the in-memory header, or
write the cleared header and let the file system run. -/
theorem step_recoverStep (h : s.step hl .recoverStep = .next s') :
    (∃ tail, s.boot = .recovering tail ∧ tail < s.log.lh.length ∧
      s' = { s with disk := installBlock s.log tail s.disk, boot := .recovering (tail + 1) }) ∨
    (∃ tail, s.boot = .recovering tail ∧ s.log.lh.length ≤ tail ∧
      s' = { s with log := { s.log with lh := [] }, boot := .clearing }) ∨
    (s.boot = .clearing ∧
      s' = { s with disk := writeHeadBlock hl s.log s.disk, boot := .running }) := by
  simp only [step, recoverStep] at h
  split at h
  · next tail hb =>
    split at h
    · next ht => exact .inl ⟨tail, hb, ht, by simpa [eq_comm] using h⟩
    · next ht => exact .inr (.inl ⟨tail, hb, by omega, by simpa [eq_comm] using h⟩)
  · next hb => exact .inr (.inr ⟨hb, by simpa [eq_comm] using h⟩)
  · cases h

/-! What a step of `commit()` leaves alone, and the two places where it changes the
in-memory log or the process table. -/

@[simp] theorem commitNext_boot : (s.commitNext hl p).boot = s.boot := by
  unfold commitNext; split <;> (try split) <;> rfl

@[simp] theorem commitNext_cache : (s.commitNext hl p).cache = s.cache := by
  unfold commitNext; split <;> (try split) <;> rfl

@[simp] theorem commitNext_start : (s.commitNext hl p).log.start = s.log.start := by
  unfold commitNext; split <;> (try split) <;> rfl

@[simp] theorem commitNext_size : (s.commitNext hl p).log.size = s.log.size := by
  unfold commitNext; split <;> (try split) <;> rfl

@[simp] theorem commitNext_outstanding :
    (s.commitNext hl p).log.outstanding = s.log.outstanding := by
  unfold commitNext; split <;> (try split) <;> rfl

theorem commitNext_committing :
    (s.commitNext hl p).log.committing = if s.pc = .finish then false else s.log.committing := by
  unfold commitNext; split <;> (try split) <;> simp_all

theorem commitNext_proc :
    (s.commitNext hl p).proc = if s.pc = .finish then Function.update s.proc p .idle else s.proc := by
  unfold commitNext; split <;> (try split) <;> simp_all

/-- The header is cleared at the end of `install_trans(0)` and is otherwise kept. -/
theorem commitNext_lh : (s.commitNext hl p).log.lh = s.log.lh ∨ (s.commitNext hl p).log.lh = [] := by
  unfold commitNext; split <;> (try split) <;> simp

@[simp] theorem step_crash :
    s.step hl .crash = .next (reboot hl s.log.start s.log.size s.disk s.committed) := rfl

end Spec

end LogSys

end Xv6
