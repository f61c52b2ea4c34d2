import Xv6.Param
import Mathlib.Data.List.Basic

/-!
# The write-ahead log of `kernel/log.c`

The in-memory `struct log` and the functions of `log.c`, one definition each. The
disk is a map from block number to block contents, and every `bwrite` replaces one
block; `bread` of a block of the log region returns what the disk holds (only this
file writes those blocks, and it always writes them through), while `bread` of a
logged home block returns the cached copy, `cache` below.

The header block is read and written through a cast of `buf->data` to
`struct logheader`; `HeaderLayout` is that cast: what the header reads as, and the
block after its `n` and `block[0..n)` are overwritten. `initlog` checks that the
struct fits in a block, so a header of at most `LOGSIZE` entries reads back as written.

The loops are folds over `List.range`, so that a crash after any number of their
`bwrite`s is a fold over a prefix; `Xv6.Model.LogSystem` runs them one write per step.
-/

set_option autoImplicit false

namespace Xv6

/-- How the header sits in its block: `read_head` reads `lh->n` and `lh->block[0..n)`,
`write_head` overwrites them and leaves the rest of the block as it was. -/
structure HeaderLayout (β : Type) where
  get : β → List ℕ
  set : β → List ℕ → β
  get_set : ∀ b l, l.length ≤ LOGSIZE → get (set b l) = l

/-- A layout for disks whose blocks are lists of numbers, where the header block is the
list of its entries; the concrete runs of the analyses use it. -/
def listLayout : HeaderLayout (List ℕ) where
  get := id
  set := fun _ l => l
  get_set := fun _ _ _ => rfl

/-- `struct log`; the header `lh` is the list `lh.block[0..lh.n)`. -/
structure Log where
  start : ℕ
  size : ℕ
  outstanding : ℕ
  committing : Bool
  lh : List ℕ
  deriving DecidableEq, Repr

namespace Log

/-- `begin_op`: `none` is a `sleep` (a commit is running, or this op might exhaust the
log), after which the loop tests again; `some` is the admission. -/
def beginOp (log : Log) : Option Log :=
  if log.committing then none
  else if LOGSIZE < log.lh.length + (log.outstanding + 1) * MAXOPBLOCKS then none
  else some { log with outstanding := log.outstanding + 1 }

/-- `end_op` up to its `release(&log.lock)`: the log afterwards, and whether this call
commits. (`outstanding` is an `int` in C; it is only ever decremented by an operation
that incremented it.) -/
def endOp (log : Log) : Except String (Log × Bool) :=
  let log := { log with outstanding := log.outstanding - 1 }
  if log.committing then .error "log.committing"
  else if log.outstanding = 0 then .ok ({ log with committing := true }, true)
  else .ok (log, false)

/-- The bookkeeping of `log_write(b)`: the two panics, then log absorption. The scan
stops at the first entry equal to `b`, or at `lh.n` when there is none, and that
entry is set to `b`; only a new block extends the header (and is pinned). -/
def logWrite (log : Log) (b : ℕ) : Except String Log :=
  if LOGSIZE ≤ log.lh.length ∨ log.size - 1 ≤ log.lh.length then
    .error "too big a transaction"
  else if log.outstanding < 1 then .error "log_write outside of trans"
  else
    let i := log.lh.idxOf b
    if i = log.lh.length then .ok { log with lh := log.lh ++ [b] }
    else .ok { log with lh := log.lh.set i b }

/-- `begin_op` returns exactly when no commit runs and the reservation of
`MAXOPBLOCKS` blocks for every outstanding operation, this one included, fits in
`LOGSIZE`. -/
theorem beginOp_eq_some {log log' : Log} :
    log.beginOp = some log' ↔ log.committing = false ∧
      log.lh.length + (log.outstanding + 1) * MAXOPBLOCKS ≤ LOGSIZE ∧
      log' = { log with outstanding := log.outstanding + 1 } := by
  unfold beginOp
  cases hc : log.committing
  · by_cases h : LOGSIZE < log.lh.length + (log.outstanding + 1) * MAXOPBLOCKS
    · simp only [Bool.false_eq_true, ite_false, if_pos h, reduceCtorEq, false_iff, not_and]
      intro _ hle
      omega
    · simp only [Bool.false_eq_true, ite_false, if_neg h, Option.some.injEq, true_and]
      constructor
      · intro e; exact ⟨by omega, e.symm⟩
      · intro e; exact e.2.symm
  · simp

/-- `end_op` panics exactly when a commit is running. -/
theorem endOp_eq_error {log : Log} {msg : String} :
    log.endOp = .error msg ↔ log.committing = true ∧ msg = "log.committing" := by
  unfold endOp
  cases log.committing <;> simp only [ite_true, Bool.false_eq_true, ite_false, true_and,
    false_and, iff_false]
  · split <;> simp
  · simp [eq_comm]

/-- What `end_op` leaves when it does not panic: one operation fewer, and the commit flag
set by the call that brings `outstanding` to zero. -/
theorem endOp_eq_ok {log log' : Log} {c : Bool} (h : log.endOp = .ok (log', c)) :
    log.committing = false ∧ c = decide (log.outstanding - 1 = 0) ∧
      log' = { log with outstanding := log.outstanding - 1, committing := c } := by
  unfold endOp at h
  cases hc : log.committing <;> simp only [hc, ite_true, Bool.false_eq_true, ite_false,
    reduceCtorEq] at h
  refine ⟨rfl, ?_⟩
  split at h
  · next h0 =>
    simp only [Except.ok.injEq, Prod.mk.injEq] at h
    obtain ⟨rfl, rfl⟩ := h
    simp [h0]
  · next h0 =>
    simp only [Except.ok.injEq, Prod.mk.injEq] at h
    obtain ⟨rfl, rfl⟩ := h
    simp [h0]

/-- Writing an entry with the value it already holds leaves the header as it was: the
absorbed case of `log_write`. -/
theorem set_idxOf_self (l : List ℕ) (b : ℕ) (h : l.idxOf b ≠ l.length) : l.set (l.idxOf b) b = l := by
  have hlt : l.idxOf b < l.length := Nat.lt_of_le_of_ne List.idxOf_le_length h
  conv_rhs => rw [← List.set_getElem_self hlt]
  rw [List.getElem_idxOf hlt]

/-- `log_write` either panics or leaves the header with `b` in it: unchanged when `b` was
already logged, extended by `b` otherwise. -/
theorem logWrite_eq_ok {log log' : Log} {b : ℕ} (h : log.logWrite b = .ok log') :
    log.lh.length < LOGSIZE ∧ log.lh.length + 1 < log.size ∧ 1 ≤ log.outstanding ∧
      log' = { log with lh := if b ∈ log.lh then log.lh else log.lh ++ [b] } := by
  unfold logWrite at h
  split at h
  · cases h
  · next hsz =>
    split at h
    · cases h
    · next hout =>
      refine ⟨by omega, by omega, by omega, ?_⟩
      dsimp only at h
      split at h
      · next hi =>
        simp only [Except.ok.injEq] at h
        rw [← h, if_neg (List.idxOf_eq_length_iff.1 hi)]
      · next hi =>
        simp only [Except.ok.injEq] at h
        rw [← h, set_idxOf_self _ _ hi,
          if_pos (Decidable.byContradiction fun hb => hi (List.idxOf_eq_length hb))]

/-- `log_write` panics with "too big a transaction" exactly when the header already
holds `LOGSIZE` entries or fills all but one block of the log region. -/
theorem logWrite_eq_error_too_big {log : Log} {b : ℕ} :
    log.logWrite b = .error "too big a transaction" ↔
      LOGSIZE ≤ log.lh.length ∨ log.size - 1 ≤ log.lh.length := by
  unfold logWrite
  split
  · next h => simp only [h]
  · next h =>
    simp only [h, iff_false]
    split
    · simp
    · split <;> simp

end Log

section Disk

variable {β : Type}

/-- One iteration of `write_log`: log block `tail` gets the cached copy of the block it
logs. -/
def writeLogBlock (log : Log) (cache : ℕ → β) (tail : ℕ) (d : ℕ → β) : ℕ → β :=
  Function.update d (log.start + tail + 1) (cache (log.lh.getD tail 0))

/-- `write_head`: the header block, read, with the in-memory header written over it. -/
def writeHeadBlock (hl : HeaderLayout β) (log : Log) (d : ℕ → β) : ℕ → β :=
  Function.update d log.start (hl.set (d log.start) log.lh)

/-- One iteration of `install_trans`: the home block of entry `tail` gets log block
`tail`. -/
def installBlock (log : Log) (tail : ℕ) (d : ℕ → β) : ℕ → β :=
  Function.update d (log.lh.getD tail 0) (d (log.start + tail + 1))

/-! Each `bwrite` changes its one block. -/

theorem writeLogBlock_apply (log : Log) (cache : ℕ → β) (tail : ℕ) (d : ℕ → β) (x : ℕ) :
    writeLogBlock log cache tail d x =
      if x = log.start + tail + 1 then cache (log.lh.getD tail 0) else d x := by
  simp [writeLogBlock, Function.update_apply]

theorem writeHeadBlock_apply (hl : HeaderLayout β) (log : Log) (d : ℕ → β) (x : ℕ) :
    writeHeadBlock hl log d x = if x = log.start then hl.set (d log.start) log.lh else d x := by
  simp [writeHeadBlock, Function.update_apply]

/-- The header block after `write_head` reads as the in-memory header. -/
theorem get_writeHeadBlock (hl : HeaderLayout β) (log : Log) (d : ℕ → β)
    (h : log.lh.length ≤ LOGSIZE) : hl.get (writeHeadBlock hl log d log.start) = log.lh := by
  rw [writeHeadBlock_apply, if_pos rfl, hl.get_set _ _ h]

theorem installBlock_apply (log : Log) (tail : ℕ) (d : ℕ → β) (x : ℕ) :
    installBlock log tail d x =
      if x = log.lh.getD tail 0 then d (log.start + tail + 1) else d x := by
  simp [installBlock, Function.update_apply]

/-- `write_log`: copy every logged block from the cache to the log. -/
def writeLog (log : Log) (cache : ℕ → β) (d : ℕ → β) : ℕ → β :=
  (List.range log.lh.length).foldl (fun d tail => writeLogBlock log cache tail d) d

/-- `install_trans`: copy every committed block from the log to its home. -/
def installTrans (log : Log) (d : ℕ → β) : ℕ → β :=
  (List.range log.lh.length).foldl (fun d tail => installBlock log tail d) d

/-- `commit`: write the log, commit by writing the header, install, clear the header. -/
def commit (hl : HeaderLayout β) (log : Log) (cache : ℕ → β) (d : ℕ → β) : Log × (ℕ → β) :=
  if 0 < log.lh.length then
    let d := writeHeadBlock hl log (writeLog log cache d)
    let d := installTrans log d
    let log := { log with lh := [] }
    (log, writeHeadBlock hl log d)
  else (log, d)

/-- `recover_from_log`: `read_head`, `install_trans(1)`, then clear the header. -/
def recoverFromLog (hl : HeaderLayout β) (log : Log) (d : ℕ → β) : Log × (ℕ → β) :=
  let log := { log with lh := hl.get (d log.start) }
  let d := installTrans log d
  let log := { log with lh := [] }
  (log, writeHeadBlock hl log d)

end Disk

end Xv6
