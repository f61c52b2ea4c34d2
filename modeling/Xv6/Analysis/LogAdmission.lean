import Xv6.Analysis.GroupCommit
import Mathlib.Data.Finset.Card

/-!
# Log space admission

`begin_op` admits an operation when the header and a reservation of `MAXOPBLOCKS`
blocks for every outstanding operation, this one included, fit in `LOGSIZE`; `log_write`
panics "too big a transaction" when the header holds `LOGSIZE` entries or all but one
block of the log region. The callers keep a discipline (`withinOpBudget`): an operation
passes at most `MAXOPBLOCKS` distinct blocks to `log_write` between its `begin_op` and
its `end_op`.

Over runs that keep it, the reservation does what it is for: `ReserveInv` says that the
header and the blocks each admitted operation may still add fit in `LOGSIZE`, so a
`log_write` of a block not yet logged finds fewer than `LOGSIZE` entries. But `mkfs`
makes the log region `LOGSIZE` blocks long header included, so that `log.size - 1` is
`LOGSIZE - 1`, one slot short of the reservation: three operations of ten distinct blocks
each are admitted together and the thirtieth block panics.
Source: kernel/log.c:126-142, kernel/log.c:214-235, mkfs/mkfs.c:25, mkfs/mkfs.c:100
-/

set_option autoImplicit false

namespace Xv6.LogSys

open TransitionSystem Count

variable {ι β : Type} [DecidableEq ι]

/-- The callers' discipline: the blocks an operation has passed to `log_write`, with this
one, are at most `MAXOPBLOCKS` distinct block numbers. -/
def withinOpBudget (s : LogSys ι β) : LogAct ι β → Bool
  | .logWrite p b _ =>
    match s.proc p with
    | .active ws => decide ((ws ++ [b]).dedup.length ≤ MAXOPBLOCKS)
    | _ => true
  | _ => true

omit [DecidableEq ι] in
theorem withinOpBudget_logWrite {s : LogSys ι β} {p : ι} {b : ℕ} {v : β} {ws : List ℕ}
    (hp : s.proc p = .active ws) :
    withinOpBudget s (.logWrite p b v) = true ↔ (ws ++ [b]).dedup.length ≤ MAXOPBLOCKS := by
  simp only [withinOpBudget, hp, decide_eq_true_iff]

/-- The log system under callers that keep the discipline. -/
def budgeted (hl : HeaderLayout β) : LogSys ι β → LogAct ι β → Outcome (LogSys ι β) :=
  restrict (fun s a => withinOpBudget s a = true) (step hl)

/-- The slots `begin_op` still holds for a process: `MAXOPBLOCKS` less the distinct
blocks its operation has logged. -/
def reserve : OpState → ℕ
  | .active ws => MAXOPBLOCKS - ws.dedup.length
  | _ => 0

@[simp] theorem reserve_idle : reserve .idle = 0 := rfl
@[simp] theorem reserve_active (ws : List ℕ) :
    reserve (.active ws) = MAXOPBLOCKS - ws.dedup.length := rfl
@[simp] theorem reserve_committing : reserve .committing = 0 := rfl

theorem reserve_le (o : OpState) : reserve o ≤ MAXOPBLOCKS := by
  cases o <;> simp [reserve]

theorem reserve_of_not_active {o : OpState} (h : ¬ o.isActive = true) : reserve o = 0 := by
  cases o <;> simp_all [reserve]

/-- A block not yet among an operation's blocks adds one distinct block. -/
theorem length_dedup_concat {ws : List ℕ} {b : ℕ} (hb : b ∉ ws) :
    (ws ++ [b]).dedup.length = ws.dedup.length + 1 := by
  rw [← List.card_toFinset, ← List.card_toFinset, List.toFinset_append, List.toFinset_cons,
    List.toFinset_nil, insert_empty_eq, Finset.union_comm, ← Finset.insert_eq,
    Finset.card_insert_of_notMem (by simpa using hb)]

theorem length_dedup_le_concat (ws : List ℕ) (b : ℕ) :
    ws.dedup.length ≤ (ws ++ [b]).dedup.length := by
  rw [← List.card_toFinset, ← List.card_toFinset, List.toFinset_append]
  exact Finset.card_le_card Finset.subset_union_left

variable [Fintype ι]

/-- The slots held for all admitted operations. -/
def reserved (s : LogSys ι β) : ℕ := ∑ p, reserve (s.proc p)

/-- The invariant of admission: at the end of recovery the header is empty, and while
the file system runs, the header and every admitted operation's remaining blocks fit in
`LOGSIZE`. -/
structure ReserveInv (s : LogSys ι β) : Prop where
  clearing_nil : s.boot = .clearing → s.log.lh = []
  fits : s.boot = .running → s.log.lh.length + s.reserved ≤ LOGSIZE

/-! ## Every step keeps the invariant -/

section Steps

variable {hl : HeaderLayout β} {s s' : LogSys ι β} {p : ι}

/-- Writing `p`'s entry changes the reservation by what `p` held and what it now holds. -/
theorem reserved_update (s : LogSys ι β) (p : ι) (o : OpState) :
    ∑ q, reserve (Function.update s.proc p o q) + reserve (s.proc p) = s.reserved + reserve o :=
  sum_update reserve s.proc p o

omit [DecidableEq ι] in
/-- Each admitted operation holds at most `MAXOPBLOCKS` slots. -/
theorem reserved_le (h : GroupInv s) : s.reserved ≤ s.log.outstanding * MAXOPBLOCKS := by
  rw [h.outstanding_eq]
  exact sum_le_countWhere_mul s.proc (fun _ ho => reserve_of_not_active ho) reserve_le

omit [DecidableEq ι] in
/-- A process's slots are part of the reservation. -/
theorem reserve_le_reserved (s : LogSys ι β) (p : ι) : reserve (s.proc p) ≤ s.reserved :=
  Finset.single_le_sum (fun q _ => Nat.zero_le (reserve (s.proc q))) (Finset.mem_univ p)

theorem reserveInv_beginOp (h : ReserveInv s) (hg : GroupInv s)
    (hs : s.step hl (.beginOp p) = .next s') : ReserveInv s' := by
  obtain ⟨hrun, hidle, -, hle, rfl⟩ := (step_beginOp hl).1 hs
  have hsum := reserved_update s p (.active [])
  have hbound := reserved_le hg
  have hfit := h.fits hrun
  rw [hidle] at hsum
  simp only [reserve_idle, reserve_active, List.dedup_nil, List.length_nil, Nat.sub_zero] at hsum
  refine ⟨fun hb => absurd (hrun.symm.trans hb) (by simp), fun _ => ?_⟩
  show s.log.lh.length + ∑ q, reserve (Function.update s.proc p (.active []) q) ≤ LOGSIZE
  rw [MAXOPBLOCKS_eq] at hsum hbound hle
  omega

theorem reserveInv_logWrite {b : ℕ} {v : β} (h : ReserveInv s) (hg : GroupInv s)
    (hw : withinOpBudget s (.logWrite p b v) = true)
    (hs : s.step hl (.logWrite p b v) = .next s') : ReserveInv s' := by
  obtain ⟨ws, hp, -, -, -, rfl⟩ := step_logWrite hl hs
  have hrun : s.boot = .running := hg.running_of_ne_idle p (by simp [hp])
  have hbudget := (withinOpBudget_logWrite hp).1 hw
  have hsum := reserved_update s p (.active (ws ++ [b]))
  have hfit := h.fits hrun
  rw [hp] at hsum
  simp only [reserve_active] at hsum
  refine ⟨fun hb => absurd (hrun.symm.trans hb) (by simp), fun _ => ?_⟩
  show (if b ∈ s.log.lh then s.log.lh else s.log.lh ++ [b]).length +
    ∑ q, reserve (Function.update s.proc p (.active (ws ++ [b])) q) ≤ LOGSIZE
  split
  · -- an absorbed write: the header is kept and the operation holds no more slots
    have := length_dedup_le_concat ws b
    omega
  · next hb =>
    -- a new block is new to the operation too, and takes one of its slots
    have hbws : b ∉ ws := fun hbws => hb (hg.logged_mem p ws hp b hbws)
    rw [length_dedup_concat hbws] at hsum hbudget
    rw [List.length_append, List.length_singleton]
    omega

theorem reserveInv_endOp (h : ReserveInv s) (hs : s.step hl (.endOp p) = .next s') :
    ReserveInv s' := by
  obtain ⟨ws, hp, -, rfl⟩ := step_endOp hl hs
  split
  · have hsum := reserved_update s p .committing
    refine ⟨h.clearing_nil, fun hb => ?_⟩
    have hfit := h.fits hb
    simp only [reserve_committing] at hsum
    show s.log.lh.length + ∑ q, reserve (Function.update s.proc p .committing q) ≤ LOGSIZE
    omega
  · have hsum := reserved_update s p .idle
    refine ⟨h.clearing_nil, fun hb => ?_⟩
    have hfit := h.fits hb
    simp only [reserve_idle] at hsum
    show s.log.lh.length + ∑ q, reserve (Function.update s.proc p .idle q) ≤ LOGSIZE
    omega

theorem reserveInv_commitStep (h : ReserveInv s) (hg : GroupInv s)
    (hs : s.step hl (.commitStep p) = .next s') : ReserveInv s' := by
  obtain ⟨hp, rfl⟩ := (step_commitStep hl).1 hs
  have hrun : s.boot = .running := hg.running_of_ne_idle p (by simp [hp])
  -- the committer holds no slots, so leaving `end_op` changes no reservation
  have hres : (s.commitNext hl p).reserved = s.reserved := by
    unfold reserved
    rw [commitNext_proc]
    split
    · have hsum := reserved_update s p .idle
      rw [hp] at hsum
      simp only [reserve_committing, reserve_idle, Nat.add_zero] at hsum
      exact hsum
    · rfl
  have hlen : (s.commitNext hl p).log.lh.length ≤ s.log.lh.length := by
    rcases commitNext_lh hl (s := s) (p := p) with h' | h' <;> simp [h']
  refine ⟨fun hb => absurd (hrun.symm.trans ((commitNext_boot hl).symm.trans hb)) (by simp),
    fun hb => ?_⟩
  have hfit := h.fits ((commitNext_boot hl).symm.trans hb)
  rw [hres]
  omega

theorem reserveInv_recoverStep (h : ReserveInv s) (hg : GroupInv s)
    (hs : s.step hl .recoverStep = .next s') : ReserveInv s' := by
  rcases step_recoverStep hl hs with ⟨tail, -, -, rfl⟩ | ⟨tail, -, -, rfl⟩ | ⟨hb, rfl⟩
  · exact ⟨fun hb => (by cases hb), fun hb => (by cases hb)⟩
  · exact ⟨fun _ => rfl, fun hb => (by cases hb)⟩
  · -- the header write that ends recovery: the header was cleared and no one is admitted
    have hnil := h.clearing_nil hb
    have hidle := hg.booting_idle (by simp [hb])
    have hzero : s.reserved = 0 := by simp [reserved, hidle]
    refine ⟨fun hb' => (by cases hb'), fun _ => ?_⟩
    show s.log.lh.length + s.reserved ≤ LOGSIZE
    simp [hnil, hzero]

omit [DecidableEq ι] in
theorem reserveInv_reboot (start size : ℕ) (d : ℕ → β) (committed : List (List (ℕ × β))) :
    ReserveInv (reboot (ι := ι) hl start size d committed) :=
  ⟨fun hb => (by cases hb), fun hb => (by cases hb)⟩

theorem reserveInv_step {a : LogAct ι β} (h : ReserveInv s) (hg : GroupInv s)
    (hw : withinOpBudget s a = true) (hs : s.step hl a = .next s') : ReserveInv s' := by
  cases a with
  | beginOp p => exact reserveInv_beginOp h hg hs
  | logWrite p b v => exact reserveInv_logWrite h hg hw hs
  | endOp p => exact reserveInv_endOp h hs
  | commitStep p => exact reserveInv_commitStep h hg hs
  | recoverStep => exact reserveInv_recoverStep h hg hs
  | crash =>
    cases hs
    exact reserveInv_reboot _ _ _ _

/-- The admission invariant holds along every run of callers that keep the discipline. -/
theorem reserveInv_of_reachable {start size : ℕ} {d0 : ℕ → β}
    (hs : Reachable (budgeted hl) (reboot hl start size d0 []) s) : ReserveInv s := by
  refine hs.inv ReserveInv (reserveInv_reboot _ _ _ _) fun t a t' ht h hstep => ?_
  obtain ⟨hw, hstep⟩ := restrict_next hstep
  exact reserveInv_step h (groupInv_of_reachable ht.of_restrict) hw hstep

end Steps

/-! ## What admission guarantees, and where it falls short -/

/-- Over runs of callers that keep the discipline, `begin_op`'s reservation covers the
`LOGSIZE` test of `log_write`: an operation that logs a block not yet in the header,
within its budget, finds fewer than `LOGSIZE` entries there. -/
theorem admission_covers_logsize {hl : HeaderLayout β} {start size : ℕ} {d0 : ℕ → β}
    {s : LogSys ι β} (hs : Reachable (budgeted hl) (reboot hl start size d0 []) s) {p : ι}
    {b : ℕ} {v : β} {ws : List ℕ} (hp : s.proc p = .active ws) (hb : b ∉ s.log.lh)
    (hw : withinOpBudget s (.logWrite p b v) = true) : s.log.lh.length < LOGSIZE := by
  have hg := groupInv_of_reachable hs.of_restrict
  have hfit := (reserveInv_of_reachable hs).fits (hg.running_of_ne_idle p (by simp [hp]))
  have hbudget := (withinOpBudget_logWrite hp).1 hw
  -- the block is new to the operation too, so the operation still holds a slot for it
  have hbws : b ∉ ws := fun hbws => hb (hg.logged_mem p ws hp b hbws)
  rw [length_dedup_concat hbws] at hbudget
  have hheld := reserve_le_reserved s p
  rw [hp, reserve_active] at hheld
  omega

/-- Three operations admitted together on the log `mkfs` makes have logged 10, 10 and 9
distinct blocks. The third one's tenth block is within its budget and new to the header, and
it finds 29 entries there, fewer than `LOGSIZE`: the reservation covers this test, although
`log_write`'s own test against `log.size - 1` fails here. -/
theorem admission_covers_logsize_at_three_ops :
    ∃ s : LogSys (Fin 3) (List ℕ),
      Reachable (budgeted listLayout) (reboot listLayout 2 LOGSIZE (fun _ => []) []) s ∧
      s.proc 2 = .active (List.range' 120 9) ∧ 129 ∉ s.log.lh ∧
      withinOpBudget s (.logWrite 2 129 [1]) = true ∧ s.log.lh.length = 29 ∧
      s.log.lh.length < LOGSIZE := by
  obtain ⟨s, hs, htest⟩ := Reachable.of_run_nextSat .init
    (show (run (budgeted listLayout) (reboot listLayout 2 LOGSIZE (fun _ => []) [])
      ([.recoverStep, .recoverStep, .beginOp 0, .beginOp 1, .beginOp 2] ++
        (List.range 29).map fun i => .logWrite (Fin.ofNat 3 (i / 10)) (100 + i) [1])).nextSat
      (fun s : LogSys (Fin 3) (List ℕ) => decide (s.proc 2 = .active (List.range' 120 9) ∧
        129 ∉ s.log.lh ∧ withinOpBudget s (.logWrite 2 129 [1]) = true ∧ s.log.lh.length = 29)) = true
      by decide +kernel)
  obtain ⟨hp, hb, hw, hlen⟩ := of_decide_eq_true htest
  exact ⟨s, hs, hp, hb, hw, hlen, admission_covers_logsize hs hp hb hw⟩

/-- The header slot is missing from the reservation on the log `mkfs` makes. On a fresh
file system (`logstart = 2`, `nlog = LOGSIZE`) three processes are admitted together and
log 10, 10 and 9 distinct blocks, each within `MAXOPBLOCKS`; the third process's tenth
distinct block then reaches `log_write` with `lh.n = 29 = log.size - 1`, and the kernel
panics although every operation kept the discipline. -/
theorem log_write_too_big_on_mkfs_log :
    ∃ s : LogSys (Fin 3) (List ℕ),
      Reachable (budgeted listLayout) (reboot listLayout 2 LOGSIZE (fun _ => []) []) s ∧
      budgeted listLayout s (.logWrite 2 129 [1]) = .panic "too big a transaction" :=
  ⟨_, Reachable.of_run .init (show run _ _ ([.recoverStep, .recoverStep, .beginOp 0,
    .beginOp 1, .beginOp 2] ++ (List.range 29).map fun i =>
      .logWrite (Fin.ofNat 3 (i / 10)) (100 + i) [1]) = .next _ from rfl), rfl⟩

end Xv6.LogSys
