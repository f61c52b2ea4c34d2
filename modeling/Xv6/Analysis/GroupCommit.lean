import Xv6.Model.LogSystem
import Xv6.Lib.Count

/-!
# Group commit contains whole operations

`log.c` commits only when no FS operation is in progress, so that "there is never any
reasoning required about whether a commit might write an uncommitted system call's
updates to disk" (the comment at its top). This file proves that the code does what the
comment says, over every interleaving of `begin_op`, `log_write`, `end_op`, the steps of
`commit()`, crashes and recovery.

The invariant `GroupInv` ties the counter `log.outstanding` to the number of processes
between `begin_op` and `end_op`, and the flag `log.committing` to the one process that
runs `commit()`. Because `end_op` sets `committing` in the same critical section in which
it brings `outstanding` to zero, and `begin_op` admits no one while `committing` is set,
no operation is ever in progress while a commit runs; and every block an operation
passed to `log_write` is in the in-memory header, which only the end of
`install_trans(0)` clears. Once recovery is over the header fits its block (`LhFits`), so
the commit point writes it whole (`commitStep_writeHead`). The contract itself,
`group_commit_contains_operations`, is stated with the crash invariant, in
`Xv6.Analysis.CrashAtomicity`.
-/

set_option autoImplicit false

namespace Xv6.LogSys

open TransitionSystem Count

variable {ι β : Type} [Fintype ι] [DecidableEq ι]

/-- How many processes are between `begin_op` and `end_op`. -/
def activeCount (s : LogSys ι β) : ℕ := countWhere (fun o => o.isActive = true) s.proc

/-- The invariant of the group-commit protocol. -/
structure GroupInv (s : LogSys ι β) : Prop where
  outstanding_eq : s.log.outstanding = s.activeCount
  committing_iff : s.log.committing = true ↔ ∃ p, s.proc p = .committing
  committer_unique : ∀ p q, s.proc p = .committing → s.proc q = .committing → p = q
  committing_quiet : s.log.committing = true → s.log.outstanding = 0
  logged_mem : ∀ p ws, s.proc p = .active ws → ∀ b ∈ ws, b ∈ s.log.lh
  booting_idle : s.boot ≠ .running → ∀ p, s.proc p = .idle

variable {hl : HeaderLayout β} {s s' : LogSys ι β} {p : ι}

omit [Fintype ι] in
theorem update_committing_iff {f : ι → OpState} {q : ι} {v : OpState} :
    Function.update f p v q = .committing ↔ (q = p ∧ v = .committing) ∨ (q ≠ p ∧ f q = .committing) := by
  rw [Function.update_apply]
  by_cases hq : q = p <;> simp [hq]

omit [DecidableEq ι] in
/-- While a commit runs, no operation is between `begin_op` and `end_op`. -/
theorem GroupInv.not_active (h : GroupInv s) (hc : s.log.committing = true) (q : ι)
    (ws : List ℕ) : s.proc q ≠ .active ws := by
  intro hq
  have h0 : s.activeCount = 0 := h.outstanding_eq ▸ h.committing_quiet hc
  exact countWhere_eq_zero.1 h0 q (by simp [hq])

omit [DecidableEq ι] in
/-- A state with every process outside the protocol, no operation counted and no commit
running satisfies the invariant: this is every boot, and every step of recovery. -/
theorem groupInv_of_idle (hidle : ∀ p, s.proc p = .idle) (hout : s.log.outstanding = 0)
    (hc : s.log.committing = false) : GroupInv s where
  outstanding_eq := by
    rw [hout]
    exact (countWhere_eq_zero.2 fun j => by simp [hidle j]).symm
  committing_iff := by simp [hc, hidle]
  committer_unique := by simp [hidle]
  committing_quiet := fun _ => hout
  logged_mem := by simp [hidle]
  booting_idle := fun _ => hidle

omit [DecidableEq ι] in
/-- The invariant carries over a step that changes neither the process table, nor the
counter and the flag, nor the boot phase, and keeps every logged block in the header. -/
theorem GroupInv.of_frame (h : GroupInv s) (hproc : s'.proc = s.proc)
    (hc : s'.log.committing = s.log.committing) (hout : s'.log.outstanding = s.log.outstanding)
    (hboot : s'.boot = s.boot)
    (hlh : ∀ q ws, s.proc q = .active ws → ∀ b ∈ ws, b ∈ s'.log.lh) : GroupInv s' where
  outstanding_eq := by rw [hout, h.outstanding_eq]; unfold activeCount; rw [hproc]
  committing_iff := by rw [hc, hproc]; exact h.committing_iff
  committer_unique := by rw [hproc]; exact h.committer_unique
  committing_quiet := by rw [hc, hout]; exact h.committing_quiet
  logged_mem := by rw [hproc]; exact hlh
  booting_idle := by rw [hboot, hproc]; exact h.booting_idle

omit [DecidableEq ι] in
/-- A process inside the protocol means the file system runs. -/
theorem GroupInv.running_of_ne_idle (h : GroupInv s) (q : ι) (hq : s.proc q ≠ .idle) :
    s.boot = .running :=
  Decidable.byContradiction fun hb => hq (h.booting_idle hb q)

/-! ## Every step keeps the invariant -/

section Steps

omit [Fintype ι] in
/-- No process but `p` runs a commit after `p`'s entry is set to a non-committing state,
when none ran before. -/
theorem update_not_committing {f : ι → OpState} {v : OpState} (hv : v ≠ .committing)
    (hnone : ∀ q, q ≠ p → f q ≠ .committing) (q : ι) :
    Function.update f p v q ≠ .committing := by
  rw [Ne, update_committing_iff]
  rintro (⟨-, h⟩ | ⟨hq, h⟩)
  · exact hv h
  · exact hnone q hq h

omit [Fintype ι] in
/-- A process whose entry is not `p`'s keeps it. -/
theorem update_active {f : ι → OpState} {v : OpState} {q : ι} {ws : List ℕ}
    (hv : ∀ ws', v ≠ .active ws') (hq : Function.update f p v q = .active ws) :
    f q = .active ws := by
  rw [Function.update_apply] at hq
  split at hq
  · exact absurd hq (hv ws)
  · exact hq

theorem groupInv_beginOp (h : GroupInv s) (hs : s.step hl (.beginOp p) = .next s') :
    GroupInv s' := by
  obtain ⟨hrun, hidle, hc, -, rfl⟩ := (step_beginOp hl).1 hs
  have hcount := countWhere_update (fun o : OpState => o.isActive = true) s.proc p (.active [])
  simp only [hidle, OpState.isActive_idle, OpState.isActive_active, Bool.false_eq_true,
    ite_false, ite_true] at hcount
  have hnone : ∀ q, s.proc q ≠ .committing := fun q hq => by
    simpa [hc] using h.committing_iff.2 ⟨q, hq⟩
  have hnone' : ∀ q, Function.update s.proc p (.active []) q ≠ .committing :=
    update_not_committing (by simp) (fun q _ => hnone q)
  refine ⟨?_, ?_, ?_, ?_, ?_, ?_⟩
  · show s.log.outstanding + 1 = countWhere _ (Function.update s.proc p _)
    rw [h.outstanding_eq]
    unfold activeCount
    omega
  · show s.log.committing = true ↔ _
    simp only [hc, Bool.false_eq_true, false_iff, not_exists]
    exact hnone'
  · intro q _ hq _
    exact absurd hq (hnone' q)
  · intro hc'
    exact absurd hc' (by simp [hc])
  · intro q ws hq b hb
    dsimp only at hq
    rw [Function.update_apply] at hq
    split at hq
    · cases hq
      cases hb
    · exact h.logged_mem q ws hq b hb
  · intro hb
    exact absurd hrun hb

theorem groupInv_logWrite {b : ℕ} {v : β} (h : GroupInv s)
    (hs : s.step hl (.logWrite p b v) = .next s') : GroupInv s' := by
  obtain ⟨ws, hp, -, -, -, rfl⟩ := step_logWrite hl hs
  have hcount := countWhere_update (fun o : OpState => o.isActive = true) s.proc p
    (.active (ws ++ [b]))
  simp only [hp, OpState.isActive_active, ite_true] at hcount
  -- the header after absorption holds the old header and `b`
  have hsub : ∀ c ∈ s.log.lh, c ∈ (if b ∈ s.log.lh then s.log.lh else s.log.lh ++ [b]) := by
    intro c hc
    split <;> simp [hc]
  have hb : b ∈ (if b ∈ s.log.lh then s.log.lh else s.log.lh ++ [b]) := by
    split
    · assumption
    · simp
  have hcom : ∀ q, Function.update s.proc p (.active (ws ++ [b])) q = .committing ↔
      s.proc q = .committing := by
    intro q
    rw [update_committing_iff]
    constructor
    · rintro (⟨-, hv⟩ | ⟨-, hq⟩)
      · cases hv
      · exact hq
    · intro hq
      refine .inr ⟨?_, hq⟩
      rintro rfl
      rw [hp] at hq
      cases hq
  refine ⟨?_, ?_, ?_, ?_, ?_, ?_⟩
  · show s.log.outstanding = countWhere _ (Function.update s.proc p _)
    rw [h.outstanding_eq]
    unfold activeCount
    omega
  · show s.log.committing = true ↔ _
    simp only [hcom]
    exact h.committing_iff
  · intro q r hq hr
    rw [hcom] at hq hr
    exact h.committer_unique q r hq hr
  · exact h.committing_quiet
  · intro q ws' hq c hc
    dsimp only at hq
    rw [Function.update_apply] at hq
    split at hq
    · next hqp =>
      subst hqp
      obtain rfl : ws ++ [b] = ws' := by simpa using hq
      rcases List.mem_append.1 hc with hc | hc
      · exact hsub c (h.logged_mem q ws hp c hc)
      · rw [List.mem_singleton.1 hc]
        exact hb
    · exact hsub c (h.logged_mem q ws' hq c hc)
  · intro hboot
    exact absurd hp (by rw [h.booting_idle hboot p]; simp)

theorem groupInv_endOp (h : GroupInv s) (hs : s.step hl (.endOp p) = .next s') :
    GroupInv s' := by
  obtain ⟨ws, hp, hc, rfl⟩ := step_endOp hl hs
  have hnone : ∀ q, s.proc q ≠ .committing := fun q hq => by
    simpa [hc] using h.committing_iff.2 ⟨q, hq⟩
  have hboot : s.boot = .running := h.running_of_ne_idle p (by simp [hp])
  split
  · next h0 =>
    -- the last operation out: `p` becomes the committer
    have hcount := countWhere_update (fun o : OpState => o.isActive = true) s.proc p .committing
    simp only [hp, OpState.isActive_active, OpState.isActive_committing, Bool.false_eq_true,
      ite_true, ite_false] at hcount
    refine ⟨?_, ?_, ?_, ?_, ?_, ?_⟩
    · show 0 = countWhere _ (Function.update s.proc p _)
      have := h.outstanding_eq
      unfold activeCount at this
      omega
    · show true = true ↔ _
      exact iff_of_true rfl ⟨p, by simp⟩
    · intro q r hq hr
      rcases update_committing_iff.1 hq with ⟨rfl, -⟩ | ⟨-, hq⟩
      · rcases update_committing_iff.1 hr with ⟨rfl, -⟩ | ⟨-, hr⟩
        · rfl
        · exact absurd hr (hnone r)
      · exact absurd hq (hnone q)
    · intro _
      rfl
    · intro q ws' hq b hb
      exact h.logged_mem q ws' (update_active (by simp) hq) b hb
    · intro hb
      exact absurd hboot hb
  · next h0 =>
    -- another operation is still outstanding: `p` leaves, nothing commits
    have hcount := countWhere_update (fun o : OpState => o.isActive = true) s.proc p .idle
    simp only [hp, OpState.isActive_active, OpState.isActive_idle, Bool.false_eq_true,
      ite_true, ite_false] at hcount
    have hnone' : ∀ q, Function.update s.proc p .idle q ≠ .committing :=
      update_not_committing (by simp) (fun q _ => hnone q)
    refine ⟨?_, ?_, ?_, ?_, ?_, ?_⟩
    · show s.log.outstanding - 1 = countWhere _ (Function.update s.proc p _)
      have := h.outstanding_eq
      unfold activeCount at this
      omega
    · show s.log.committing = true ↔ _
      simp only [hc, Bool.false_eq_true, false_iff, not_exists]
      exact hnone'
    · intro q _ hq _
      exact absurd hq (hnone' q)
    · intro hc'
      exact absurd hc' (by simp [hc])
    · intro q ws' hq b hb
      exact h.logged_mem q ws' (update_active (by simp) hq) b hb
    · intro hb
      exact absurd hboot hb

theorem groupInv_commitStep (h : GroupInv s) (hs : s.step hl (.commitStep p) = .next s') :
    GroupInv s' := by
  obtain ⟨hp, rfl⟩ := (step_commitStep hl).1 hs
  have hc : s.log.committing = true := h.committing_iff.2 ⟨p, hp⟩
  by_cases hfin : s.pc = .finish
  · -- the end of `end_op`: `committing` is cleared and `p` leaves
    have hproc : (s.commitNext hl p).proc = Function.update s.proc p .idle := by
      rw [commitNext_proc, if_pos hfin]
    have hcom : (s.commitNext hl p).log.committing = false := by
      rw [commitNext_committing, if_pos hfin]
    have hcount := countWhere_update (fun o : OpState => o.isActive = true) s.proc p .idle
    simp only [hp, OpState.isActive_committing, OpState.isActive_idle, Bool.false_eq_true,
      ite_false] at hcount
    have hnone' : ∀ q, Function.update s.proc p .idle q ≠ .committing :=
      update_not_committing (by simp) fun q hqp hq => hqp (h.committer_unique q p hq hp)
    refine ⟨?_, ?_, ?_, ?_, ?_, ?_⟩
    · rw [commitNext_outstanding, h.outstanding_eq]
      unfold activeCount
      rw [hproc]
      omega
    · rw [hcom, hproc]
      simp only [Bool.false_eq_true, false_iff, not_exists]
      exact hnone'
    · intro q _ hq _
      rw [hproc] at hq
      exact absurd hq (hnone' q)
    · intro hc'
      rw [hcom] at hc'
      cases hc'
    · intro q ws hq
      rw [hproc] at hq
      exact absurd (update_active (by simp) hq) (h.not_active hc q ws)
    · intro hb
      rw [commitNext_boot] at hb
      exact absurd (h.running_of_ne_idle p (by simp [hp])) hb
  · exact h.of_frame (by rw [commitNext_proc, if_neg hfin])
      (by rw [commitNext_committing, if_neg hfin]) (commitNext_outstanding hl) (commitNext_boot hl)
      (fun q ws hq => absurd hq (h.not_active hc q ws))

theorem groupInv_recoverStep (h : GroupInv s) (hs : s.step hl .recoverStep = .next s') :
    GroupInv s' := by
  have hboot : s.boot ≠ .running := by
    intro hb
    simp [step, recoverStep, hb] at hs
  have hidle := h.booting_idle hboot
  have hc : s.log.committing = false := by
    cases hc : s.log.committing
    · rfl
    · obtain ⟨q, hq⟩ := h.committing_iff.1 hc
      simp [hidle q] at hq
  have hout : s.log.outstanding = 0 := by
    rw [h.outstanding_eq]
    exact countWhere_eq_zero.2 fun j => by simp [hidle j]
  rcases step_recoverStep hl hs with ⟨tail, -, -, rfl⟩ | ⟨tail, -, -, rfl⟩ | ⟨-, rfl⟩ <;>
    exact groupInv_of_idle hidle hout hc

omit [DecidableEq ι] in
theorem groupInv_reboot (start size : ℕ) (d : ℕ → β) (committed : List (List (ℕ × β))) :
    GroupInv (reboot (ι := ι) hl start size d committed) :=
  groupInv_of_idle (fun _ => rfl) rfl rfl

theorem groupInv_step {a : LogAct ι β} (h : GroupInv s) (hs : s.step hl a = .next s') :
    GroupInv s' := by
  cases a with
  | beginOp p => exact groupInv_beginOp h hs
  | logWrite p b v => exact groupInv_logWrite h hs
  | endOp p => exact groupInv_endOp h hs
  | commitStep p => exact groupInv_commitStep h hs
  | recoverStep => exact groupInv_recoverStep h hs
  | crash =>
    cases hs
    exact groupInv_reboot _ _ _ _

/-- The invariant holds in every state the log system reaches from power-on. -/
theorem groupInv_of_reachable {start size : ℕ} {d0 : ℕ → β}
    (hs : Reachable (step hl) (reboot hl start size d0 []) s) : GroupInv s :=
  hs.inv GroupInv (groupInv_reboot _ _ _ _) fun _ _ _ _ h hstep => groupInv_step h hstep

/-- Once recovery is over, the in-memory header fits the header block: `log_write`
refuses a block past `LOGSIZE`, and recovery leaves the header empty. -/
def LhFits (s : LogSys ι β) : Prop :=
  match s.boot with
  | .recovering _ => True
  | _ => s.log.lh.length ≤ LOGSIZE

omit [Fintype ι] [DecidableEq ι] in
theorem lhFits_of_length (h : s.log.lh.length ≤ LOGSIZE) : LhFits s := by
  unfold LhFits
  split <;> trivial

omit [Fintype ι] [DecidableEq ι] in
theorem LhFits.length (h : LhFits s) (hb : s.boot = .running) : s.log.lh.length ≤ LOGSIZE := by
  simpa [LhFits, hb] using h

omit [Fintype ι] in
theorem lhFits_step {a : LogAct ι β} (h : LhFits s) (hs : s.step hl a = .next s') : LhFits s' := by
  cases a with
  | beginOp p =>
    obtain ⟨-, -, -, -, rfl⟩ := (step_beginOp hl).1 hs
    exact h
  | logWrite p b v =>
    obtain ⟨ws, -, hlt, -, -, rfl⟩ := step_logWrite hl hs
    apply lhFits_of_length
    dsimp only
    split
    · exact hlt.le
    · rw [List.length_append, List.length_singleton]
      exact hlt
  | endOp p =>
    obtain ⟨ws, -, -, rfl⟩ := step_endOp hl hs
    split <;> exact h
  | commitStep p =>
    obtain ⟨-, rfl⟩ := (step_commitStep hl).1 hs
    unfold LhFits at h ⊢
    rw [commitNext_boot]
    rcases commitNext_lh hl (s := s) (p := p) with hlh | hlh <;> rw [hlh]
    · exact h
    · split <;> simp
  | recoverStep =>
    rcases step_recoverStep hl hs with ⟨tail, -, -, rfl⟩ | ⟨tail, -, -, rfl⟩ | ⟨hb, rfl⟩
    · trivial
    · exact lhFits_of_length (Nat.zero_le _)
    · simpa [LhFits, hb] using h
  | crash =>
    cases hs
    trivial

omit [Fintype ι] in
theorem lhFits_of_reachable {start size : ℕ} {d0 : ℕ → β}
    (hs : Reachable (step hl) (reboot hl start size d0 []) s) : LhFits s :=
  hs.inv LhFits (show LhFits (reboot hl start size d0 []) from trivial) fun _ _ _ _ h hstep => lhFits_step h hstep

/-- The commit point: the step of `commit()` at `write_head` writes the in-memory header
to the header block, where it reads back whole, and records it, with the cached contents
of its blocks, as the transaction committed. -/
theorem commitStep_writeHead (hg : GroupInv s) (hf : LhFits s) (hpc : s.pc = .writeHead)
    (hs : s.step hl (.commitStep p) = .next s') :
    hl.get (s'.disk s.log.start) = s.log.lh ∧
      s'.committed = s.committed ++ [s.log.lh.map fun b => (b, s.cache b)] := by
  obtain ⟨hp, rfl⟩ := (step_commitStep hl).1 hs
  have hrun : s.boot = .running :=
    Decidable.byContradiction fun hr => by simp [hg.booting_idle hr p] at hp
  unfold commitNext
  rw [hpc]
  exact ⟨get_writeHeadBlock hl s.log s.disk (hf.length hrun), rfl⟩

omit [Fintype ι] in
/-- The in-memory header loses blocks only where `install_trans(0)` ends, in recovery and
at a crash; every other step keeps each of its blocks. -/
theorem step_lh_keep {a : LogAct ι β} (hs : s.step hl a = .next s') :
    (∀ b ∈ s.log.lh, b ∈ s'.log.lh) ∨
      (∃ p tail, a = .commitStep p ∧ s.pc = .install tail ∧ s.log.lh.length ≤ tail) ∨
      a = .recoverStep ∨ a = .crash := by
  cases a with
  | beginOp p =>
    obtain ⟨-, -, -, -, rfl⟩ := (step_beginOp hl).1 hs
    exact .inl fun b hb => hb
  | logWrite p b v =>
    obtain ⟨ws, -, -, -, -, rfl⟩ := step_logWrite hl hs
    refine .inl fun c hc => ?_
    dsimp only
    split <;> simp [hc]
  | endOp p =>
    obtain ⟨ws, -, -, rfl⟩ := step_endOp hl hs
    left
    split <;> exact fun b hb => hb
  | commitStep p =>
    obtain ⟨-, rfl⟩ := (step_commitStep hl).1 hs
    unfold commitNext
    split
    · split <;> exact .inl fun b hb => hb
    · exact .inl fun b hb => hb
    · next tail hpc =>
      split
      · exact .inl fun b hb => hb
      · next ht => exact .inr (.inl ⟨p, tail, rfl, hpc, by omega⟩)
    · exact .inl fun b hb => hb
    · exact .inl fun b hb => hb
  | recoverStep => exact .inr (.inr (.inl rfl))
  | crash => exact .inr (.inr (.inr rfl))

end Steps

end Xv6.LogSys
