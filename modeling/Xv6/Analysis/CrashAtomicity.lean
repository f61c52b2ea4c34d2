import Xv6.Analysis.GroupCommit
import Xv6.Lib.Writes

/-!
# Crash atomicity of the write-ahead log

A crash can cut the log protocol after any `bwrite`: in the middle of `write_log`, of
either `write_head`, of `install_trans(0)`, or of an earlier `recover_from_log`, any
number of times. This file proves that whenever recovery has finished (and, more
generally, whenever no commit is running), every home block, that is every block
outside the log region `[logstart, logstart + nlog)`, holds exactly what the committed
transactions, applied in order, give it: all of a transaction's blocks or none.

The invariant is stated through the transaction the disk's log holds, `pending`: the
header's entries paired with their log blocks. Recovery installs it; the disk always
equals some `base` with a prefix of `pending` installed, and `base` with all of `pending`
installed is the committed state. Installing is idempotent (`applyWrites_take_then_all`),
so a crash during recovery only changes which `base` is meant. Before the commit point
the header is empty and `pending` is nothing; the commit point writes the header, after
`write_log` has put in every log block what the cache holds, so `pending` becomes exactly
the transaction that was recorded as committed. Nothing else in the log can change in
between because no operation runs during a commit (`GroupInv`).

The header's own block lies in the log region, so the region must have a block: the
superblock `mkfs` writes has `nlog = LOGSIZE`.
-/

set_option autoImplicit false

namespace Xv6.LogSys

open TransitionSystem Writes

variable {ι β : Type} [Fintype ι] [DecidableEq ι]

/-- The home blocks: those outside the log region. -/
def home (start size : ℕ) : Set ℕ := {b | b < start ∨ start + size ≤ b}

/-- Whether a step that passes a block to `log_write` passes a home block; every other
step counts as one. -/
def homeWrite (start size : ℕ) : LogAct ι β → Bool
  | .logWrite _ b _ => decide (b < start ∨ start + size ≤ b)
  | _ => true

/-- The transaction the log on disk `d` holds: each entry of the header with the
contents of its log block; `recover_from_log` installs exactly these writes. -/
def pending (hl : HeaderLayout β) (start : ℕ) (d : ℕ → β) : List (ℕ × β) :=
  (hl.get (d start)).mapIdx fun i b => (b, d (start + i + 1))

/-- How many entries of `pending` the running phase has installed: the loop counter of
`install_trans`, and all of them once it is done. -/
def progress (hl : HeaderLayout β) (start : ℕ) (s : LogSys ι β) : ℕ :=
  match s.boot with
  | .recovering tail => tail
  | .clearing => (hl.get (s.disk start)).length
  | .running =>
    match s.pc with
    | .install tail => tail
    | .clearHead => (hl.get (s.disk start)).length
    | _ => 0

/-- The log blocks below `k` hold what the cache holds for the blocks they log. -/
def SlotsHold (start : ℕ) (s : LogSys ι β) (k : ℕ) : Prop :=
  ∀ j < k, s.disk (start + j + 1) = s.cache (s.log.lh.getD j 0)

/-- What each phase knows about the header on disk (`H` below) and the one in memory. -/
def PhaseInv (hl : HeaderLayout β) (start : ℕ) (s : LogSys ι β) : Prop :=
  match s.boot with
  | .recovering tail => s.log.lh = hl.get (s.disk start) ∧ tail ≤ s.log.lh.length
  | .clearing => s.log.lh = []
  | .running =>
    if s.log.committing then
      match s.pc with
      | .writeLog tail =>
        hl.get (s.disk start) = [] ∧ tail ≤ s.log.lh.length ∧ SlotsHold start s tail
      | .writeHead => hl.get (s.disk start) = [] ∧ SlotsHold start s s.log.lh.length
      | .install tail => hl.get (s.disk start) = s.log.lh ∧ tail ≤ s.log.lh.length
      | .clearHead => s.log.lh = []
      | .finish => hl.get (s.disk start) = []
    else hl.get (s.disk start) = []

/-- The crash invariant. -/
structure CrashInv (hl : HeaderLayout β) (start size : ℕ) (d0 : ℕ → β) (s : LogSys ι β) :
    Prop where
  start_eq : s.log.start = start
  size_eq : s.log.size = size
  lh_home : ∀ b ∈ s.log.lh, b ∈ home start size
  lh_len : s.log.lh.length ≤ size - 1 ∧ s.log.lh.length ≤ LOGSIZE
  head_home : ∀ b ∈ hl.get (s.disk start), b ∈ home start size
  head_len : (hl.get (s.disk start)).length ≤ size - 1 ∧ (hl.get (s.disk start)).length ≤ LOGSIZE
  phase : PhaseInv hl start s
  recovered : ∃ base,
    Set.EqOn s.disk (applyWrites base ((pending hl start s.disk).take (progress hl start s)))
      (home start size) ∧
    Set.EqOn (applyWrites base (pending hl start s.disk)) (applyTxns d0 s.committed)
      (home start size)

/-! ## The log region and the home blocks -/

section Region

variable {start size : ℕ}

theorem start_not_home (hsize : 0 < size) : start ∉ home start size := by
  simp only [home, Set.mem_ofPred_eq, not_or, not_lt]
  omega

/-- Log block `tail` of a header that fits lies in the log region. -/
theorem slot_not_home {tail n : ℕ} (ht : tail < n) (hn : n ≤ size - 1) :
    start + tail + 1 ∉ home start size := by
  simp only [home, Set.mem_ofPred_eq, not_or, not_lt]
  omega

theorem ne_start_of_home {b : ℕ} (hsize : 0 < size) (hb : b ∈ home start size) : b ≠ start :=
  fun h => start_not_home hsize (h ▸ hb)

theorem ne_slot_of_home {b tail n : ℕ} (ht : tail < n) (hn : n ≤ size - 1)
    (hb : b ∈ home start size) : b ≠ start + tail + 1 :=
  fun h => slot_not_home ht hn (h ▸ hb)

/-- A write outside the home region leaves the home blocks alone. -/
theorem eqOn_update_of_not_home {d : ℕ → β} {k : ℕ} {v : β} (hk : k ∉ home start size) :
    Set.EqOn (Function.update d k v) d (home start size) := by
  intro x hx
  have hxk : x ≠ k := fun h => hk (h ▸ hx)
  simp [Function.update_of_ne hxk]

end Region

/-! ## The transaction the log holds -/

section Pending

variable {hl : HeaderLayout β} {start size : ℕ}

theorem pending_eq_nil {d : ℕ → β} (h : hl.get (d start) = []) : pending hl start d = [] := by
  simp [pending, h]

theorem length_pending (d : ℕ → β) :
    (pending hl start d).length = (hl.get (d start)).length := by
  simp [pending]

theorem getElem?_pending (d : ℕ → β) (i : ℕ) :
    (pending hl start d)[i]? = (hl.get (d start))[i]?.map fun b => (b, d (start + i + 1)) := by
  simp [pending, List.getElem?_mapIdx]

omit [Fintype ι] [DecidableEq ι] in
theorem getD_eq_getElem_of_lt {l : List ℕ} {i : ℕ} (h : i < l.length) : l.getD i 0 = l[i] := by
  simp [List.getD_eq_getElem?_getD, List.getElem?_eq_getElem h]

/-- Writing a home block changes neither the header nor the log blocks it names. -/
theorem pending_update_home {d : ℕ → β} {k : ℕ} {v : β} (hsize : 0 < size)
    (hk : k ∈ home start size) (hlen : (hl.get (d start)).length ≤ size - 1) :
    pending hl start (Function.update d k v) = pending hl start d := by
  have hhead : Function.update d k v start = d start :=
    Function.update_of_ne (ne_start_of_home hsize hk).symm _ _
  unfold pending
  rw [hhead]
  apply List.ext_getElem (by simp)
  intro i hi _
  simp only [List.getElem_mapIdx, Prod.mk.injEq, true_and]
  simp only [List.length_mapIdx] at hi
  exact Function.update_of_ne (ne_slot_of_home hi hlen hk).symm _ _

omit [Fintype ι] [DecidableEq ι] in
/-- The commit point: once every log block holds the cache's copy of the block it logs,
writing the header makes the log hold the recorded transaction. -/
theorem pending_writeHeadBlock {s : LogSys ι β} (hstart : s.log.start = start)
    (hlen : s.log.lh.length ≤ size - 1 ∧ s.log.lh.length ≤ LOGSIZE)
    (hslots : SlotsHold start s s.log.lh.length) :
    pending hl start (writeHeadBlock hl s.log s.disk) = s.log.lh.map fun b => (b, s.cache b) := by
  have hget : hl.get (writeHeadBlock hl s.log s.disk start) = s.log.lh := by
    rw [← hstart]
    exact get_writeHeadBlock hl s.log s.disk hlen.2
  unfold pending
  rw [hget]
  apply List.ext_getElem (by simp)
  intro i hi _
  simp only [List.length_mapIdx] at hi
  have hslot : start + i + 1 ≠ s.log.start := by omega
  simp only [List.getElem_mapIdx, List.getElem_map, writeHeadBlock_apply, if_neg hslot,
    hslots i hi, getD_eq_getElem_of_lt hi]

/-- One step of either install loop installs one more entry of `pending`. -/
theorem installBlock_eqOn {base d : ℕ → β} {log : Log} {tail : ℕ} (hstart : log.start = start)
    (hH : hl.get (d start) = log.lh) (ht : tail < log.lh.length)
    (h : Set.EqOn d (applyWrites base ((pending hl start d).take tail)) (home start size)) :
    Set.EqOn (installBlock log tail d)
      (applyWrites base ((pending hl start d).take (tail + 1))) (home start size) := by
  rw [List.take_add_one, getElem?_pending, hH, List.getElem?_eq_getElem ht]
  simp only [Option.map_some, Option.toList_some, applyWrites_concat]
  intro x hx
  simp only [installBlock, hstart, getD_eq_getElem_of_lt ht]
  by_cases hxk : x = log.lh[tail]
  · simp [hxk]
  · rw [Function.update_of_ne hxk, Function.update_of_ne hxk]
    exact h hx

end Pending

/-! ## Shapes of the invariant that several steps share -/

section Shapes

variable {hl : HeaderLayout β} {start size : ℕ} {d0 : ℕ → β} {s s' : LogSys ι β}

omit [Fintype ι] [DecidableEq ι] in
/-- With the header on disk empty, the home blocks hold the committed state. -/
theorem CrashInv.home_committed (h : CrashInv hl start size d0 s)
    (hH : hl.get (s.disk start) = []) :
    Set.EqOn s.disk (applyTxns d0 s.committed) (home start size) := by
  obtain ⟨base, h1, h2⟩ := h.recovered
  rw [pending_eq_nil hH, List.take_nil] at h1
  rw [pending_eq_nil hH] at h2
  exact h1.trans h2

omit [Fintype ι] [DecidableEq ι] in
/-- Outside a commit and outside recovery, the header on disk is empty. -/
theorem head_nil_of_quiet (h : PhaseInv hl start s) (hb : s.boot = .running)
    (hc : s.log.committing = false) : hl.get (s.disk start) = [] := by
  simpa [PhaseInv, hb, hc] using h

omit [Fintype ι] [DecidableEq ι] in
/-- A state with an empty header on disk and the committed state on its home blocks
satisfies the invariant as soon as its phase and its in-memory header do. -/
theorem crashInv_of_head_nil (hH : hl.get (s'.disk start) = [])
    (hhome : Set.EqOn s'.disk (applyTxns d0 s'.committed) (home start size))
    (hphase : PhaseInv hl start s') (hstart : s'.log.start = start) (hsize : s'.log.size = size)
    (hlh : ∀ b ∈ s'.log.lh, b ∈ home start size)
    (hlen : s'.log.lh.length ≤ size - 1 ∧ s'.log.lh.length ≤ LOGSIZE) :
    CrashInv hl start size d0 s' where
  start_eq := hstart
  size_eq := hsize
  lh_home := hlh
  lh_len := hlen
  head_home := by simp [hH]
  head_len := by simp [hH]
  phase := hphase
  recovered := ⟨s'.disk, by simp [pending_eq_nil hH, Set.EqOn], by simpa [pending_eq_nil hH] using hhome⟩

omit [Fintype ι] [DecidableEq ι] in
/-- A step that keeps the disk, the committed record and the log geometry from a state
outside any commit and recovery keeps the invariant, if its phase and in-memory header
are right: the operations' own steps, and the end of `end_op`. -/
theorem CrashInv.of_quiet (h : CrashInv hl start size d0 s)
    (hq : s.boot = .running ∧ s.log.committing = false) (hphase : PhaseInv hl start s')
    (hdisk : s'.disk = s.disk) (hcomm : s'.committed = s.committed)
    (hstart : s'.log.start = s.log.start) (hsize : s'.log.size = s.log.size)
    (hlh : ∀ b ∈ s'.log.lh, b ∈ home start size)
    (hlen : s'.log.lh.length ≤ size - 1 ∧ s'.log.lh.length ≤ LOGSIZE) :
    CrashInv hl start size d0 s' := by
  have hH := head_nil_of_quiet h.phase hq.1 hq.2
  refine crashInv_of_head_nil (by rw [hdisk]; exact hH) ?_ hphase (hstart ▸ h.start_eq)
    (hsize ▸ h.size_eq) hlh hlen
  rw [hdisk, hcomm]
  exact h.home_committed hH

omit [Fintype ι] [DecidableEq ι] in
/-- One step of either install loop: the same transaction stays in the log, with one
more of its entries installed. -/
theorem CrashInv.installBlock (h : CrashInv hl start size d0 s) (hsize : 0 < size) {tail : ℕ}
    (hH : hl.get (s.disk start) = s.log.lh) (ht : tail < s.log.lh.length)
    (hprog : progress hl start s = tail) (hdisk : s'.disk = Xv6.installBlock s.log tail s.disk)
    (hlog : s'.log = s.log) (hcomm : s'.committed = s.committed)
    (hprog' : progress hl start s' = tail + 1)
    (hphase : hl.get (s'.disk start) = hl.get (s.disk start) → PhaseInv hl start s') :
    CrashInv hl start size d0 s' := by
  have hk : s.log.lh.getD tail 0 ∈ home start size :=
    h.lh_home _ (by rw [getD_eq_getElem_of_lt ht]; exact List.getElem_mem ht)
  have hupd : s'.disk = Function.update s.disk (s.log.lh.getD tail 0)
      (s.disk (s.log.start + tail + 1)) := hdisk
  have hpend : pending hl start s'.disk = pending hl start s.disk := by
    rw [hupd]
    exact pending_update_home hsize hk h.head_len.1
  have hhead : hl.get (s'.disk start) = hl.get (s.disk start) := by
    rw [hupd, Function.update_of_ne (ne_start_of_home hsize hk).symm]
  obtain ⟨base, h1, h2⟩ := h.recovered
  refine ⟨hlog ▸ h.start_eq, hlog ▸ h.size_eq, hlog ▸ h.lh_home, hlog ▸ h.lh_len,
    hhead ▸ h.head_home, hhead ▸ h.head_len, hphase hhead, base, ?_, ?_⟩
  · rw [hpend, hprog', hdisk]
    exact installBlock_eqOn h.start_eq hH ht (hprog ▸ h1)
  · rw [hpend, hcomm]
    exact h2

omit [Fintype ι] [DecidableEq ι] in
/-- The end of either install loop: the in-memory header is cleared, and every entry of
the transaction in the log counts as installed. -/
theorem CrashInv.installDone (h : CrashInv hl start size d0 s) {tail : ℕ}
    (hH : hl.get (s.disk start) = s.log.lh) (ht : s.log.lh.length ≤ tail)
    (htail : tail ≤ s.log.lh.length) (hprog : progress hl start s = tail)
    (hdisk : s'.disk = s.disk) (hcomm : s'.committed = s.committed)
    (hstart : s'.log.start = s.log.start) (hsize : s'.log.size = s.log.size)
    (hlh : s'.log.lh = []) (hprog' : progress hl start s' = (hl.get (s.disk start)).length)
    (hphase : PhaseInv hl start s') : CrashInv hl start size d0 s' := by
  obtain ⟨base, h1, h2⟩ := h.recovered
  have hk : progress hl start s' = progress hl start s := by
    rw [hprog', hprog, hH]
    omega
  refine ⟨hstart ▸ h.start_eq, hsize ▸ h.size_eq, by simp [hlh], by simp [hlh],
    hdisk ▸ h.head_home, hdisk ▸ h.head_len, hphase, base, ?_, ?_⟩
  · rw [hk, hdisk]
    exact h1
  · rw [hdisk, hcomm]
    exact h2

omit [Fintype ι] [DecidableEq ι] in
/-- The header write that clears the log, in commit or in recovery: with every entry
installed, the home blocks hold the committed state and the header is empty. -/
theorem CrashInv.clearHead (h : CrashInv hl start size d0 s) (hsize : 0 < size)
    (hlh : s.log.lh = []) (hprog : progress hl start s = (hl.get (s.disk start)).length)
    (hdisk : s'.disk = writeHeadBlock hl s.log s.disk) (hcomm : s'.committed = s.committed)
    (hstart : s'.log.start = s.log.start) (hsize' : s'.log.size = s.log.size)
    (hlh' : s'.log.lh = []) (hphase : hl.get (s'.disk start) = [] → PhaseInv hl start s') :
    CrashInv hl start size d0 s' := by
  have hH : hl.get (s'.disk start) = [] := by
    rw [hdisk, ← h.start_eq, get_writeHeadBlock _ _ _ (by simp [hlh]), hlh]
  have hframe : Set.EqOn s'.disk s.disk (home start size) := by
    rw [hdisk, ← h.start_eq]
    exact eqOn_update_of_not_home (h.start_eq ▸ start_not_home hsize)
  obtain ⟨base, h1, h2⟩ := h.recovered
  rw [hprog, ← length_pending, List.take_length] at h1
  refine crashInv_of_head_nil hH (hcomm ▸ (hframe.trans h1).trans h2) (hphase hH)
    (hstart ▸ h.start_eq) (hsize' ▸ h.size_eq) (by simp [hlh']) (by simp [hlh'])

end Shapes

/-! ## Every step keeps the invariant -/

section Steps

variable {hl : HeaderLayout β} {start size : ℕ} {d0 : ℕ → β} {s s' : LogSys ι β} {p : ι}

omit [Fintype ι] in
theorem crashInv_beginOp (h : CrashInv hl start size d0 s)
    (hs : s.step hl (.beginOp p) = .next s') : CrashInv hl start size d0 s' := by
  obtain ⟨hrun, -, hc, -, rfl⟩ := (step_beginOp hl).1 hs
  exact h.of_quiet ⟨hrun, hc⟩ (by simpa [PhaseInv, hrun, hc] using h.phase) rfl rfl rfl rfl
    h.lh_home h.lh_len

/-- An operation's `log_write` runs outside any commit and recovery (`GroupInv`); it
changes the cache and the in-memory header, neither of which the disk reflects yet. -/
theorem crashInv_logWrite {b : ℕ} {v : β} (h : CrashInv hl start size d0 s) (hg : GroupInv s)
    (hb : b ∈ home start size) (hs : s.step hl (.logWrite p b v) = .next s') :
    CrashInv hl start size d0 s' := by
  obtain ⟨ws, hp, h1, h2, -, rfl⟩ := step_logWrite hl hs
  have hrun : s.boot = .running :=
    Decidable.byContradiction fun hr => by simp [hg.booting_idle hr p] at hp
  have hc : s.log.committing = false := by
    cases hc : s.log.committing
    · rfl
    · exact absurd hp (hg.not_active hc p ws)
  refine h.of_quiet ⟨hrun, hc⟩ (by simpa [PhaseInv, hrun, hc] using h.phase) rfl rfl rfl rfl
    ?_ ?_
  · intro c hc'
    dsimp only at hc'
    split at hc'
    · exact h.lh_home c hc'
    · rcases List.mem_append.1 hc' with hc' | hc'
      · exact h.lh_home c hc'
      · rw [List.mem_singleton.1 hc']
        exact hb
  · have hsz := h.size_eq
    dsimp only
    split
    · exact h.lh_len
    · simp only [List.length_append, List.length_singleton]
      omega

theorem crashInv_endOp (h : CrashInv hl start size d0 s) (hg : GroupInv s)
    (hs : s.step hl (.endOp p) = .next s') : CrashInv hl start size d0 s' := by
  obtain ⟨ws, hp, hc, rfl⟩ := step_endOp hl hs
  have hrun : s.boot = .running :=
    Decidable.byContradiction fun hr => by simp [hg.booting_idle hr p] at hp
  have hH := head_nil_of_quiet h.phase hrun hc
  split
  · -- the commit starts, with nothing in the log yet
    refine h.of_quiet ⟨hrun, hc⟩ ?_ rfl rfl rfl rfl h.lh_home h.lh_len
    by_cases hn : 0 < s.log.lh.length
    · simp [PhaseInv, hrun, hn, hH, SlotsHold]
    · simp [PhaseInv, hrun, hn, hH]
  · exact h.of_quiet ⟨hrun, hc⟩ (by simpa [PhaseInv, hrun, hc] using h.phase) rfl rfl rfl rfl
      h.lh_home h.lh_len

omit [Fintype ι] [DecidableEq ι] in
/-- One step of `write_log`: a log block gets the cache's copy; the header is still empty
and the home blocks are untouched. -/
theorem CrashInv.writeLogBlock (h : CrashInv hl start size d0 s) (hrun : s.boot = .running)
    (hc : s.log.committing = true) {tail : ℕ} (hpc : s.pc = .writeLog tail)
    (ht : tail < s.log.lh.length) :
    CrashInv hl start size d0
      { s with disk := Xv6.writeLogBlock s.log s.cache tail s.disk, pc := .writeLog (tail + 1) } := by
  have hph := h.phase
  simp only [PhaseInv, hrun, hc, ite_true, hpc] at hph
  obtain ⟨hH, -, hslots⟩ := hph
  have hslot : s.log.start + tail + 1 ∉ home start size :=
    h.start_eq ▸ slot_not_home ht h.lh_len.1
  have hframe : Set.EqOn (Xv6.writeLogBlock s.log s.cache tail s.disk) s.disk (home start size) :=
    eqOn_update_of_not_home hslot
  have hH' : hl.get (Xv6.writeLogBlock s.log s.cache tail s.disk start) = [] := by
    rw [writeLogBlock_apply, if_neg (by rw [h.start_eq]; omega), hH]
  refine crashInv_of_head_nil hH' (hframe.trans (h.home_committed hH)) ?_ h.start_eq h.size_eq
    h.lh_home h.lh_len
  simp only [PhaseInv, hrun, hc, ite_true, SlotsHold]
  refine ⟨hH', by omega, fun j hj => ?_⟩
  rw [writeLogBlock_apply, h.start_eq]
  split
  · next hjt =>
    obtain rfl : j = tail := by omega
    rfl
  · exact hslots j (by omega)

omit [Fintype ι] [DecidableEq ι] in
/-- The end of `write_log`: every log block holds its block's cached contents. -/
theorem CrashInv.writeLogDone (h : CrashInv hl start size d0 s) (hrun : s.boot = .running)
    (hc : s.log.committing = true) {tail : ℕ} (hpc : s.pc = .writeLog tail)
    (ht : ¬ tail < s.log.lh.length) : CrashInv hl start size d0 { s with pc := .writeHead } := by
  have hph := h.phase
  simp only [PhaseInv, hrun, hc, ite_true, hpc] at hph
  obtain ⟨hH, htail, hslots⟩ := hph
  obtain rfl : tail = s.log.lh.length := by omega
  refine crashInv_of_head_nil hH (h.home_committed hH) ?_ h.start_eq h.size_eq h.lh_home h.lh_len
  simp only [PhaseInv, hrun, hc, ite_true]
  exact ⟨hH, hslots⟩

omit [Fintype ι] [DecidableEq ι] in
/-- The commit point: the header goes to disk, the log now holds the transaction that is
recorded as committed, and none of it is installed yet. -/
theorem CrashInv.writeHead (h : CrashInv hl start size d0 s) (hsize : 0 < size)
    (hrun : s.boot = .running) (hc : s.log.committing = true) (hpc : s.pc = .writeHead) :
    CrashInv hl start size d0
      { s with disk := writeHeadBlock hl s.log s.disk, pc := .install 0,
               committed := s.committed ++ [s.log.lh.map fun b => (b, s.cache b)] } := by
  have hph := h.phase
  simp only [PhaseInv, hrun, hc, ite_true, hpc] at hph
  obtain ⟨hH, hslots⟩ := hph
  have hget : hl.get (writeHeadBlock hl s.log s.disk start) = s.log.lh := by
    rw [← h.start_eq]
    exact get_writeHeadBlock hl s.log s.disk h.lh_len.2
  have hframe : Set.EqOn (writeHeadBlock hl s.log s.disk) s.disk (home start size) := by
    unfold Xv6.writeHeadBlock
    rw [h.start_eq]
    exact eqOn_update_of_not_home (start_not_home hsize)
  refine ⟨h.start_eq, h.size_eq, h.lh_home, h.lh_len, hget ▸ h.lh_home, hget ▸ h.lh_len, ?_,
    s.disk, ?_, ?_⟩
  · simp only [PhaseInv, hrun, hc, ite_true]
    exact ⟨hget, Nat.zero_le _⟩
  · simp only [progress, hrun, List.take_zero, applyWrites_nil]
    exact hframe
  · rw [pending_writeHeadBlock h.start_eq h.lh_len hslots, applyTxns_concat]
    exact applyWrites_eqOn (h.home_committed hH) _

theorem crashInv_commitStep (h : CrashInv hl start size d0 s) (hg : GroupInv s)
    (hsize : 0 < size) (hs : s.step hl (.commitStep p) = .next s') :
    CrashInv hl start size d0 s' := by
  obtain ⟨hp, rfl⟩ := (step_commitStep hl).1 hs
  have hc : s.log.committing = true := hg.committing_iff.2 ⟨p, hp⟩
  have hrun : s.boot = .running :=
    Decidable.byContradiction fun hr => by simp [hg.booting_idle hr p] at hp
  have hph := h.phase
  simp only [PhaseInv, hrun, hc, ite_true] at hph
  unfold commitNext
  split
  · next tail hpc =>
    split
    · next ht => exact h.writeLogBlock hrun hc hpc ht
    · next ht => exact h.writeLogDone hrun hc hpc ht
  · next hpc => exact h.writeHead hsize hrun hc hpc
  · next tail hpc =>
    simp only [hpc] at hph
    split
    · next ht =>
      exact h.installBlock hsize hph.1 ht (by simp [progress, hrun, hpc]) rfl rfl rfl
        (by simp [progress, hrun]) fun hhead => by
          simp only [PhaseInv, hrun, hc, ite_true]
          exact ⟨hhead.trans hph.1, by omega⟩
    · next ht =>
      exact h.installDone hph.1 (by omega) hph.2 (by simp [progress, hrun, hpc]) rfl rfl rfl rfl
        rfl (by simp [progress, hrun]) (by simp [PhaseInv, hrun, hc])
  · next hpc =>
    simp only [hpc] at hph
    exact h.clearHead hsize hph (by simp [progress, hrun, hpc]) rfl rfl rfl rfl hph
      fun hH => by simp [PhaseInv, hrun, hc, hH]
  · next hpc =>
    simp only [hpc] at hph
    exact crashInv_of_head_nil hph (h.home_committed hph) (by simp [PhaseInv, hrun, hph])
      h.start_eq h.size_eq h.lh_home h.lh_len

theorem crashInv_recoverStep (h : CrashInv hl start size d0 s) (hg : GroupInv s)
    (hsize : 0 < size) (hs : s.step hl .recoverStep = .next s') :
    CrashInv hl start size d0 s' := by
  have hph := h.phase
  rcases step_recoverStep hl hs with ⟨tail, hb, ht, rfl⟩ | ⟨tail, hb, ht, rfl⟩ | ⟨hb, rfl⟩
  · simp only [PhaseInv, hb] at hph
    exact h.installBlock hsize hph.1.symm ht (by simp [progress, hb]) rfl rfl rfl
      (by simp [progress]) fun hhead => by
        simp only [PhaseInv]
        exact ⟨hph.1.trans hhead.symm, by omega⟩
  · simp only [PhaseInv, hb] at hph
    exact h.installDone hph.1.symm ht hph.2 (by simp [progress, hb]) rfl rfl rfl rfl rfl
      (by simp [progress]) (by simp [PhaseInv])
  · simp only [PhaseInv, hb] at hph
    -- recovery runs before any process, so no commit is marked running
    have hc : s.log.committing = false := by
      cases hc : s.log.committing
      · rfl
      · obtain ⟨q, hq⟩ := hg.committing_iff.1 hc
        simp [hg.booting_idle (by simp [hb]) q] at hq
    exact h.clearHead hsize hph (by simp [progress, hb]) rfl rfl rfl rfl hph
      fun hH => by simp [PhaseInv, hc, hH]

omit [Fintype ι] [DecidableEq ι] in
/-- A crash keeps the disk; the next boot reads the header back, and what recovery will
install from there is what it would have installed before. -/
theorem crashInv_crash (h : CrashInv hl start size d0 s) :
    CrashInv hl start size d0 (reboot hl s.log.start s.log.size s.disk s.committed : LogSys ι β) := by
  obtain ⟨base, h1, h2⟩ := h.recovered
  have hhead : hl.get (s.disk s.log.start) = hl.get (s.disk start) := by rw [h.start_eq]
  refine ⟨h.start_eq, h.size_eq, ?_, ?_, h.head_home, h.head_len, ?_, s.disk, ?_, ?_⟩
  · show ∀ b ∈ hl.get (s.disk s.log.start), b ∈ home start size
    rw [hhead]
    exact h.head_home
  · show (hl.get (s.disk s.log.start)).length ≤ size - 1 ∧
      (hl.get (s.disk s.log.start)).length ≤ LOGSIZE
    rw [hhead]
    exact h.head_len
  · simp [PhaseInv, reboot, hhead]
  · simp [progress, reboot, Set.EqOn]
  · show Set.EqOn (applyWrites s.disk (pending hl start s.disk)) (applyTxns d0 s.committed) _
    exact (applyWrites_eqOn h1 _).trans (by rw [applyWrites_take_then_all]; exact h2)

omit [Fintype ι] [DecidableEq ι] in
/-- Power-on with an empty header on disk, as `mkfs` leaves it. -/
theorem crashInv_init (hclean : hl.get (d0 start) = []) :
    CrashInv hl start size d0 (reboot hl start size d0 [] : LogSys ι β) :=
  crashInv_of_head_nil hclean (by simp [reboot, Set.EqOn]) (by simp [PhaseInv, reboot, hclean])
    rfl rfl (by simp [reboot, hclean]) (by simp [reboot, hclean])

theorem crashInv_step {a : LogAct ι β} (h : CrashInv hl start size d0 s) (hg : GroupInv s)
    (hsize : 0 < size) (ha : homeWrite start size a = true) (hs : s.step hl a = .next s') :
    CrashInv hl start size d0 s' := by
  cases a with
  | beginOp p => exact crashInv_beginOp h hs
  | logWrite p b v => exact crashInv_logWrite h hg (by simpa [homeWrite, home] using ha) hs
  | endOp p => exact crashInv_endOp h hg hs
  | commitStep p => exact crashInv_commitStep h hg hsize hs
  | recoverStep => exact crashInv_recoverStep h hg hsize hs
  | crash =>
    cases hs
    exact crashInv_crash h

/-- The crash invariant holds in every state of a run that logs only home blocks. -/
theorem crashInv_of_reachable (hsize : 0 < size) (hclean : hl.get (d0 start) = [])
    (hs : Reachable (restrict (fun _ (a : LogAct ι β) => homeWrite start size a = true) (step hl))
      (reboot hl start size d0 []) s) : CrashInv hl start size d0 s :=
  hs.inv _ (crashInv_init hclean) fun t a t' ht hinv hstep => by
    obtain ⟨ha, hstep⟩ := restrict_next hstep
    exact crashInv_step hinv (groupInv_of_reachable ht.of_restrict) hsize ha hstep

omit [Fintype ι] [DecidableEq ι] in
/-- Outside a commit and after recovery, the home blocks hold the committed state. -/
theorem home_committed_of_quiet (h : CrashInv hl start size d0 s) (hrun : s.boot = .running)
    (hidle : s.log.committing = false) :
    ∀ b ∈ home start size, s.disk b = applyTxns d0 s.committed b :=
  h.home_committed (head_nil_of_quiet h.phase hrun hidle)

/-- The header write that ends a commit leaves every home block holding the committed
state. -/
theorem home_committed_of_clearHead (h : CrashInv hl start size d0 s) (hg : GroupInv s)
    (hsize : 0 < size) (hpc : s.pc = .clearHead) (hs : s.step hl (.commitStep p) = .next s') :
    ∀ b ∈ home start size, s'.disk b = applyTxns d0 s'.committed b := by
  have h' := crashInv_commitStep h hg hsize hs
  obtain ⟨hp, rfl⟩ := (step_commitStep hl).1 hs
  have hc : s.log.committing = true := hg.committing_iff.2 ⟨p, hp⟩
  have hrun : s.boot = .running :=
    Decidable.byContradiction fun hr => by simp [hg.booting_idle hr p] at hp
  -- the commit is at its end, where the header on disk is empty
  have hnext : s.commitNext hl p = { s with disk := writeHeadBlock hl s.log s.disk, pc := .finish } := by
    unfold commitNext
    rw [hpc]
  have hH : hl.get ((s.commitNext hl p).disk start) = [] := by
    have hph := h'.phase
    rw [hnext] at hph ⊢
    simpa [PhaseInv, hrun, hc] using hph
  exact fun b hb => h'.home_committed hH hb

end Steps

/-! ## The contract -/

/-- **Crash atomicity of the log.** Take any run of the log system from power-on on a disk
whose header is empty (as `mkfs` leaves it), in which no block passed to `log_write` lies
in the log region, with the operations interleaved in any order and a crash after any
`bwrite` (in `write_log`, either `write_head`, `install_trans`, or an earlier recovery), any
number of times. Whenever `recover_from_log` completes, every home block holds exactly its
contents after the committed transactions, applied in order: all of a transaction's
blocks show its updates, and a transaction whose commit point was never reached shows
none of them.
Source: kernel/log.c:68-123, kernel/log.c:178-203 -/
theorem recover_from_log_atomic (hl : HeaderLayout β) (start size : ℕ) (d0 : ℕ → β)
    (hsize : 0 < size) (hclean : hl.get (d0 start) = []) {s s' : LogSys ι β}
    (hs : Reachable (restrict (fun _ (a : LogAct ι β) => homeWrite start size a = true) (step hl))
      (reboot hl start size d0 []) s)
    (hrec : s.step hl .recoverStep = .next s') (hdone : s'.boot = .running) :
    ∀ b ∈ home start size, s'.disk b = applyTxns d0 s'.committed b := by
  have hs' : Reachable (restrict (fun _ (a : LogAct ι β) => homeWrite start size a = true) (step hl))
      (reboot hl start size d0 []) s' :=
    hs.step .recoverStep (by simpa [restrict, homeWrite] using hrec)
  -- the step that finished recovery was its header write, made before any process ran
  have hg := groupInv_of_reachable hs.of_restrict
  rcases step_recoverStep hl hrec with ⟨tail, -, -, rfl⟩ | ⟨tail, -, -, rfl⟩ | ⟨hb, rfl⟩
  · cases hdone
  · cases hdone
  · have hc : s.log.committing = false := by
      cases hc : s.log.committing
      · rfl
      · obtain ⟨q, hq⟩ := hg.committing_iff.1 hc
        simp [hg.booting_idle (by simp [hb]) q] at hq
    exact home_committed_of_quiet (crashInv_of_reachable hsize hclean hs') rfl hc

/-- A two-process run on the `mkfs` log geometry: an operation logs block 40, its commit
installs it, the machine crashes before the header is cleared, and the recovery that
follows completes with block 40 holding the committed contents. -/
theorem recover_from_log_atomic_after_crash :
    ∃ s s' : LogSys (Fin 2) (List ℕ),
      Reachable (restrict (fun _ (a : LogAct (Fin 2) (List ℕ)) => homeWrite 2 LOGSIZE a = true)
        (step listLayout)) (reboot listLayout 2 LOGSIZE (fun _ => []) []) s ∧
      s.step listLayout .recoverStep = .next s' ∧ s'.boot = .running ∧
      ∀ b ∈ home 2 LOGSIZE, s'.disk b = applyTxns (fun _ => []) s'.committed b := by
  have hrun : Reachable (restrict (fun _ (a : LogAct (Fin 2) (List ℕ)) => homeWrite 2 LOGSIZE a = true)
      (step listLayout)) (reboot listLayout 2 LOGSIZE (fun _ => []) []) _ :=
    Reachable.of_run .init (show run _ _ [.recoverStep, .recoverStep, .beginOp 0,
      .logWrite 0 40 [7], .endOp 0, .commitStep 0, .commitStep 0, .commitStep 0, .commitStep 0,
      .crash, .recoverStep, .recoverStep] = .next _ from rfl)
  exact ⟨_, _, hrun, rfl, rfl,
    recover_from_log_atomic listLayout 2 LOGSIZE (fun _ => []) (by decide) rfl hrun rfl rfl⟩

/-- **Group commit contains whole operations.** In every state the log system reaches
from power-on, under any interleaving of the processes' steps, commits, crashes and
recovery: a commit runs only while no operation is outstanding and none is between
`begin_op` and `end_op`; `begin_op` returns only while no commit runs; `end_op` never
finds `committing` set; every block an operation has passed to `log_write` is in the
in-memory header, and the header loses blocks only where `install_trans(0)` ends (or in
recovery, or at a crash). The commit point writes that header to the header block, where
it reads back whole, and it is the transaction committed, with the cached contents of its
blocks. On a run from a clean log in which only home blocks are logged, the header write
that ends the commit leaves every home block holding the committed transactions applied
in order, this one last: `install_trans(0)` has copied all of its blocks home. So all of an
operation's log writes are written and installed by the one commit after its `end_op`,
and no commit writes a block of an operation still in progress.
Source: kernel/log.c:126-235 -/
theorem group_commit_contains_operations (hl : HeaderLayout β) (start size : ℕ)
    (d0 : ℕ → β) {s : LogSys ι β} (hs : Reachable (step hl) (reboot hl start size d0 []) s) :
    (∀ p, s.proc p = .committing → s.log.outstanding = 0 ∧ ∀ q ws, s.proc q ≠ .active ws) ∧
    (∀ p s', s.step hl (.beginOp p) = .next s' → s.log.committing = false) ∧
    (∀ p msg, s.step hl (.endOp p) ≠ .panic msg) ∧
    (∀ p ws, s.proc p = .active ws → ∀ b ∈ ws, b ∈ s.log.lh) ∧
    (∀ a s', s.step hl a = .next s' → (∀ b ∈ s.log.lh, b ∈ s'.log.lh) ∨
      (∃ p tail, a = .commitStep p ∧ s.pc = .install tail ∧ s.log.lh.length ≤ tail) ∨
      a = .recoverStep ∨ a = .crash) ∧
    (∀ p s', s.pc = .writeHead → s.step hl (.commitStep p) = .next s' →
      hl.get (s'.disk s.log.start) = s.log.lh ∧
        s'.committed = s.committed ++ [s.log.lh.map fun b => (b, s.cache b)]) ∧
    (0 < size → hl.get (d0 start) = [] →
      Reachable (restrict (fun _ (a : LogAct ι β) => homeWrite start size a = true) (step hl))
        (reboot hl start size d0 []) s →
      ∀ p s', s.pc = .clearHead → s.step hl (.commitStep p) = .next s' →
        ∀ b ∈ home start size, s'.disk b = applyTxns d0 s'.committed b) := by
  have h := groupInv_of_reachable hs
  refine ⟨?_, ?_, ?_, h.logged_mem, fun a s' hstep => step_lh_keep hstep,
    fun p s' hpc hstep => commitStep_writeHead h (lhFits_of_reachable hs) hpc hstep, ?_⟩
  · intro p hp
    have hc := h.committing_iff.2 ⟨p, hp⟩
    exact ⟨h.committing_quiet hc, h.not_active hc⟩
  · intro p s' hstep
    exact ((step_beginOp hl).1 hstep).2.2.1
  · intro p msg hpanic
    obtain ⟨⟨ws, hp⟩, hc, -⟩ := (step_endOp_panic hl).1 hpanic
    exact h.not_active hc p ws hp
  · intro hsize hclean hr p s' hpc hstep
    exact home_committed_of_clearHead (crashInv_of_reachable hsize hclean hr) h hsize hpc hstep

/-- A two-process run on the `mkfs` log geometry stopped at the commit point: an operation
has logged block 40 and ended, and its commit has written the log block. -/
theorem group_commit_at_commit_point :
    ∃ s : LogSys (Fin 2) (List ℕ), Reachable (step listLayout)
      (reboot listLayout 2 LOGSIZE (fun _ => []) []) s ∧ s.pc = .writeHead ∧ s.log.lh = [40] ∧
    ((∀ p, s.proc p = .committing → s.log.outstanding = 0 ∧ ∀ q ws, s.proc q ≠ .active ws) ∧
    (∀ p s', s.step listLayout (.beginOp p) = .next s' → s.log.committing = false) ∧
    (∀ p msg, s.step listLayout (.endOp p) ≠ .panic msg) ∧
    (∀ p ws, s.proc p = .active ws → ∀ b ∈ ws, b ∈ s.log.lh) ∧
    (∀ a s', s.step listLayout a = .next s' → (∀ b ∈ s.log.lh, b ∈ s'.log.lh) ∨
      (∃ p tail, a = .commitStep p ∧ s.pc = .install tail ∧ s.log.lh.length ≤ tail) ∨
      a = .recoverStep ∨ a = .crash) ∧
    (∀ p s', s.pc = .writeHead → s.step listLayout (.commitStep p) = .next s' →
      listLayout.get (s'.disk s.log.start) = s.log.lh ∧
        s'.committed = s.committed ++ [s.log.lh.map fun b => (b, s.cache b)]) ∧
    (0 < LOGSIZE → listLayout.get ((fun _ => ([] : List ℕ)) 2) = [] →
      Reachable (restrict (fun _ (a : LogAct (Fin 2) (List ℕ)) => homeWrite 2 LOGSIZE a = true)
        (step listLayout)) (reboot listLayout 2 LOGSIZE (fun _ => []) []) s →
      ∀ p s', s.pc = .clearHead → s.step listLayout (.commitStep p) = .next s' →
        ∀ b ∈ home 2 LOGSIZE, s'.disk b = applyTxns (fun _ => []) s'.committed b)) := by
  have hrun : Reachable (step listLayout)
      (reboot listLayout 2 LOGSIZE (fun _ => []) [] : LogSys (Fin 2) (List ℕ)) _ :=
    Reachable.of_run .init (show run _ _ [.recoverStep, .recoverStep, .beginOp 0,
      .logWrite 0 40 [7], .endOp 0, .commitStep 0, .commitStep 0] = .next _ from rfl)
  exact ⟨_, hrun, rfl, rfl,
    group_commit_contains_operations listLayout 2 LOGSIZE (fun _ => []) hrun⟩

end Xv6.LogSys
