import Xv6.Analysis.Fork.Child
import Xv6.Analysis.ProcLifecycle

/-!
# `fork` refines the steps of the process table

`Xv6.Lifecycle` has `fork` as three steps that other processes can interleave with, on the
fields of `struct proc` that `fork`, `exit`, `wait` and `kill` use; `Xv6.Fork` has it as one
call on the whole entry, the memory and the files. `Proc.life` reads an entry of the second
as one of the first, RUNNING as RUNNABLE, and `Agrees` a process table of the first as the
entries and `nextpid` of the second.

From a table that agrees with the machine, a `fork` that returns a pid ends where the
lifecycle's three steps end, with that pid returned, and a `fork` that returns -1 ends where
the lifecycle's failed `allocproc` step ends (`fork_refines`). A `fork` that fails in
`uvmcopy` frees the entry it took, which on these fields is what a failed `allocproc` leaves.
So the invariants of `Xv6.Lifecycle` hold of every machine that a `fork` leaves from one that
agrees with a reachable table (`fork_keeps_reachable`).
Source: kernel/proc.c:88-170, kernel/proc.c:272-319
-/

set_option autoImplicit false

namespace Xv6.Fork

open TransitionSystem Lifecycle.ProcTable

/-- The fields of an entry that `Xv6.Lifecycle` keeps, with RUNNING read as RUNNABLE and
`killed` as a flag. -/
def Proc.life (pr : Proc) : Lifecycle.Proc :=
  ⟨if pr.state = .RUNNING then .RUNNABLE else pr.state, pr.pid, pr.parent, pr.killed != 0,
    pr.xstate.toInt⟩

/-- An entry `freeproc` cleared is the lifecycle's free entry. -/
theorem Proc.life_cleared (pr : Proc) (ctx : Context) :
    ({ pr.cleared with context := ctx } : Proc).life = Lifecycle.Proc.free := rfl

theorem Proc.life_state_unused (pr : Proc) :
    pr.life.state = .UNUSED ↔ pr.state = .UNUSED := by
  unfold Proc.life
  split_ifs with h <;> simp [h]

/-- A process table of `Xv6.Lifecycle` agrees with the machine: its entries are the
machine's, read by `Proc.life`, and its `nextpid` is the machine's. -/
structure Agrees (t : Lifecycle.ProcTable) (s : KState) : Prop where
  proc : ∀ q, t.proc q = (s.proc q).life
  nextpid : t.nextpid = s.nextpid

variable {s s' s1 : KState} {t : Lifecycle.ProcTable} {p c : Fin NPROC}

/-- The two scans for an UNUSED entry find the same one. -/
theorem Agrees.findUnused (h : Agrees t s) : t.findUnused = firstUnused s := by
  simp only [Lifecycle.ProcTable.findUnused, firstUnused, h.proc, Proc.life_state_unused]

/-- A failed `fork` leaves, on the lifecycle's fields, what the lifecycle's failed
`allocproc` step leaves: no entry taken, or the first UNUSED one freed and `nextpid` moved on. -/
theorem Agrees.dropped (h : Agrees t s) (hd : Dropped s s') :
    Agrees (t.forkAlloc p false) s' ∧ (t.forkAlloc p false).ret p = -1 ∧
      (t.forkAlloc p false).fork = t.fork := by
  rcases hd with ⟨hnone, hproc, hnext⟩ | ⟨c, ctx, hc, hproc, hnext⟩
  · -- no UNUSED entry: only the return value changes
    have ht : t.forkAlloc p false = t.setRet p (-1) := by
      simp only [forkAlloc, h.findUnused, hnone]
    rw [ht]
    refine ⟨⟨fun q => ?_, ?_⟩, by simp [setRet], rfl⟩
    · rw [setRet_proc, hproc]
      exact h.proc q
    · rw [setRet_nextpid, hnext]
      exact h.nextpid
  · -- the first UNUSED entry: `freeproc` on the machine, `Proc.free` in the table
    have ht : t.forkAlloc p false =
        ({ t with nextpid := t.nextpid + 1 }.setProc c Lifecycle.Proc.free).setRet p (-1) := by
      simp only [forkAlloc, h.findUnused, hc, allocpid, Bool.false_eq_true, if_false]
    rw [ht]
    refine ⟨⟨fun q => ?_, ?_⟩, by simp [setRet], rfl⟩
    · rw [setRet_proc, setProc_proc, hproc]
      by_cases hq : q = c
      · subst hq
        rw [Function.update_self, Function.update_self, Proc.life_cleared]
      · rw [Function.update_of_ne hq, Function.update_of_ne hq]
        exact h.proc q
    · rw [setRet_nextpid, setProc_nextpid, hnext, h.nextpid]

/-- A `fork` that copies ends, on the lifecycle's fields, where the lifecycle's three steps
end: the first UNUSED entry holds a RUNNABLE child of `p` with the pid `nextpid`, which `p`
returns. -/
theorem Agrees.forked {vm2 : Vm.VmState} {fs : FsState} {tf pt : UInt64} (h : Agrees t s)
    (ha : Allocated s s1 c tf pt) (hpc : p ≠ c) (hcall : t.canCall p = true) :
    ∃ t', run step t [.forkAlloc p true, .forkParent p true, .forkRun p] = .next t' ∧
      Agrees t' (forkedState s1 vm2 fs p c) ∧ t'.ret p = (s1.proc c).pid.toInt ∧
      t'.fork p = none := by
  have hc : t.findUnused = some c := h.findUnused.trans ha.first
  have hf1 : (t.forkAlloc p true).fork p = some (.alloced c) := by simp [forkAlloc, hc]
  have hf2 : ((t.forkAlloc p true).forkParent p c true).fork p = some (.parented c) := by
    simp [forkParent]
  have hproc : (forkedState s1 vm2 fs p c).proc c = _ := forkedState_child ha hpc
  refine ⟨((t.forkAlloc p true).forkParent p c true).forkRun p c, ?_, ⟨fun q => ?_, ?_⟩, ?_,
    by simp [forkRun]⟩
  · simp only [run, step, hcall, if_true, hf1, hf2]
  · by_cases hq : q = c
    · -- the child: the three writes of the steps against `forkedState`'s one
      subst hq
      rw [hproc]
      simp [forkRun, forkParent, forkAlloc, hc, allocpid, h.proc, h.nextpid, Proc.life]
    · have hother : (forkedState s1 vm2 fs p c).proc q = s.proc q := by
        simp only [forkedState, Function.update_of_ne hq]
        exact ha.others q hq
      rw [hother]
      simp [forkRun, forkParent, forkAlloc, hc, Function.update_of_ne hq, h.proc q]
  · simp [forkRun, forkParent, forkAlloc, hc, allocpid, forkedState, ha.nextpid, h.nextpid]
  · simp [forkRun, forkParent, forkAlloc, hc, allocpid, ha.entry, h.nextpid, setRet]

/-- `fork` by `p` refines the lifecycle's steps of `fork`: from a table that agrees with the
machine, in which `p` can call, a `fork` that returns -1 ends where the lifecycle's failed
`allocproc` step ends, and one that returns a pid ends where the lifecycle's three steps
end, with that pid returned; either way `p` is out of `fork`. -/
theorem fork_refines (h : ForkArgs s p) (ht : Agrees t s) (hcall : t.canCall p = true) :
    ∃ r s', (fork p).run s = .ok (r, s') ∧
      ((r = -1 ∧ ∃ t', t.step (.forkAlloc p false) = .next t' ∧ Agrees t' s' ∧
          t'.ret p = -1 ∧ t'.fork p = none) ∨
        ∃ t', run step t [.forkAlloc p true, .forkParent p true, .forkRun p] = .next t' ∧
          Agrees t' s' ∧ t'.ret p = r.toInt ∧ t'.fork p = none) := by
  obtain ⟨r, s', hrun, ⟨rfl, -, hd⟩ | ⟨c, s1, vm2, tf, pt, rest, fs, -, ha, -, rfl, rfl⟩⟩ :=
    fork_cases h
  · obtain ⟨hag, hret, hfork⟩ := ht.dropped (p := p) hd
    refine ⟨-1, s', hrun, .inl ⟨rfl, _, by simp only [step, hcall, if_true], hag, hret, ?_⟩⟩
    rw [hfork]
    exact (canCall_spec hcall).2
  · have hpc : p ≠ c := fun e => h.live (e ▸ ha.unused)
    exact ⟨_, _, hrun, .inr (ht.forked ha hpc hcall)⟩

/-- `init`, holding `/` open and one page of memory that `uvmalloc` mapped, forks from a
machine that agrees with the lifecycle's boot table. -/
theorem fork_refines_of_grown_parent :
    ForkArgs grownMachine 0 ∧ Agrees boot grownMachine ∧ boot.canCall 0 = true ∧
      ∃ r s', (fork 0).run grownMachine = .ok (r, s') ∧
        ((r = -1 ∧ ∃ t', boot.step (.forkAlloc 0 false) = .next t' ∧ Agrees t' s' ∧
            t'.ret 0 = -1 ∧ t'.fork 0 = none) ∨
          ∃ t', run step boot [.forkAlloc 0 true, .forkParent 0 true, .forkRun 0] = .next t' ∧
            Agrees t' s' ∧ t'.ret 0 = r.toInt ∧ t'.fork 0 = none) :=
  have hag : Agrees boot grownMachine := by
    obtain ⟨vm, -, -, hg⟩ := grownMachine_eq
    rw [hg]
    exact ⟨by dsimp only; decide, rfl⟩
  ⟨forkArgs_grownMachine, hag, by decide, fork_refines forkArgs_grownMachine hag (by decide)⟩

/-- A `fork` from a machine that agrees with a table reached from boot leaves a machine that
agrees with a table reached from boot, so that what `Xv6.Lifecycle` proves of every reachable
table holds of it. -/
theorem fork_keeps_reachable (h : ForkArgs s p) (hr : Reachable step boot t) (ht : Agrees t s)
    (hcall : t.canCall p = true) :
    ∃ r s' t', (fork p).run s = .ok (r, s') ∧ Reachable step boot t' ∧ Agrees t' s' := by
  obtain ⟨r, s', hrun, ⟨-, t', hstep, hag, -⟩ | ⟨t', hrun', hag, -⟩⟩ := fork_refines h ht hcall
  · exact ⟨r, s', t', hrun, hr.step _ hstep, hag⟩
  · exact ⟨r, s', t', hrun, hr.of_run hrun', hag⟩

end Xv6.Fork
