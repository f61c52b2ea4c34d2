import Xv6.Analysis.ProcLifecycle

/-!
# Pids: what `kill` finds and what `allocpid` hands out

`freeproc` sets the pid of an entry it frees to 0, and at boot every entry but `initproc`
has pid 0, so an UNUSED entry has pid 0 (`UnusedPid`). `kill` compares the pid of every
entry, UNUSED ones included, and `allocproc` does not clear `killed`: while no process in use
has pid 0, `kill(0)` marks the first UNUSED entry, which is the entry the next `allocproc`
takes, and returns 0. The child the next `fork` makes there is killed from its start
(`kill_zero_kills_next_child`).

`nextpid` is an `int`, and `allocpid`'s `nextpid + 1` wraps past `INT_MAX`. A failed `fork`
moves `nextpid` on as a good one does (`failed_forks`), so every value is reached: past
`INT_MAX` the pid handed out is negative, `2^32` allocations after `initproc`'s it is
`initproc`'s pid again (`allocpid_wraps`), and a child with pid -1 makes its parent's `wait`
return -1 (`wait_returns_minus_one_for_child`).
Source: kernel/proc.c:88-167, kernel/proc.c:386-428, kernel/proc.c:578-597
-/

set_option autoImplicit false

namespace Xv6.Lifecycle

open TransitionSystem

namespace ProcTable

variable {s : ProcTable}

/-! ## UNUSED entries have pid 0 -/

/-- Every UNUSED entry has pid 0. -/
def UnusedPid (s : ProcTable) : Prop := ∀ q, (s.proc q).state = .UNUSED → (s.proc q).pid = 0

theorem unusedPid_boot : boot.UnusedPid := by
  intro q hq
  by_cases h0 : q = ⟨0, by decide⟩
  · subst h0
    cases hq
  · rw [show boot.proc q = Proc.free from if_neg h0]
    rfl

theorem UnusedPid.setProc (h : s.UnusedPid) {q : Fin NPROC} {v : Proc}
    (hv : v.state = .UNUSED → v.pid = 0) : (s.setProc q v).UnusedPid := by
  intro r hr
  by_cases hrq : r = q
  · subst hrq
    simp only [setProc_proc, Function.update_self] at hr ⊢
    exact hv hr
  · simp only [setProc_proc, Function.update_of_ne hrq] at hr ⊢
    exact h r hr

theorem UnusedPid.of_proc {s' : ProcTable} (h : s.UnusedPid) (he : s'.proc = s.proc) :
    s'.UnusedPid := by
  intro q hq
  rw [he] at hq ⊢
  exact h q hq

/-- Every step keeps the pids of the UNUSED entries at 0: the entries a step frees are
`Proc.free`, the one `allocproc` takes becomes USED, and the others keep their state or
leave UNUSED only through `fork`. -/
theorem unusedPid_step {a : ProcAct} {s' : ProcTable} (h : s.UnusedPid) (hs : s.step a = .next s') :
    s'.UnusedPid := by
  have hfree : Proc.free.state = .UNUSED → Proc.free.pid = 0 := fun _ => rfl
  cases a with
  | forkAlloc p ok =>
    simp only [step] at hs
    split at hs
    · cases hs
      unfold ProcTable.forkAlloc
      split
      · exact h.of_proc rfl
      · cases ok
        · exact (UnusedPid.setProc (s := { s with nextpid := s.nextpid + 1 }) h hfree).of_proc rfl
        · refine (UnusedPid.setProc (s := { s with nextpid := s.nextpid + 1 }) h ?_).of_proc rfl
          intro hu
          cases hu
    · cases hs
  | forkParent p ok =>
    simp only [step] at hs
    split at hs
    · next np hf =>
      cases hs
      unfold ProcTable.forkParent
      cases ok
      · simp only [Bool.false_eq_true, if_false]
        exact (h.setProc hfree).of_proc rfl
      · simp only [if_true]
        exact (h.setProc (v := { s.proc np with parent := some p }) fun hu => h np hu).of_proc rfl
    · cases hs
  | forkRun p =>
    simp only [step] at hs
    split at hs
    · cases hs
      exact (h.setProc fun hu => by cases hu).of_proc rfl
    · cases hs
  | exit p status =>
    simp only [step] at hs
    split at hs
    · split at hs
      · cases hs
      · cases hs
        -- `reparent` changes parents only; `p` itself becomes a ZOMBIE
        have hre : (s.reparent p).UnusedPid := by
          intro q hq
          simp only [reparent] at hq ⊢
          split_ifs at hq ⊢ <;> exact h q hq
        exact (UnusedPid.setProc (s := s.reparent p) hre fun hu => by cases hu).of_proc rfl
    · cases hs
  | wait p addr ok =>
    simp only [step] at hs
    split at hs
    · split at hs
      · cases hs
        unfold ProcTable.reap
        split
        · exact h.of_proc rfl
        · exact (h.setProc hfree).of_proc rfl
      · split at hs
        · cases hs
          exact h.of_proc rfl
        · cases hs
    · cases hs
  | kill p pid =>
    simp only [step] at hs
    split at hs
    · cases hs
      unfold ProcTable.kill
      split
      · next q hq =>
        -- a killed entry keeps its pid, and stays UNUSED if it was
        refine (h.setProc (v := { s.proc q with
          killed := true
          state := if (s.proc q).state = .SLEEPING then .RUNNABLE else (s.proc q).state })
          fun hu => h q ?_).of_proc rfl
        by_cases hsl : (s.proc q).state = .SLEEPING
        · simp [hsl] at hu
        · simpa [hsl] using hu
      · exact h.of_proc rfl
    · cases hs

theorem unusedPid_of_reachable {s : ProcTable} (hs : Reachable step boot s) : s.UnusedPid :=
  hs.inv UnusedPid unusedPid_boot fun _ _ _ _ h hstep => unusedPid_step h hstep

/-! ## `kill(0)` -/

/-- `allocproc`'s scan reads the states only. -/
theorem findUnused_congr {s' : ProcTable} (h : ∀ q, (s'.proc q).state = (s.proc q).state) :
    s'.findUnused = s.findUnused := by
  simp only [findUnused, h]

/-- With UNUSED entries at pid 0 and no entry in use at pid 0, the entries of pid 0 are the
UNUSED ones, so `kill(0)` scans to the entry `allocproc` would take. -/
theorem findPid_zero (h : s.UnusedPid) (hlive : ∀ q, (s.proc q).state ≠ .UNUSED → (s.proc q).pid ≠ 0) :
    s.findPid 0 = s.findUnused := by
  have hiff : ∀ q, (s.proc q).pid = 0 ↔ (s.proc q).state = .UNUSED := fun q =>
    ⟨fun hq => Classical.byContradiction fun hu => hlive q hu hq, h q⟩
  simp only [findPid, findUnused, hiff]

/-- From every reachable table in which `p` can call, some entry is UNUSED and no entry in
use has pid 0, `kill(0)` returns 0: it marks the first UNUSED entry killed. A `fork` by `p`
then takes that entry, and its child runs killed. -/
theorem kill_zero_kills_next_child {s : ProcTable} (hs : Reachable step boot s) {p q : Fin NPROC}
    (hlive : ∀ r, (s.proc r).state ≠ .UNUSED → (s.proc r).pid ≠ 0)
    (hp : s.canCall p = true) (hq : s.findUnused = some q) :
    ∃ s1 s2, s.step (.kill p 0) = .next s1 ∧ s1.ret p = 0 ∧
      (s1.proc q).state = .UNUSED ∧ (s1.proc q).killed = true ∧
      run step s1 [.forkAlloc p true, .forkParent p true, .forkRun p] = .next s2 ∧
      (s2.proc q).state = .RUNNABLE ∧ (s2.proc q).killed = true ∧ (s2.proc q).parent = some p := by
  have hu := unusedPid_of_reachable hs
  have hqu := findUnused_spec hq
  obtain ⟨hprun, hpfork⟩ := canCall_spec hp
  have hpq : p ≠ q := fun e => by rw [e, hqu] at hprun; cases hprun
  -- the entry `kill(0)` marks, still UNUSED
  let v : Proc := { s.proc q with killed := true }
  have hkill : s.kill p 0 = (s.setProc q v).setRet p 0 := by
    have hv : (if (s.proc q).state = .SLEEPING then ProcState.RUNNABLE else (s.proc q).state) =
        (s.proc q).state := by rw [hqu]; rfl
    simp only [kill, findPid_zero hu hlive, hq, hv]
    rfl
  set s1 := (s.setProc q v).setRet p 0 with hs1
  have hstates : ∀ r, (s1.proc r).state = (s.proc r).state := by
    intro r
    by_cases hrq : r = q
    · subst hrq
      simp [s1, v]
    · simp [s1, Function.update_of_ne hrq]
  have hcall : s1.canCall p = true := by
    simp [canCall, s1, Function.update_of_ne hpq, hprun, hpfork]
  have hq1 : s1.findUnused = some q := by rw [findUnused_congr hstates, hq]
  -- the three steps of `fork`, the first of which takes the entry `kill(0)` marked
  set s2 := ((s1.forkAlloc p true).forkParent p q true).forkRun p q with hs2
  have hf1 : (s1.forkAlloc p true).fork p = some (.alloced q) := by simp [forkAlloc, hq1]
  have hf2 : ((s1.forkAlloc p true).forkParent p q true).fork p = some (.parented q) := by
    simp [forkParent]
  refine ⟨s1, s2, by simp [step, hp, hkill], by simp [s1, setRet], by rw [hstates, hqu],
    by simp [s1, v], ?_, ?_, ?_, ?_⟩
  · simp only [run, step, hcall, if_true, hf1, hf2, s2]
  · simp [s2, forkRun]
  · simp [s2, forkRun, forkParent, forkAlloc, hq1, s1, v]
  · simp [s2, forkRun, forkParent, forkAlloc, hq1]

/-- At boot, `initproc` kills pid 0 and forks: the child in entry 1 runs killed. -/
theorem kill_zero_kills_next_child_at_boot :
    Reachable step boot boot ∧ (∀ r, (boot.proc r).state ≠ .UNUSED → (boot.proc r).pid ≠ 0) ∧
      boot.canCall ⟨0, by decide⟩ = true ∧ boot.findUnused = some ⟨1, by decide⟩ ∧
      ∃ s1 s2, boot.step (.kill ⟨0, by decide⟩ 0) = .next s1 ∧ s1.ret ⟨0, by decide⟩ = 0 ∧
        (s1.proc ⟨1, by decide⟩).state = .UNUSED ∧ (s1.proc ⟨1, by decide⟩).killed = true ∧
        run step s1 [.forkAlloc ⟨0, by decide⟩ true, .forkParent ⟨0, by decide⟩ true,
          .forkRun ⟨0, by decide⟩] = .next s2 ∧
        (s2.proc ⟨1, by decide⟩).state = .RUNNABLE ∧ (s2.proc ⟨1, by decide⟩).killed = true ∧
        (s2.proc ⟨1, by decide⟩).parent = some ⟨0, by decide⟩ :=
  ⟨.init, by decide, by decide, by decide,
    kill_zero_kills_next_child .init (by decide) (by decide) (by decide)⟩

/-! ## `allocpid` past `INT_MAX` -/

section Wrap

/-- The boot table with `nextpid` at `n`: `initproc` alone, with no call in progress. -/
abbrev bootAt (n : Int32) (r : Fin NPROC → ℤ) : ProcTable := { boot with nextpid := n, ret := r }

theorem bootAt_canCall (n : Int32) (r : Fin NPROC → ℤ) : (bootAt n r).canCall ⟨0, by decide⟩ = true :=
  rfl

theorem bootAt_findUnused (n : Int32) (r : Fin NPROC → ℤ) :
    (bootAt n r).findUnused = some ⟨1, by decide⟩ := by
  exact (findUnused_congr (s := boot) fun _ => rfl).trans (by decide)

/-- A `fork` by `initproc` that fails at the trapframe's `kalloc` frees the entry it took and
only moves `nextpid` on. -/
theorem bootAt_failed_fork (n : Int32) (r : Fin NPROC → ℤ) :
    (bootAt n r).step (.forkAlloc ⟨0, by decide⟩ false) =
      .next (bootAt (n + 1) (Function.update r ⟨0, by decide⟩ (-1))) := by
  have hfree : Function.update boot.proc ⟨1, by decide⟩ Proc.free = boot.proc := by
    funext q
    by_cases hq : q = ⟨1, by decide⟩
    · subst hq
      simp [boot]
    · simp [Function.update_of_ne hq]
  simp only [step, bootAt_canCall, if_true, forkAlloc, bootAt_findUnused, allocpid]
  simp [setProc, setRet, hfree]

/-- `initproc` forking `k + 1` times and failing each time at the trapframe's `kalloc`
reaches the boot table with `nextpid` moved on by `k + 1`. -/
theorem failed_forks (k : ℕ) :
    Reachable step boot (bootAt (Int32.ofNat (3 + k)) (Function.update boot.ret ⟨0, by decide⟩ (-1))) := by
  induction k with
  | zero => exact Reachable.init.step _ (bootAt_failed_fork 2 boot.ret)
  | succ k ih =>
    have hs := ih.step _ (bootAt_failed_fork _ _)
    have hn : Int32.ofNat (3 + k) + 1 = Int32.ofNat (3 + (k + 1)) := by
      rw [← Nat.add_assoc, Int32.ofNat_add (3 + k) 1]
      rfl
    rwa [Function.update_idem, hn] at hs

/-- From the boot table with any `nextpid`, `initproc`'s `fork` takes entry 1 and gives it the
pid `nextpid`. -/
theorem bootAt_fork (n : Int32) (r : Fin NPROC → ℤ) :
    (bootAt n r).step (.forkAlloc ⟨0, by decide⟩ true) = .next ((bootAt n r).forkAlloc ⟨0, by decide⟩ true) ∧
      ((bootAt n r).forkAlloc ⟨0, by decide⟩ true).fork ⟨0, by decide⟩ = some (.alloced ⟨1, by decide⟩) ∧
      (((bootAt n r).forkAlloc ⟨0, by decide⟩ true).proc ⟨1, by decide⟩).pid = n ∧
      ((bootAt n r).forkAlloc ⟨0, by decide⟩ true).proc ⟨0, by decide⟩ = boot.proc ⟨0, by decide⟩ ∧
      ((bootAt n r).forkAlloc ⟨0, by decide⟩ true).initproc = ⟨0, by decide⟩ := by
  refine ⟨by simp only [step, bootAt_canCall, if_true], ?_⟩
  simp only [forkAlloc, bootAt_findUnused, allocpid]
  refine ⟨by simp, by simp [setProc], by simp [setProc], rfl⟩

/-- `allocpid` hands out pids that are not positive, and pids of live processes: after
`2^31 - 2` failed forks `initproc`'s child gets `INT_MIN`, and after `2^32 - 1` it gets 1,
the pid of `initproc`, which still runs. -/
theorem allocpid_wraps :
    (∃ s s', Reachable step boot s ∧ s.step (.forkAlloc s.initproc true) = .next s' ∧
      s'.fork s.initproc = some (.alloced ⟨1, by decide⟩) ∧ (s'.proc ⟨1, by decide⟩).pid < 0) ∧
    (∃ s s', Reachable step boot s ∧ s.step (.forkAlloc s.initproc true) = .next s' ∧
      s'.fork s.initproc = some (.alloced ⟨1, by decide⟩) ∧
      (s'.proc s'.initproc).state = .RUNNABLE ∧ s'.initproc ≠ ⟨1, by decide⟩ ∧
      (s'.proc ⟨1, by decide⟩).pid = (s'.proc s'.initproc).pid) := by
  constructor
  · obtain ⟨hstep, hfork, hpid, -⟩ := bootAt_fork (Int32.ofNat (3 + (2 ^ 31 - 3))) (Function.update boot.ret ⟨0, by decide⟩ (-1))
    refine ⟨_, _, failed_forks (2 ^ 31 - 3), hstep, hfork, ?_⟩
    rw [hpid]
    decide
  · obtain ⟨hstep, hfork, hpid, hinit, hi⟩ := bootAt_fork (Int32.ofNat (3 + (2 ^ 32 - 2))) (Function.update boot.ret ⟨0, by decide⟩ (-1))
    refine ⟨_, _, failed_forks (2 ^ 32 - 2), hstep, hfork, by rw [hi, hinit]; rfl, by rw [hi]; decide, ?_⟩
    rw [hpid, hi, hinit]
    decide

/-- After `2^32 - 3` failed forks `nextpid` is -1: `initproc`'s next child gets pid -1 and
exits, and `initproc`'s `wait`, which finds the ZOMBIE child and copies no status out,
returns -1, as it does for a caller with no children. -/
theorem wait_returns_minus_one_for_child :
    ∃ s s', Reachable step boot s ∧ (s.proc ⟨1, by decide⟩).parent = some s.initproc ∧
      (s.proc ⟨1, by decide⟩).state = .ZOMBIE ∧ (s.proc s.initproc).killed = false ∧
      s.step (.wait s.initproc 0 true) = .next s' ∧ s'.ret s.initproc = -1 := by
  obtain ⟨s, hs, htest⟩ := Reachable.of_run_nextSat (failed_forks (2 ^ 32 - 4))
    (show (run step _ [.forkAlloc ⟨0, by decide⟩ true, .forkParent ⟨0, by decide⟩ true,
      .forkRun ⟨0, by decide⟩, .exit ⟨1, by decide⟩ 3]).nextSat
        (fun s => s.initproc == ⟨0, by decide⟩ && (s.proc ⟨1, by decide⟩).parent == some ⟨0, by decide⟩ &&
          (s.proc ⟨1, by decide⟩).state == .ZOMBIE && !(s.proc ⟨0, by decide⟩).killed &&
          (s.step (.wait ⟨0, by decide⟩ 0 true)).nextSat (fun s' => s'.ret ⟨0, by decide⟩ == -1)) = true
      by decide +kernel)
  simp only [Bool.and_eq_true, beq_iff_eq, Bool.not_eq_true'] at htest
  obtain ⟨⟨⟨⟨hi, hpar⟩, hz⟩, hk⟩, hwait⟩ := htest
  obtain ⟨s', hstep, hret⟩ := Outcome.exists_of_nextSat hwait
  refine ⟨s, s', hs, ?_⟩
  rw [hi]
  exact ⟨hpar, hz, hk, hstep, by simpa using hret⟩

end Wrap

end ProcTable

end Xv6.Lifecycle
