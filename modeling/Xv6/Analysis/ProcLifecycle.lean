import Xv6.Model.Proc
import Xv6.Lib.Count
import Mathlib.Data.Multiset.AddSub

/-!
# The lifecycle of a process

Over every interleaving of the three steps of `fork`, `exit`, `wait` and `kill` by any
processes, with any allocation or copy failing, the parent links form a tree under
`initproc`: every entry other than `initproc` that is not UNUSED has a parent that is
running, or is a child in `fork`'s window between `allocproc` and `np->parent = p`, still
USED with no parent (`TreeInv`). A ZOMBIE has no children, so `wait` can free it.

The exits are accounted for (`RecordInv`): the pids and statuses passed to `exit` are, as a
multiset, those reaped by a successful `wait` together with those of the ZOMBIE entries. So
a process that exits is reaped by at most one `wait`, with its pid and status, and until
then it is a ZOMBIE that its parent's `wait` finds. The pids are the kernel's `int`, which
`allocpid` wraps: they are not distinct, and a reaped child can have the pid -1, which its
parent's `wait` returns as if it had failed (`wait_fails`).
Source: kernel/proc.c:100-170, kernel/proc.c:272-428, kernel/proc.c:575-595
-/

set_option autoImplicit false

namespace Xv6.Lifecycle

open TransitionSystem

namespace ProcTable

variable {s : ProcTable}

/-! ## The table's updates and scans -/

section Table

@[simp] theorem setProc_proc (s : ProcTable) (q : Fin NPROC) (pr : Proc) :
    (s.setProc q pr).proc = Function.update s.proc q pr := rfl
@[simp] theorem setProc_fork (s : ProcTable) (q : Fin NPROC) (pr : Proc) :
    (s.setProc q pr).fork = s.fork := rfl
@[simp] theorem setProc_nextpid (s : ProcTable) (q : Fin NPROC) (pr : Proc) :
    (s.setProc q pr).nextpid = s.nextpid := rfl
@[simp] theorem setProc_initproc (s : ProcTable) (q : Fin NPROC) (pr : Proc) :
    (s.setProc q pr).initproc = s.initproc := rfl
@[simp] theorem setProc_exited (s : ProcTable) (q : Fin NPROC) (pr : Proc) :
    (s.setProc q pr).exited = s.exited := rfl
@[simp] theorem setProc_reaped (s : ProcTable) (q : Fin NPROC) (pr : Proc) :
    (s.setProc q pr).reaped = s.reaped := rfl
@[simp] theorem setRet_proc (s : ProcTable) (p : Fin NPROC) (r : ℤ) : (s.setRet p r).proc = s.proc :=
  rfl
@[simp] theorem setRet_fork (s : ProcTable) (p : Fin NPROC) (r : ℤ) : (s.setRet p r).fork = s.fork :=
  rfl
@[simp] theorem setRet_nextpid (s : ProcTable) (p : Fin NPROC) (r : ℤ) :
    (s.setRet p r).nextpid = s.nextpid := rfl
@[simp] theorem setRet_initproc (s : ProcTable) (p : Fin NPROC) (r : ℤ) :
    (s.setRet p r).initproc = s.initproc := rfl
@[simp] theorem setRet_exited (s : ProcTable) (p : Fin NPROC) (r : ℤ) :
    (s.setRet p r).exited = s.exited := rfl
@[simp] theorem setRet_reaped (s : ProcTable) (p : Fin NPROC) (r : ℤ) :
    (s.setRet p r).reaped = s.reaped := rfl

theorem findUnused_spec {np : Fin NPROC} (h : s.findUnused = some np) :
    (s.proc np).state = .UNUSED := by
  simpa using List.find?_some h

theorem findZombieChild_spec {p np : Fin NPROC} (h : s.findZombieChild p = some np) :
    (s.proc np).parent = some p ∧ (s.proc np).state = .ZOMBIE := by
  simpa using List.find?_some h

/-- When `havekids` stays 0, no entry has `p` as its parent. -/
theorem haveKids_eq_false {p : Fin NPROC} (h : s.haveKids p = false) :
    ∀ q, (s.proc q).parent ≠ some p := by
  intro q hq
  have := List.any_eq_false.1 h q (List.mem_finRange q)
  simp [hq] at this

theorem canCall_spec {p : Fin NPROC} (h : s.canCall p = true) :
    (s.proc p).state = .RUNNABLE ∧ s.fork p = none := by
  simpa [canCall] using h

end Table

/-! ## The tree of parent links -/

section Tree

/-- The parent links of a table: `initproc` runs; a parent runs; an entry with no parent
is `initproc`, UNUSED, or a child in `fork`'s first window; each `fork` in progress holds its
own USED child, which has no parent before `np->parent = p` and its forker after. -/
structure Tree (proc : Fin NPROC → Proc) (fork : Fin NPROC → Option ForkStage)
    (init : Fin NPROC) : Prop where
  init_run : (proc init).state = .RUNNABLE
  parent_run : ∀ q r, (proc q).parent = some r → (proc r).state = .RUNNABLE
  no_parent : ∀ q, (proc q).parent = none →
    q = init ∨ (proc q).state = .UNUSED ∨ ∃ p, fork p = some (.alloced q)
  unused_parent : ∀ q, (proc q).state = .UNUSED → (proc q).parent = none
  alloced : ∀ p np, fork p = some (.alloced np) →
    (proc np).state = .USED ∧ (proc np).parent = none ∧ (proc p).state = .RUNNABLE
  parented : ∀ p np, fork p = some (.parented np) →
    (proc np).state = .USED ∧ (proc np).parent = some p ∧ (proc p).state = .RUNNABLE
  used_forked : ∀ q, (proc q).state = .USED → ∃ p c, fork p = some c ∧ c.child = q
  fork_unique : ∀ p p' c c', fork p = some c → fork p' = some c' → c.child = c'.child → p = p'

/-- The parent links of the process table. -/
def TreeInv (s : ProcTable) : Prop := Tree s.proc s.fork s.initproc

variable {proc : Fin NPROC → Proc} {fork : Fin NPROC → Option ForkStage} {init : Fin NPROC}

/-- A `fork` in progress holds a USED child and its forker runs. -/
theorem Tree.child_used (h : Tree proc fork init) {p : Fin NPROC} {c : ForkStage}
    (hc : fork p = some c) : (proc c.child).state = .USED ∧ (proc p).state = .RUNNABLE := by
  cases c with
  | alloced np => exact ⟨(h.alloced p np hc).1, (h.alloced p np hc).2.2⟩
  | parented np => exact ⟨(h.parented p np hc).1, (h.parented p np hc).2.2⟩

/-- Writing an entry with the same parent, and the same state or a SLEEPING one woken,
keeps the links: what `kill` does. -/
theorem Tree.update_wake (h : Tree proc fork init) {q : Fin NPROC} {v : Proc}
    (hpar : v.parent = (proc q).parent)
    (hst : v.state = (proc q).state ∨ (proc q).state = .SLEEPING ∧ v.state = .RUNNABLE) :
    Tree (Function.update proc q v) fork init := by
  have hparent : ∀ j, (Function.update proc q v j).parent = (proc j).parent := by
    intro j
    rcases eq_or_ne j q with rfl | hj
    · rw [Function.update_self, hpar]
    · rw [Function.update_of_ne hj]
  -- a state other than RUNNABLE and SLEEPING is read the same after the write
  have hsame : ∀ j (t : ProcState), t ≠ .RUNNABLE → t ≠ .SLEEPING →
      ((Function.update proc q v j).state = t ↔ (proc j).state = t) := by
    intro j t hr hs
    rcases eq_or_ne j q with rfl | hj
    · rw [Function.update_self]
      rcases hst with hst | ⟨hs', hv⟩
      · rw [hst]
      · rw [hs', hv]
        exact ⟨fun heq => absurd heq.symm hr, fun heq => absurd heq.symm hs⟩
    · rw [Function.update_of_ne hj]
  have hrun : ∀ j, (proc j).state = .RUNNABLE → (Function.update proc q v j).state = .RUNNABLE := by
    intro j hj
    rcases eq_or_ne j q with rfl | hne
    · rw [Function.update_self]
      rcases hst with hst | ⟨hs, _⟩
      · rw [hst, hj]
      · rw [hj] at hs
        cases hs
    · rwa [Function.update_of_ne hne]
  have hunused := fun j => hsame j .UNUSED (by decide) (by decide)
  have hused := fun j => hsame j .USED (by decide) (by decide)
  refine ⟨hrun _ h.init_run, fun j r hj => hrun _ (h.parent_run j r (by rwa [← hparent j])),
    fun j hj => ?_, fun j hj => ?_, fun p np hf => ?_, fun p np hf => ?_,
    fun j hj => h.used_forked j ((hused j).1 hj), h.fork_unique⟩
  · rw [hparent] at hj
    rcases h.no_parent j hj with hi | hu | hf
    · exact .inl hi
    · exact .inr (.inl ((hunused j).2 hu))
    · exact .inr (.inr hf)
  · rw [hparent]
    exact h.unused_parent j ((hunused j).1 hj)
  · obtain ⟨hu, hn, hr⟩ := h.alloced p np hf
    exact ⟨(hused np).2 hu, by rw [hparent, hn], hrun p hr⟩
  · obtain ⟨hu, hn, hr⟩ := h.parented p np hf
    exact ⟨(hused np).2 hu, by rw [hparent, hn], hrun p hr⟩

/-- An entry that no `fork` in progress holds is no `fork`'s child. -/
theorem Tree.not_child (h : Tree proc fork init) {q : Fin NPROC} (hq : (proc q).state ≠ .USED)
    {p : Fin NPROC} {c : ForkStage} (hc : fork p = some c) : c.child ≠ q :=
  fun heq => hq (heq ▸ (h.child_used hc).1)

/-- `allocproc` gives a running process `p` outside `fork` the UNUSED entry `np`, now USED. -/
theorem Tree.alloc (h : Tree proc fork init) {p np : Fin NPROC} (hp : (proc p).state = .RUNNABLE)
    (hidle : fork p = none) (hnp : (proc np).state = .UNUSED) (pid : Int32) :
    Tree (Function.update proc np { proc np with pid, state := .USED })
      (Function.update fork p (some (.alloced np))) init := by
  have hnpar : (proc np).parent = none := h.unused_parent np hnp
  have hpnp : p ≠ np := fun heq => by rw [heq, hnp] at hp; cases hp
  have hold : ∀ {p'}, p' ≠ p → Function.update fork p (some (.alloced np)) p' = fork p' :=
    fun hne => Function.update_of_ne hne _ _
  -- the other forks in progress hold USED children, so not `np`
  have hchild : ∀ {p' c}, fork p' = some c → p' ≠ p ∧ c.child ≠ np := fun hc =>
    ⟨fun heq => (by rw [heq, hidle] at hc; cases hc), h.not_child (by rw [hnp]; decide) hc⟩
  refine ⟨?_, fun j r hj => ?_, fun j hj => ?_, fun j hj => ?_, fun p' n hf => ?_,
    fun p' n hf => ?_, fun j hj => ?_, fun p1 p2 c1 c2 h1 h2 hc => ?_⟩
  · have hne : init ≠ np := fun heq => by have := h.init_run; rw [heq, hnp] at this; cases this
    rw [Function.update_of_ne hne]
    exact h.init_run
  · rcases eq_or_ne j np with rfl | hj'
    · rw [Function.update_self] at hj
      rw [hnpar] at hj
      cases hj
    · rw [Function.update_of_ne hj'] at hj
      have hr := h.parent_run j r hj
      have hrnp : r ≠ np := fun heq => by rw [heq, hnp] at hr; cases hr
      rwa [Function.update_of_ne hrnp]
  · rcases eq_or_ne j np with rfl | hj'
    · exact .inr (.inr ⟨p, Function.update_self _ _ _⟩)
    · rw [Function.update_of_ne hj'] at hj ⊢
      rcases h.no_parent j hj with hi | hu | ⟨p', hf⟩
      · exact .inl hi
      · exact .inr (.inl hu)
      · exact .inr (.inr ⟨p', by rw [hold (hchild hf).1, hf]⟩)
  · rcases eq_or_ne j np with rfl | hj'
    · rw [Function.update_self] at hj
      cases hj
    · rw [Function.update_of_ne hj'] at hj ⊢
      exact h.unused_parent j hj
  · rcases eq_or_ne p' p with rfl | hp'
    · rw [Function.update_self, Option.some.injEq, ForkStage.alloced.injEq] at hf
      subst hf
      rw [Function.update_self, Function.update_of_ne hpnp]
      exact ⟨rfl, hnpar, hp⟩
    · rw [hold hp'] at hf
      obtain ⟨hu, hn, hr⟩ := h.alloced p' n hf
      have hn' : n ≠ np := (hchild hf).2
      have hp'' : p' ≠ np := fun heq => by rw [heq, hnp] at hr; cases hr
      rw [Function.update_of_ne hn', Function.update_of_ne hp'']
      exact ⟨hu, hn, hr⟩
  · rcases eq_or_ne p' p with rfl | hp'
    · rw [Function.update_self] at hf
      cases hf
    · rw [hold hp'] at hf
      obtain ⟨hu, hn, hr⟩ := h.parented p' n hf
      have hn' : n ≠ np := (hchild hf).2
      have hp'' : p' ≠ np := fun heq => by rw [heq, hnp] at hr; cases hr
      rw [Function.update_of_ne hn', Function.update_of_ne hp'']
      exact ⟨hu, hn, hr⟩
  · rcases eq_or_ne j np with rfl | hj'
    · exact ⟨p, .alloced j, Function.update_self _ _ _, rfl⟩
    · rw [Function.update_of_ne hj'] at hj
      obtain ⟨p', c, hf, hc⟩ := h.used_forked j hj
      exact ⟨p', c, by rw [hold (hchild hf).1, hf], hc⟩
  · -- the new child `np` is no other fork's
    rcases eq_or_ne p1 p with rfl | hp1 <;> rcases eq_or_ne p2 p1 with rfl | hp2
    · rfl
    · rw [Function.update_self, Option.some.injEq] at h1
      rw [hold hp2] at h2
      subst h1
      exact absurd hc.symm (hchild h2).2
    · rfl
    · rcases eq_or_ne p2 p with rfl | hp2'
      · rw [Function.update_self, Option.some.injEq] at h2
        rw [hold hp1] at h1
        subst h2
        exact absurd hc (hchild h1).2
      · rw [hold hp1] at h1
        rw [hold hp2'] at h2
        exact h.fork_unique p1 p2 c1 c2 h1 h2 hc

/-- Freeing an entry that is neither running nor a `fork`'s child keeps the links: what
`wait` does to the ZOMBIE it reaps. -/
theorem Tree.free (h : Tree proc fork init) {q : Fin NPROC} (hrun : (proc q).state ≠ .RUNNABLE)
    (hused : (proc q).state ≠ .USED) : Tree (Function.update proc q Proc.free) fork init := by
  have hinit : init ≠ q := fun heq => hrun (heq ▸ h.init_run)
  refine ⟨by rw [Function.update_of_ne hinit]; exact h.init_run, fun j r hj => ?_, fun j hj => ?_,
    fun j hj => ?_, fun p n hf => ?_, fun p n hf => ?_, fun j hj => ?_, h.fork_unique⟩
  · rcases eq_or_ne j q with rfl | hj'
    · rw [Function.update_self] at hj
      cases hj
    · rw [Function.update_of_ne hj'] at hj
      have hr := h.parent_run j r hj
      have hrq : r ≠ q := fun heq => hrun (by rw [← heq]; exact hr)
      rwa [Function.update_of_ne hrq]
  · rcases eq_or_ne j q with rfl | hj'
    · exact .inr (.inl (by rw [Function.update_self]; rfl))
    · rw [Function.update_of_ne hj'] at hj ⊢
      exact h.no_parent j hj
  · rcases eq_or_ne j q with rfl | hj'
    · rw [Function.update_self]
      rfl
    · rw [Function.update_of_ne hj'] at hj ⊢
      exact h.unused_parent j hj
  · obtain ⟨hu, hn, hr⟩ := h.alloced p n hf
    have hnq : n ≠ q := fun heq => hused (by rw [← heq]; exact hu)
    have hpq : p ≠ q := fun heq => hrun (by rw [← heq]; exact hr)
    rw [Function.update_of_ne hnq, Function.update_of_ne hpq]
    exact ⟨hu, hn, hr⟩
  · obtain ⟨hu, hn, hr⟩ := h.parented p n hf
    have hnq : n ≠ q := fun heq => hused (by rw [← heq]; exact hu)
    have hpq : p ≠ q := fun heq => hrun (by rw [← heq]; exact hr)
    rw [Function.update_of_ne hnq, Function.update_of_ne hpq]
    exact ⟨hu, hn, hr⟩
  · rcases eq_or_ne j q with rfl | hj'
    · rw [Function.update_self] at hj
      cases hj
    · rw [Function.update_of_ne hj'] at hj
      exact h.used_forked j hj

/-- Ending `p`'s `fork` keeps the other forks in progress as they were. -/
theorem fork_update_none {p p' : Fin NPROC} {c : ForkStage}
    (h : Function.update fork p none p' = some c) : p' ≠ p ∧ fork p' = some c := by
  rcases eq_or_ne p' p with rfl | hp'
  · rw [Function.update_self] at h
    cases h
  · rw [Function.update_of_ne hp'] at h
    exact ⟨hp', h⟩

/-- The other forks in progress hold other children than `p`'s. -/
theorem Tree.child_ne (h : Tree proc fork init) {p p' : Fin NPROC} {c c' : ForkStage}
    (hc : fork p = some c) (hc' : fork p' = some c') (hp : p' ≠ p) : c'.child ≠ c.child :=
  fun heq => hp (h.fork_unique p' p c' c hc' hc heq)

/-- `np->parent = p` after `uvmcopy`. -/
theorem Tree.parent (h : Tree proc fork init) {p np : Fin NPROC} (hf : fork p = some (.alloced np)) :
    Tree (Function.update proc np { proc np with parent := some p })
      (Function.update fork p (some (.parented np))) init := by
  obtain ⟨hu, hn, hr⟩ := h.alloced p np hf
  have hpnp : p ≠ np := fun heq => by rw [heq, hu] at hr; cases hr
  have hinit : init ≠ np := fun heq => by have := h.init_run; rw [heq, hu] at this; cases this
  -- the child of `p`'s fork is still `np`; the other forks are untouched
  have hfork : ∀ {p' c'}, Function.update fork p (some (.parented np)) p' = some c' →
      ∃ c, fork p' = some c ∧ c.child = c'.child := by
    intro p' c' h'
    rcases eq_or_ne p' p with rfl | hp'
    · rw [Function.update_self, Option.some.injEq] at h'
      exact ⟨_, hf, by rw [← h']; rfl⟩
    · rw [Function.update_of_ne hp'] at h'
      exact ⟨c', h', rfl⟩
  have hold : ∀ {p'}, p' ≠ p → Function.update fork p (some (.parented np)) p' = fork p' :=
    fun hne => Function.update_of_ne hne _ _
  refine ⟨by rw [Function.update_of_ne hinit]; exact h.init_run, fun j r hj => ?_,
    fun j hj => ?_, fun j hj => ?_, fun p' n hf' => ?_, fun p' n hf' => ?_, fun j hj => ?_,
    fun p1 p2 c1 c2 h1 h2 hc => ?_⟩
  · rcases eq_or_ne j np with rfl | hj'
    · rw [Function.update_self, Option.some.injEq] at hj
      subst hj
      rwa [Function.update_of_ne hpnp]
    · rw [Function.update_of_ne hj'] at hj
      have hr' := h.parent_run j r hj
      rwa [Function.update_of_ne (fun heq => by rw [heq, hu] at hr'; cases hr')]
  · rcases eq_or_ne j np with rfl | hj'
    · rw [Function.update_self] at hj
      cases hj
    · rw [Function.update_of_ne hj'] at hj ⊢
      rcases h.no_parent j hj with hi | hun | ⟨p', hf'⟩
      · exact .inl hi
      · exact .inr (.inl hun)
      · have hp' : p' ≠ p := fun heq => by
          rw [heq, hf, Option.some.injEq, ForkStage.alloced.injEq] at hf'
          exact hj' hf'.symm
        exact .inr (.inr ⟨p', by rw [hold hp', hf']⟩)
  · rcases eq_or_ne j np with rfl | hj'
    · rw [Function.update_self] at hj
      rw [hj] at hu
      cases hu
    · rw [Function.update_of_ne hj'] at hj ⊢
      exact h.unused_parent j hj
  · rcases eq_or_ne p' p with rfl | hp'
    · rw [Function.update_self] at hf'
      cases hf'
    · rw [hold hp'] at hf'
      obtain ⟨hu', hn', hr'⟩ := h.alloced p' n hf'
      have hnn : n ≠ np := h.child_ne hf hf' hp'
      rw [Function.update_of_ne hnn,
        Function.update_of_ne (fun heq => by rw [heq, hu] at hr'; cases hr')]
      exact ⟨hu', hn', hr'⟩
  · rcases eq_or_ne p' p with rfl | hp'
    · rw [Function.update_self, Option.some.injEq, ForkStage.parented.injEq] at hf'
      subst hf'
      rw [Function.update_self, Function.update_of_ne hpnp]
      exact ⟨hu, rfl, hr⟩
    · rw [hold hp'] at hf'
      obtain ⟨hu', hn', hr'⟩ := h.parented p' n hf'
      have hnn : n ≠ np := h.child_ne hf hf' hp'
      rw [Function.update_of_ne hnn,
        Function.update_of_ne (fun heq => by rw [heq, hu] at hr'; cases hr')]
      exact ⟨hu', hn', hr'⟩
  · rcases eq_or_ne j np with rfl | hj'
    · exact ⟨p, .parented j, Function.update_self _ _ _, rfl⟩
    · rw [Function.update_of_ne hj'] at hj
      obtain ⟨p', c, hf', hc⟩ := h.used_forked j hj
      have hp' : p' ≠ p := fun heq => by rw [heq, hf] at hf'; cases hf'; exact hj' hc.symm
      exact ⟨p', c, by rw [hold hp', hf'], hc⟩
  · obtain ⟨d1, hd1, he1⟩ := hfork h1
    obtain ⟨d2, hd2, he2⟩ := hfork h2
    exact h.fork_unique p1 p2 d1 d2 hd1 hd2 (by rw [he1, he2, hc])

/-- `uvmcopy` failed: `freeproc(np)`, and `p`'s `fork` ends. -/
theorem Tree.unfork (h : Tree proc fork init) {p np : Fin NPROC} (hf : fork p = some (.alloced np)) :
    Tree (Function.update proc np Proc.free) (Function.update fork p none) init := by
  obtain ⟨hu, hn, hr⟩ := h.alloced p np hf
  have hinit : init ≠ np := fun heq => by have := h.init_run; rw [heq, hu] at this; cases this
  refine ⟨by rw [Function.update_of_ne hinit]; exact h.init_run, fun j r hj => ?_,
    fun j hj => ?_, fun j hj => ?_, fun p' n hf' => ?_, fun p' n hf' => ?_, fun j hj => ?_,
    fun p1 p2 c1 c2 h1 h2 hc => ?_⟩
  · rcases eq_or_ne j np with rfl | hj'
    · rw [Function.update_self] at hj
      cases hj
    · rw [Function.update_of_ne hj'] at hj
      have hr' := h.parent_run j r hj
      rwa [Function.update_of_ne (fun heq => by rw [heq, hu] at hr'; cases hr')]
  · rcases eq_or_ne j np with rfl | hj'
    · exact .inr (.inl (by rw [Function.update_self]; rfl))
    · rw [Function.update_of_ne hj'] at hj ⊢
      rcases h.no_parent j hj with hi | hun | ⟨p', hf'⟩
      · exact .inl hi
      · exact .inr (.inl hun)
      · have hp' : p' ≠ p := fun heq => by
          rw [heq, hf, Option.some.injEq, ForkStage.alloced.injEq] at hf'
          exact hj' hf'.symm
        exact .inr (.inr ⟨p', by rw [Function.update_of_ne hp', hf']⟩)
  · rcases eq_or_ne j np with rfl | hj'
    · rw [Function.update_self]
      rfl
    · rw [Function.update_of_ne hj'] at hj ⊢
      exact h.unused_parent j hj
  · obtain ⟨hp', hf'⟩ := fork_update_none hf'
    obtain ⟨hu', hn', hr'⟩ := h.alloced p' n hf'
    have hnn : n ≠ np := h.child_ne hf hf' hp'
    rw [Function.update_of_ne hnn,
      Function.update_of_ne (fun heq => by rw [heq, hu] at hr'; cases hr')]
    exact ⟨hu', hn', hr'⟩
  · obtain ⟨hp', hf'⟩ := fork_update_none hf'
    obtain ⟨hu', hn', hr'⟩ := h.parented p' n hf'
    have hnn : n ≠ np := h.child_ne hf hf' hp'
    rw [Function.update_of_ne hnn,
      Function.update_of_ne (fun heq => by rw [heq, hu] at hr'; cases hr')]
    exact ⟨hu', hn', hr'⟩
  · rcases eq_or_ne j np with rfl | hj'
    · rw [Function.update_self] at hj
      cases hj
    · rw [Function.update_of_ne hj'] at hj
      obtain ⟨p', c, hf', hc⟩ := h.used_forked j hj
      have hp' : p' ≠ p := fun heq => by rw [heq, hf] at hf'; cases hf'; exact hj' hc.symm
      exact ⟨p', c, by rw [Function.update_of_ne hp', hf'], hc⟩
  · exact h.fork_unique p1 p2 c1 c2 (fork_update_none h1).2 (fork_update_none h2).2 hc

/-- `np->state = RUNNABLE`, and `p`'s `fork` ends. -/
theorem Tree.run (h : Tree proc fork init) {p np : Fin NPROC} (hf : fork p = some (.parented np)) :
    Tree (Function.update proc np { proc np with state := .RUNNABLE }) (Function.update fork p none)
      init := by
  obtain ⟨hu, hn, hr⟩ := h.parented p np hf
  have hpnp : p ≠ np := fun heq => by rw [heq, hu] at hr; cases hr
  have hinit : init ≠ np := fun heq => by have := h.init_run; rw [heq, hu] at this; cases this
  refine ⟨by rw [Function.update_of_ne hinit]; exact h.init_run, fun j r hj => ?_,
    fun j hj => ?_, fun j hj => ?_, fun p' n hf' => ?_, fun p' n hf' => ?_, fun j hj => ?_,
    fun p1 p2 c1 c2 h1 h2 hc => ?_⟩
  · -- every parent runs: `np` runs now too
    have hr' : (proc r).state = .RUNNABLE := by
      rcases eq_or_ne j np with rfl | hj'
      · rw [Function.update_self, hn, Option.some.injEq] at hj
        rwa [← hj]
      · rw [Function.update_of_ne hj'] at hj
        exact h.parent_run j r hj
    rcases eq_or_ne r np with rfl | hrnp
    · rw [Function.update_self]
    · rwa [Function.update_of_ne hrnp]
  · rcases eq_or_ne j np with rfl | hj'
    · rw [Function.update_self, hn] at hj
      cases hj
    · rw [Function.update_of_ne hj'] at hj ⊢
      rcases h.no_parent j hj with hi | hun | ⟨p', hf'⟩
      · exact .inl hi
      · exact .inr (.inl hun)
      · have hp' : p' ≠ p := fun heq => by rw [heq, hf] at hf'; cases hf'
        exact .inr (.inr ⟨p', by rw [Function.update_of_ne hp', hf']⟩)
  · rcases eq_or_ne j np with rfl | hj'
    · rw [Function.update_self] at hj
      cases hj
    · rw [Function.update_of_ne hj'] at hj ⊢
      exact h.unused_parent j hj
  · obtain ⟨hp', hf'⟩ := fork_update_none hf'
    obtain ⟨hu', hn', hr'⟩ := h.alloced p' n hf'
    have hnn : n ≠ np := h.child_ne hf hf' hp'
    rw [Function.update_of_ne hnn,
      Function.update_of_ne (fun heq => by rw [heq, hu] at hr'; cases hr')]
    exact ⟨hu', hn', hr'⟩
  · obtain ⟨hp', hf'⟩ := fork_update_none hf'
    obtain ⟨hu', hn', hr'⟩ := h.parented p' n hf'
    have hnn : n ≠ np := h.child_ne hf hf' hp'
    rw [Function.update_of_ne hnn,
      Function.update_of_ne (fun heq => by rw [heq, hu] at hr'; cases hr')]
    exact ⟨hu', hn', hr'⟩
  · rcases eq_or_ne j np with rfl | hj'
    · rw [Function.update_self] at hj
      cases hj
    · rw [Function.update_of_ne hj'] at hj
      obtain ⟨p', c, hf', hc⟩ := h.used_forked j hj
      have hp' : p' ≠ p := fun heq => by rw [heq, hf] at hf'; cases hf'; exact hj' hc.symm
      exact ⟨p', c, by rw [Function.update_of_ne hp', hf'], hc⟩
  · exact h.fork_unique p1 p2 c1 c2 (fork_update_none h1).2 (fork_update_none h2).2 hc

/-- `exit`: `reparent` gives `p`'s children to `init`, and `p` becomes a ZOMBIE. -/
theorem Tree.exit (h : Tree proc fork init) {p : Fin NPROC} (hp : (proc p).state = .RUNNABLE)
    (hidle : fork p = none) (hinit : p ≠ init) (v : Proc) (hv : v.state = .ZOMBIE)
    (hvp : v.parent = (if (proc p).parent = some p then { proc p with parent := some init }
      else proc p).parent) :
    Tree (Function.update (fun q => if (proc q).parent = some p then
      { proc q with parent := some init } else proc q) p v) fork init := by
  set proc' := Function.update (fun q => if (proc q).parent = some p then
      { proc q with parent := some init } else proc q) p v with hproc'
  -- after the write, every entry but `p` has its state, and every parent link that named `p`
  -- names `init`
  have hst : ∀ j, j ≠ p → (proc' j).state = (proc j).state := by
    intro j hj
    rw [hproc', Function.update_of_ne hj]
    split <;> rfl
  have hpar : ∀ j, (proc' j).parent =
      if (proc j).parent = some p then some init else (proc j).parent := by
    intro j
    rcases eq_or_ne j p with rfl | hj
    · rw [hproc', Function.update_self, hvp]
      split <;> simp_all
    · rw [hproc', Function.update_of_ne hj]
      split <;> simp_all
  have hinit' : init ≠ p := fun heq => hinit heq.symm
  have hforker : ∀ {p' c}, fork p' = some c → p' ≠ p := fun hc heq => by
    rw [heq, hidle] at hc
    cases hc
  have hchild : ∀ {p' c}, fork p' = some c → c.child ≠ p := fun hc =>
    h.not_child (by rw [hp]; decide) hc
  refine ⟨by rw [hst _ hinit']; exact h.init_run, fun j r hj => ?_, fun j hj => ?_,
    fun j hj => ?_, fun p' n hf => ?_, fun p' n hf => ?_, fun j hj => ?_, h.fork_unique⟩
  · rw [hpar] at hj
    split at hj
    · rw [Option.some.injEq] at hj
      subst hj
      rw [hst _ hinit']
      exact h.init_run
    · next hne =>
      have hrp : r ≠ p := fun heq => hne (heq ▸ hj)
      rw [hst _ hrp]
      exact h.parent_run j r hj
  · rw [hpar] at hj
    have hj' : (proc j).parent = none := by
      split at hj
      · cases hj
      · exact hj
    rcases eq_or_ne j p with rfl | hjp
    · -- `p` runs and is not `init`, so it has a parent
      rcases h.no_parent j hj' with hi | hun | ⟨p', hf⟩
      · exact absurd hi hinit
      · rw [hp] at hun
        cases hun
      · have := (h.alloced p' j hf).1
        rw [hp] at this
        cases this
    · rw [hst _ hjp]
      exact h.no_parent j hj'
  · have hjp : j ≠ p := fun heq => by
      rw [heq, hproc', Function.update_self, hv] at hj
      cases hj
    rw [hst _ hjp] at hj
    rw [hpar, h.unused_parent j hj]
    rfl
  · obtain ⟨hu, hn, hr⟩ := h.alloced p' n hf
    have hnp : n ≠ p := hchild hf
    refine ⟨by rw [hst _ hnp]; exact hu, by rw [hpar, hn]; rfl, by rw [hst _ (hforker hf)]; exact hr⟩
  · obtain ⟨hu, hn, hr⟩ := h.parented p' n hf
    have hnp : n ≠ p := hchild hf
    have hp'p : p' ≠ p := hforker hf
    refine ⟨by rw [hst _ hnp]; exact hu, ?_, by rw [hst _ hp'p]; exact hr⟩
    rw [hpar, hn, if_neg (fun heq => hp'p (Option.some.inj heq))]
  · have hjp : j ≠ p := fun heq => by
      rw [heq, hproc', Function.update_self, hv] at hj
      cases hj
    rw [hst _ hjp] at hj
    exact h.used_forked j hj

end Tree

/-- Every step keeps the parent links. -/
theorem treeInv_step {a : ProcAct} {s' : ProcTable} (h : s.TreeInv) (hs : s.step a = .next s') :
    s'.TreeInv := by
  cases a with
  | forkAlloc p ok =>
    simp only [step] at hs
    split at hs
    · next hp =>
      cases hs
      obtain ⟨hrun, hidle⟩ := canCall_spec hp
      unfold ProcTable.forkAlloc
      split
      · exact h
      · next np hnp =>
        have hun := findUnused_spec hnp
        cases ok
        · exact h.update_wake (by rw [h.unused_parent np hun]; rfl) (.inl (by rw [hun]; rfl))
        · exact h.alloc hrun hidle hun (allocpid s.nextpid).1
    · cases hs
  | forkParent p ok =>
    simp only [step] at hs
    split at hs
    · next np hf =>
      cases hs
      cases ok
      · exact h.unfork hf
      · exact h.parent hf
    · cases hs
  | forkRun p =>
    simp only [step] at hs
    split at hs
    · next np hf =>
      cases hs
      exact h.run hf
    · cases hs
  | exit p status =>
    simp only [step] at hs
    split at hs
    · next hp =>
      split at hs
      · cases hs
      · next hinit =>
        cases hs
        obtain ⟨hrun, hidle⟩ := canCall_spec hp
        exact h.exit hrun hidle hinit _ rfl rfl
    · cases hs
  | wait p addr ok =>
    simp only [step] at hs
    split at hs
    · split at hs
      · next np hnp =>
        cases hs
        have hz := (findZombieChild_spec hnp).2
        unfold ProcTable.reap
        split
        · exact h
        · exact h.free (by rw [hz]; decide) (by rw [hz]; decide)
      · split at hs
        · cases hs
          exact h
        · cases hs
    · cases hs
  | kill p pid =>
    simp only [step] at hs
    split at hs
    · cases hs
      unfold ProcTable.kill
      split
      · next q hq =>
        refine h.update_wake rfl ?_
        by_cases hsl : (s.proc q).state = .SLEEPING
        · exact .inr ⟨hsl, by simp [hsl]⟩
        · exact .inl (by simp [hsl])
      · exact h
    · cases hs


/-! ## The record of exits -/

section Records

/-- The exit an entry holds: its pid and status if it is a ZOMBIE. -/
def zrec (pr : Proc) : Multiset (Int32 × ℤ) :=
  if pr.state = .ZOMBIE then {(pr.pid, pr.xstate)} else 0

/-- The exits the ZOMBIE entries hold. -/
def zombies (proc : Fin NPROC → Proc) : Multiset (Int32 × ℤ) := ∑ q, zrec (proc q)

/-- The exits, as a multiset, are those reaped together with those the ZOMBIE entries hold.
Pids are not distinct: `nextpid` wraps, so two exits can have one pid, and even one status. -/
def Records (proc : Fin NPROC → Proc) (exited reaped : List (Int32 × ℤ)) : Prop :=
  (exited : Multiset (Int32 × ℤ)) = reaped + zombies proc

/-- The record of exits of the process table. -/
def RecordInv (s : ProcTable) : Prop := Records s.proc s.exited s.reaped

variable {proc : Fin NPROC → Proc} {exited reaped : List (Int32 × ℤ)}

/-- Writing entry `q` changes the exits the ZOMBIE entries hold by what `q` held and holds. -/
theorem zombies_update (proc : Fin NPROC → Proc) (q : Fin NPROC) (v : Proc) :
    zombies (Function.update proc q v) + zrec (proc q) = zombies proc + zrec v :=
  Count.sum_update zrec proc q v

theorem zrec_of_ne {pr : Proc} (h : pr.state ≠ .ZOMBIE) : zrec pr = 0 := by
  simp [zrec, h]

/-- Writing an entry that holds the exit it held keeps the record: what every write but
`exit`'s and `wait`'s does. -/
theorem Records.update (h : Records proc exited reaped) {q : Fin NPROC} {v : Proc}
    (hv : zrec v = zrec (proc q)) : Records (Function.update proc q v) exited reaped := by
  have hz := zombies_update proc q v
  rw [hv] at hz
  rw [Records, add_right_cancel hz]
  exact h

/-- Writing an entry that is not a ZOMBIE with another that is not keeps the record. -/
theorem Records.update_live (h : Records proc exited reaped) {q : Fin NPROC} {v : Proc}
    (hz : (proc q).state ≠ .ZOMBIE) (hz' : v.state ≠ .ZOMBIE) :
    Records (Function.update proc q v) exited reaped :=
  h.update (by rw [zrec_of_ne hz, zrec_of_ne hz'])

/-- Freeing an entry that is not a ZOMBIE keeps the record. -/
theorem Records.free (h : Records proc exited reaped) {q : Fin NPROC}
    (hz : (proc q).state ≠ .ZOMBIE) : Records (Function.update proc q Proc.free) exited reaped :=
  h.update_live hz (by decide)

/-- `wait` frees a ZOMBIE entry and records its exit as reaped. -/
theorem Records.reap (h : Records proc exited reaped) {q : Fin NPROC}
    (hz : (proc q).state = .ZOMBIE) :
    Records (Function.update proc q Proc.free) exited
      (reaped ++ [((proc q).pid, (proc q).xstate)]) := by
  have hzq := zombies_update proc q Proc.free
  rw [zrec_of_ne (show Proc.free.state ≠ ProcState.ZOMBIE by decide), add_zero, zrec,
    if_pos hz] at hzq
  rw [Records, h, ← hzq, ← Multiset.coe_add, Multiset.coe_singleton, add_assoc,
    add_comm {_}]

/-- Writing entries that hold the exits they held keeps the record: what `reparent` does. -/
theorem Records.congr (h : Records proc exited reaped) {proc' : Fin NPROC → Proc}
    (hsame : ∀ j, zrec (proc' j) = zrec (proc j)) : Records proc' exited reaped := by
  have hz : zombies proc' = zombies proc := Finset.sum_congr rfl fun j _ => hsame j
  rw [Records, hz]
  exact h

/-- `exit(status)`: a process that is not a ZOMBIE becomes one holding its exit, which joins
the record. -/
theorem Records.exit (h : Records proc exited reaped) {p : Fin NPROC}
    (hz : (proc p).state ≠ .ZOMBIE) (status : ℤ) :
    Records (Function.update proc p { proc p with xstate := status, state := .ZOMBIE })
      (exited ++ [((proc p).pid, status)]) reaped := by
  have hzq := zombies_update proc p { proc p with xstate := status, state := .ZOMBIE }
  rw [zrec_of_ne hz, add_zero, zrec, if_pos rfl] at hzq
  rw [Records, ← Multiset.coe_add, h, Multiset.coe_singleton, add_assoc, hzq]

end Records

/-- `reparent` writes parent links only. -/
theorem reparent_same (s : ProcTable) (p j : Fin NPROC) :
    ((s.reparent p).proc j).state = (s.proc j).state ∧ ((s.reparent p).proc j).pid = (s.proc j).pid ∧
      ((s.reparent p).proc j).xstate = (s.proc j).xstate := by
  unfold ProcTable.reparent
  dsimp only
  split <;> exact ⟨rfl, rfl, rfl⟩

/-- `reparent` keeps the exit every entry holds. -/
theorem zrec_reparent (s : ProcTable) (p j : Fin NPROC) :
    zrec ((s.reparent p).proc j) = zrec (s.proc j) := by
  obtain ⟨hst, hpid, hx⟩ := reparent_same s p j
  rw [zrec, zrec, hst, hpid, hx]

/-- Every step keeps the record of exits. -/
theorem recordInv_step {a : ProcAct} {s' : ProcTable} (ht : s.TreeInv) (h : s.RecordInv)
    (hs : s.step a = .next s') : s'.RecordInv := by
  cases a with
  | forkAlloc p ok =>
    simp only [step] at hs
    split at hs
    · cases hs
      unfold ProcTable.forkAlloc
      split
      · exact h
      · next np hnp =>
        have hun := findUnused_spec hnp
        cases ok
        · exact Records.free h (by rw [hun]; decide)
        · exact h.update_live (by rw [hun]; decide) (show ProcState.USED ≠ .ZOMBIE by decide)
    · cases hs
  | forkParent p ok =>
    simp only [step] at hs
    split at hs
    · next np hf =>
      cases hs
      have hu := (ht.alloced p np hf).1
      cases ok
      · exact h.free (by rw [hu]; decide)
      · exact h.update_live (by rw [hu]; decide) (by rw [hu]; decide)
    · cases hs
  | forkRun p =>
    simp only [step] at hs
    split at hs
    · next np hf =>
      cases hs
      have hu := (ht.parented p np hf).1
      exact h.update_live (by rw [hu]; decide) (show ProcState.RUNNABLE ≠ .ZOMBIE by decide)
    · cases hs
  | exit p status =>
    simp only [step] at hs
    split at hs
    · next hp =>
      split at hs
      · cases hs
      · cases hs
        have hrun' : ((s.reparent p).proc p).state = .RUNNABLE := by
          rw [(reparent_same s p p).1, (canCall_spec hp).1]
        exact (h.congr (zrec_reparent s p)).exit (by rw [hrun']; decide) status
    · cases hs
  | wait p addr ok =>
    simp only [step] at hs
    split at hs
    · split at hs
      · next np hnp =>
        cases hs
        unfold ProcTable.reap
        split
        · exact h
        · exact h.reap (findZombieChild_spec hnp).2
      · split at hs
        · cases hs
          exact h
        · cases hs
    · cases hs
  | kill p pid =>
    simp only [step] at hs
    split at hs
    · cases hs
      unfold ProcTable.kill
      split
      · next q hq =>
        -- a killed entry keeps its pid and status, and a ZOMBIE stays one
        refine h.update ?_
        by_cases hsl : (s.proc q).state = .SLEEPING
        · simp [zrec, hsl]
        · simp [zrec, hsl]
      · exact h
    · cases hs

/-! ## Every reachable table -/

section Reachable

/-- At boot only `initproc` is in use, with pid 1 and no parent, and nothing has exited. -/
theorem boot_inv : boot.TreeInv ∧ boot.RecordInv := by
  have hboot : ∀ q : Fin NPROC, q ≠ ⟨0, by decide⟩ → boot.proc q = Proc.free := fun q hq =>
    if_neg hq
  have hinit : boot.proc ⟨0, by decide⟩ = { Proc.free with pid := 1, state := .RUNNABLE } := rfl
  -- an entry in use at boot is `initproc`
  have hused : ∀ q : Fin NPROC, (boot.proc q).state ≠ .UNUSED → q = ⟨0, by decide⟩ := by
    intro q hq
    by_contra hne
    rw [hboot q hne] at hq
    exact hq rfl
  have hpar : ∀ q : Fin NPROC, (boot.proc q).parent = none := by
    intro q
    by_cases hq : q = ⟨0, by decide⟩
    · rw [hq, hinit]
      rfl
    · rw [hboot q hq]
      rfl
  have hnz : zombies boot.proc = 0 := by
    refine Finset.sum_eq_zero fun q _ => zrec_of_ne ?_
    by_cases hq : q = ⟨0, by decide⟩
    · rw [hq, hinit]
      decide
    · rw [hboot q hq]
      decide
  refine ⟨⟨rfl, ?_, ?_, fun q _ => hpar q, ?_, ?_, ?_, ?_⟩, ?_⟩
  · intro q r hq
    rw [hpar] at hq
    cases hq
  · intro q _
    by_cases hq : q = ⟨0, by decide⟩
    · exact .inl hq
    · exact .inr (.inl (by rw [hboot q hq]; rfl))
  · intro p np hf
    cases hf
  · intro p np hf
    cases hf
  · intro q hq
    have h0 := hused q (by rw [hq]; decide)
    rw [h0, hinit] at hq
    cases hq
  · intro p p' c c' hf
    cases hf
  · rw [RecordInv, Records, hnz]
    rfl

/-- The parent links and the record of exits hold in every table reached from boot. -/
theorem inv_of_reachable {s : ProcTable} (hs : Reachable step boot s) : s.TreeInv ∧ s.RecordInv :=
  hs.inv (fun s => s.TreeInv ∧ s.RecordInv) boot_inv fun _ _ _ _ h hstep =>
    ⟨treeInv_step h.1 hstep, recordInv_step h.1 h.2 hstep⟩

/-- Every entry in use other than `initproc` has a parent that runs, or is a child in `fork`'s
first window, USED with no parent. -/
theorem TreeInv.parent_live (h : s.TreeInv) {q : Fin NPROC} (hq : q ≠ s.initproc)
    (hu : (s.proc q).state ≠ .UNUSED) :
    (∃ r, (s.proc q).parent = some r ∧ (s.proc r).state ≠ .UNUSED ∧ (s.proc r).state ≠ .ZOMBIE) ∨
      ((s.proc q).state = .USED ∧ (s.proc q).parent = none) := by
  cases hpar : (s.proc q).parent with
  | some r =>
    have hr := h.parent_run q r hpar
    exact .inl ⟨r, rfl, by rw [hr]; decide, by rw [hr]; decide⟩
  | none =>
    rcases h.no_parent q hpar with hi | hun | ⟨p, hf⟩
    · exact absurd hi hq
    · exact absurd hun hu
    · exact .inr ⟨(h.alloced p q hf).1, rfl⟩

/-- An entry written by a step other than `q` leaves `q`'s entry. -/
theorem update_other {proc : Fin NPROC → Proc} {np q : Fin NPROC} {v : Proc} (h : np ≠ q) :
    Function.update proc np v q = proc q :=
  Function.update_of_ne (Ne.symm h) _ _

/-- A ZOMBIE stops being one only in a `wait` by its parent, which returns its pid and
records its pid and status as reaped. -/
theorem step_zombie {a : ProcAct} {s' : ProcTable} {q : Fin NPROC} (ht : s.TreeInv)
    (hs : s.step a = .next s') (hz : (s.proc q).state = .ZOMBIE)
    (hz' : (s'.proc q).state ≠ .ZOMBIE) :
    ∃ p addr ok, a = .wait p addr ok ∧ (s.proc q).parent = some p ∧
      s'.ret p = (s.proc q).pid.toInt ∧ s'.reaped = s.reaped ++ [((s.proc q).pid, (s.proc q).xstate)] := by
  -- the entries a step writes, other than a reaped one, are not ZOMBIEs
  have hne : ∀ {j : Fin NPROC}, (s.proc j).state ≠ .ZOMBIE → j ≠ q := fun hj heq => hj (heq ▸ hz)
  cases a with
  | forkAlloc p ok =>
    simp only [step] at hs
    split at hs
    · cases hs
      unfold ProcTable.forkAlloc at hz'
      split at hz'
      · exact absurd hz hz'
      · next np hnp =>
        have hnq := hne (by rw [findUnused_spec hnp]; decide)
        cases ok <;> simp [update_other hnq, hz] at hz'
    · cases hs
  | forkParent p ok =>
    simp only [step] at hs
    split at hs
    · next np hf =>
      cases hs
      have hnq := hne (by rw [(ht.alloced p np hf).1]; decide)
      unfold ProcTable.forkParent at hz'
      cases ok <;> simp [update_other hnq, hz] at hz'
    · cases hs
  | forkRun p =>
    simp only [step] at hs
    split at hs
    · next np hf =>
      cases hs
      have hnq := hne (by rw [(ht.parented p np hf).1]; decide)
      simp only [ProcTable.forkRun, setRet_proc, setProc_proc, update_other hnq] at hz'
      exact absurd hz hz'
    · cases hs
  | exit p status =>
    simp only [step] at hs
    split at hs
    · next hp =>
      split at hs
      · cases hs
      · cases hs
        have hpq := hne (by rw [(canCall_spec hp).1]; decide)
        simp only [ProcTable.exit, setProc_proc, update_other hpq, (reparent_same s p q).1] at hz'
        exact absurd hz hz'
    · cases hs
  | wait p addr ok =>
    simp only [step] at hs
    split at hs
    · split at hs
      · next np hnp =>
        cases hs
        obtain ⟨hpar, _⟩ := findZombieChild_spec hnp
        unfold ProcTable.reap at hz' ⊢
        split at hz'
        · exact absurd hz hz'
        · next hfail =>
          rcases eq_or_ne np q with rfl | hnq
          · refine ⟨p, addr, ok, rfl, hpar, ?_, ?_⟩
            · rw [if_neg hfail]
              simp [setRet]
            · rw [if_neg hfail]
          · simp only [setRet_proc, setProc_proc, update_other hnq] at hz'
            exact absurd hz hz'
      · split at hs
        · cases hs
          exact absurd hz hz'
        · cases hs
    · cases hs
  | kill p pid =>
    simp only [step] at hs
    split at hs
    · cases hs
      unfold ProcTable.kill at hz'
      split at hz'
      · next j hj =>
        simp only [setRet_proc, setProc_proc] at hz'
        rcases eq_or_ne j q with rfl | hjq
        · rw [Function.update_self] at hz'
          simp [hz] at hz'
        · rw [update_other hjq] at hz'
          exact absurd hz hz'
      · exact absurd hz hz'
    · cases hs

/-- `wait` returns -1 only when `p` has no children, when `p` is killed, when copying the
status out fails, and then the table is as it was, or when the ZOMBIE child it reaps has the
pid -1, which a wrapped `nextpid` hands out. -/
theorem wait_fails {p : Fin NPROC} {addr : ℕ} {ok : Bool} {s' : ProcTable}
    (hs : s.step (.wait p addr ok) = .next s') (hret : s'.ret p = -1) :
    (∀ q, (s.proc q).parent ≠ some p) ∨ (s.proc p).killed = true ∨
      (addr ≠ 0 ∧ ok = false ∧ s'.proc = s.proc) ∨
      ∃ q, (s.proc q).parent = some p ∧ (s.proc q).state = .ZOMBIE ∧ (s.proc q).pid = -1 := by
  simp only [step] at hs
  split at hs
  · split at hs
    · next np hnp =>
      cases hs
      unfold ProcTable.reap at hret ⊢
      split
      · next hfail => exact .inr (.inr (.inl ⟨hfail.1, hfail.2, rfl⟩))
      · -- the reaped child's pid is what `wait` returns
        next hfail =>
        rw [if_neg hfail] at hret
        have hpid : (s.proc np).pid.toInt = (-1 : Int32).toInt := by simpa [setRet] using hret
        obtain ⟨hpar, hz⟩ := findZombieChild_spec hnp
        exact .inr (.inr (.inr ⟨np, hpar, hz, Int32.toInt_inj.1 hpid⟩))
    · split at hs
      · next hkids =>
        cases hs
        rw [Bool.or_eq_true] at hkids
        rcases hkids with hk | hk
        · exact .inl (haveKids_eq_false (by simpa using hk))
        · exact .inr (.inl hk)
      · cases hs
  · cases hs

/-- The lifecycle of processes over every interleaving of `fork`, `exit`, `wait` and `kill`
from boot, with any allocation or copy failing: every entry in use other than `initproc`
has a parent that is in use and not a ZOMBIE, or is a child in `fork`'s window, USED with
no parent; a ZOMBIE is freed only by a `wait` of its current parent, which returns its pid
and records its pid and status; the exits are, as a multiset, those reaped together with
those the ZOMBIE entries hold, so each is reaped at most once; and `wait` returns -1 only
when the caller has no children, is killed, or fails to copy the status out, leaving the
table as it was, or when it reaps a child whose wrapped pid is -1. -/
theorem process_lifecycle {s : ProcTable} (hs : Reachable step boot s) :
    (∀ q, q ≠ s.initproc → (s.proc q).state ≠ .UNUSED →
      (∃ r, (s.proc q).parent = some r ∧ (s.proc r).state ≠ .UNUSED ∧
        (s.proc r).state ≠ .ZOMBIE) ∨ ((s.proc q).state = .USED ∧ (s.proc q).parent = none)) ∧
    (∀ a s' q, s.step a = .next s' → (s.proc q).state = .ZOMBIE → (s'.proc q).state ≠ .ZOMBIE →
      ∃ p addr ok, a = .wait p addr ok ∧ (s.proc q).parent = some p ∧
        s'.ret p = (s.proc q).pid.toInt ∧
        s'.reaped = s.reaped ++ [((s.proc q).pid, (s.proc q).xstate)]) ∧
    (s.exited : Multiset (Int32 × ℤ)) = s.reaped + zombies s.proc ∧
    (∀ p addr ok s', s.step (.wait p addr ok) = .next s' → s'.ret p = -1 →
      (∀ q, (s.proc q).parent ≠ some p) ∨ (s.proc p).killed = true ∨
        (addr ≠ 0 ∧ ok = false ∧ s'.proc = s.proc) ∨
        ∃ q, (s.proc q).parent = some p ∧ (s.proc q).state = .ZOMBIE ∧ (s.proc q).pid = -1) := by
  obtain ⟨ht, hr⟩ := inv_of_reachable hs
  exact ⟨fun q hq hu => ht.parent_live hq hu, fun a s' q hstep hz hz' => step_zombie ht hstep hz hz',
    hr, fun p addr ok s' hstep hret => wait_fails hstep hret⟩

/-- `initproc` forks a child with pid 2, the child exits with status 3, and `initproc`'s
`wait` reaps it: the one exit is reaped once. -/
theorem process_lifecycle_after_reap :
    ∃ s : ProcTable, Reachable step boot s ∧ s.reaped = [(2, 3)] ∧
      (s.exited : Multiset (Int32 × ℤ)) = s.reaped + zombies s.proc := by
  obtain ⟨s, hs, htest⟩ := Reachable.of_run_nextSat .init
    (show (run step boot [.forkAlloc ⟨0, by decide⟩ true, .forkParent ⟨0, by decide⟩ true,
      .forkRun ⟨0, by decide⟩, .exit ⟨1, by decide⟩ 3, .wait ⟨0, by decide⟩ 0 true]).nextSat
        (fun s => s.reaped == [(2, 3)]) = true by decide +kernel)
  exact ⟨s, hs, by simpa using htest, (process_lifecycle hs).2.2.1⟩

end Reachable

end ProcTable

end Xv6.Lifecycle
