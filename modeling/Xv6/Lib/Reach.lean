import Mathlib.Logic.Function.Basic

/-!
# Transition systems whose steps can block or fail

A step of a system either moves to a next state, cannot run in the current state
(the process would sleep, or is somewhere else in its code), or stops the whole
machine with a message. `Reachable` collects the states that runs of moving steps
reach from an initial state, and `Reachable.inv` is the induction rule the safety
proofs go through: an invariant that holds initially and is kept by every step
holds in every reachable state.

`run` executes a list of actions, so a concrete run can be evaluated; `restrict`
cuts a system down to the actions a hypothesis on runs allows in each state.
-/

set_option autoImplicit false

namespace TransitionSystem

/-- What one step does. -/
inductive Outcome (σ : Type) where
  | next (s : σ)
  | blocked
  | panic (msg : String)

variable {σ α : Type}

/-- States reachable from `init` by steps that move. -/
inductive Reachable (step : σ → α → Outcome σ) (init : σ) : σ → Prop
  | init : Reachable step init init
  | step {s s' : σ} (a : α) : Reachable step init s → step s a = .next s' →
      Reachable step init s'

/-- Run a list of actions, stopping at the first step that does not move. -/
def run (step : σ → α → Outcome σ) : σ → List α → Outcome σ
  | s, [] => .next s
  | s, a :: as =>
    match step s a with
    | .next s' => run step s' as
    | .blocked => .blocked
    | .panic msg => .panic msg

/-- The system restricted to the actions `P` allows in each state; every other action
blocks. -/
def restrict (P : σ → α → Prop) [∀ s a, Decidable (P s a)] (step : σ → α → Outcome σ) (s : σ)
    (a : α) : Outcome σ :=
  if P s a then step s a else .blocked

/-- Whether an outcome moved to a state that passes the test `p`. A concrete run is
checked by evaluating this on its outcome. -/
def Outcome.nextSat (p : σ → Bool) : Outcome σ → Bool
  | .next s => p s
  | _ => false

/-- The message of an outcome that stopped the machine. -/
def Outcome.panicMsg : Outcome σ → Option String
  | .panic msg => some msg
  | _ => none

theorem Outcome.exists_of_nextSat {p : σ → Bool} {o : Outcome σ} (h : o.nextSat p = true) :
    ∃ t, o = .next t ∧ p t = true := by
  cases o with
  | next t => exact ⟨t, rfl, h⟩
  | blocked => cases h
  | panic _ => cases h

theorem Outcome.eq_panic_of_panicMsg {o : Outcome σ} {msg : String}
    (h : o.panicMsg = some msg) : o = .panic msg := by
  cases o with
  | next _ => cases h
  | blocked => cases h
  | panic m => cases h; rfl

variable {step : σ → α → Outcome σ} {init : σ}

/-- Invariant induction: what holds initially and is kept by every step from a reachable
state holds in every reachable state. -/
theorem Reachable.inv (I : σ → Prop) (h0 : I init)
    (hstep : ∀ s a s', Reachable step init s → I s → step s a = .next s' → I s')
    {s : σ} (h : Reachable step init s) : I s := by
  induction h with
  | init => exact h0
  | step a hreach hs ih => exact hstep _ a _ hreach ih hs

/-- A run that moves on every action ends in a reachable state. -/
theorem Reachable.of_run {s t : σ} (hs : Reachable step init s) :
    ∀ {as : List α}, TransitionSystem.run step s as = .next t → Reachable step init t := by
  intro as
  induction as generalizing s with
  | nil =>
    intro h
    cases h
    exact hs
  | cons a as ih =>
    intro h
    simp only [TransitionSystem.run] at h
    split at h
    · next s' hstep => exact ih (hs.step a hstep) h
    · cases h
    · cases h

/-- A run whose end state passes `p` shows a reachable state that passes it. -/
theorem Reachable.of_run_nextSat {p : σ → Bool} {s : σ} {as : List α}
    (hs : Reachable step init s) (h : (TransitionSystem.run step s as).nextSat p = true) :
    ∃ t, Reachable step init t ∧ p t = true := by
  obtain ⟨t, hrun, ht⟩ := Outcome.exists_of_nextSat h
  exact ⟨t, hs.of_run hrun, ht⟩

/-- A step of the restricted system is an allowed step of the system. -/
theorem restrict_next {P : σ → α → Prop} [∀ s a, Decidable (P s a)] {s s' : σ} {a : α}
    (h : restrict P step s a = .next s') : P s a ∧ step s a = .next s' := by
  unfold restrict at h
  split at h
  · next hP => exact ⟨hP, h⟩
  · cases h

/-- Every state the restricted system reaches, the system reaches. -/
theorem Reachable.of_restrict {P : σ → α → Prop} [∀ s a, Decidable (P s a)] {s : σ}
    (h : Reachable (restrict P step) init s) : Reachable step init s := by
  induction h with
  | init => exact .init
  | step a _ hs ih => exact ih.step a (restrict_next hs).2

end TransitionSystem
