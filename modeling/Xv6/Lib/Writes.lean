import Mathlib.Logic.Function.Basic
import Mathlib.Data.Set.Function

/-!
# Lists of single-cell writes

A store is a function from addresses to contents; a write replaces one cell. A redo
log replays a list of writes, and a crash may cut such a replay after any prefix,
so the lemmas here say what a prefix leaves behind, that replaying the whole list
over a cut replay gives what the whole replay gives, and that stores which agree
on a region keep agreeing there under the same writes.
-/

set_option autoImplicit false

namespace Writes

variable {α β : Type} [DecidableEq α]

/-- Apply the writes in order; a later write to a cell wins. -/
def applyWrites (d : α → β) (ws : List (α × β)) : α → β :=
  ws.foldl (fun d w => Function.update d w.1 w.2) d

@[simp] theorem applyWrites_nil (d : α → β) : applyWrites d [] = d := rfl

@[simp] theorem applyWrites_cons (d : α → β) (w : α × β) (ws : List (α × β)) :
    applyWrites d (w :: ws) = applyWrites (Function.update d w.1 w.2) ws := rfl

theorem applyWrites_append (d : α → β) (ws vs : List (α × β)) :
    applyWrites d (ws ++ vs) = applyWrites (applyWrites d ws) vs := by
  simp [applyWrites, List.foldl_append]

theorem applyWrites_concat (d : α → β) (ws : List (α × β)) (w : α × β) :
    applyWrites d (ws ++ [w]) = Function.update (applyWrites d ws) w.1 w.2 := by
  rw [applyWrites_append]
  rfl

/-- A cell no write names keeps its contents. -/
theorem applyWrites_of_forall_ne (d : α → β) (ws : List (α × β)) (x : α)
    (h : ∀ w ∈ ws, w.1 ≠ x) : applyWrites d ws x = d x := by
  induction ws generalizing d with
  | nil => rfl
  | cons w ws ih =>
    rw [applyWrites_cons, ih _ (fun v hv => h v (List.mem_cons_of_mem _ hv))]
    exact Function.update_of_ne (h w List.mem_cons_self).symm _ _

/-- A cell the writes name ends with the last write to it, whatever the store held. -/
theorem applyWrites_eq_of_mem (d e : α → β) (ws : List (α × β)) (x : α)
    (h : ∃ w ∈ ws, w.1 = x) : applyWrites d ws x = applyWrites e ws x := by
  induction ws generalizing d e with
  | nil => simp at h
  | cons w ws ih =>
    rw [applyWrites_cons, applyWrites_cons]
    by_cases hx : ∃ v ∈ ws, v.1 = x
    · exact ih _ _ hx
    · -- the head is the last write to `x`
      have hw : w.1 = x := by
        obtain ⟨v, hv, hvx⟩ := h
        rcases List.mem_cons.1 hv with rfl | hv
        · exact hvx
        · exact absurd ⟨v, hv, hvx⟩ hx
      push Not at hx
      rw [applyWrites_of_forall_ne _ _ _ hx, applyWrites_of_forall_ne _ _ _ hx, ← hw]
      simp

/-- Replaying every write over a store that already holds some of them (whose cells the
replay all names) gives what the replay gives over the store before them. -/
theorem applyWrites_absorb (d : α → β) (vs ws : List (α × β))
    (h : ∀ v ∈ vs, ∃ w ∈ ws, w.1 = v.1) :
    applyWrites (applyWrites d vs) ws = applyWrites d ws := by
  funext x
  by_cases hx : ∃ w ∈ ws, w.1 = x
  · exact applyWrites_eq_of_mem _ _ _ _ hx
  · push Not at hx
    have hv : ∀ v ∈ vs, v.1 ≠ x := by
      intro v hv hvx
      obtain ⟨w, hw, hwv⟩ := h v hv
      exact hx w hw (hwv.trans hvx)
    rw [applyWrites_of_forall_ne _ _ _ hx, applyWrites_of_forall_ne _ _ _ hx,
      applyWrites_of_forall_ne _ _ _ hv]

/-- A replay cut after any prefix and then run in full ends where the full replay ends. -/
theorem applyWrites_take_then_all (d : α → β) (ws : List (α × β)) (k : ℕ) :
    applyWrites (applyWrites d (ws.take k)) ws = applyWrites d ws :=
  applyWrites_absorb d _ ws fun v hv => ⟨v, List.mem_of_mem_take hv, rfl⟩

/-- Stores that agree on a region agree there after the same writes. -/
theorem applyWrites_eqOn {d e : α → β} {S : Set α} (h : Set.EqOn d e S)
    (ws : List (α × β)) : Set.EqOn (applyWrites d ws) (applyWrites e ws) S := by
  induction ws generalizing d e with
  | nil => exact h
  | cons w ws ih =>
    apply ih
    intro x hx
    by_cases hxw : x = w.1
    · subst hxw; simp
    · simp [Function.update_of_ne hxw, h hx]

/-- Apply whole transactions in order. -/
def applyTxns (d : α → β) (ts : List (List (α × β))) : α → β :=
  ts.foldl applyWrites d

@[simp] theorem applyTxns_nil (d : α → β) : applyTxns d [] = d := rfl

theorem applyTxns_concat (d : α → β) (ts : List (List (α × β))) (t : List (α × β)) :
    applyTxns d (ts ++ [t]) = applyWrites (applyTxns d ts) t := by
  simp [applyTxns, List.foldl_append]

end Writes
