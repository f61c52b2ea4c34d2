import Mathlib.Data.List.Basic

/-!
# Maximal runs in a list

Split a list at the elements that satisfy `p`: the nonempty pieces are its maximal runs of
other elements (`runs`). A reader that sees one element at a time, and remembers only
whether the last one was in a run, counts a run where one starts (`started`). From outside
a run it counts them all (`started_false`); from inside a run that the list continues, it
counts one fewer (`started_add`).
-/

set_option autoImplicit false

namespace Runs

variable {α : Type} (p : α → Bool)

/-- The maximal runs of elements outside `p`, in order. -/
noncomputable def runs (xs : List α) : List (List α) :=
  (xs.splitOnP p).filter fun r => !r.isEmpty

/-- The runs a reader counts in `xs`, having just read an element in a run (`inRun`) or
not. -/
def started : Bool → List α → ℕ
  | _, [] => 0
  | inRun, a :: xs => if p a then started false xs else (if inRun then 0 else 1) + started true xs

/-- Whether `xs` starts with an element of a run. -/
def continues : List α → Bool
  | [] => false
  | a :: _ => !p a

variable {p}

@[simp] theorem runs_nil : runs p [] = [] := rfl

@[simp] theorem continues_cons (a : α) (xs : List α) : continues p (a :: xs) = !p a := rfl

/-- The first piece of the split is empty exactly when the list does not start a run. -/
theorem splitOnP_eq_cons (xs : List α) :
    ∃ r rs, xs.splitOnP p = r :: rs ∧ (r.isEmpty = !continues p xs) := by
  cases xs with
  | nil => exact ⟨[], [], rfl, rfl⟩
  | cons a xs =>
    obtain ⟨r, rs, hrs⟩ : ∃ r rs, xs.splitOnP p = r :: rs :=
      List.exists_cons_of_ne_nil (List.splitOnP_ne_nil p xs)
    rw [List.splitOnP_cons_eq_if_modifyHead]
    cases ha : p a
    · exact ⟨a :: r, rs, by simp [hrs], by simp [continues, ha]⟩
    · exact ⟨[], xs.splitOnP p, by simp, by simp [continues, ha]⟩

theorem runs_cons_of_sep {a : α} (xs : List α) (h : p a = true) : runs p (a :: xs) = runs p xs := by
  simp [runs, List.splitOnP_cons_eq_if_modifyHead, h]

/-- An element outside `p` starts a new run unless the rest continues it. -/
theorem length_runs_cons {a : α} (xs : List α) (h : p a = false) :
    (runs p (a :: xs)).length = (runs p xs).length + (if continues p xs then 0 else 1) := by
  obtain ⟨r, rs, hrs, hr⟩ := splitOnP_eq_cons (p := p) xs
  have hsplit : (a :: xs).splitOnP p = (a :: r) :: rs := by
    rw [List.splitOnP_cons_eq_if_modifyHead, if_neg (by simp [h]), hrs]
    rfl
  rw [runs, runs, hsplit, hrs, List.filter_cons_of_pos (by simp), List.filter_cons]
  cases hc : continues p xs
  · -- the first piece of the rest is empty
    rw [hc] at hr
    simp [hr]
  · rw [hc] at hr
    simp [hr]

/-- Reading from inside a run, the reader misses the run the list continues. -/
theorem started_add (b : Bool) (xs : List α) :
    started p b xs + (if b && continues p xs then 1 else 0) = (runs p xs).length := by
  induction xs generalizing b with
  | nil => cases b <;> rfl
  | cons a xs ih =>
    cases ha : p a
    · -- `a` is in a run: it starts one unless the reader was already in a run
      rw [started, if_neg (by simp [ha]), continues_cons, ha, length_runs_cons xs ha, ← ih true]
      cases b <;> cases continues p xs <;> simp <;> omega
    · -- `a` separates: the reader is outside a run after it
      rw [started, if_pos ha, continues_cons, ha, runs_cons_of_sep xs ha, ← ih false]
      simp

/-- From outside a run the reader counts every run. -/
theorem started_false (xs : List α) : started p false xs = (runs p xs).length := by
  simpa using started_add (p := p) false xs

/-! ## The run at the front -/

section Front

/-- The elements `takeWhile` keeps satisfy `p`. -/
theorem takeWhile_getElem?_of_lt : ∀ {l : List α} {k : ℕ} {a : α},
    k < (l.takeWhile p).length → l[k]? = some a → p a = true
  | [], _, _, hk, _ => absurd hk (Nat.not_lt_zero _)
  | b :: l, 0, a, hk, h => by
    cases h
    by_contra hb
    rw [List.takeWhile_cons_of_neg hb] at hk
    exact absurd hk (Nat.not_lt_zero _)
  | b :: l, k + 1, a, hk, h => by
    by_cases hb : p b = true
    · rw [List.takeWhile_cons_of_pos hb, List.length_cons] at hk
      have hk' : k < (l.takeWhile p).length := by omega
      exact takeWhile_getElem?_of_lt hk' h
    · rw [List.takeWhile_cons_of_neg hb] at hk
      exact absurd hk (Nat.not_lt_zero _)

/-- The element after the ones `takeWhile` keeps, if there is one, does not satisfy `p`. -/
theorem takeWhile_getElem?_length : ∀ {l : List α} {a : α},
    l[(l.takeWhile p).length]? = some a → p a = false
  | [], _, h => by cases h
  | b :: l, a, h => by
    rw [List.takeWhile_cons] at h
    split at h
    · exact takeWhile_getElem?_length h
    · next hb =>
      cases h
      simpa using hb

/-- `takeWhile` keeps the first `n` elements where those satisfy `p` and the next does not. -/
theorem takeWhile_eq_take : ∀ {l : List α} {n : ℕ},
    (∀ k < n, ∃ a, l[k]? = some a ∧ p a = true) → (∀ a, l[n]? = some a → p a = false) →
      l.takeWhile p = l.take n
  | [], _, _, _ => by rw [List.take_nil, List.takeWhile_nil]
  | b :: l, 0, _, hout => by
    rw [List.takeWhile_cons_of_neg (by simp [hout b rfl]), List.take_zero]
  | b :: l, n + 1, hin, hout => by
    obtain ⟨a, ha, hpa⟩ := hin 0 (Nat.succ_pos n)
    cases ha
    rw [List.takeWhile_cons_of_pos hpa, List.take_succ_cons,
      takeWhile_eq_take (fun k hk => hin (k + 1) (by omega)) hout]

end Front

end Runs
