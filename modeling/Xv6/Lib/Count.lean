import Mathlib.Algebra.BigOperators.Group.Finset.Piecewise
import Mathlib.Data.Fintype.Basic
import Mathlib.Algebra.Order.BigOperators.Group.Finset
import Mathlib.Algebra.BigOperators.Fin

/-!
# Counting the members of a finite table that satisfy a predicate

A process table is a function from a finite index type; counters kept beside it (how
many processes are inside an operation) are compared with the number of entries in a
given state. An update changes that number only through the entry it writes.
-/

set_option autoImplicit false

namespace Count

variable {ι γ : Type} [Fintype ι] [DecidableEq ι]

/-- The number of entries of `f` that satisfy `P`. -/
def countWhere (P : γ → Prop) [DecidablePred P] (f : ι → γ) : ℕ :=
  (Finset.univ.filter fun j => P (f j)).card

/-- Writing entry `i` changes a sum over the table by what entry `i` was and what it
becomes. -/
theorem sum_update {M : Type} [AddCommMonoid M] (g : γ → M) (f : ι → γ) (i : ι) (v : γ) :
    ∑ j, g (Function.update f i v j) + g (f i) = ∑ j, g (f j) + g v := by
  rw [← Finset.add_sum_erase _ _ (Finset.mem_univ i), ← Finset.add_sum_erase _ _ (Finset.mem_univ i)]
  have hrest : ∑ j ∈ Finset.univ.erase i, g (Function.update f i v j) =
      ∑ j ∈ Finset.univ.erase i, g (f j) :=
    Finset.sum_congr rfl fun j hj => by rw [Function.update_of_ne (Finset.ne_of_mem_erase hj)]
  rw [hrest, Function.update_self, add_comm (g (f i)), add_comm (g v), add_assoc, add_assoc,
    add_comm (g v)]

/-- Writing entry `i` changes the count by what entry `i` was and what it becomes. -/
theorem countWhere_update (P : γ → Prop) [DecidablePred P] (f : ι → γ) (i : ι) (v : γ) :
    countWhere P (Function.update f i v) + (if P (f i) then 1 else 0) =
      countWhere P f + (if P v then 1 else 0) := by
  unfold countWhere
  rw [Finset.card_filter, Finset.card_filter]
  exact sum_update (fun x => if P x then 1 else 0) f i v

omit [DecidableEq ι] in
/-- An entry that satisfies `P` is counted. -/
theorem countWhere_pos {P : γ → Prop} [DecidablePred P] {f : ι → γ} {i : ι} (h : P (f i)) :
    0 < countWhere P f :=
  Finset.card_pos.2 ⟨i, Finset.mem_filter.2 ⟨Finset.mem_univ i, h⟩⟩

omit [DecidableEq ι] in
/-- No entry satisfies `P` exactly when the count is zero. -/
theorem countWhere_eq_zero {P : γ → Prop} [DecidablePred P] {f : ι → γ} :
    countWhere P f = 0 ↔ ∀ j, ¬ P (f j) := by
  simp [countWhere, Finset.filter_eq_empty_iff]

/-- Exactly one entry satisfies `P`. -/
theorem countWhere_eq_one {P : γ → Prop} [DecidablePred P] {f : ι → γ} {i : ι}
    (h : ∀ j, P (f j) ↔ j = i) : countWhere P f = 1 :=
  Finset.card_eq_one.2 ⟨i, by ext j; simp [h]⟩

omit [DecidableEq ι] in
/-- A sum of quantities that are at most `M`, and zero on entries failing `P`, is at most
`M` per entry satisfying `P`. -/
theorem sum_le_countWhere_mul {P : γ → Prop} [DecidablePred P] {g : γ → ℕ} {M : ℕ}
    (f : ι → γ) (hzero : ∀ x, ¬ P x → g x = 0) (hle : ∀ x, g x ≤ M) :
    ∑ j, g (f j) ≤ countWhere P f * M := by
  have hsum : ∑ j ∈ Finset.univ.filter (fun j => P (f j)), g (f j) = ∑ j, g (f j) :=
    Finset.sum_filter_of_ne fun j _ hj => Decidable.byContradiction fun hP => hj (hzero _ hP)
  rw [← hsum, countWhere]
  have hle' := Finset.sum_le_card_nsmul (Finset.univ.filter fun j => P (f j)) (fun j => g (f j))
    M fun j _ => hle (f j)
  exact hle'

/-- The entries of a table of options that are `some a`, listed in index order, hold `a`
as often as the table does. -/
theorem count_filterMap_finRange {n : ℕ} [DecidableEq γ] (o : Fin n → Option γ) (a : γ) :
    ((List.finRange n).filterMap o).count a = countWhere (· = some a) o := by
  -- both count, entry by entry, the `some a`s of the table
  have hl : ∀ l : List (Fin n),
      (l.filterMap o).count a = (l.map fun j => if o j = some a then 1 else 0).sum := by
    intro l
    induction l with
    | nil => rfl
    | cons j l ih =>
      rw [List.filterMap_cons, List.map_cons, List.sum_cons, ← ih]
      cases hj : o j with
      | none => simp
      | some b =>
        by_cases hb : b = a
        · subst hb
          simp [List.count_cons_self]
          omega
        · simp [hb]
  rw [hl, countWhere, Finset.card_filter, Fin.sum_univ_def]

end Count
