import Mathlib.Order.Basic

/-!
# Reading and writing a byte string in place

`slice l off n` is what a read of `n` entries at `off` returns from `l`: the entries from
`off` on, as many as there are up to `n`. `splice l off w` is `l` after `w` is written over
it at `off`, for `off` at most the length of `l`: the entries before `off`, then `w`, then
those of `l` past the end of `w`, so that a write that runs past the end extends `l`.

Each is told entry by entry (`getElem?_slice`, `getElem?_splice`); from these, a read of
what was just written returns it (`slice_splice`), and a read of a range the write did not
touch returns the old entries (`slice_splice_of_disjoint`), so that a write of one whole
block of a list cut into blocks changes that block alone (`slice_splice_block`).
-/

set_option autoImplicit false

namespace Splice

variable {α : Type*}

/-- The `n` entries of `l` from `off` on, fewer where `l` ends first. -/
def slice (l : List α) (off n : ℕ) : List α := (l.drop off).take n

/-- `l` with `w` written over it from `off` on. -/
def splice (l : List α) (off : ℕ) (w : List α) : List α :=
  l.take off ++ w ++ l.drop (off + w.length)

variable {l w : List α} {off : ℕ}

theorem getElem?_slice (l : List α) (off n k : ℕ) :
    (slice l off n)[k]? = if k < n then l[off + k]? else none := by
  by_cases hk : k < n
  · rw [if_pos hk, slice, List.getElem?_take_of_lt hk, List.getElem?_drop]
  · rw [if_neg hk, slice, List.getElem?_eq_none]
    rw [List.length_take]
    omega

theorem length_slice (l : List α) (off n : ℕ) : (slice l off n).length = min n (l.length - off) := by
  rw [slice, List.length_take, List.length_drop]

theorem length_splice (h : off ≤ l.length) :
    (splice l off w).length = max l.length (off + w.length) := by
  simp only [splice, List.length_append, List.length_take, List.length_drop]
  omega

theorem getElem?_splice (h : off ≤ l.length) (k : ℕ) :
    (splice l off w)[k]? =
      if k < off then l[k]? else if k < off + w.length then w[k - off]? else l[k]? := by
  have htake : (l.take off).length = off := by
    rw [List.length_take]
    omega
  by_cases h₁ : k < off
  · rw [if_pos h₁, splice, List.append_assoc, List.getElem?_append_left (by omega),
      List.getElem?_take_of_lt h₁]
  rw [if_neg h₁]
  by_cases h₂ : k < off + w.length
  · rw [if_pos h₂, splice, List.getElem?_append_left (by simp only [List.length_append]; omega),
      List.getElem?_append_right (by omega), htake]
  · rw [if_neg h₂, splice, List.getElem?_append_right (by simp only [List.length_append]; omega),
      List.getElem?_drop, List.length_append, htake]
    congr 1
    omega

/-- A read of what was just written returns it. -/
theorem slice_splice (h : off ≤ l.length) : slice (splice l off w) off w.length = w := by
  apply List.ext_getElem?
  intro k
  rw [getElem?_slice, getElem?_splice h]
  by_cases hk : k < w.length
  · rw [if_pos hk, if_neg (by omega), if_pos (by omega), Nat.add_sub_cancel_left]
  · rw [if_neg hk, List.getElem?_eq_none (by omega)]

/-- A read of a range the write did not touch returns the old entries. -/
theorem slice_splice_of_disjoint (h : off ≤ l.length) {off' n : ℕ}
    (hd : off' + n ≤ off ∨ off + w.length ≤ off') :
    slice (splice l off w) off' n = slice l off' n := by
  apply List.ext_getElem?
  intro k
  rw [getElem?_slice, getElem?_slice, getElem?_splice h]
  by_cases hk : k < n
  · rcases hd with hd | hd
    · rw [if_pos hk, if_pos hk, if_pos (by omega)]
    · rw [if_pos hk, if_pos hk, if_neg (by omega), if_neg (by omega)]
  · rw [if_neg hk, if_neg hk]

/-- The blocks of `B` entries after a write of one whole block: the block written holds `w`,
the others what they held. -/
theorem slice_splice_block {B f : ℕ} (h : f * B ≤ l.length) (hw : w.length = B) (j : ℕ) :
    slice (splice l (f * B) w) (j * B) B = if j = f then w else slice l (j * B) B := by
  by_cases hj : j = f
  · subst hj
    rw [if_pos rfl]
    have := slice_splice (w := w) h
    rw [hw] at this
    exact this
  · rw [if_neg hj]
    apply slice_splice_of_disjoint h
    rcases Nat.lt_or_gt_of_ne hj with hlt | hgt
    · left
      have := Nat.mul_le_mul_right B (show j + 1 ≤ f by omega)
      rw [Nat.succ_mul] at this
      exact this
    · right
      have := Nat.mul_le_mul_right B (show f + 1 ≤ j by omega)
      rw [Nat.succ_mul] at this
      rw [hw]
      exact this

end Splice
