import Mathlib.Logic.Function.Basic
import Mathlib.Order.Basic

/-!
# Maps onto marked blocks

A file system keeps each file's blocks in a map from the file's block indices to block
numbers, 0 standing for no block, with perhaps one more block of its own that holds part of
the map. `Apart f n ind used` says that the map's blocks below `n` and the extra block
`ind` are distinct and marked in the bitmap `used`. An allocator that hands out an unmarked
block and marks it keeps this when the block fills a hole of the map (`Apart.update`) or
becomes the extra block (`Apart.setInd`); since the block was unmarked, it is none of the
blocks the map already has (`Apart.ne_of_unmarked`).

Read with blocks of `B` entries, the map shows one flat array (`flat`). A run of entries
that stays inside one block is a run of that block (`flat_add_of_lt`), and writing a block
of the map changes the array at that block's entries only (`flat_update_self`,
`flat_update_of_ne`): the map being apart is what keeps the other entries.
-/

set_option autoImplicit false

namespace BlockMap

/-- The nonzero values of `f` below `n` and the block `ind`, where nonzero, are distinct and
marked in `used`. -/
structure Apart (f : ℕ → ℕ) (n ind : ℕ) (used : ℕ → Bool) : Prop where
  inj : ∀ x < n, ∀ y < n, f x = f y → f x ≠ 0 → x = y
  ne_ind : ∀ x < n, ind ≠ 0 → f x ≠ ind
  marked : ∀ x < n, f x ≠ 0 → used (f x) = true
  marked_ind : ind ≠ 0 → used ind = true

variable {f : ℕ → ℕ} {n ind : ℕ} {used : ℕ → Bool}

/-- An unmarked nonzero block is none of the map's. -/
theorem Apart.ne_of_unmarked (h : Apart f n ind used) {b : ℕ} (hb : used b = false) (hb0 : b ≠ 0) :
    ∀ x < n, f x ≠ b := by
  intro x hx hfx
  have := h.marked x hx (hfx ▸ hb0)
  rw [hfx, hb] at this
  cases this

theorem Apart.ind_ne_of_unmarked (h : Apart f n ind used) {b : ℕ} (hb : used b = false) :
    ind ≠ 0 → ind ≠ b := by
  intro hind hib
  have := h.marked_ind hind
  rw [hib, hb] at this
  cases this

/-- Filling a hole of the map with an unmarked block, and marking it. -/
theorem Apart.update (h : Apart f n ind used) {x b : ℕ} (hx : f x = 0) (hb : used b = false)
    (hb0 : b ≠ 0) : Apart (Function.update f x b) n ind (Function.update used b true) := by
  have hne := h.ne_of_unmarked hb hb0
  refine ⟨fun y hy z hz hyz hy0 => ?_, fun y hy hind => ?_, fun y hy hy0 => ?_, fun hind => ?_⟩
  · by_cases hyx : y = x <;> by_cases hzx : z = x
    · rw [hyx, hzx]
    · subst hyx
      rw [Function.update_self, Function.update_of_ne hzx] at hyz
      exact absurd hyz.symm (hne z hz)
    · subst hzx
      rw [Function.update_self, Function.update_of_ne hyx] at hyz
      exact absurd hyz (hne y hy)
    · rw [Function.update_of_ne hyx, Function.update_of_ne hzx] at hyz
      rw [Function.update_of_ne hyx] at hy0
      exact h.inj y hy z hz hyz hy0
  · by_cases hyx : y = x
    · subst hyx
      rw [Function.update_self]
      exact (h.ind_ne_of_unmarked hb hind).symm
    · rw [Function.update_of_ne hyx]
      exact h.ne_ind y hy hind
  · by_cases hyx : y = x
    · subst hyx
      rw [Function.update_self, Function.update_self]
    · rw [Function.update_of_ne hyx] at hy0 ⊢
      rw [Function.update_of_ne (hne y hy)]
      exact h.marked y hy hy0
  · rw [Function.update_of_ne (h.ind_ne_of_unmarked hb hind)]
    exact h.marked_ind hind

/-- Taking an unmarked block as the extra block, and marking it. -/
theorem Apart.setInd (h : Apart f n 0 used) {b : ℕ} (hb : used b = false) (hb0 : b ≠ 0) :
    Apart f n b (Function.update used b true) := by
  have hne := h.ne_of_unmarked hb hb0
  refine ⟨h.inj, fun y hy _ => hne y hy, fun y hy hy0 => ?_, fun _ => Function.update_self ..⟩
  rw [Function.update_of_ne (hne y hy)]
  exact h.marked y hy hy0

/-- The map read anew, where it has the same values. -/
theorem Apart.congr (h : Apart f n ind used) {f' : ℕ → ℕ} (hf : ∀ x < n, f' x = f x) :
    Apart f' n ind used := by
  refine ⟨fun x hx y hy hxy hx0 => ?_, fun x hx hind => ?_, fun x hx hx0 => ?_, h.marked_ind⟩
  · rw [hf x hx, hf y hy] at hxy
    rw [hf x hx] at hx0
    exact h.inj x hx y hy hxy hx0
  · rw [hf x hx]
    exact h.ne_ind x hx hind
  · rw [hf x hx] at hx0 ⊢
    exact h.marked x hx hx0

/-- More marks keep the map apart. -/
theorem Apart.mark (h : Apart f n ind used) (b : ℕ) : Apart f n ind (Function.update used b true) := by
  refine ⟨h.inj, h.ne_ind, fun x hx hx0 => ?_, fun hind => ?_⟩
  · by_cases hb : f x = b
    · rw [hb, Function.update_self]
    · rw [Function.update_of_ne hb]
      exact h.marked x hx hx0
  · by_cases hb : ind = b
    · rw [hb, Function.update_self]
    · rw [Function.update_of_ne hb]
      exact h.marked_ind hind

/-! ## The flat view -/

variable {α : Type*} {B : ℕ} {data : ℕ → ℕ → α}

/-- The array the map shows over blocks of `B` entries: entry `k` is entry `k % B` of block
`f (k / B)`. -/
def flat (B : ℕ) (f : ℕ → ℕ) (data : ℕ → ℕ → α) (k : ℕ) : α := data (f (k / B)) (k % B)

theorem add_eq_mod_add_mul (off k : ℕ) : off + k = off % B + k + B * (off / B) := by
  have := Nat.mod_add_div off B
  omega

theorem div_add_of_lt {off k : ℕ} (hk : off % B + k < B) : (off + k) / B = off / B := by
  rw [add_eq_mod_add_mul, Nat.add_mul_div_left _ _ (by omega), Nat.div_eq_of_lt hk, Nat.zero_add]

theorem mod_add_of_lt {off k : ℕ} (hk : off % B + k < B) : (off + k) % B = off % B + k := by
  rw [add_eq_mod_add_mul, Nat.add_mul_mod_self_left, Nat.mod_eq_of_lt hk]

/-- The only block that starts inside a run `[off, off + m)` staying in the block of `off`
is that block. -/
theorem eq_div_of_lt {bn off m : ℕ} (hm : off % B + m ≤ B) (h₁ : bn * B < off + m)
    (h₂ : off ≤ bn * B) : bn = off / B := by
  have hlo : off / B ≤ bn := Nat.div_le_of_le_mul (by rw [Nat.mul_comm]; exact h₂)
  have hhi : bn < off / B + 1 := by
    apply Nat.lt_of_mul_lt_mul_right (a := B)
    have := Nat.div_add_mod' off B
    rw [Nat.succ_mul]
    omega
  omega

/-- Entry `off + k`, where `off % B + k` stays inside the block of `off`. -/
theorem flat_add_of_lt {off k : ℕ} (hk : off % B + k < B) :
    flat B f data (off + k) = data (f (off / B)) (off % B + k) := by
  rw [flat, div_add_of_lt hk, mod_add_of_lt hk]

theorem flat_update_self {x k : ℕ} (hk : k / B = x) (g : ℕ → α) :
    flat B f (Function.update data (f x) g) k = g (k % B) := by
  rw [flat, hk, Function.update_self]

/-- Writing block `f x` of the map leaves the entries of its other blocks. -/
theorem flat_update_of_ne (h : Apart f n ind used) {x k : ℕ} (hx : x < n) (hfx : f x ≠ 0)
    (hk : k / B < n) (hne : k / B ≠ x) (g : ℕ → α) :
    flat B f (Function.update data (f x) g) k = flat B f data k := by
  have hf : f (k / B) ≠ f x := fun he => hne (h.inj _ hk _ hx he (he ▸ hfx))
  rw [flat, flat, Function.update_of_ne hf]

end BlockMap
