import Mathlib

/-!
# A ring buffer indexed by free-running counters

A buffer of `N` cells holds a queue between two counters that only ever advance: the
queue is the `len` cells from the read counter on, each counter value naming the cell
of its residue modulo `N`. Writing the cell just past the queue appends to it, and
advancing the read counter pops its head.
-/

set_option autoImplicit false

namespace Ring

variable {α : Type} {N : ℕ} [NeZero N]

/-- The cell of counter value `x`. -/
def slot (N : ℕ) [NeZero N] (x : ℕ) : Fin N :=
  ⟨x % N, Nat.mod_lt _ (Nat.pos_of_neZero N)⟩

/-- The `len` cells from counter value `start` on, in order. -/
def window (data : Fin N → α) (start : ℕ) : ℕ → List α
  | 0 => []
  | len + 1 => window data start len ++ [data (slot N (start + len))]

@[simp] theorem window_zero (data : Fin N → α) (start : ℕ) : window data start 0 = [] := rfl

@[simp] theorem length_window (data : Fin N → α) (start len : ℕ) :
    (window data start len).length = len := by
  induction len with
  | zero => rfl
  | succ len ih => simp [window, ih]

theorem slot_eq_iff {x y : ℕ} : slot N x = slot N y ↔ x % N = y % N := by
  simp [slot, Fin.ext_iff]

/-- A counter kept modulo a multiple `M` of `N` names the same cell as the count. -/
theorem slot_mod_of_dvd {M : ℕ} (h : N ∣ M) (x : ℕ) : slot N (x % M) = slot N x := by
  rw [slot_eq_iff, Nat.mod_mod_of_dvd x h]

/-- The window depends on its start only through the start's cell. -/
theorem window_congr_start (data : Fin N → α) {start start' : ℕ}
    (h : start % N = start' % N) (len : ℕ) : window data start len = window data start' len := by
  induction len with
  | zero => rfl
  | succ len ih =>
    have hslot : slot N (start + len) = slot N (start' + len) := by
      rw [slot_eq_iff, Nat.add_mod, h, ← Nat.add_mod]
    rw [window, window, ih, hslot]

/-- A write to a cell outside the window leaves the window as it was. -/
theorem window_update_of_ne (data : Fin N → α) (start len : ℕ) (i : Fin N) (v : α)
    (h : ∀ k < len, slot N (start + k) ≠ i) :
    window (Function.update data i v) start len = window data start len := by
  induction len with
  | zero => rfl
  | succ len ih =>
    rw [window, window, ih fun k hk => h k (Nat.lt_succ_of_lt hk),
      Function.update_of_ne (h len (Nat.lt_succ_self len))]

/-- A write to the cell `m` counter values past the start, with `len ≤ m < N`, leaves the
window of length `len` as it was. -/
theorem window_update_beyond (data : Fin N → α) (start len m : ℕ) (v : α) (hlen : len ≤ m)
    (hm : m < N) :
    window (Function.update data (slot N (start + m)) v) start len = window data start len := by
  apply window_update_of_ne
  intro k hk hslot
  -- two counter values less than `N` apart name different cells
  rw [slot_eq_iff] at hslot
  have := Nat.sub_mod_eq_zero_of_mod_eq hslot.symm
  rw [show start + m - (start + k) = m - k by omega] at this
  have hpos : 0 < m - k := by omega
  exact absurd (Nat.le_of_dvd hpos (Nat.dvd_of_mod_eq_zero this)) (by omega)

/-- Writing the cell just past a window shorter than the buffer appends to it. -/
theorem window_push (data : Fin N → α) (start len : ℕ) (v : α) (hlen : len < N) :
    window (Function.update data (slot N (start + len)) v) start (len + 1) =
      window data start len ++ [v] := by
  rw [window, Function.update_self, window_update_beyond data start len len v (Nat.le_refl len) hlen]

/-- A window is its first `a` cells followed by the `b` cells after them. -/
theorem window_add (data : Fin N → α) (start a b : ℕ) :
    window data start (a + b) = window data start a ++ window data (start + a) b := by
  induction b with
  | zero => rw [Nat.add_zero, window_zero, List.append_nil]
  | succ b ih => rw [← Nat.add_assoc, window, ih, window, List.append_assoc, Nat.add_assoc]

/-- Dropping the last cell of a window shortens it by one. -/
@[simp] theorem dropLast_window (data : Fin N → α) (start len : ℕ) :
    (window data start (len + 1)).dropLast = window data start len := by
  rw [window, List.dropLast_concat]

/-- Advancing the start pops the head of the window. -/
theorem window_succ_start (data : Fin N → α) (start len : ℕ) :
    window data start (len + 1) = data (slot N start) :: window data (start + 1) len := by
  induction len with
  | zero => simp [window]
  | succ len ih =>
    rw [window, ih, window, List.cons_append, Nat.add_assoc, Nat.add_comm 1 len]

end Ring
