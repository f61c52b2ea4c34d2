import Xv6.Model.Spinlock
import Mathlib.Data.List.Count

/-!
# `push_off` and `pop_off` nest

Start a CPU at depth 0 with interrupts on or off (`b`). After any sequence of calls in which
no prefix has more pops than pushes, `noff` is the number of pushes minus pops, interrupts
are off while it is positive, `intena` then holds `b`, and at depth 0 interrupts are as `b`
says (`Nested`): the outermost `pop_off` turns them back on exactly when they were on at the
outermost `push_off`. A sequence with a prefix that pops more than it pushes panics at the
first such pop, and no other sequence panics (`push_pop_nest`).

One step keeps `Nested` (`push_off_nested`, `pop_off_nested`), and `runCalls_nested` runs
them over a sequence, with the depth reached.
Source: kernel/spinlock.c:84-110
-/

set_option autoImplicit false

namespace Xv6

/-- What the CPU holds at nesting depth `d`, interrupts having been as `b` says when the
outermost `push_off` ran. -/
structure Nested (b : Bool) (d : ℕ) (c : Cpu) : Prop where
  noff_eq : c.noff = d
  intr_off : 0 < d → c.intr = false
  intena_eq : 0 < d → c.intena = b
  intr_eq : d = 0 → c.intr = b

/-- No prefix of `calls`, made at depth `d`, pops more than `d` plus what it pushed. -/
def Matched (d : ℕ) (calls : List Call) : Prop :=
  ∀ k ≤ calls.length, (calls.take k).count .pop ≤ d + (calls.take k).count .push

instance (d : ℕ) (calls : List Call) : Decidable (Matched d calls) :=
  inferInstanceAs (Decidable (∀ k ≤ calls.length, _))

/-- The depth after `calls`, made at depth `d`. -/
def depth (d : ℕ) (calls : List Call) : ℕ := d + calls.count .push - calls.count .pop

/-! ## One call -/

theorem push_off_nested {b : Bool} {d : ℕ} {c : Cpu} (h : Nested b d c) :
    Nested b (d + 1) (push_off c) := by
  unfold push_off
  by_cases hd : d = 0
  · -- the outermost push saves the bit it read
    subst hd
    have hnoff := h.noff_eq
    simp only [hnoff, if_true]
    exact ⟨rfl, fun _ => rfl, fun _ => h.intr_eq rfl, fun h1 => absurd h1 (by omega)⟩
  · have hnoff : c.noff ≠ 0 := by rw [h.noff_eq]; exact hd
    simp only [hnoff, if_false]
    exact ⟨by simp [h.noff_eq], fun _ => rfl, fun _ => h.intena_eq (by omega),
      fun h1 => absurd h1 (by omega)⟩

theorem pop_off_nested {b : Bool} {d : ℕ} {c : Cpu} (h : Nested b (d + 1) c) :
    ∃ c', pop_off c = .ok c' ∧ Nested b d c' := by
  have hintr := h.intr_off (by omega)
  have hnoff := h.noff_eq
  unfold pop_off
  rw [if_neg (by simp [hintr]), if_neg (by omega)]
  refine ⟨_, rfl, ?_⟩
  by_cases hd : d = 0
  · -- the outermost pop restores the bit the outermost push saved
    subst hd
    have hena := h.intena_eq (by omega)
    cases b
    · rw [if_neg (by simp [hena])]
      exact ⟨by simp [hnoff], fun h1 => absurd h1 (by omega), fun h1 => absurd h1 (by omega),
        fun _ => hintr⟩
    · rw [if_pos ⟨by simp [hnoff], hena⟩]
      exact ⟨by simp [hnoff], fun h1 => absurd h1 (by omega), fun h1 => absurd h1 (by omega),
        fun _ => rfl⟩
  · rw [if_neg (by simp [hnoff, hd])]
    exact ⟨by simp [hnoff], fun _ => hintr, fun _ => h.intena_eq (by omega),
      fun h1 => absurd h1 hd⟩

theorem pop_off_unmatched {b : Bool} {c : Cpu} (h : Nested b 0 c) : ∃ e, pop_off c = .error e := by
  unfold pop_off
  split
  · exact ⟨_, rfl⟩
  · rw [if_pos (by rw [h.noff_eq]; omega)]
    exact ⟨_, rfl⟩

/-! ## Prefixes -/

theorem matched_nil (d : ℕ) : Matched d [] := by
  intro k _
  simp

theorem matched_push_iff (d : ℕ) (calls : List Call) :
    Matched d (.push :: calls) ↔ Matched (d + 1) calls := by
  constructor
  · intro h k hk
    have := h (k + 1) (by simp; omega)
    simp only [List.take_succ_cons, List.count_cons, beq_iff_eq, reduceCtorEq, if_false,
      if_true] at this
    omega
  · intro h k hk
    cases k with
    | zero => simp
    | succ k =>
      have := h k (by simp at hk; omega)
      simp only [List.take_succ_cons, List.count_cons, beq_iff_eq, reduceCtorEq, if_false,
        if_true]
      omega

theorem matched_pop_iff (d : ℕ) (calls : List Call) :
    Matched d (.pop :: calls) ↔ 0 < d ∧ Matched (d - 1) calls := by
  constructor
  · intro h
    have h1 := h 1 (by simp)
    simp only [List.take_succ_cons, List.take_zero, List.count_cons, beq_iff_eq, reduceCtorEq,
      if_false, if_true, List.count_nil] at h1
    refine ⟨by omega, fun k hk => ?_⟩
    have := h (k + 1) (by simp; omega)
    simp only [List.take_succ_cons, List.count_cons, beq_iff_eq, reduceCtorEq, if_false,
      if_true] at this
    omega
  · rintro ⟨hd, h⟩ k hk
    cases k with
    | zero => simp
    | succ k =>
      have := h k (by simp at hk; omega)
      simp only [List.take_succ_cons, List.count_cons, beq_iff_eq, reduceCtorEq, if_false,
        if_true]
      omega

/-! ## A sequence of calls -/

/-- Calls made at depth `d` under `Nested` run to `Nested` at the depth they reach when
they are matched, and panic otherwise. -/
theorem runCalls_nested {b : Bool} :
    ∀ (calls : List Call) (d : ℕ) (c : Cpu), Nested b d c →
      (Matched d calls → ∃ c', runCalls calls c = .ok c' ∧ Nested b (depth d calls) c') ∧
      (¬ Matched d calls → ∃ e, runCalls calls c = .error e) := by
  intro calls
  induction calls with
  | nil =>
    intro d c h
    exact ⟨fun _ => ⟨c, rfl, by simpa [depth] using h⟩, fun hm => absurd (matched_nil d) hm⟩
  | cons call calls ih =>
    intro d c h
    cases call with
    | push =>
      have hrest := ih (d + 1) (push_off c) (push_off_nested h)
      have hdepth : depth d (.push :: calls) = depth (d + 1) calls := by
        simp only [depth, List.count_cons, beq_iff_eq, reduceCtorEq, if_false, if_true]
        omega
      rw [matched_push_iff, hdepth]
      exact hrest
    | pop =>
      rw [matched_pop_iff]
      cases d with
      | zero =>
        -- an unmatched pop panics at once
        obtain ⟨e, he⟩ := pop_off_unmatched h
        refine ⟨fun hm => absurd hm.1 (Nat.lt_irrefl 0), fun _ => ⟨e, ?_⟩⟩
        rw [runCalls, he]
      | succ d =>
        obtain ⟨c', hc', hn⟩ := pop_off_nested h
        have hrest := ih d c' hn
        have hdepth : depth (d + 1) (.pop :: calls) = depth d calls := by
          simp only [depth, List.count_cons, beq_iff_eq, reduceCtorEq, if_false, if_true]
          omega
        rw [runCalls, hc', hdepth]
        exact ⟨fun hm => hrest.1 hm.2, fun hm => hrest.2 fun h' => hm ⟨by omega, h'⟩⟩

/-- From depth 0, with interrupts on or off as `b` says and any stale `intena`, every
sequence of `push_off`/`pop_off` calls in which no prefix pops more than it pushes runs
without a panic, to `noff` equal to its nesting depth, interrupts off while that is
positive, and interrupts as `b` says back at depth 0; every other sequence panics. -/
theorem push_pop_nest (b intena : Bool) (calls : List Call) :
    (Matched 0 calls → ∃ c, runCalls calls ⟨b, 0, intena⟩ = .ok c ∧
      Nested b (calls.count .push - calls.count .pop) c) ∧
    (¬ Matched 0 calls → ∃ e, runCalls calls ⟨b, 0, intena⟩ = .error e) := by
  have h := runCalls_nested calls 0 ⟨b, 0, intena⟩
    ⟨rfl, fun h => absurd h (Nat.lt_irrefl 0), fun h => absurd h (Nat.lt_irrefl 0), fun _ => rfl⟩
  simpa [depth] using h

/-- Two nested `acquire`s and their `release`s, with interrupts on. -/
theorem push_pop_nest_two_deep :
    Matched 0 [.push, .push, .pop, .pop] ∧
      ∃ c, runCalls [.push, .push, .pop, .pop] ⟨true, 0, false⟩ = .ok c ∧
        Nested true ([Call.push, .push, .pop, .pop].count .push -
          [Call.push, .push, .pop, .pop].count .pop) c :=
  ⟨by decide, (push_pop_nest true false _).1 (by decide)⟩

end Xv6
