import Mathlib.Logic.Basic

/-!
# Programs on a state that can fail

A program of `StateT σ (Except ε)` reads and writes a state and may stop with an
error. The lemmas here take a successful run apart: a bind runs its first part to a
value and an intermediate state, and a `forM` loop runs its body on each element in
turn. Proofs about such programs then follow the program's own structure, one part at
a time, and never unfold the monad.
-/

set_option autoImplicit false

namespace StateExcept

variable {σ ε α β : Type}

/-- A result that tests successful is a value. A concrete run is shown to succeed by
evaluating the test. -/
theorem exists_eq_ok_of_toBool {e : Except ε α} (h : e.toBool = true) : ∃ a, e = .ok a := by
  cases e with
  | error _ => cases h
  | ok a => exact ⟨a, rfl⟩

/-- Whether a result is a value that passes the test `p`. A concrete run is checked by
evaluating this on its result. -/
def okSat (p : α → Bool) : Except ε α → Bool
  | .ok a => p a
  | .error _ => false

theorem exists_of_okSat {p : α → Bool} {e : Except ε α} (h : okSat p e = true) :
    ∃ a, e = .ok a ∧ p a = true := by
  cases e with
  | error _ => cases h
  | ok a => exact ⟨a, rfl, h⟩

/-- A bind on a value that is already there runs the rest on it. -/
theorem ok_bind {a : α} {f : α → Except ε β} : (Except.ok a >>= f) = f a := rfl

/-- A successful run of a bind is a successful run of each part. -/
theorem run_bind_eq_ok {x : StateT σ (Except ε) α} {f : α → StateT σ (Except ε) β}
    {s s'' : σ} {b : β} (h : (x >>= f).run s = .ok (b, s'')) :
    ∃ a s', x.run s = .ok (a, s') ∧ (f a).run s' = .ok (b, s'') := by
  rw [StateT.run_bind] at h
  cases hx : x.run s with
  | error e =>
    rw [hx] at h
    cases h
  | ok p =>
    rw [hx] at h
    exact ⟨p.1, p.2, rfl, h⟩

/-- A failed run of a bind is a failure of the first part, or a success of it and a
failure of the rest. -/
theorem run_bind_eq_error {x : StateT σ (Except ε) α} {f : α → StateT σ (Except ε) β}
    {s : σ} {e : ε} (h : (x >>= f).run s = .error e) :
    x.run s = .error e ∨ ∃ a s', x.run s = .ok (a, s') ∧ (f a).run s' = .error e := by
  rw [StateT.run_bind] at h
  cases hx : x.run s with
  | error e' =>
    rw [hx] at h
    cases h
    exact .inl rfl
  | ok p =>
    rw [hx] at h
    exact .inr ⟨p.1, p.2, rfl, h⟩

/-- A successful run of a loop over `a :: as` runs the body on `a`, then the rest. -/
theorem run_forM_cons_eq_ok {f : α → StateT σ (Except ε) PUnit} {a : α} {as : List α}
    {s s'' : σ} (h : ((a :: as).forM f).run s = .ok (⟨⟩, s'')) :
    ∃ s', (f a).run s = .ok (⟨⟩, s') ∧ (as.forM f).run s' = .ok (⟨⟩, s'') := by
  rw [List.forM_eq_forM, List.forM_cons] at h
  obtain ⟨⟨⟩, s', h1, h2⟩ := run_bind_eq_ok h
  exact ⟨s', h1, by rwa [List.forM_eq_forM]⟩

/-- A loop over the indices `k, …, k + n - 1` whose body succeeds, from each state the
invariant allows at an index of the range, into a state it allows at the next index,
succeeds into a state it allows at `k + n`. -/
theorem run_forM_range' {f : Nat → StateT σ (Except ε) PUnit} (I : Nat → σ → Prop) :
    ∀ (n k : Nat), (∀ j s, k ≤ j → j < k + n → I j s → ∃ s', (f j).run s = .ok (⟨⟩, s') ∧ I (j + 1) s') →
      ∀ s, I k s → ∃ s', ((List.range' k n).forM f).run s = .ok (⟨⟩, s') ∧ I (k + n) s' := by
  intro n
  induction n with
  | zero => intro k _ s hs; exact ⟨s, rfl, hs⟩
  | succ n ih =>
    intro k h s hs
    obtain ⟨s1, h1, hs1⟩ := h k s (Nat.le_refl k) (by omega) hs
    obtain ⟨s', h2, hs'⟩ := ih (k + 1) (fun j s hj hj' hI => h j s (by omega) (by omega) hI) s1 hs1
    refine ⟨s', ?_, by rw [show k + (n + 1) = k + 1 + n by omega]; exact hs'⟩
    rw [List.range'_succ, List.forM_eq_forM, List.forM_cons, StateT.run_bind, h1, ok_bind]
    rw [← List.forM_eq_forM]
    exact h2

/-- A loop over `l` whose body succeeds on each element, from a state the invariant allows
after the elements before it, into one it allows after that element too: run from the point
where `done` has been handled, it succeeds into a state the invariant allows after all of `l`. -/
theorem run_forM_prefix {f : α → StateT σ (Except ε) PUnit} (I : List α → σ → Prop) (l : List α)
    (h : ∀ done a rest s, done ++ a :: rest = l → I done s →
      ∃ s', (f a).run s = .ok (⟨⟩, s') ∧ I (done ++ [a]) s') :
    ∀ (rest done : List α) (s : σ), done ++ rest = l → I done s →
      ∃ s', (rest.forM f).run s = .ok (⟨⟩, s') ∧ I l s' := by
  intro rest
  induction rest with
  | nil =>
    intro done s hl hs
    rw [List.append_nil] at hl
    exact ⟨s, rfl, hl ▸ hs⟩
  | cons a rest ih =>
    intro done s hl hs
    obtain ⟨s1, h1, hs1⟩ := h done a rest s hl hs
    obtain ⟨s', h2, hs'⟩ := ih (done ++ [a]) s1 (by rw [List.append_assoc]; exact hl) hs1
    refine ⟨s', ?_, hs'⟩
    rw [List.forM_eq_forM, List.forM_cons, StateT.run_bind, h1, ok_bind, ← List.forM_eq_forM]
    exact h2

/-! ## Programs on a part of the state -/

/-- Run `x` on the part `get s` of the state and put back the part it leaves with `put`. -/
def focus {τ : Type} (get : σ → τ) (put : σ → τ → σ) (x : StateT τ (Except ε) α) :
    StateT σ (Except ε) α := fun s =>
  match x.run (get s) with
  | .ok (a, t) => .ok (a, put s t)
  | .error e => .error e

/-! ## Pre- and postconditions -/

/-- Every successful run of `x` from a state satisfying `P` ends, with its value, in a
state satisfying `Q`. A run that fails is not constrained: a failure stops the machine. -/
def Triple (P : σ → Prop) (x : StateT σ (Except ε) α) (Q : α → σ → Prop) : Prop :=
  ∀ s a s', P s → x.run s = .ok (a, s') → Q a s'

namespace Triple

variable {P P' : σ → Prop} {Q Q' : α → σ → Prop}

theorem mono {x : StateT σ (Except ε) α} (h : Triple P x Q) (hP : ∀ s, P' s → P s)
    (hQ : ∀ a s, Q a s → Q' a s) : Triple P' x Q' :=
  fun s a s' hs hrun => hQ a s' (h s a s' (hP s hs) hrun)

theorem and {x : StateT σ (Except ε) α} (h : Triple P x Q) (h' : Triple P x Q') :
    Triple P x fun a s => Q a s ∧ Q' a s :=
  fun s a s' hs hrun => ⟨h s a s' hs hrun, h' s a s' hs hrun⟩

theorem pure {a : α} (h : ∀ s, P s → Q a s) :
    Triple P (Pure.pure a : StateT σ (Except ε) α) Q := by
  intro s b s' hs hrun
  cases hrun
  exact h s hs

theorem bind {R : β → σ → Prop} {x : StateT σ (Except ε) β} {f : β → StateT σ (Except ε) α}
    (hx : Triple P x R) (hf : ∀ b, Triple (R b) (f b) Q) : Triple P (x >>= f) Q := by
  intro s a s'' hs hrun
  obtain ⟨b, s', h1, h2⟩ := run_bind_eq_ok hrun
  exact hf b s' a s'' (hx s b s' hs h1) h2

/-- A program that reads the state runs from the state it read. -/
theorem get_bind {f : σ → StateT σ (Except ε) α}
    (h : ∀ s₀, Triple (fun s => P s ∧ s = s₀) (f s₀) Q) : Triple P (get >>= f) Q := by
  intro s a s' hs hrun
  exact h s s a s' ⟨hs, rfl⟩ hrun

/-- A program that reads the state may use what the precondition says of it. -/
theorem get_bind_of {f : σ → StateT σ (Except ε) α}
    (h : ∀ s₀, P s₀ → Triple (fun s => s = s₀) (f s₀) Q) : Triple P (get >>= f) Q := by
  intro s a s' hs hrun
  exact h s hs s a s' rfl hrun

theorem modify {g : σ → σ} {Q : PUnit → σ → Prop} (h : ∀ s, P s → Q ⟨⟩ (g s)) :
    Triple P (modify g : StateT σ (Except ε) PUnit) Q := by
  intro s a s' hs hrun
  cases hrun
  exact h s hs

theorem set {t : σ} {Q : PUnit → σ → Prop} (h : ∀ s, P s → Q ⟨⟩ t) :
    Triple P (set t : StateT σ (Except ε) PUnit) Q := by
  intro s a s' hs hrun
  cases hrun
  exact h s hs

theorem throw {e : ε} : Triple P (throw e : StateT σ (Except ε) α) Q := by
  intro s a s' _ hrun
  cases hrun

theorem throw_bind {e : ε} {f : β → StateT σ (Except ε) α} :
    Triple P ((MonadExcept.throw e : StateT σ (Except ε) β) >>= f) Q :=
  bind (R := fun _ _ => False) throw fun _ _ _ _ hs _ => hs.elim

theorem ite {c : Prop} [Decidable c] {x y : StateT σ (Except ε) α} (hx : c → Triple P x Q)
    (hy : ¬c → Triple P y Q) : Triple P (if c then x else y) Q := by
  by_cases hc : c
  · rw [if_pos hc]
    exact hx hc
  · rw [if_neg hc]
    exact hy hc

/-- A check that stops with an error when it fails and otherwise goes on with `k`, the
shape `do` gives to `if c then throw e` before the rest of a block. -/
theorem ite_throw {c : Prop} [Decidable c] {e : ε} {k : PUnit → StateT σ (Except ε) α}
    (h : ¬c → Triple P (k ⟨⟩) Q) :
    Triple P (if c then (MonadExcept.throw e : StateT σ (Except ε) PUnit) >>= k else k ⟨⟩) Q :=
  ite (fun _ => throw_bind) h

/-- The rule of a `forM` loop: an invariant on the elements still to visit, kept by every
round, holds when the loop ends. -/
theorem forM {f : β → StateT σ (Except ε) PUnit} (I : List β → σ → Prop)
    (h : ∀ b bs, Triple (I (b :: bs)) (f b) fun _ => I bs) :
    ∀ bs : List β, Triple (I bs) (bs.forM f) fun _ => I [] := by
  intro bs
  induction bs with
  | nil =>
    intro s a s' hs hrun
    cases hrun
    exact hs
  | cons b bs ih =>
    intro s a s'' hs hrun
    obtain ⟨s', h1, h2⟩ := run_forM_cons_eq_ok hrun
    exact ih s' a s'' (h b bs s ⟨⟩ s' hs h1) h2

/-- A program's result mapped by `g` meets what the program's result meets of its image. -/
theorem map {g : β → α} {x : StateT σ (Except ε) β} {Q : α → σ → Prop}
    (h : Triple P x fun b => Q (g b)) : Triple P (g <$> x) Q := by
  intro s a s' hs hrun
  rw [StateT.run_map] at hrun
  cases hx : x.run s with
  | error e =>
    rw [hx] at hrun
    cases hrun
  | ok p =>
    rw [hx] at hrun
    cases hrun
    exact h s p.1 p.2 hs hx

/-- `discard x` runs `x` and forgets its value. -/
theorem discard {x : StateT σ (Except ε) β} {Q : PUnit → σ → Prop} (h : Triple P x fun _ => Q ⟨⟩) :
    Triple P (Functor.discard x) Q :=
  map h

/-- A triple may start from each state the precondition allows, as it is. -/
theorem of_pinned {x : StateT σ (Except ε) α} (h : ∀ s₀, P s₀ → Triple (· = s₀) x Q) :
    Triple P x Q :=
  fun s a s' hs hrun => h s hs s a s' rfl hrun

end Triple

/-! ## Programs that keep a view of the state

A program that only touches what a property does not read keeps the property. The view
`view` is what the property reads; a program keeps it when every successful run ends
with the view it started from, possibly only from states whose view satisfies `c`.
Proofs of keeping follow the program's structure with the rules below, and turn into a
`Triple` for any property of the view. -/

/-- Every successful run of `x` from a state whose view satisfies `c` ends with the view it
started from. -/
def Keeps {ν : Type} (view : σ → ν) (c : ν → Prop) (x : StateT σ (Except ε) α) : Prop :=
  ∀ v, c v → Triple (fun s => view s = v) x fun _ s => view s = v

namespace Keeps

variable {ν : Type} {view : σ → ν} {c c' : ν → Prop}

theorem of_run {x : StateT σ (Except ε) α}
    (h : ∀ s a s', c (view s) → x.run s = .ok (a, s') → view s' = view s) : Keeps view c x := by
  intro v hv s a s' hs hrun
  subst hs
  exact h s a s' hv hrun

theorem mono {x : StateT σ (Except ε) α} (h : Keeps view c x) (hc : ∀ v, c' v → c v) :
    Keeps view c' x :=
  fun v hv => h v (hc v hv)

/-- A program that keeps the view keeps every property of it that implies `c`. -/
theorem triple {x : StateT σ (Except ε) α} (h : Keeps view c x) (R : ν → Prop)
    (hR : ∀ v, R v → c v) : Triple (fun s => R (view s)) x fun _ s => R (view s) := by
  intro s a s' hs hrun
  rw [h (view s) (hR _ hs) s a s' rfl hrun]
  exact hs

/-- A program keeps whatever the view determines. -/
theorem comp {ν' : Type} {x : StateT σ (Except ε) α} (h : Keeps view (fun _ => True) x)
    (g : ν → ν') : Keeps (fun s => g (view s)) (fun _ => True) x := by
  intro w _ s a s' hs hrun
  show g (view s') = w
  rw [h (view s) trivial s a s' rfl hrun]
  exact hs

theorem pure {a : α} : Keeps view c (Pure.pure a : StateT σ (Except ε) α) :=
  fun _ _ => Triple.pure fun _ hs => hs

theorem throw {e : ε} : Keeps view c (throw e : StateT σ (Except ε) α) :=
  fun _ _ => Triple.throw

theorem bind {x : StateT σ (Except ε) β} {f : β → StateT σ (Except ε) α} (hx : Keeps view c x)
    (hf : ∀ b, Keeps view c (f b)) : Keeps view c (x >>= f) :=
  fun v hv => Triple.bind (hx v hv) fun b => hf b v hv

theorem get_bind {f : σ → StateT σ (Except ε) α} (h : ∀ s₀, Keeps view c (f s₀)) :
    Keeps view c (get >>= f) :=
  fun v hv => Triple.get_bind fun s₀ => (h s₀ v hv).mono (fun _ hs => hs.1) fun _ _ hs => hs

theorem map {g : β → α} {x : StateT σ (Except ε) β} (h : Keeps view c x) :
    Keeps view c (g <$> x) :=
  fun v hv => Triple.map (h v hv)

theorem modify {g : σ → σ} (h : ∀ s, c (view s) → view (g s) = view s) :
    Keeps view c (modify g : StateT σ (Except ε) PUnit) :=
  fun _ hv => Triple.modify fun s hs => (h s (hs ▸ hv)).trans hs

theorem ite {p : Prop} [Decidable p] {x y : StateT σ (Except ε) α} (hx : p → Keeps view c x)
    (hy : ¬p → Keeps view c y) : Keeps view c (if p then x else y) := by
  by_cases hp : p
  · rw [if_pos hp]
    exact hx hp
  · rw [if_neg hp]
    exact hy hp

/-- A check that stops with an error when it fails, before the rest `k` of a block. -/
theorem ite_throw {p : Prop} [Decidable p] {e : ε} {k : PUnit → StateT σ (Except ε) α}
    (h : Keeps view c (k ⟨⟩)) :
    Keeps view c (if p then (MonadExcept.throw e : StateT σ (Except ε) PUnit) >>= k else k ⟨⟩) :=
  ite (fun _ => throw.bind fun _ => h) fun _ => h

theorem forM {f : β → StateT σ (Except ε) PUnit} (h : ∀ b, Keeps view c (f b)) (bs : List β) :
    Keeps view c (bs.forM f) :=
  fun v hv => Triple.forM (fun _ s => view s = v) (fun b _ => h b v hv) bs

end Keeps

/-! ## Programs whose failures are known

A `Triple` says nothing of a run that fails. Where a failure stands for a fault of the
program (a panic on memory it has freed), the fault is excluded by saying which failures
a program can have: `FailsWith P x E` when every failed run from a state satisfying `P`
fails with an error in `E`. The rules follow the program's structure as those of `Triple`
do; a bind needs the `Triple` of its first part for the states the rest can start from. -/

/-- Every failed run of `x` from a state satisfying `P` fails with an error in `E`. -/
def FailsWith (P : σ → Prop) (x : StateT σ (Except ε) α) (E : ε → Prop) : Prop :=
  ∀ s e, P s → x.run s = .error e → E e

namespace FailsWith

variable {P P' : σ → Prop} {E : ε → Prop}

theorem mono {x : StateT σ (Except ε) α} (h : FailsWith P x E) (hP : ∀ s, P' s → P s) :
    FailsWith P' x E :=
  fun s e hs hrun => h s e (hP s hs) hrun

theorem pure {a : α} : FailsWith P (Pure.pure a : StateT σ (Except ε) α) E := by
  intro s e _ hrun
  cases hrun

theorem throw {e : ε} (he : E e) : FailsWith P (throw e : StateT σ (Except ε) α) E := by
  intro s e' _ hrun
  cases hrun
  exact he

theorem modify {g : σ → σ} : FailsWith P (modify g : StateT σ (Except ε) PUnit) E := by
  intro s e _ hrun
  cases hrun

theorem set {t : σ} : FailsWith P (set t : StateT σ (Except ε) PUnit) E := by
  intro s e _ hrun
  cases hrun

theorem bind {R : β → σ → Prop} {x : StateT σ (Except ε) β} {f : β → StateT σ (Except ε) α}
    (hx : FailsWith P x E) (hxq : Triple P x R) (hf : ∀ b, FailsWith (R b) (f b) E) :
    FailsWith P (x >>= f) E := by
  intro s e hs hrun
  rcases run_bind_eq_error hrun with h1 | ⟨b, s', h1, h2⟩
  · exact hx s e hs h1
  · exact hf b s' e (hxq s b s' hs h1) h2

/-- A bind whose second part fails only in `E` from any state. -/
theorem bind_any {x : StateT σ (Except ε) β} {f : β → StateT σ (Except ε) α}
    (hx : FailsWith P x E) (hf : ∀ b, FailsWith (fun _ => True) (f b) E) :
    FailsWith P (x >>= f) E :=
  bind (R := fun _ _ => True) hx (fun _ _ _ _ _ => trivial) hf

theorem get_bind {f : σ → StateT σ (Except ε) α}
    (h : ∀ s₀, FailsWith (fun s => P s ∧ s = s₀) (f s₀) E) : FailsWith P (get >>= f) E := by
  intro s e hs hrun
  exact h s s e ⟨hs, rfl⟩ hrun

theorem get_bind_of {f : σ → StateT σ (Except ε) α}
    (h : ∀ s₀, P s₀ → FailsWith (fun s => s = s₀) (f s₀) E) : FailsWith P (get >>= f) E := by
  intro s e hs hrun
  exact h s hs s e rfl hrun

theorem ite {c : Prop} [Decidable c] {x y : StateT σ (Except ε) α} (hx : c → FailsWith P x E)
    (hy : ¬c → FailsWith P y E) : FailsWith P (if c then x else y) E := by
  by_cases hc : c
  · rw [if_pos hc]
    exact hx hc
  · rw [if_neg hc]
    exact hy hc

/-- A check that stops with an error of `E` when it fails, before the rest `k` of a block. -/
theorem ite_throw {c : Prop} [Decidable c] {e : ε} {k : PUnit → StateT σ (Except ε) α}
    (he : E e) (h : ¬c → FailsWith P (k ⟨⟩) E) :
    FailsWith P (if c then (MonadExcept.throw e : StateT σ (Except ε) PUnit) >>= k else k ⟨⟩) E :=
  ite (fun _ => bind (R := fun _ _ => False) (throw he) Triple.throw fun _ _ _ hs _ => hs.elim) h

/-- The rule of a `forM` loop, with the invariant of `Triple.forM`. -/
theorem forM {f : β → StateT σ (Except ε) PUnit} (I : List β → σ → Prop)
    (hI : ∀ b bs, Triple (I (b :: bs)) (f b) fun _ => I bs)
    (h : ∀ b bs, FailsWith (I (b :: bs)) (f b) E) :
    ∀ bs : List β, FailsWith (I bs) (bs.forM f) E := by
  intro bs
  induction bs with
  | nil =>
    intro s e _ hrun
    cases hrun
  | cons b bs ih =>
    intro s e hs hrun
    rw [List.forM_eq_forM, List.forM_cons] at hrun
    rcases run_bind_eq_error hrun with h1 | ⟨⟨⟩, s', h1, h2⟩
    · exact h b bs s e hs h1
    · rw [← List.forM_eq_forM] at h2
      exact ih s' e (hI b bs s ⟨⟩ s' hs h1) h2

theorem map {g : β → α} {x : StateT σ (Except ε) β} (h : FailsWith P x E) :
    FailsWith P (g <$> x) E := by
  intro s e hs hrun
  rw [StateT.run_map] at hrun
  cases hx : x.run s with
  | error e' =>
    rw [hx] at hrun
    cases hrun
    exact h s _ hs hx
  | ok p =>
    rw [hx] at hrun
    cases hrun

end FailsWith

/-- `x` keeps the view from every state, and fails only with errors in `E`: code that
works below what a property reads, and whose failures are not the ones excluded. -/
structure Confined {ν : Type} (view : σ → ν) (E : ε → Prop) (x : StateT σ (Except ε) α) :
    Prop where
  keeps : Keeps view (fun _ => True) x
  fails : FailsWith (fun _ => True) x E

namespace Confined

variable {ν : Type} {view : σ → ν} {E : ε → Prop}

theorem pure {a : α} : Confined view E (Pure.pure a : StateT σ (Except ε) α) :=
  ⟨Keeps.pure, FailsWith.pure⟩

theorem throw {e : ε} (he : E e) : Confined view E (throw e : StateT σ (Except ε) α) :=
  ⟨Keeps.throw, FailsWith.throw he⟩

theorem bind {x : StateT σ (Except ε) β} {f : β → StateT σ (Except ε) α}
    (hx : Confined view E x) (hf : ∀ b, Confined view E (f b)) : Confined view E (x >>= f) :=
  ⟨hx.keeps.bind fun b => (hf b).keeps, hx.fails.bind_any fun b => (hf b).fails⟩

theorem get_bind {f : σ → StateT σ (Except ε) α} (h : ∀ s₀, Confined view E (f s₀)) :
    Confined view E (get >>= f) :=
  ⟨Keeps.get_bind fun s₀ => (h s₀).keeps,
    FailsWith.get_bind fun s₀ => (h s₀).fails.mono fun _ _ => trivial⟩

theorem map {g : β → α} {x : StateT σ (Except ε) β} (h : Confined view E x) :
    Confined view E (g <$> x) :=
  ⟨h.keeps.map, h.fails.map⟩

theorem modify {g : σ → σ} (h : ∀ s, view (g s) = view s) :
    Confined view E (modify g : StateT σ (Except ε) PUnit) :=
  ⟨Keeps.modify fun s _ => h s, FailsWith.modify⟩

theorem ite {p : Prop} [Decidable p] {x y : StateT σ (Except ε) α} (hx : p → Confined view E x)
    (hy : ¬p → Confined view E y) : Confined view E (if p then x else y) :=
  ⟨Keeps.ite (fun hp => (hx hp).keeps) fun hp => (hy hp).keeps,
    FailsWith.ite (fun hp => (hx hp).fails) fun hp => (hy hp).fails⟩

/-- A check that stops with an error of `E` when it fails, before the rest `k` of a block. -/
theorem ite_throw {p : Prop} [Decidable p] {e : ε} {k : PUnit → StateT σ (Except ε) α}
    (he : E e) (h : Confined view E (k ⟨⟩)) :
    Confined view E (if p then (MonadExcept.throw e : StateT σ (Except ε) PUnit) >>= k else k ⟨⟩) :=
  ite (fun _ => (throw he).bind fun _ => h) fun _ => h

theorem forM {f : β → StateT σ (Except ε) PUnit} (h : ∀ b, Confined view E (f b)) (bs : List β) :
    Confined view E (bs.forM f) :=
  ⟨Keeps.forM (fun b => (h b).keeps) bs,
    FailsWith.forM (fun _ _ => True) (fun _ _ _ _ _ _ _ => trivial) (fun b _ => (h b).fails) bs⟩

end Confined

/-! ## Specifications with their failures

`Spec P x Q E` is a `Triple` together with the failures it allows: every run of `x` from
a state satisfying `P` ends in `Q` or fails with an error in `E`. A proof of it follows
the program once and gives both. -/

/-- Every run of `x` from a state satisfying `P` succeeds into `Q` or fails in `E`. -/
structure Spec (P : σ → Prop) (x : StateT σ (Except ε) α) (Q : α → σ → Prop) (E : ε → Prop) :
    Prop where
  triple : Triple P x Q
  fails : FailsWith P x E

namespace Spec

variable {P P' : σ → Prop} {Q Q' : α → σ → Prop} {E : ε → Prop}

theorem mono {x : StateT σ (Except ε) α} (h : Spec P x Q E) (hP : ∀ s, P' s → P s)
    (hQ : ∀ a s, Q a s → Q' a s) : Spec P' x Q' E :=
  ⟨h.triple.mono hP hQ, h.fails.mono hP⟩

theorem pure {a : α} (h : ∀ s, P s → Q a s) : Spec P (Pure.pure a : StateT σ (Except ε) α) Q E :=
  ⟨Triple.pure h, FailsWith.pure⟩

theorem throw {e : ε} (he : E e) : Spec P (throw e : StateT σ (Except ε) α) Q E :=
  ⟨Triple.throw, FailsWith.throw he⟩

theorem bind {R : β → σ → Prop} {x : StateT σ (Except ε) β} {f : β → StateT σ (Except ε) α}
    (hx : Spec P x R E) (hf : ∀ b, Spec (R b) (f b) Q E) : Spec P (x >>= f) Q E :=
  ⟨hx.triple.bind fun b => (hf b).triple, hx.fails.bind hx.triple fun b => (hf b).fails⟩

theorem get_bind {f : σ → StateT σ (Except ε) α}
    (h : ∀ s₀, Spec (fun s => P s ∧ s = s₀) (f s₀) Q E) : Spec P (get >>= f) Q E :=
  ⟨Triple.get_bind fun s₀ => (h s₀).triple, FailsWith.get_bind fun s₀ => (h s₀).fails⟩

theorem get_bind_of {f : σ → StateT σ (Except ε) α}
    (h : ∀ s₀, P s₀ → Spec (fun s => s = s₀) (f s₀) Q E) : Spec P (get >>= f) Q E :=
  ⟨Triple.get_bind_of fun s₀ hs => (h s₀ hs).triple,
    FailsWith.get_bind_of fun s₀ hs => (h s₀ hs).fails⟩

theorem modify {g : σ → σ} {Q : PUnit → σ → Prop} (h : ∀ s, P s → Q ⟨⟩ (g s)) :
    Spec P (modify g : StateT σ (Except ε) PUnit) Q E :=
  ⟨Triple.modify h, FailsWith.modify⟩

theorem ite {c : Prop} [Decidable c] {x y : StateT σ (Except ε) α} (hx : c → Spec P x Q E)
    (hy : ¬c → Spec P y Q E) : Spec P (if c then x else y) Q E :=
  ⟨Triple.ite (fun hc => (hx hc).triple) fun hc => (hy hc).triple,
    FailsWith.ite (fun hc => (hx hc).fails) fun hc => (hy hc).fails⟩

/-- A check that stops with an error of `E` when it fails, before the rest `k` of a block. -/
theorem ite_throw {c : Prop} [Decidable c] {e : ε} {k : PUnit → StateT σ (Except ε) α}
    (he : E e) (h : ¬c → Spec P (k ⟨⟩) Q E) :
    Spec P (if c then (MonadExcept.throw e : StateT σ (Except ε) PUnit) >>= k else k ⟨⟩) Q E :=
  ite (fun _ => (throw he).bind (R := fun _ _ => False) fun _ =>
    ⟨fun _ _ _ hs _ => hs.elim, fun _ _ hs _ => hs.elim⟩) h

theorem map {g : β → α} {x : StateT σ (Except ε) β} (h : Spec P x (fun b => Q (g b)) E) :
    Spec P (g <$> x) Q E :=
  ⟨Triple.map h.triple, h.fails.map⟩

/-- The rule of a `forM` loop, with the invariant of `Triple.forM`. -/
theorem forM {f : β → StateT σ (Except ε) PUnit} (I : List β → σ → Prop)
    (h : ∀ b bs, Spec (I (b :: bs)) (f b) (fun _ => I bs) E) :
    ∀ bs : List β, Spec (I bs) (bs.forM f) (fun _ => I []) E :=
  fun bs => ⟨Triple.forM I (fun b bs => (h b bs).triple) bs,
    FailsWith.forM I (fun b bs => (h b bs).triple) (fun b bs => (h b bs).fails) bs⟩

/-- A specification may start from each state the precondition allows, as it is. -/
theorem of_pinned {x : StateT σ (Except ε) α} (h : ∀ s₀, P s₀ → Spec (· = s₀) x Q E) :
    Spec P x Q E :=
  ⟨fun s a s' hs hrun => (h s hs).triple s a s' rfl hrun,
    fun s e hs hrun => (h s hs).fails s e rfl hrun⟩

/-- A specification holds from a precondition that adds to its own. -/
theorem of_and {x : StateT σ (Except ε) α} (h : Spec P x Q E) : Spec (fun s => P s ∧ P' s) x Q E :=
  h.mono (fun _ hs => hs.1) fun _ _ hs => hs

/-- A specification with a `Triple` beside it. -/
theorem and {x : StateT σ (Except ε) α} {P' : σ → Prop} {Q' : α → σ → Prop} (h : Spec P x Q E)
    (h' : Triple P' x Q') : Spec (fun s => P s ∧ P' s) x (fun a s => Q a s ∧ Q' a s) E :=
  ⟨(h.triple.mono (fun _ hs => hs.1) fun _ _ hs => hs).and (h'.mono (fun _ hs => hs.2)
    fun _ _ hs => hs), h.fails.mono fun _ hs => hs.1⟩

/-- `discard x` runs `x` and forgets its value. -/
theorem discard {x : StateT σ (Except ε) β} {Q : PUnit → σ → Prop}
    (h : Spec P x (fun _ => Q ⟨⟩) E) : Spec P (Functor.discard x) Q E :=
  map h

/-- Code confined below a view keeps every property that only the view decides. -/
theorem of_confined {ν : Type} {view : σ → ν} {x : StateT σ (Except ε) α}
    (h : Confined view E x) (hP : ∀ s s', view s' = view s → P s → P s') :
    Spec P x (fun _ => P) E := by
  refine ⟨fun s a s' hs hrun => hP s s' ?_ hs, h.fails.mono fun _ _ => trivial⟩
  exact h.keeps (view s) trivial s a s' rfl hrun

end Spec

/-- A specification carries what the program does not touch. -/
theorem Triple.frame {ν : Type} {view : σ → ν} {x : StateT σ (Except ε) α} {P : σ → Prop}
    {Q : α → σ → Prop} (h : Triple P x Q) (hk : Keeps view (fun _ => True) x) (F : ν → Prop) :
    Triple (fun s => P s ∧ F (view s)) x fun a s => Q a s ∧ F (view s) := by
  intro s a s' hs hrun
  refine ⟨h s a s' hs.1 hrun, ?_⟩
  rw [hk (view s) trivial s a s' rfl hrun]
  exact hs.2

end StateExcept
