import Mathlib

/-!
# Circular doubly linked lists through a sentinel

Cells `some a` and a sentinel `none`, linked by two pointer maps `next` and `prev`. A list
`l` is represented when `next` walks from the sentinel through `l` in order and back to the
sentinel, and `prev` walks the same cycle the other way. Both walks are stated with `after`,
the cell that follows another in a list, so that a cycle is one statement per map
(`Follows`), and the backward walk is the forward walk of the reversed list.

The two operations a most-recently-used list needs are given as the pointer writes that
implement them, in their order: taking a cell out (`unlink`) and putting it right after
the sentinel (`pushFront`). They represent `l.erase a` and `a :: l`. A loop that follows one
map from the sentinel until a cell passes a test finds what `List.find?` finds on `l`, or on
its reverse, provided it may visit as many cells as `l` has.
-/

set_option autoImplicit false

namespace Dll

variable {α : Type} [DecidableEq α]

/-! ## The cell after another -/

/-- The cell after `a` in `l`; `none` when `a` is the last cell or not in `l`. -/
def after (a : α) : List α → Option α
  | [] => none
  | x :: xs => if x = a then xs.head? else after a xs

@[simp] theorem after_nil (a : α) : after a [] = none := rfl

@[simp] theorem after_cons_self (a : α) (l : List α) : after a (a :: l) = l.head? := by
  simp [after]

theorem after_cons_of_ne {a x : α} (h : x ≠ a) (l : List α) : after a (x :: l) = after a l := by
  simp [after, h]

/-- What follows a cell is a cell of the list. -/
theorem mem_of_after_eq_some {a b : α} {l : List α} (h : after a l = some b) : b ∈ l := by
  induction l with
  | nil => simp at h
  | cons x xs ih =>
    by_cases hx : x = a
    · subst hx
      rw [after_cons_self] at h
      exact List.mem_cons_of_mem _ (List.mem_of_mem_head? h)
    · rw [after_cons_of_ne hx] at h
      exact List.mem_cons_of_mem _ (ih h)

theorem after_append_cons {a : α} {pre : List α} (h : a ∉ pre) (rest : List α) :
    after a (pre ++ a :: rest) = rest.head? := by
  induction pre with
  | nil => simp
  | cons x xs ih =>
    rw [List.mem_cons, not_or] at h
    rw [List.cons_append, after_cons_of_ne (Ne.symm h.1), ih h.2]

/-- In a list without repetitions, `b` follows `a` exactly where the list has `a` and `b`
side by side. -/
theorem after_eq_some_iff {a b : α} {l : List α} (hl : l.Nodup) :
    after a l = some b ↔ ∃ pre rest, l = pre ++ a :: b :: rest := by
  constructor
  · intro h
    induction l with
    | nil => simp at h
    | cons x xs ih =>
      by_cases hx : x = a
      · subst hx
        rw [after_cons_self] at h
        obtain ⟨rest, rfl⟩ : ∃ rest, xs = b :: rest := by
          cases xs with
          | nil => simp at h
          | cons y ys => exact ⟨ys, by simpa using h⟩
        exact ⟨[], rest, rfl⟩
      · rw [after_cons_of_ne hx] at h
        obtain ⟨pre, rest, rfl⟩ := ih (List.nodup_cons.1 hl).2 h
        exact ⟨x :: pre, rest, rfl⟩
  · rintro ⟨pre, rest, rfl⟩
    have ha : a ∉ pre := fun hmem =>
      (List.nodup_append.1 hl).2.2 a hmem a List.mem_cons_self rfl
    rw [after_append_cons ha]
    rfl

/-- Read backwards, the cell after `b` is the one `b` follows. -/
theorem after_reverse_eq_some_iff {a b : α} {l : List α} (hl : l.Nodup) :
    after b l.reverse = some a ↔ after a l = some b := by
  rw [after_eq_some_iff (List.nodup_reverse.2 hl), after_eq_some_iff hl]
  constructor
  · rintro ⟨pre, rest, h⟩
    refine ⟨rest.reverse, pre.reverse, ?_⟩
    rw [← List.reverse_reverse l, h]
    simp
  · rintro ⟨pre, rest, rfl⟩
    exact ⟨rest.reverse, pre.reverse, by simp⟩

/-- Only the last cell has nothing after it. -/
theorem after_eq_none_iff {a : α} {l : List α} (hl : l.Nodup) (ha : a ∈ l) :
    after a l = none ↔ l.getLast? = some a := by
  obtain ⟨pre, rest, rfl⟩ := List.append_of_mem ha
  have hpre : a ∉ pre := fun hmem => (List.nodup_append.1 hl).2.2 a hmem a List.mem_cons_self rfl
  rw [after_append_cons hpre, List.getLast?_append_cons]
  cases rest with
  | nil => simp
  | cons y ys =>
    have hy : (y :: ys).getLast? ≠ some a := fun h =>
      (List.nodup_cons.1 (List.nodup_append.1 hl).2.1).1 (List.mem_of_getLast? h)
    simp [hy]

/-- Appending a cell makes it follow the old last cell. -/
theorem after_concat {a b : α} {m : List α} (hm : m.Nodup) (hb : b ∈ m) :
    after b (m ++ [a]) = if m.getLast? = some b then some a else after b m := by
  induction m with
  | nil => simp at hb
  | cons x xs ih =>
    obtain ⟨hx, hxs⟩ := List.nodup_cons.1 hm
    by_cases hxb : x = b
    · subst hxb
      rw [List.cons_append, after_cons_self, after_cons_self]
      cases xs with
      | nil => simp
      | cons y ys =>
        have hlast : (x :: y :: ys).getLast? ≠ some x := by
          rw [List.getLast?_cons_cons]
          exact fun h => hx (List.mem_of_getLast? h)
        rw [if_neg hlast]
        rfl
    · have hbxs : b ∈ xs := (List.mem_cons.1 hb).resolve_left (Ne.symm hxb)
      have hne : xs ≠ [] := List.ne_nil_of_mem hbxs
      rw [List.cons_append, after_cons_of_ne hxb, after_cons_of_ne hxb, ih hxs hbxs,
        List.getLast?_cons_of_ne_nil hne]

theorem after_concat_self {a : α} {m : List α} (ha : a ∉ m) : after a (m ++ [a]) = none := by
  rw [after_append_cons ha]
  rfl

theorem head?_erase (a : α) (l : List α) :
    (l.erase a).head? = if l.head? = some a then after a l else l.head? := by
  cases l with
  | nil => simp
  | cons x xs =>
    by_cases hx : x = a
    · subst hx
      simp
    · simp [List.erase_cons_tail (show ¬(x == a) = true by simpa using hx), hx]

/-- Taking `a` out joins the cell before it to the one after it. -/
theorem after_erase {a b : α} {l : List α} (hl : l.Nodup) (hb : b ≠ a) :
    after b (l.erase a) = if after b l = some a then after a l else after b l := by
  induction l with
  | nil => simp
  | cons x xs ih =>
    obtain ⟨hx, hxs⟩ := List.nodup_cons.1 hl
    by_cases hxa : x = a
    · -- `a` is the first cell: nothing in the rest is followed by it
      subst hxa
      have hnot : after b xs ≠ some x := fun h => hx (mem_of_after_eq_some h)
      rw [List.erase_cons_head, after_cons_of_ne (Ne.symm hb), if_neg hnot]
    · rw [List.erase_cons_tail (show ¬(x == a) = true by simpa using hxa)]
      by_cases hxb : x = b
      · subst hxb
        rw [after_cons_self, after_cons_self, head?_erase, after_cons_of_ne hxa]
      · rw [after_cons_of_ne hxb, after_cons_of_ne hxb, after_cons_of_ne hxa, ih hxs]

theorem reverse_erase {l : List α} (hl : l.Nodup) (a : α) :
    (l.erase a).reverse = l.reverse.erase a := by
  rw [hl.erase_eq_filter, (List.nodup_reverse.2 hl).erase_eq_filter, List.filter_reverse]

/-! ## One pointer map walking a list -/

/-- The map `f` walks `l`: from the sentinel to the first cell, from each cell to the next,
and from the last back to the sentinel. -/
structure Follows (f : Option α → Option α) (l : List α) : Prop where
  head : f none = l.head?
  cell : ∀ a ∈ l, f (some a) = after a l

theorem follows_nil {f : Option α → Option α} (h : f none = none) : Follows f [] :=
  ⟨h, fun _ ha => absurd ha List.not_mem_nil⟩

/-- Pointing the sentinel at a new cell, and the cell at the old first one, puts it first. -/
theorem Follows.cons {f : Option α → Option α} {l : List α} {a : α} (hf : Follows f l)
    (ha : a ∉ l) :
    Follows (Function.update (Function.update f (some a) (f none)) none (some a)) (a :: l) where
  head := by simp
  cell b hb := by
    by_cases hba : b = a
    · subst hba
      simp [hf.head]
    · have hb' : b ∈ l := (List.mem_cons.1 hb).resolve_left hba
      simp [hba, after_cons_of_ne (Ne.symm hba), hf.cell b hb']

/-- Pointing the old last cell at a new cell, and the cell at the sentinel, puts it last. -/
theorem Follows.concat {g : Option α → Option α} {m : List α} {a : α} (hg : Follows g m)
    (hm : m.Nodup) (ha : a ∉ m) :
    Follows (Function.update (Function.update g (some a) none) m.getLast? (some a)) (m ++ [a]) where
  head := by
    cases m with
    | nil => simp
    | cons x xs =>
      have hlast : (x :: xs).getLast? ≠ none := by simp
      rw [Function.update_of_ne (Ne.symm hlast), Function.update_of_ne (by simp), hg.head]
      rfl
  cell b hb := by
    by_cases hba : b = a
    · subst hba
      have hlast : m.getLast? ≠ some b := fun h => ha (List.mem_of_getLast? h)
      rw [Function.update_of_ne (Ne.symm hlast), Function.update_self, after_concat_self ha]
    · have hb' : b ∈ m := by simpa [hba] using hb
      rw [after_concat hm hb']
      by_cases hlast : m.getLast? = some b
      · rw [hlast, Function.update_self, if_pos rfl]
      · rw [Function.update_of_ne (Ne.symm hlast), Function.update_of_ne (by simpa using hba),
          if_neg hlast, hg.cell b hb']

/-- Pointing the cell before `a` at the cell after it takes `a` out. -/
theorem Follows.erase {f : Option α → Option α} {l : List α} {a : α} (hf : Follows f l)
    (hl : l.Nodup) (ha : a ∈ l) :
    Follows (Function.update f (after a l.reverse) (after a l)) (l.erase a) where
  head := by
    -- the sentinel comes before `a` exactly when `a` is first
    have hfirst : after a l.reverse = none ↔ l.head? = some a := by
      rw [after_eq_none_iff (List.nodup_reverse.2 hl) (List.mem_reverse.2 ha),
        List.getLast?_reverse]
    rw [head?_erase]
    by_cases h : l.head? = some a
    · rw [if_pos h, hfirst.2 h, Function.update_self]
    · rw [if_neg h, Function.update_of_ne (fun h' => h (hfirst.1 h'.symm)), hf.head]
  cell b hb := by
    have hba : b ≠ a := fun h => by subst h; exact (hl.mem_erase_iff.1 hb).1 rfl
    have hb' : b ∈ l := List.mem_of_mem_erase hb
    rw [after_erase hl hba]
    by_cases hprev : after b l = some a
    · have hu : after a l.reverse = some b := (after_reverse_eq_some_iff hl).2 hprev
      rw [if_pos hprev, hu, Function.update_self]
    · have hu : after a l.reverse ≠ some b := fun h => hprev ((after_reverse_eq_some_iff hl).1 h)
      rw [if_neg hprev, Function.update_of_ne (Ne.symm hu), hf.cell b hb']

/-! ## Searching along a map -/

/-- The loop `for (x = start; x != sentinel; x = step(x)) if (p(x)) return x;`, visiting at
most `fuel` cells: `some r` is its result, with `r = none` when it came back to the
sentinel without a match, and `none` means the fuel ran out first. -/
def scan (step : Option α → Option α) (p : α → Bool) : ℕ → Option α → Option (Option α)
  | _, none => some none
  | 0, some _ => none
  | n + 1, some a => if p a then some (some a) else scan step p n (step (some a))

/-- Following a map that walks `l` from any cell, the loop finds what `find?` finds on the
rest of `l`. -/
theorem Follows.scan_suffix {f : Option α → Option α} {l : List α} (hf : Follows f l)
    (hl : l.Nodup) (p : α → Bool) :
    ∀ (rest pre : List α) (n : ℕ), l = pre ++ rest → rest.length ≤ n →
      scan f p n rest.head? = some (rest.find? p) := by
  intro rest
  induction rest with
  | nil => intro _ n _ _; cases n <;> rfl
  | cons a rest ih =>
    intro pre n hsplit hn
    obtain ⟨n, rfl⟩ : ∃ m, n = m + 1 := ⟨n - 1, by simp at hn; omega⟩
    have ha : a ∉ pre := fun hmem =>
      (List.nodup_append.1 (hsplit ▸ hl)).2.2 a hmem a List.mem_cons_self rfl
    -- one round of the loop moves to the next cell of `l`
    have hstep : f (some a) = rest.head? := by
      rw [hf.cell a (hsplit ▸ List.mem_append_right pre List.mem_cons_self), hsplit,
        after_append_cons ha]
    simp only [List.head?_cons, scan, List.find?_cons]
    cases hp : p a
    · rw [hstep, ih (pre ++ [a]) n (by simp [hsplit]) (by simpa using hn)]
      rfl
    · rfl

theorem Follows.scan {f : Option α → Option α} {l : List α} (hf : Follows f l)
    (hl : l.Nodup) (p : α → Bool) {n : ℕ} (hn : l.length ≤ n) :
    Dll.scan f p n (f none) = some (l.find? p) := by
  rw [hf.head]
  exact hf.scan_suffix hl p l [] n rfl hn

/-! ## Both maps -/

/-- The two pointer maps; `none` is the sentinel. -/
structure Links (α : Type) where
  next : Option α → Option α
  prev : Option α → Option α

namespace Links

/-- `x->next = y`. -/
def setNext (L : Links α) (x y : Option α) : Links α :=
  { L with next := Function.update L.next x y }

/-- `x->prev = y`. -/
def setPrev (L : Links α) (x y : Option α) : Links α :=
  { L with prev := Function.update L.prev x y }

/-- `a->next->prev = a->prev; a->prev->next = a->next;` -/
def unlink (L : Links α) (a : α) : Links α :=
  let L := L.setPrev (L.next (some a)) (L.prev (some a))
  L.setNext (L.prev (some a)) (L.next (some a))

/-- `a->next = head.next; a->prev = &head; head.next->prev = a; head.next = a;` -/
def pushFront (L : Links α) (a : α) : Links α :=
  let L := L.setNext (some a) (L.next none)
  let L := L.setPrev (some a) none
  let L := L.setPrev (L.next none) (some a)
  L.setNext none (some a)

/-- The second write of `unlink` reads back the `prev` of `a` the first one may have
written, which is the one it had. -/
theorem unlink_next (L : Links α) (a : α) :
    (L.unlink a).next = Function.update L.next (L.prev (some a)) (L.next (some a)) := by
  simp only [unlink, setNext, setPrev]
  congr 1
  by_cases h : some a = L.next (some a)
  · rw [← h, Function.update_self]
  · rw [Function.update_of_ne h]

theorem unlink_prev (L : Links α) (a : α) :
    (L.unlink a).prev = Function.update L.prev (L.next (some a)) (L.prev (some a)) := rfl

theorem pushFront_next (L : Links α) (a : α) :
    (L.pushFront a).next = Function.update (Function.update L.next (some a) (L.next none))
      none (some a) := rfl

theorem pushFront_prev (L : Links α) (a : α) :
    (L.pushFront a).prev = Function.update (Function.update L.prev (some a) none)
      (L.next none) (some a) := by
  simp [pushFront, setNext, setPrev]

/-- `L` represents `l`: `next` walks it forwards and `prev` backwards. -/
structure Represents (L : Links α) (l : List α) : Prop where
  nodup : l.Nodup
  next : Follows L.next l
  prev : Follows L.prev l.reverse

theorem represents_nil {L : Links α} (hn : L.next none = none) (hp : L.prev none = none) :
    L.Represents [] :=
  ⟨List.nodup_nil, follows_nil hn, follows_nil hp⟩

theorem Represents.pushFront {L : Links α} {l : List α} {a : α} (h : L.Represents l)
    (ha : a ∉ l) : (L.pushFront a).Represents (a :: l) where
  nodup := List.nodup_cons.2 ⟨ha, h.nodup⟩
  next := by
    rw [pushFront_next]
    exact h.next.cons ha
  prev := by
    rw [pushFront_prev, h.next.head, ← List.getLast?_reverse, List.reverse_cons]
    exact h.prev.concat (List.nodup_reverse.2 h.nodup) (by simpa using ha)

theorem Represents.unlink {L : Links α} {l : List α} {a : α} (h : L.Represents l) (ha : a ∈ l) :
    (L.unlink a).Represents (l.erase a) where
  nodup := h.nodup.erase a
  next := by
    rw [unlink_next, h.next.cell a ha, h.prev.cell a (List.mem_reverse.2 ha)]
    exact h.next.erase h.nodup ha
  prev := by
    have hrev := h.prev.erase (List.nodup_reverse.2 h.nodup) (List.mem_reverse.2 ha)
    rw [List.reverse_reverse] at hrev
    rw [unlink_prev, h.next.cell a ha, h.prev.cell a (List.mem_reverse.2 ha),
      reverse_erase h.nodup]
    exact hrev

/-- `brelse`'s move: out of its place and in after the sentinel. -/
theorem Represents.moveFront {L : Links α} {l : List α} {a : α} (h : L.Represents l)
    (ha : a ∈ l) : ((L.unlink a).pushFront a).Represents (a :: l.erase a) :=
  (h.unlink ha).pushFront (h.nodup.not_mem_erase)

/-- Pushing the cells of `m` one after the other builds `m` reversed in front of `l`. -/
theorem Represents.foldl_pushFront {L : Links α} {l : List α} (h : L.Represents l) :
    ∀ m : List α, (m.reverse ++ l).Nodup →
      (m.foldl Links.pushFront L).Represents (m.reverse ++ l) := by
  intro m
  induction m generalizing L l with
  | nil => intro _; simpa using h
  | cons a m ih =>
    intro hnd
    rw [List.reverse_cons, List.append_assoc, List.singleton_append] at hnd ⊢
    have ha : a ∉ l := (List.nodup_append.1 hnd).2.1 |> List.nodup_cons.1 |>.1
    exact ih (h.pushFront ha) hnd

theorem Represents.scan_next {L : Links α} {l : List α} (h : L.Represents l) (p : α → Bool)
    {n : ℕ} (hn : l.length ≤ n) : scan L.next p n (L.next none) = some (l.find? p) :=
  h.next.scan h.nodup p hn

theorem Represents.scan_prev {L : Links α} {l : List α} (h : L.Represents l) (p : α → Bool)
    {n : ℕ} (hn : l.length ≤ n) : scan L.prev p n (L.prev none) = some (l.reverse.find? p) :=
  h.prev.scan (List.nodup_reverse.2 h.nodup) p (by simpa using hn)

/-- When every cell is on the list, `next` and `prev` undo each other everywhere. -/
theorem Represents.next_prev {L : Links α} {l : List α} (h : L.Represents l)
    (hall : ∀ a, a ∈ l) (x : Option α) : L.next (L.prev x) = x := by
  cases x with
  | none =>
    rw [h.prev.head, List.head?_reverse]
    cases hlast : l.getLast? with
    | none => rw [h.next.head, List.getLast?_eq_none_iff.1 hlast]; rfl
    | some b => rw [h.next.cell b (hall b), (after_eq_none_iff h.nodup (hall b)).2 hlast]
  | some a =>
    rw [h.prev.cell a (List.mem_reverse.2 (hall a))]
    cases hu : after a l.reverse with
    | none =>
      rw [after_eq_none_iff (List.nodup_reverse.2 h.nodup) (List.mem_reverse.2 (hall a)),
        List.getLast?_reverse] at hu
      rw [h.next.head, hu]
    | some b => rw [h.next.cell b (hall b), (after_reverse_eq_some_iff h.nodup).1 hu]

theorem Represents.prev_next {L : Links α} {l : List α} (h : L.Represents l)
    (hall : ∀ a, a ∈ l) (x : Option α) : L.prev (L.next x) = x := by
  cases x with
  | none =>
    rw [h.next.head]
    cases hfirst : l.head? with
    | none => rw [h.prev.head, List.head?_reverse, List.head?_eq_none_iff.1 hfirst]; rfl
    | some b =>
      rw [h.prev.cell b (List.mem_reverse.2 (hall b)),
        after_eq_none_iff (List.nodup_reverse.2 h.nodup) (List.mem_reverse.2 (hall b)),
        List.getLast?_reverse, hfirst]
  | some a =>
    rw [h.next.cell a (hall a)]
    cases hv : after a l with
    | none =>
      rw [after_eq_none_iff h.nodup (hall a)] at hv
      rw [h.prev.head, List.head?_reverse, hv]
    | some b =>
      rw [h.prev.cell b (List.mem_reverse.2 (hall b)), (after_reverse_eq_some_iff h.nodup).2 hv]

end Links

end Dll
