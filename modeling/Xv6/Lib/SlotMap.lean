import Mathlib.Data.List.Basic

/-!
# Maps kept in a list of slots

A table of slots, some used and some free, each used slot holding a key, read as a map:
a lookup of `k` stops at the first used slot whose key is `k` (`find`). A new entry goes
into the first free slot, or after the last slot where none is free (`insert`); an entry is
removed by freeing its slot.

Where the key is absent, inserting an entry makes a lookup of its key stop at the new slot
and leaves every other lookup as it was (`find_insert`). Where no two used slots share a key
(`KeysApart`), which `insert` of an absent key keeps (`KeysApart.insert`), freeing the slot a
lookup of `k` found makes `k` absent and leaves every other lookup (`find_set_free`).
-/

set_option autoImplicit false

namespace SlotMap

variable {β κ : Type*} [DecidableEq κ] (used : β → Bool) (key : β → κ)

/-- The first used slot whose key is `k`, with its index. -/
def find (k : κ) : List β → Option (ℕ × β)
  | [] => none
  | e :: l => if used e ∧ key e = k then some (0, e) else (find k l).map fun p => (p.1 + 1, p.2)

/-- The index of the first free slot, the number of slots where none is free. -/
def firstFree : List β → ℕ
  | [] => 0
  | e :: l => if used e then firstFree l + 1 else 0

/-- `e` put into the first free slot, or after the last slot. -/
def insert (l : List β) (e : β) : List β :=
  if firstFree used l < l.length then l.set (firstFree used l) e else l ++ [e]

/-- No two used slots share a key: a lookup of the key of a used slot finds nothing after
it. -/
inductive KeysApart : List β → Prop
  | nil : KeysApart []
  | cons {e : β} {l : List β} : (used e = true → find used key (key e) l = none) →
      KeysApart l → KeysApart (e :: l)

variable {used key}

@[simp] theorem find_nil (k : κ) : find used key k [] = none := rfl

theorem find_cons (k : κ) (e : β) (l : List β) :
    find used key k (e :: l) =
      if used e ∧ key e = k then some (0, e) else (find used key k l).map fun p => (p.1 + 1, p.2) :=
  rfl

theorem firstFree_le (l : List β) : firstFree used l ≤ l.length := by
  induction l with
  | nil => exact Nat.le_refl _
  | cons e l ih =>
    rw [firstFree]
    split
    · rw [List.length_cons]
      omega
    · exact Nat.zero_le _

theorem find_eq_some {k : κ} {l : List β} {i : ℕ} {e : β} (h : find used key k l = some (i, e)) :
    ∃ hi : i < l.length, l[i] = e ∧ used e = true ∧ key e = k := by
  induction l generalizing i with
  | nil => cases h
  | cons e' l ih =>
    rw [find_cons] at h
    split at h
    · obtain ⟨rfl, rfl⟩ := Prod.mk.inj (Option.some.inj h)
      rename_i hk
      exact ⟨by simp, rfl, hk.1, hk.2⟩
    · obtain ⟨⟨i', e''⟩, hf, he⟩ := Option.map_eq_some_iff.1 h
      obtain ⟨rfl, rfl⟩ := Prod.mk.inj he
      obtain ⟨hi, hl, hu, hk⟩ := ih hf
      exact ⟨by simp; omega, hl, hu, hk⟩

theorem insert_nil (e : β) : insert used [] e = [e] := rfl

theorem insert_cons_free {e' : β} (h : used e' = false) (l : List β) (e : β) :
    insert used (e' :: l) e = e :: l := by
  simp [insert, firstFree, h]

theorem insert_cons_used {e' : β} (h : used e' = true) (l : List β) (e : β) :
    insert used (e' :: l) e = e' :: insert used l e := by
  by_cases hf : firstFree used l < l.length
  · simp [insert, firstFree, h, hf]
  · simp [insert, firstFree, h, hf]

theorem find_cons_free {e : β} (h : used e = false) (k : κ) (l : List β) :
    find used key k (e :: l) = (find used key k l).map fun p => (p.1 + 1, p.2) := by
  simp [find_cons, h]

/-- A lookup of a key some later used slot does not hold skips a used slot of another key. -/
theorem find_cons_of_ne {e : β} {k : κ} (h : key e ≠ k) (l : List β) :
    find used key k (e :: l) = (find used key k l).map fun p => (p.1 + 1, p.2) := by
  simp [find_cons, h]

theorem find_cons_used {e : β} (h : used e = true) (l : List β) :
    find used key (key e) (e :: l) = some (0, e) := by
  simp [find_cons, h]

/-- Where the first free slot is past the last, every slot is used. -/
theorem used_of_length_le_firstFree :
    ∀ {l : List β}, l.length ≤ firstFree used l → ∀ e ∈ l, used e = true
  | [], _, _, he => by cases he
  | e' :: l, h, e, he => by
    cases hu : used e'
    · rw [firstFree, hu] at h
      simp at h
    · rw [firstFree, hu, if_pos rfl, List.length_cons] at h
      rcases List.mem_cons.1 he with rfl | he
      · exact hu
      · exact used_of_length_le_firstFree (by omega) e he

/-- The slots after `insert`: the new entry at the first free slot, the others as they were. -/
theorem getElem?_insert (l : List β) (e : β) (j : ℕ) :
    (insert used l e)[j]? = if j = firstFree used l then some e else l[j]? := by
  unfold insert
  split
  · rename_i hf
    rw [List.getElem?_set]
    by_cases hj : j = firstFree used l
    · rw [if_pos hj.symm, if_pos hj, if_pos (hj ▸ hf)]
    · rw [if_neg (Ne.symm hj), if_neg hj]
  · rename_i hf
    have hle : firstFree used l ≤ l.length := firstFree_le l
    by_cases hj : j = firstFree used l
    · rw [if_pos hj, List.getElem?_append_right (by omega), hj, show firstFree used l - l.length = 0 by omega]
      rfl
    · rw [if_neg hj]
      by_cases hjl : j < l.length
      · rw [List.getElem?_append_left hjl]
      · rw [List.getElem?_eq_none (by simp only [List.length_append, List.length_singleton]; omega),
          List.getElem?_eq_none (by omega)]

/-- Inserting an entry whose key is absent: a lookup of its key stops at the new slot, and
every other lookup is as it was. -/
theorem find_insert {e : β} (hu : used e = true) :
    ∀ {l : List β}, find used key (key e) l = none → ∀ k,
      find used key k (insert used l e) =
        if key e = k then some (firstFree used l, e) else find used key k l
  | [], _, k => by
    rw [insert_nil, find_cons]
    by_cases hk : key e = k <;> simp [hu, hk, firstFree]
  | e' :: l, hk₀, k => by
    cases hu' : used e'
    · rw [insert_cons_free hu', find_cons, find_cons_free hu', firstFree, hu']
      by_cases hk : key e = k <;> simp [hu, hk]
    · -- the used slot `e'` holds another key and stays in front
      have hne : key e' ≠ key e := fun he => by
        rw [← he, find_cons_used hu'] at hk₀
        cases hk₀
      have hk₁ : find used key (key e) l = none := by
        rw [find_cons_of_ne hne, Option.map_eq_none_iff] at hk₀
        exact hk₀
      rw [insert_cons_used hu', firstFree, hu', if_pos rfl]
      by_cases hk' : key e' = k
      · subst hk'
        rw [find_cons_used hu', find_cons_used hu', if_neg (Ne.symm hne)]
      · rw [find_cons_of_ne hk', find_cons_of_ne hk', find_insert hu hk₁ k]
        by_cases hk : key e = k <;> simp [hk]

/-- Inserting an entry whose key is absent keeps the keys apart. -/
theorem KeysApart.insert {e : β} (hu : used e = true) :
    ∀ {l : List β}, KeysApart used key l → find used key (key e) l = none →
      KeysApart used key (SlotMap.insert used l e)
  | [], _, _ => by
    rw [insert_nil]
    exact .cons (fun _ => rfl) .nil
  | e' :: l, .cons h₁ h₂, hk₀ => by
    cases hu' : used e'
    · rw [insert_cons_free hu']
      refine .cons (fun _ => ?_) h₂
      rw [find_cons_free hu', Option.map_eq_none_iff] at hk₀
      exact hk₀
    · have hne : key e' ≠ key e := fun he => by
        rw [← he, find_cons_used hu'] at hk₀
        cases hk₀
      have hk₁ : find used key (key e) l = none := by
        rw [find_cons_of_ne hne, Option.map_eq_none_iff] at hk₀
        exact hk₀
      rw [insert_cons_used hu']
      refine .cons (fun _ => ?_) (h₂.insert hu hk₁)
      rw [find_insert hu hk₁, if_neg (Ne.symm hne)]
      exact h₁ hu'

/-- Free slots hold no key. -/
theorem find_eq_none_of_free {k : κ} :
    ∀ {l : List β}, (∀ e ∈ l, used e = false) → find used key k l = none
  | [], _ => rfl
  | e :: l, h => by
    rw [find_cons_free (h e List.mem_cons_self), find_eq_none_of_free
      fun e' he' => h e' (List.mem_cons_of_mem e he')]
    rfl

theorem find_append_free {k : κ} {l₂ : List β} (h₂ : ∀ e ∈ l₂, used e = false) :
    ∀ l₁ : List β, find used key k (l₁ ++ l₂) = find used key k l₁
  | [] => find_eq_none_of_free h₂
  | e :: l₁ => by
    rw [List.cons_append, find_cons, find_cons, find_append_free h₂ l₁]

theorem KeysApart.of_free : ∀ {l : List β}, (∀ e ∈ l, used e = false) → KeysApart used key l
  | [], _ => .nil
  | e :: _, h => .cons (fun hu => by rw [h e List.mem_cons_self] at hu; cases hu)
      (KeysApart.of_free fun e' he' => h e' (List.mem_cons_of_mem e he'))

/-- Free slots after a list keep its keys apart. -/
theorem KeysApart.append_free {l₂ : List β} (h₂ : ∀ e ∈ l₂, used e = false) :
    ∀ {l₁ : List β}, KeysApart used key l₁ → KeysApart used key (l₁ ++ l₂)
  | [], _ => KeysApart.of_free h₂
  | _ :: _, .cons h₁ h => by
    rw [List.cons_append]
    exact .cons (fun hu => by rw [find_append_free h₂]; exact h₁ hu) (KeysApart.append_free h₂ h)

/-- Freeing a slot finds nothing new. -/
theorem find_set_free_of_none {fe : β} (hfree : used fe = false) {k : κ} :
    ∀ {l : List β} (i : ℕ), find used key k l = none → find used key k (l.set i fe) = none
  | [], _, _ => rfl
  | e :: l, 0, h => by
    rw [List.set_cons_zero, find_cons_free hfree]
    rw [find_cons] at h
    split at h
    · cases h
    · exact h
  | e :: l, i + 1, h => by
    rw [find_cons] at h
    split at h
    · cases h
    · rw [List.set_cons_succ, find_cons, if_neg ‹_›, Option.map_eq_none_iff]
      exact find_set_free_of_none hfree i (Option.map_eq_none_iff.1 h)

/-- Freeing a slot keeps the keys apart. -/
theorem KeysApart.set_free {fe : β} (hfree : used fe = false) :
    ∀ {l : List β} (i : ℕ), KeysApart used key l → KeysApart used key (l.set i fe)
  | [], _, _ => .nil
  | _ :: _, 0, .cons _ h₂ => by
    rw [List.set_cons_zero]
    exact .cons (fun hu => by rw [hfree] at hu; cases hu) h₂
  | _ :: _, i + 1, .cons h₁ h₂ => by
    rw [List.set_cons_succ]
    exact .cons (fun hu => find_set_free_of_none hfree i (h₁ hu)) (KeysApart.set_free hfree i h₂)

/-- Freeing the slot a lookup of `k₀` found, where keys are apart: `k₀` is absent, and every
other lookup is as it was. -/
theorem find_set_free {fe : β} (hfree : used fe = false) {k₀ : κ} :
    ∀ {l : List β} {i : ℕ} {e₀ : β}, KeysApart used key l → find used key k₀ l = some (i, e₀) →
      ∀ k, find used key k (l.set i fe) = if k = k₀ then none else find used key k l
  | [], _, _, _, hf, _ => by cases hf
  | e :: l, i, e₀, .cons h₁ h₂, hf, k => by
    rw [find_cons] at hf
    split at hf
    · -- the lookup stopped at the head: its key is nowhere after it
      rename_i he
      obtain ⟨rfl, rfl⟩ := Prod.mk.inj (Option.some.inj hf)
      rw [List.set_cons_zero, find_cons_free hfree]
      by_cases hk : k = k₀
      · subst hk
        rw [if_pos rfl, ← he.2, h₁ he.1, Option.map_none]
      · rw [if_neg hk, find_cons_of_ne (he.2.trans_ne (Ne.symm hk))]
    · rename_i he
      obtain ⟨⟨i', e'⟩, hf', hie⟩ := Option.map_eq_some_iff.1 hf
      obtain ⟨rfl, rfl⟩ := Prod.mk.inj hie
      rw [List.set_cons_succ, find_cons, find_cons, find_set_free hfree h₂ hf' k]
      by_cases hk : k = k₀
      · subst hk
        rw [if_neg he, if_pos rfl, if_pos rfl, Option.map_none]
      · rw [if_neg hk, if_neg hk]

end SlotMap
