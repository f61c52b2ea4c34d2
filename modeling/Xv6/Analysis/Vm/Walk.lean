import Xv6.Analysis.Vm.Tree
import Xv6.Lib.StateExcept

/-!
# `walk`, `walkaddr` and the allocator

`Good s pt` is the invariant the page-table code keeps for a table `pt`: the tree is
well formed (`TreeOk`), and the free pages are aligned, non-zero, listed once, and
neither pages of the table nor pages it maps. `walk` with `alloc` set keeps it, takes
its new page-table pages from the head of the free list, writes nothing outside the
table, and leaves the abstraction as it was (`Grows`); it returns the PTE of `va`, or 0
only when the free list ran out (`walk_spec`). Without `alloc` it only reads
(`walk_run_false`), and `walkaddr` returns the page the abstraction maps `va` to, where
the PTE has `PTE_U` (`walkaddr_run`).
-/

set_option autoImplicit false

namespace Xv6.Vm

open Radix

/-- The invariant of the page-table code for the table `pt`. -/
structure Good (s : VmState) (pt : UInt64) : Prop where
  tree : TreeOk s.mem pt
  free_aligned : ∀ p ∈ s.freelist, p.toNat % 4096 = 0
  free_ne_zero : ∀ p ∈ s.freelist, p ≠ 0
  free_nodup : s.freelist.Nodup
  free_not_pt : ∀ p ∈ s.freelist, ¬ IsPtPage s.mem pt p
  free_not_mapped : ∀ p ∈ s.freelist, ¬ IsMapped s.mem pt p
  mapped_not_pt : ∀ p, IsMapped s.mem pt p → ¬ IsPtPage s.mem pt p

/-- The byte `b` lies in a page of the table. -/
def InTable (m : Mem) (pt b : UInt64) : Prop := ∃ q, IsPtPage m pt q ∧ b - q < PGSIZE

/-- What `walk` may do to the state: keep the invariant and the abstraction, take its
new page-table pages off the free list, and write nothing outside the table. -/
structure Grows (s s' : VmState) (pt : UInt64) : Prop where
  good : Good s' pt
  lookup_eq : ∀ va, lookup s'.mem pt va = lookup s.mem pt va
  pages : ∀ q, IsPtPage s'.mem pt q ↔ IsPtPage s.mem pt q ∨ (q ∈ s.freelist ∧ q ∉ s'.freelist)
  free_suffix : s'.freelist <:+ s.freelist
  frame : ∀ b, ¬ InTable s'.mem pt b → s'.mem b = s.mem b
  kernelEnd : s'.kernelEnd = s.kernelEnd

theorem Grows.refl {s : VmState} {pt : UInt64} (hs : Good s pt) : Grows s s pt where
  good := hs
  lookup_eq _ := rfl
  pages q := by simp
  free_suffix := List.suffix_refl _
  frame _ _ := rfl
  kernelEnd := rfl

theorem Grows.trans {s s' s'' : VmState} {pt : UInt64} (h : Grows s s' pt) (h' : Grows s' s'' pt) :
    Grows s s'' pt where
  good := h'.good
  lookup_eq va := by rw [h'.lookup_eq, h.lookup_eq]
  pages q := by
    rw [h'.pages, h.pages]
    have h1 := h.free_suffix.subset
    have h2 := h'.free_suffix.subset
    constructor
    · rintro ((hq | ⟨hq, hq'⟩) | ⟨hq, hq'⟩)
      · exact Or.inl hq
      · exact Or.inr ⟨hq, fun hm => hq' (h2 hm)⟩
      · exact Or.inr ⟨h1 hq, hq'⟩
    · rintro (hq | ⟨hq, hq''⟩)
      · exact Or.inl (Or.inl hq)
      · by_cases hq' : q ∈ s'.freelist
        · exact Or.inr ⟨hq', hq''⟩
        · exact Or.inl (Or.inr ⟨hq, hq'⟩)
  free_suffix := h'.free_suffix.trans h.free_suffix
  frame b hb := by
    have hb' : ¬ InTable s'.mem pt b := by
      rintro ⟨q, hq, hbq⟩
      exact hb ⟨q, (h'.pages q).2 (Or.inl hq), hbq⟩
    rw [h'.frame b hb, h.frame b hb']
  kernelEnd := by rw [h'.kernelEnd, h.kernelEnd]

/-- An entry of a page of the table is not the null pointer. -/
theorem entry_ne_zero {q i : UInt64} (hq : q.toNat % 4096 = 0) (hq0 : q ≠ 0) (hi : i < 512) :
    q + 8 * i ≠ 0 := by
  intro h
  have := congrArg UInt64.toNat h
  rw [entry_toNat hq hi] at this
  have hq0' : q.toNat ≠ 0 := fun h => hq0 (UInt64.toNat_inj.mp h)
  simp only [UInt64.reduceToNat] at this
  omega

/-- The PTE of a page reached through the table is not the null pointer. -/
theorem leafPte_ne_zero {m : Mem} {pt va e : UInt64} (ht : TreeOk m pt)
    (h : leafPte m pt va = some e) : e ≠ 0 := by
  simp only [leafPte, Option.map_eq_some_iff] at h
  obtain ⟨p0, hp0, rfl⟩ := h
  have hp := isPtPage_of_node (validPath_vaPath va) hp0
  exact entry_ne_zero (ht.aligned p0 hp) (ht.ne_zero p0 hp) (PX_lt 0 va)

/-! ## One level of `walk` -/

section Level

variable {s : VmState} {va q c level : UInt64} {alloc : Bool}

theorem walkLevel_of_next (h : next s.mem q (PX level va) = some c) :
    (walkLevel va alloc level q).run s = .ok (some c, s) := by
  unfold next at h
  split_ifs at h with hv
  cases h
  simp [walkLevel, hv]
  rfl

theorem walkLevel_none (h : next s.mem q (PX level va) = none) :
    (walkLevel va false level q).run s = .ok (none, s) := by
  unfold next at h
  split_ifs at h with hv
  simp [walkLevel, not_not.1 hv]
  rfl

theorem walkLevel_empty (h : next s.mem q (PX level va) = none) (hf : s.freelist = []) :
    (walkLevel va true level q).run s = .ok (none, s) := by
  unfold next at h
  split_ifs at h with hv
  simp [walkLevel, not_not.1 hv, kalloc, hf]
  rfl

theorem walkLevel_alloc {r : UInt64} {rest : List UInt64} (h : next s.mem q (PX level va) = none)
    (hf : s.freelist = r :: rest) (hr : r ≠ 0) :
    (walkLevel va true level q).run s =
      .ok (some r, { s with mem := allocMem s.mem q (PX level va) r, freelist := rest }) := by
  unfold next at h
  split_ifs at h with hv
  simp [walkLevel, not_not.1 hv, kalloc, hf, hr, allocMem]
  rfl

/-- The allocation of one level keeps the invariant. -/
theorem grows_alloc {pt r : UInt64} {rest : List UInt64} {path : List UInt64} (hs : Good s pt)
    (hf : s.freelist = r :: rest) (ha : AllocOk s.mem pt path q (PX level va) r) :
    Grows s { s with mem := allocMem s.mem q (PX level va) r, freelist := rest } pt := by
  have ht := hs.tree
  have hr : r ∈ s.freelist := by simp [hf]
  have hnd : r ∉ rest ∧ rest.Nodup := by
    have := hs.free_nodup
    rw [hf, List.nodup_cons] at this
    exact this
  have hrest : ∀ p ∈ rest, p ∈ s.freelist := fun p hp => by simp [hf, hp]
  refine ⟨⟨treeOk_alloc ht ha, fun p hp => hs.free_aligned p (hrest p hp),
    fun p hp => hs.free_ne_zero p (hrest p hp), hnd.2, ?_, ?_, ?_⟩, fun va' => lookup_alloc ht ha va',
    ?_, by simp [hf], ?_, rfl⟩
  · -- a free page left is neither an old page of the table nor the new one
    intro p hp hpt
    rcases (isPtPage_alloc ht ha p).1 hpt with hpt | rfl
    · exact hs.free_not_pt p (hrest p hp) hpt
    · exact hnd.1 hp
  · intro p hp hmap
    exact hs.free_not_mapped p (hrest p hp) ((isMapped_alloc ht ha p).1 hmap)
  · -- a mapped page is an old mapped page, so neither an old page of the table nor `r`
    intro p hmap hpt
    have hmap' := (isMapped_alloc ht ha p).1 hmap
    rcases (isPtPage_alloc ht ha p).1 hpt with hpt | rfl
    · exact hs.mapped_not_pt p hmap' hpt
    · exact hs.free_not_mapped p hr hmap'
  · intro x
    rw [isPtPage_alloc ht ha x]
    constructor
    · rintro (hx | rfl)
      · exact Or.inl hx
      · exact Or.inr ⟨hr, hnd.1⟩
    · rintro (hx | ⟨hx, hx'⟩)
      · exact Or.inl hx
      · rw [hf, List.mem_cons] at hx
        exact Or.inr (hx.resolve_right hx')
  · intro b hb
    apply allocMem_of_not_mem ha
    · exact fun hbr => hb ⟨r, (isPtPage_alloc ht ha r).2 (Or.inr rfl), hbr⟩
    · exact fun x hx hbx => hb ⟨x, (isPtPage_alloc ht ha x).2 (Or.inl hx), hbx⟩

/-- One level of `walk` with `alloc` set, at a page `q` of the table above level 0. -/
theorem walkLevel_spec (va level : UInt64) {pt : UInt64} {path : List UInt64} (hs : Good s pt)
    (hq : node (next s.mem) pt path = some q) (hp : ValidPath Idx 2 path) (hlen : path.length ≤ 1) :
    ∃ o s', (walkLevel va true level q).run s = .ok (o, s') ∧ Grows s s' pt ∧
      node (next s'.mem) pt path = some q ∧
      (∀ c, o = some c → node (next s'.mem) pt (PX level va :: path) = some c) ∧
      (o = none → s'.freelist = []) := by
  cases hn : next s.mem q (PX level va) with
  | some c =>
    -- the entry is valid: `walk` follows it
    refine ⟨some c, s, walkLevel_of_next hn, Grows.refl hs, hq, ?_, by simp⟩
    rintro c' ⟨⟩
    rw [node_cons, hq, Option.bind_some, hn]
  | none =>
    cases hf : s.freelist with
    | nil => exact ⟨none, s, walkLevel_empty hn hf, Grows.refl hs, hq, by simp, fun _ => hf⟩
    | cons r rest =>
      -- the entry is empty: the head of the free list becomes the page it names
      have hr : r ∈ s.freelist := by simp [hf]
      have ha : AllocOk s.mem pt path q (PX level va) r :=
        ⟨hq, hlen, hp, PX_lt level va, hn, hs.free_aligned r hr, hs.free_ne_zero r hr,
          hs.free_not_pt r hr⟩
      have hnode := node_alloc hs.tree ha
      have hne : path ≠ PX level va :: path := by
        intro h
        have := congrArg List.length h
        simp at this
      refine ⟨some r, _, walkLevel_alloc hn hf (hs.free_ne_zero r hr), grows_alloc hs hf ha,
        ?_, ?_, by simp⟩
      · rw [hnode path hp, if_neg hne, hq]
      · rintro c ⟨⟩
        rw [hnode _ (ValidPath.cons hp (by omega) (PX_lt level va)), if_pos rfl]

end Level

/-! ## `walk` -/

section Walk

variable {s : VmState} {pt va : UInt64}

theorem leafPte_eq (m : Mem) (pt va : UInt64) : leafPte m pt va =
    ((next m pt (PX 2 va)).bind fun p1 => next m p1 (PX 1 va)).map (· + 8 * PX 0 va) := rfl

/-- Without `alloc`, `walk` only reads: it returns the PTE of `va`, or 0. -/
theorem walk_run_false (hva : va < MAXVA) :
    (walk pt va false).run s = .ok ((leafPte s.mem pt va).getD 0, s) := by
  have hge : ¬ va ≥ MAXVA := UInt64.not_le.2 hva
  rw [leafPte_eq]
  cases h2 : next s.mem pt (PX 2 va) with
  | none => simp [walk, hge, StateExcept.ok_bind, walkLevel_none h2]; rfl
  | some p1 =>
    cases h1 : next s.mem p1 (PX 1 va) with
    | none => simp [walk, hge, StateExcept.ok_bind, walkLevel_of_next h2, walkLevel_none h1, h1]; rfl
    | some p0 =>
      simp [walk, hge, StateExcept.ok_bind, walkLevel_of_next h2, walkLevel_of_next h1, h1]
      rfl

/-- With `alloc`, `walk` grows the table as far as it needs to and returns the PTE of `va`;
it returns 0 only when the free list ran out. -/
theorem walk_spec (hs : Good s pt) (hva : va < MAXVA) :
    ∃ e s', (walk pt va true).run s = .ok (e, s') ∧ Grows s s' pt ∧
      (e ≠ 0 → leafPte s'.mem pt va = some e) ∧ (e = 0 → s'.freelist = []) := by
  have hge : ¬ va ≥ MAXVA := UInt64.not_le.2 hva
  obtain ⟨o1, s1, h1, g1, -, hn1, he1⟩ :=
    walkLevel_spec va 2 hs (node_nil (next s.mem) pt) ValidPath.nil (by simp)
  cases o1 with
  | none =>
    refine ⟨0, s1, ?_, g1, by simp, fun _ => he1 rfl⟩
    simp [walk, hge, StateExcept.ok_bind, h1]
    rfl
  | some p1 =>
    have hp1 := hn1 p1 rfl
    have hpath : ValidPath Idx 2 [PX 2 va] := ValidPath.cons ValidPath.nil (by simp) (PX_lt 2 va)
    obtain ⟨o2, s2, h2, g2, -, hn2, he2⟩ :=
      walkLevel_spec va 1 g1.good hp1 hpath (by simp)
    cases o2 with
    | none =>
      refine ⟨0, s2, ?_, g1.trans g2, by simp, fun _ => he2 rfl⟩
      simp [walk, hge, StateExcept.ok_bind, h1, h2]
      rfl
    | some p0 =>
      have hp0 := hn2 p0 rfl
      have hleaf : leafPte s2.mem pt va = some (p0 + 8 * PX 0 va) := by
        simp only [leafPte, vaPath, hp0, Option.map_some]
      have hne := leafPte_ne_zero g2.good.tree hleaf
      refine ⟨p0 + 8 * PX 0 va, s2, ?_, g1.trans g2, fun _ => hleaf, fun h => absurd h hne⟩
      simp [walk, hge, StateExcept.ok_bind, h1, h2]
      rfl

end Walk

/-! ## `walkaddr` -/

/-- What `walkaddr` looks up: the page the abstraction maps `va` to, where its flags have
`PTE_U`, and 0 elsewhere. -/
def uaddr (m : Mem) (pt va : UInt64) : UInt64 :=
  match lookup m pt va with
  | some (pa, fl) => if fl &&& PTE_U ≠ 0 then pa else 0
  | none => 0

/-- `walkaddr` returns the mapped page exactly where the PTE has `PTE_V` and `PTE_U`, and
reads only. -/
theorem walkaddr_run {s : VmState} {pt : UInt64} (ht : TreeOk s.mem pt) (va : UInt64) :
    (walkaddr pt va).run s = .ok (if va < MAXVA then uaddr s.mem pt va else 0, s) := by
  by_cases hva : va < MAXVA
  · have hge : ¬ va ≥ MAXVA := UInt64.not_le.2 hva
    rw [if_pos hva]
    cases hl : leafPte s.mem pt va with
    | none =>
      have hw : (walk pt va false).run s = .ok ((leafPte s.mem pt va).getD 0, s) :=
        walk_run_false hva
      rw [hl] at hw
      simp [walkaddr, hge, StateExcept.ok_bind, hw, uaddr, lookup, hl]
      rfl
    | some a =>
      have hw : (walk pt va false).run s = .ok ((leafPte s.mem pt va).getD 0, s) :=
        walk_run_false hva
      rw [hl] at hw
      have ha0 : a ≠ 0 := leafPte_ne_zero ht hl
      by_cases hv : s.mem.load64 a &&& PTE_V = 0
      · simp [walkaddr, hge, StateExcept.ok_bind, hw, ha0, hv, uaddr, lookup, hl, decode]
        rfl
      · by_cases hu : s.mem.load64 a &&& PTE_U = 0
        · simp [walkaddr, hge, StateExcept.ok_bind, hw, ha0, hv, hu, uaddr, lookup, hl, decode,
            PTE_FLAGS_and_U]
          rfl
        · simp [walkaddr, hge, StateExcept.ok_bind, hw, ha0, hv, hu, uaddr, lookup, hl, decode,
            PTE_FLAGS_and_U]
          rfl
  · have hge : va ≥ MAXVA := UInt64.not_lt.1 hva
    rw [if_neg hva]
    simp [walkaddr, hge]
    rfl

end Xv6.Vm
