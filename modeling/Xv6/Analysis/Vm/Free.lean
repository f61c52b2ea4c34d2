import Xv6.Analysis.Vm.Grow

/-!
# Freeing a page table (`freewalk`, `uvmfree`)

`freewalk` frees a table from its root down. An entry that is valid with R, W and X clear
points to a page of the next level, which it frees first before clearing the entry; a
valid entry with one of them set is a leaf, and panics. `Freeable m h q` is what that asks
of the pages below `q`, down `h` levels: above the last level every valid entry points
down, and on the last level no entry is valid. On such pages, each reached by one path and
each a page of RAM that is not free, `freewalk` frees exactly them and writes nothing
outside them (`freewalk_spec`). The induction is on `h`. One round of the loop frees the
pages below one entry, which share no page with those below another entry, nor with `q`
(`Radix.Unshared.below_disjoint`, `Radix.Unshared.root_not_below`).
Source: kernel/vm.c:266-297
-/

set_option autoImplicit false

namespace Xv6.Vm

open Radix

theorem next_eq_none_iff {m : Mem} {q i : UInt64} :
    next m q i = none ↔ m.load64 (q + 8 * i) &&& PTE_V = 0 := by
  by_cases h : m.load64 (q + 8 * i) &&& PTE_V = 0 <;> simp [next, h]

theorem load64_of_next_eq_some {m : Mem} {q i c : UInt64} (h : next m q i = some c) :
    m.load64 (q + 8 * i) &&& PTE_V ≠ 0 ∧ PTE2PA (m.load64 (q + 8 * i)) = c := by
  unfold next at h
  split_ifs at h with hv
  exact ⟨hv, Option.some.inj h⟩

/-! ## The pages below a page -/

/-- The pages below `q`, down `h` levels, as `freewalk` frees them: on the last level no
entry is valid, and above it every valid entry points down, with R, W and X clear. -/
def Freeable (m : Mem) : ℕ → UInt64 → Prop
  | 0, q => ∀ i, i < 512 → next m q i = none
  | h + 1, q => ∀ i, i < 512 → ∀ c, next m q i = some c →
      m.load64 (q + 8 * i) &&& (PTE_R ||| PTE_W ||| PTE_X) = 0 ∧ Freeable m h c

/-- `m'` agrees with `m` on every byte of the pages below `q`, down `h` levels. -/
def SameBelow (m m' : Mem) (h : ℕ) (q : UInt64) : Prop :=
  ∀ r, IsNode Idx h (next m) q r → ∀ b, b - r < PGSIZE → m' b = m b

section SameBelow

variable {m m' : Mem} {h : ℕ} {q : UInt64}

theorem next_of_sameBelow (hs : SameBelow m m' h q) :
    ∀ p x i, ValidPath Idx h (i :: p) → node (next m) q p = some x → next m' x i = next m x i :=
  fun p x _ hp hx => next_congr hp.head (hs x ⟨p, hp.tail, hx⟩)

theorem isNode_of_sameBelow (hs : SameBelow m m' h q) (r : UInt64) :
    IsNode Idx h (next m') q r ↔ IsNode Idx h (next m) q r :=
  isNode_congr (next_of_sameBelow hs) r

theorem unshared_of_sameBelow (hs : SameBelow m m' h q) (hu : Unshared Idx h (next m) q) :
    Unshared Idx h (next m') q :=
  unshared_congr (next_of_sameBelow hs) hu

/-- The pages below a child of `q` lie below `q`. -/
theorem SameBelow.child {i c : UInt64} (hs : SameBelow m m' (h + 1) q) (hi : i < 512)
    (hc : next m q i = some c) : SameBelow m m' h c :=
  fun r hr => hs r (isNode_succ_iff.2 (.inr ⟨i, c, hi, hc, hr⟩))

end SameBelow

/-- What `freewalk` frees depends only on the bytes of the pages it frees. -/
theorem freeable_of_sameBelow {m m' : Mem} (h : ℕ) :
    ∀ q, SameBelow m m' h q → Freeable m h q → Freeable m' h q := by
  induction h with
  | zero =>
    intro q hs hf i hi
    rw [next_congr hi (hs q isNode_root)]
    exact hf i hi
  | succ h ih =>
    intro q hs hf i hi c hc
    have hq := hs q isNode_root
    rw [next_congr hi hq] at hc
    obtain ⟨hrwx, hfc⟩ := hf i hi c hc
    refine ⟨?_, ih c (hs.child hi hc) hfc⟩
    rw [Mem.load64_congr fun b hb => hq b (entry_sub_lt hi hb)]
    exact hrwx

/-! ## One round of the loop -/

section Entry

variable {s s1 : VmState} {below : UInt64 → VmM Unit} {q : UInt64} {i : ℕ}

theorem freewalkEntry_invalid (h : s.mem.load64 (q + 8 * UInt64.ofNat i) &&& PTE_V = 0) :
    (freewalkEntry below q i).run s = .ok ((), s) := by
  simp [freewalkEntry, h]
  rfl

theorem freewalkEntry_down (hv : s.mem.load64 (q + 8 * UInt64.ofNat i) &&& PTE_V ≠ 0)
    (hr : s.mem.load64 (q + 8 * UInt64.ofNat i) &&& (PTE_R ||| PTE_W ||| PTE_X) = 0)
    (hb : (below (PTE2PA (s.mem.load64 (q + 8 * UInt64.ofNat i)))).run s = .ok ((), s1)) :
    (freewalkEntry below q i).run s =
      .ok ((), { s1 with mem := s1.mem.store64 (q + 8 * UInt64.ofNat i) 0 }) := by
  simp [freewalkEntry, hv, hr, hb]

end Entry

theorem freewalk_succ_run {d : ℕ} {q : UInt64} {s s1 : VmState}
    (h : ((List.range 512).forM (freewalkEntry (freewalk d) q)).run s = .ok (⟨⟩, s1)) :
    (freewalk (d + 1) q).run s = (kfree q).run s1 := by
  rw [freewalk, StateT.run_bind, h, StateExcept.ok_bind]

/-- `kfree` of an aligned page of RAM pushes it on the free list and writes only inside it. -/
theorem kfree_spec {s : VmState} {p : UInt64} (hp : p.toNat % 4096 = 0) (hlo : s.kernelEnd ≤ p)
    (hhi : p < PHYSTOP) :
    ∃ s', (kfree p).run s = .ok ((), s') ∧ s'.kernelEnd = s.kernelEnd ∧
      s'.freelist = p :: s.freelist ∧ ∀ b, ¬ b - p < PGSIZE → s'.mem b = s.mem b := by
  refine ⟨_, kfree_run ((aligned_toNat_iff p).2 hp) hlo hhi, rfl, rfl, fun b hb => ?_⟩
  have h8 : ¬ b - p < 8 := fun h => hb (by
    rw [UInt64.lt_iff_toNat_lt] at h ⊢
    simp only [PGSIZE_toNat, UInt64.reduceToNat] at *
    omega)
  show ((s.mem.fill p 1 PGSIZE).store64 p (s.freelist.headD 0)) b = s.mem b
  rw [Mem.store64_of_not_lt h8, Mem.fill_of_not_lt hb]

/-! ## The loop -/

/-- What `freewalk` needs of the pages below `q`, down `h` levels: the shape it frees, each
page reached by one path, and each an aligned page of RAM that is not free. -/
structure FreeArgs (s : VmState) (h : ℕ) (q : UInt64) : Prop where
  freeable : Freeable s.mem h q
  unshared : Unshared Idx h (next s.mem) q
  ram : ∀ r, IsNode Idx h (next s.mem) q r → r.toNat % 4096 = 0 ∧ s.kernelEnd ≤ r ∧ r < PHYSTOP
  not_free : ∀ r, IsNode Idx h (next s.mem) q r → r ∉ s.freelist

/-- What `freewalk` leaves: the pages below `q` pushed on the free list, each once, and
every byte outside them as it was. -/
structure Freed (s s' : VmState) (h : ℕ) (q : UInt64) : Prop where
  kernelEnd : s'.kernelEnd = s.kernelEnd
  freelist : ∃ l, s'.freelist = l ++ s.freelist ∧ l.Nodup ∧
    ∀ r, r ∈ l ↔ IsNode Idx h (next s.mem) q r
  frame : ∀ b, (∀ r, IsNode Idx h (next s.mem) q r → ¬ b - r < PGSIZE) → s'.mem b = s.mem b

/-- The pages below the entry `i` of `q`, down `h` levels. -/
def BelowEntry (m : Mem) (h : ℕ) (q i r : UInt64) : Prop :=
  ∃ c, next m q i = some c ∧ IsNode Idx h (next m) c r

/-- The loop of `freewalk` on `q` after its first `j` rounds from `s`: the pages below those
entries pushed on the free list, each once, and every byte outside them and those entries
as it was. -/
structure Walked (s s' : VmState) (h : ℕ) (q : UInt64) (j : ℕ) : Prop where
  kernelEnd : s'.kernelEnd = s.kernelEnd
  freelist : ∃ l, s'.freelist = l ++ s.freelist ∧ l.Nodup ∧
    ∀ r, r ∈ l ↔ ∃ i, i < j ∧ BelowEntry s.mem h q (UInt64.ofNat i) r
  frame : ∀ b, (∀ r i, i < j → BelowEntry s.mem h q (UInt64.ofNat i) r → ¬ b - r < PGSIZE) →
    (∀ i, i < j → ¬ b - (q + 8 * UInt64.ofNat i) < 8) → s'.mem b = s.mem b

theorem ofNat_lt_512 {i : ℕ} (hi : i < 512) : UInt64.ofNat i < 512 := by
  rw [UInt64.lt_iff_toNat_lt, UInt64.toNat_ofNat', Nat.mod_eq_of_lt (by omega)]
  exact hi

theorem ofNat_ne_ofNat {i j : ℕ} (hi : i < 512) (hj : j < 512) (hij : i ≠ j) :
    UInt64.ofNat i ≠ UInt64.ofNat j := by
  intro h
  have := congrArg UInt64.toNat h
  rw [UInt64.toNat_ofNat', UInt64.toNat_ofNat', Nat.mod_eq_of_lt (by omega),
    Nat.mod_eq_of_lt (by omega)] at this
  exact hij this

section Loop

variable {s s1 : VmState} {h d : ℕ} {q : UInt64} {j : ℕ}

theorem Walked.init : Walked s s h q 0 where
  kernelEnd := rfl
  freelist := ⟨[], rfl, List.nodup_nil, fun r => by simp⟩
  frame _ _ _ := rfl

/-- A page below an entry of `q` is a page below `q`. -/
theorem isNode_of_belowEntry {m : Mem} {i r : UInt64} (hi : i < 512)
    (hr : BelowEntry m h q i r) : IsNode Idx (h + 1) (next m) q r := by
  obtain ⟨c, hc, hr⟩ := hr
  exact isNode_succ_iff.2 (.inr ⟨i, c, hi, hc, hr⟩)

/-- Pages below two different entries of `q` are different pages. -/
theorem belowEntry_disjoint {m : Mem} {i i' r : UInt64} (hu : Unshared Idx (h + 1) (next m) q)
    (hi : i < 512) (hi' : i' < 512) (hne : i ≠ i') (hr : BelowEntry m h q i r) :
    ¬ BelowEntry m h q i' r := by
  obtain ⟨c, hc, hr⟩ := hr
  rintro ⟨c', hc', hr'⟩
  exact hu.below_disjoint hi hi' hc hc' hne hr hr'

/-- `q` itself is below none of its entries. -/
theorem not_belowEntry_self {m : Mem} {i : UInt64} (hu : Unshared Idx (h + 1) (next m) q)
    (hi : i < 512) : ¬ BelowEntry m h q i q := by
  rintro ⟨c, hc, hr⟩
  exact hu.root_not_below hi hc hr

/-- One round of the loop, on an entry that points down, frees the pages below it with
the nested call, as `ih` gives it, and clears the entry. -/
theorem Walked.step
    (ih : ∀ s c, FreeArgs s h c → ∃ s', (freewalk d c).run s = .ok ((), s') ∧ Freed s s' h c)
    (ha : FreeArgs s (h + 1) q) (hw : Walked s s1 h q j) (hj : j < 512) :
    ∃ s2, (freewalkEntry (freewalk d) q j).run s1 = .ok ((), s2) ∧ Walked s s2 h q (j + 1) := by
  have hj' := ofNat_lt_512 hj
  obtain ⟨hqa, -, -⟩ := ha.ram q isNode_root
  obtain ⟨l, hl, hnd, hmem⟩ := hw.freelist
  -- a page below an earlier entry is not `q` and is aligned
  have hbelow : ∀ r i, i < j → BelowEntry s.mem h q (UInt64.ofNat i) r →
      r ≠ q ∧ r.toNat % 4096 = 0 := by
    intro r i hi hr
    refine ⟨by rintro rfl; exact not_belowEntry_self ha.unshared (ofNat_lt_512 (by omega)) hr, ?_⟩
    exact (ha.ram r (isNode_of_belowEntry (ofNat_lt_512 (by omega)) hr)).1
  -- the entry is as it was: the earlier rounds wrote below their own entries and to them
  have he : s1.mem.load64 (q + 8 * UInt64.ofNat j) = s.mem.load64 (q + 8 * UInt64.ofNat j) := by
    apply Mem.load64_congr
    intro b hb
    apply hw.frame b
    · intro r i hi hr
      obtain ⟨hrq, hra⟩ := hbelow r i hi hr
      exact entry_not_in_page hqa hra hrq.symm hj' b hb
    · intro i hi
      exact entry_disjoint hqa hqa hj' (ofNat_lt_512 (by omega))
        (.inr (ofNat_ne_ofNat hj (by omega) (by omega))) b hb
  cases hn : next s.mem q (UInt64.ofNat j) with
  | none =>
    -- an empty entry: nothing to do
    have hv : s1.mem.load64 (q + 8 * UInt64.ofNat j) &&& PTE_V = 0 := by
      rw [he]
      exact next_eq_none_iff.1 hn
    refine ⟨s1, freewalkEntry_invalid hv, hw.kernelEnd, ⟨l, hl, hnd, fun r => ?_⟩,
      fun b hr he' => hw.frame b (fun r i hi => hr r i (by omega)) fun i hi => he' i (by omega)⟩
    rw [hmem r]
    constructor
    · rintro ⟨i, hi, hr⟩
      exact ⟨i, by omega, hr⟩
    · rintro ⟨i, hi, hr⟩
      rcases Nat.lt_succ_iff_lt_or_eq.1 hi with hi | rfl
      · exact ⟨i, hi, hr⟩
      · obtain ⟨c, hc, -⟩ := hr
        rw [hn] at hc
        cases hc
  | some c =>
    obtain ⟨hrwx, hfc⟩ := ha.freeable (UInt64.ofNat j) hj' c hn
    obtain ⟨hv, hc⟩ := load64_of_next_eq_some hn
    -- the pages below `c` are as they were
    have hsame : SameBelow s.mem s1.mem h c := by
      intro r hr b hb
      have hrj : BelowEntry s.mem h q (UInt64.ofNat j) r := ⟨c, hn, hr⟩
      have hra := (ha.ram r (isNode_of_belowEntry hj' hrj)).1
      apply hw.frame b
      · intro r' i hi hr'
        obtain ⟨-, hra'⟩ := hbelow r' i hi hr'
        have hne : r ≠ r' := by
          rintro rfl
          exact belowEntry_disjoint ha.unshared (ofNat_lt_512 (by omega)) hj'
            (ofNat_ne_ofNat (by omega) hj (by omega)) hr' hrj
        exact Mem.page_disjoint hra' hra hne b hb
      · intro i hi hb'
        have hrq : r ≠ q := by
          rintro rfl
          exact not_belowEntry_self ha.unshared hj' hrj
        exact entry_not_in_page hqa hra hrq.symm (ofNat_lt_512 (by omega)) b hb' hb
    have hiso := isNode_of_sameBelow hsame
    have hargs : FreeArgs s1 h c := by
      refine ⟨freeable_of_sameBelow h c hsame hfc,
        unshared_of_sameBelow hsame (ha.unshared.below hj' hn), fun r hr => ?_, fun r hr => ?_⟩
      · rw [hw.kernelEnd]
        exact ha.ram r (isNode_of_belowEntry hj' ⟨c, hn, (hiso r).1 hr⟩)
      · have hrj : BelowEntry s.mem h q (UInt64.ofNat j) r := ⟨c, hn, (hiso r).1 hr⟩
        rw [hl, List.mem_append, not_or]
        refine ⟨fun hrl => ?_, ha.not_free r (isNode_of_belowEntry hj' hrj)⟩
        obtain ⟨i, hi, hri⟩ := (hmem r).1 hrl
        exact belowEntry_disjoint ha.unshared (ofNat_lt_512 (by omega)) hj'
          (ofNat_ne_ofNat (by omega) hj (by omega)) hri hrj
    obtain ⟨s2, hrun, hfreed⟩ := ih s1 c hargs
    obtain ⟨l', hl', hnd', hmem'⟩ := hfreed.freelist
    have hrun' : (freewalk d (PTE2PA (s1.mem.load64 (q + 8 * UInt64.ofNat j)))).run s1 =
        .ok ((), s2) := by
      rw [he, hc]
      exact hrun
    refine ⟨_, freewalkEntry_down (by rw [he]; exact hv) (by rw [he]; exact hrwx) hrun', ?_⟩
    -- the pages below entry `j` join the free list, and entry `j` is cleared
    have hmemj : ∀ r, r ∈ l' ↔ BelowEntry s.mem h q (UInt64.ofNat j) r := by
      intro r
      rw [hmem', hiso r]
      constructor
      · exact fun hr => ⟨c, hn, hr⟩
      · rintro ⟨c', hc', hr⟩
        rw [hn] at hc'
        cases hc'
        exact hr
    refine ⟨by rw [← hw.kernelEnd, ← hfreed.kernelEnd], ⟨l' ++ l, ?_, ?_, fun r => ?_⟩,
      fun b hr he' => ?_⟩
    · rw [List.append_assoc, ← hl, ← hl']
    · refine List.nodup_append.2 ⟨hnd', hnd, fun r hr' r' hr hrr => ?_⟩
      subst hrr
      obtain ⟨i, hi, hri⟩ := (hmem r).1 hr
      exact belowEntry_disjoint ha.unshared (ofNat_lt_512 (by omega)) hj'
        (ofNat_ne_ofNat (by omega) hj (by omega)) hri ((hmemj r).1 hr')
    · rw [List.mem_append, hmemj r, hmem r]
      constructor
      · rintro (hr | ⟨i, hi, hr⟩)
        · exact ⟨j, by omega, hr⟩
        · exact ⟨i, by omega, hr⟩
      · rintro ⟨i, hi, hr⟩
        rcases Nat.lt_succ_iff_lt_or_eq.1 hi with hi | rfl
        · exact .inr ⟨i, hi, hr⟩
        · exact .inl hr
    · show (s2.mem.store64 (q + 8 * UInt64.ofNat j) 0) b = s.mem b
      rw [Mem.store64_of_not_lt (he' j (by omega)), hfreed.frame b fun r hr' =>
        hr r j (by omega) ⟨c, hn, (hiso r).1 hr'⟩]
      exact hw.frame b (fun r i hi => hr r i (by omega)) fun i hi => he' i (by omega)

end Loop

/-- A page with no valid entry: the loop does nothing, and the page is freed. -/
theorem freewalk_leafless {d : ℕ} {s : VmState} {q : UInt64} (hf : Freeable s.mem 0 q)
    (hq : q.toNat % 4096 = 0 ∧ s.kernelEnd ≤ q ∧ q < PHYSTOP) :
    ∃ s', (freewalk (d + 1) q).run s = .ok ((), s') ∧ s'.kernelEnd = s.kernelEnd ∧
      s'.freelist = q :: s.freelist ∧ ∀ b, ¬ b - q < PGSIZE → s'.mem b = s.mem b := by
  obtain ⟨s1, hloop, rfl⟩ := StateExcept.run_forM_range' (f := freewalkEntry (freewalk d) q)
    (fun _ s' => s' = s) 512 0
    (fun j s' _ hj hs' => by
      subst hs'
      exact ⟨_, freewalkEntry_invalid (next_eq_none_iff.1 (hf _ (ofNat_lt_512 hj))), rfl⟩) s rfl
  rw [← List.range_eq_range'] at hloop
  rw [freewalk_succ_run hloop]
  exact kfree_spec hq.1 hq.2.1 hq.2.2

/-- `freewalk` with more nested calls left than levels frees exactly the pages below `q`,
each once, and writes nothing outside them; by induction on the levels. -/
theorem freewalk_spec : ∀ (h d : ℕ) (s : VmState) (q : UInt64), h < d → FreeArgs s h q →
    ∃ s', (freewalk d q).run s = .ok ((), s') ∧ Freed s s' h q := by
  intro h
  induction h with
  | zero =>
    intro d s q hd ha
    obtain ⟨d, rfl⟩ : ∃ d', d = d' + 1 := ⟨d - 1, by omega⟩
    obtain ⟨s', hrun, hend, hfree, hframe⟩ := freewalk_leafless ha.freeable (ha.ram q isNode_root)
    refine ⟨s', hrun, hend, ⟨[q], hfree, List.nodup_singleton q, fun r => ?_⟩,
      fun b hb => hframe b (hb q isNode_root)⟩
    rw [List.mem_singleton, isNode_zero_iff]
  | succ h ih =>
    intro d s q hd ha
    obtain ⟨d, rfl⟩ : ∃ d', d = d' + 1 := ⟨d - 1, by omega⟩
    -- the loop frees the pages below each entry in turn
    obtain ⟨s1, hloop, hw⟩ := StateExcept.run_forM_range' (f := freewalkEntry (freewalk d) q)
      (fun j s' => Walked s s' h q j) 512 0
      (fun j s' _ hj hw => hw.step (fun s c hc => ih d s c (by omega) hc) ha (by omega)) s
      Walked.init
    rw [← List.range_eq_range'] at hloop
    obtain ⟨hqa, hlo, hhi⟩ := ha.ram q isNode_root
    obtain ⟨s', hk, hend, hfree, hframe⟩ := kfree_spec hqa (by rw [hw.kernelEnd]; exact hlo) hhi
    obtain ⟨l, hl, hnd, hmem⟩ := hw.freelist
    -- a page below `q` is `q` or below one of its entries
    have hiff : ∀ r, IsNode Idx (h + 1) (next s.mem) q r ↔
        r = q ∨ ∃ i, i < 512 ∧ BelowEntry s.mem h q (UInt64.ofNat i) r := by
      intro r
      rw [isNode_succ_iff]
      constructor
      · rintro (rfl | ⟨i, c, hi, hc, hr⟩)
        · exact .inl rfl
        · refine .inr ⟨i.toNat, UInt64.lt_iff_toNat_lt.1 hi, c, ?_, hr⟩
          rw [UInt64.ofNat_toNat]
          exact hc
      · rintro (rfl | ⟨i, hi, c, hc, hr⟩)
        · exact .inl rfl
        · exact .inr ⟨UInt64.ofNat i, c, ofNat_lt_512 hi, hc, hr⟩
    refine ⟨s', by rw [freewalk_succ_run hloop, hk], ⟨by rw [hend, hw.kernelEnd],
      ⟨q :: l, by rw [hfree, hl, List.cons_append], List.nodup_cons.2 ⟨fun hq => ?_, hnd⟩,
        fun r => ?_⟩, fun b hb => ?_⟩⟩
    · obtain ⟨i, hi, hri⟩ := (hmem q).1 hq
      exact not_belowEntry_self ha.unshared (ofNat_lt_512 hi) hri
    · rw [List.mem_cons, hmem r, hiff r]
    · have hbq := hb q isNode_root
      rw [hframe b hbq]
      refine hw.frame b (fun r i hi hr => hb r ((hiff r).2 (.inr ⟨i, hi, hr⟩))) fun i hi hbi => ?_
      exact hbq (entry_sub_lt (ofNat_lt_512 hi) hbi)

/-! ## The shape `walk` builds -/

/-- The shape of a table that `walk` builds: every valid entry above level 0 points down,
with R, W and X clear, and the root has nothing from `MAXVA` on. -/
structure Shaped (m : Mem) (pt : UInt64) : Prop where
  dirs : ∀ path q i c, ValidPath Idx 2 (i :: path) → node (next m) pt path = some q →
    next m q i = some c → m.load64 (q + 8 * i) &&& (PTE_R ||| PTE_W ||| PTE_X) = 0
  high : ∀ i, 256 ≤ i → i < 512 → next m pt i = none

/-- `m'` has the entries of `m` in every page of the table above level 0. -/
def UpperSame (m m' : Mem) (pt : UInt64) : Prop :=
  ∀ path q i, ValidPath Idx 2 (i :: path) → node (next m) pt path = some q →
    m'.load64 (q + 8 * i) = m.load64 (q + 8 * i)

theorem validPath_root {i : UInt64} (hi : i < 512) : ValidPath Idx 2 [i] :=
  ValidPath.cons ValidPath.nil (by simp) hi

section Shape

variable {m m' m'' : Mem} {pt : UInt64}

theorem next_of_load64_eq {q i : UInt64} (h : m'.load64 (q + 8 * i) = m.load64 (q + 8 * i)) :
    next m' q i = next m q i := by
  simp only [next, h]

theorem node_of_upperSame (h : UpperSame m m' pt) :
    ∀ p, ValidPath Idx 2 p → node (next m') pt p = node (next m) pt p :=
  node_congr fun p q i hp hq => next_of_load64_eq (h p q i hp hq)

theorem UpperSame.trans (h : UpperSame m m' pt) (h' : UpperSame m' m'' pt) : UpperSame m m'' pt :=
  fun path q i hp hq => by
    rw [h' path q i hp (by rw [node_of_upperSame h path hp.tail]; exact hq), h path q i hp hq]

theorem upperSame_of_sameTree (h : SameTree m m' pt) : UpperSame m m' pt :=
  fun _ q _ hp hq =>
    Mem.load64_congr fun b hb => h q (isPtPage_of_node hp.tail hq) b (entry_sub_lt hp.head hb)

/-- A store into a level-0 PTE leaves the pages above level 0 alone. -/
theorem upperSame_store_leaf (ht : TreeOk m pt) {va e : UInt64} (he : leafPte m pt va = some e)
    (v : UInt64) : UpperSame m (m.store64 e v) pt := by
  intro path q i hp hq
  simp only [leafPte, Option.map_eq_some_iff] at he
  obtain ⟨p0, hp0, rfl⟩ := he
  -- `q` lies above level 0, so it is not the level-0 page `p0`
  have hne : q ≠ p0 := by
    rintro rfl
    have := ht.unshared path (vaPath va) q hp.tail (validPath_vaPath va) hq hp0
    have hl := hp.length_lt
    rw [this] at hl
    simp [vaPath] at hl
  exact Mem.load64_store64_of_disjoint (entry_disjoint (ht.aligned q (isPtPage_of_node hp.tail hq))
    (ht.aligned p0 (isPtPage_of_node (validPath_vaPath va) hp0)) hp.head (PX_lt 0 va)
    (.inl hne))

theorem Shaped.of_upperSame (h : UpperSame m m' pt) (hs : Shaped m pt) : Shaped m' pt where
  dirs path q i c hp hq hc := by
    rw [node_of_upperSame h path hp.tail] at hq
    have he := h path q i hp hq
    rw [next_of_load64_eq he] at hc
    rw [he]
    exact hs.dirs path q i c hp hq hc
  high i hi hi' := by
    rw [next_of_load64_eq (h [] pt i (validPath_root hi') rfl)]
    exact hs.high i hi hi'

/-- The entry `walk` makes points down. -/
theorem dirPte_rwx (p : UInt64) : (PA2PTE p ||| PTE_V) &&& (PTE_R ||| PTE_W ||| PTE_X) = 0 := by
  have h1 : PTE_FLAGS (PA2PTE p ||| 0 ||| PTE_V) = 0 ||| PTE_V := PTE_FLAGS_mkPte p 0 (by decide)
  rw [UInt64.or_zero] at h1
  have h2 : ∀ e : UInt64,
      e &&& (PTE_R ||| PTE_W ||| PTE_X) = PTE_FLAGS e &&& (PTE_R ||| PTE_W ||| PTE_X) := by
    intro e
    rw [PTE_FLAGS, UInt64.and_assoc]
    rfl
  rw [h2, h1]
  decide

/-- The allocation `walk` makes keeps the shape, where it puts a page in the root only below
`MAXVA`. -/
theorem Shaped.alloc {path : List UInt64} {q i r : UInt64} (ht : TreeOk m pt)
    (ha : AllocOk m pt path q i r) (hhigh : path = [] → i < 256) (hs : Shaped m pt) :
    Shaped (allocMem m q i r) pt := by
  have hq := ht.aligned q (isPtPage_of_node ha.valid ha.at_path)
  have hqr : q ≠ r := fun e => ha.r_out (e ▸ isPtPage_of_node ha.valid ha.at_path)
  -- an entry of an old page other than the one written is as it was
  have hold : ∀ path' q' j, ValidPath Idx 2 (j :: path') → node (next m) pt path' = some q' →
      (q' ≠ q ∨ j ≠ i) → (allocMem m q i r).load64 (q' + 8 * j) = m.load64 (q' + 8 * j) := by
    intro path' q' j hp hq' hne
    have hq'page := isPtPage_of_node hp.tail hq'
    exact load_allocMem_of_page ht ha (ht.aligned q' hq'page)
      (fun e => ha.r_out (e ▸ hq'page)) hp.head hne
  refine ⟨fun path' q' j c hp hq' hc => ?_, fun j hj hj' => ?_⟩
  · rw [node_alloc ht ha path' hp.tail] at hq'
    split_ifs at hq' with hnew
    · -- the new page: all its entries are empty
      cases hq'
      have hz : (allocMem m q i r).load64 (r + 8 * j) = 0 := by
        rw [allocMem, Mem.fill_fill, Mem.load64_store64_of_disjoint
          (entry_disjoint ha.r_aligned hq hp.head ha.idx (.inl hqr.symm))]
        exact Mem.load64_fill_zero fun b hb => entry_sub_lt hp.head hb
      rw [next, hz, if_neg (not_not.2 zero_not_valid)] at hc
      cases hc
    · by_cases hw : q' = q ∧ j = i
      · -- the entry written points down
        obtain ⟨rfl, rfl⟩ := hw
        rw [allocMem, Mem.load64_store64_self]
        exact dirPte_rwx r
      · have he := hold path' q' j hp hq' (not_and_or.1 hw)
        rw [next_of_load64_eq he] at hc
        rw [he]
        exact hs.dirs path' q' j c hp hq' hc
  · by_cases hw : pt = q ∧ j = i
    · -- the root entry written lies below `MAXVA`
      obtain ⟨rfl, rfl⟩ := hw
      have hpath : path = [] := ht.unshared _ _ pt ha.valid ValidPath.nil ha.at_path rfl
      exact absurd (hhigh hpath) (UInt64.not_lt.2 hj)
    · rw [next_of_load64_eq (hold [] pt j (validPath_root hj') rfl (not_and_or.1 hw))]
      exact hs.high j hj hj'

end Shape

theorem PX2_lt_256 {va : UInt64} (hva : va < MAXVA) : PX 2 va < 256 := by
  rw [UInt64.lt_iff_toNat_lt, PX2_toNat]
  rw [UInt64.lt_iff_toNat_lt, MAXVA_toNat] at hva
  simp only [UInt64.reduceToNat]
  omega

/-- One level of `walk` keeps the shape. -/
theorem walkLevel_shaped {s s' : VmState} {o : Option UInt64} {va level pt q : UInt64}
    {path : List UInt64} (hs : Good s pt) (hq : node (next s.mem) pt path = some q)
    (hp : ValidPath Idx 2 path) (hlen : path.length ≤ 1) (hhigh : path = [] → PX level va < 256)
    (h : (walkLevel va true level q).run s = .ok (o, s')) (hsh : Shaped s.mem pt) :
    Shaped s'.mem pt := by
  cases hn : next s.mem q (PX level va) with
  | some c =>
    rw [walkLevel_of_next hn] at h
    cases h
    exact hsh
  | none =>
    cases hf : s.freelist with
    | nil =>
      rw [walkLevel_empty hn hf] at h
      cases h
      exact hsh
    | cons r rest =>
      have hr : r ∈ s.freelist := by simp [hf]
      rw [walkLevel_alloc hn hf (hs.free_ne_zero r hr)] at h
      cases h
      exact hsh.alloc hs.tree ⟨hq, hlen, hp, PX_lt level va, hn, hs.free_aligned r hr,
        hs.free_ne_zero r hr, hs.free_not_pt r hr⟩ hhigh

/-- `walk` with `alloc` set keeps the shape. -/
theorem walk_shaped {s s' : VmState} {pt va e : UInt64} (hs : Good s pt) (hva : va < MAXVA)
    (h : (walk pt va true).run s = .ok (e, s')) (hsh : Shaped s.mem pt) : Shaped s'.mem pt := by
  have hge : ¬ va ≥ MAXVA := UInt64.not_le.2 hva
  obtain ⟨o1, s1, h1, g1, -, hn1, -⟩ :=
    walkLevel_spec va 2 hs (node_nil (next s.mem) pt) ValidPath.nil (by simp)
  have hsh1 := walkLevel_shaped hs (node_nil (next s.mem) pt) ValidPath.nil (by simp)
    (fun _ => PX2_lt_256 hva) h1 hsh
  cases o1 with
  | none =>
    have hrun : (walk pt va true).run s = .ok (0, s1) := by
      simp [walk, hge, StateExcept.ok_bind, h1]
      rfl
    rw [hrun] at h
    cases h
    exact hsh1
  | some p1 =>
    have hp1 := hn1 p1 rfl
    have hpath : ValidPath Idx 2 [PX 2 va] := validPath_root (PX_lt 2 va)
    obtain ⟨o2, s2, h2, -, -, -, -⟩ := walkLevel_spec va 1 g1.good hp1 hpath (by simp)
    have hsh2 := walkLevel_shaped g1.good hp1 hpath (by simp) (fun h => by cases h) h2 hsh1
    cases o2 with
    | none =>
      have hrun : (walk pt va true).run s = .ok (0, s2) := by
        simp [walk, hge, StateExcept.ok_bind, h1, h2]
        rfl
      rw [hrun] at h
      cases h
      exact hsh2
    | some p0 =>
      have hrun : (walk pt va true).run s = .ok (p0 + 8 * PX 0 va, s2) := by
        simp [walk, hge, StateExcept.ok_bind, h1, h2]
        rfl
      rw [hrun] at h
      cases h
      exact hsh2

/-- `mappages` of one aligned unmapped page below `MAXVA`, with the `walk` it runs. -/
theorem mappages_page_walk {s : VmState} {pt a : UInt64} (pa perm : UInt64) (hs : Good s pt)
    (ha : a.toNat % 4096 = 0) (hamax : a < MAXVA) (hnone : lookup s.mem pt a = none) :
    ∃ e s1, (walk pt a true).run s = .ok (e, s1) ∧ Grows s s1 pt ∧
      ((e = 0 ∧ (mappages pt a PGSIZE pa perm).run s = .ok (-1, s1) ∧ s1.freelist = []) ∨
        (e ≠ 0 ∧ leafPte s1.mem pt a = some e ∧
          (mappages pt a PGSIZE pa perm).run s = .ok (0, mapped s1 e pa perm))) := by
  obtain ⟨e, s1, hw, g1, hleaf, hempty⟩ := walk_spec hs hamax
  refine ⟨e, s1, hw, g1, ?_⟩
  rw [mappages_page_run ha hamax, pageLoopFuel_eq]
  by_cases he : e = 0
  · subst he
    exact .inl ⟨rfl, mappagesLoop_fail hw, hempty rfl⟩
  · -- the page was unmapped, so its PTE is not valid and there is no remap
    have he1 := hleaf he
    have hv : s1.mem.load64 e &&& PTE_V = 0 := by
      have hnone1 : lookup s1.mem pt a = none := by rw [g1.lookup_eq, hnone]
      rw [lookup, he1, Option.bind_some, decode] at hnone1
      split_ifs at hnone1 with h
      exact not_not.1 h
    exact .inr ⟨he, he1, mappagesLoop_last hw he hv rfl⟩

/-! ## What `uvmunmap` writes -/

/-- What the loop of `uvmunmap` over `[a, bound)` may write: the PTEs of those pages and,
with `do_free`, the pages they were mapped to. -/
def UnmapFrame (s s' : VmState) (pt a bound : UInt64) (do_free : Bool) : Prop :=
  ∀ b, (∀ va e, a.toNat ≤ va.toNat → va.toNat < bound.toNat → leafPte s.mem pt va = some e →
      ¬ b - e < 8) →
    (do_free = true → ∀ va p fl, a.toNat ≤ va.toNat → va.toNat < bound.toNat →
      lookup s.mem pt va = some (p, fl) → ¬ b - p < PGSIZE) →
    s'.mem b = s.mem b

/-- One iteration of the loop of `uvmunmap` at a page `a` it accepts: it clears the leaf
PTE `e` of `a`, with `do_free` frees the page `p` that `a` was mapped to, and goes on from
the next page. -/
theorem uvmunmapLoop_iter {s : VmState} {pt bound a p fl : UInt64} {do_free : Bool} (fuel : ℕ)
    (ht : TableOk s.mem pt) (hamax : a < MAXVA) (hlt : a < bound)
    (hlk : lookup s.mem pt a = some (p, fl)) (hfl : fl ≠ PTE_V)
    (hk : do_free → s.kernelEnd ≤ p ∧ p < PHYSTOP) :
    ∃ e s2, leafPte s.mem pt a = some e ∧
      (uvmunmapLoop pt bound do_free (fuel + 1) a).run s =
        (uvmunmapLoop pt bound do_free fuel (a + PGSIZE)).run s2 ∧
      TableOk s2.mem pt ∧ s2.kernelEnd = s.kernelEnd ∧
      (∀ va, va < MAXVA → lookup s2.mem pt va =
        if va.toNat / 4096 = a.toNat / 4096 then none else lookup s.mem pt va) ∧
      (∀ va, leafPte s2.mem pt va = leafPte s.mem pt va) ∧
      s2.freelist = (if do_free then p :: s.freelist else s.freelist) ∧
      ∀ b, ¬ b - e < 8 → (do_free = true → ¬ b - p < PGSIZE) → s2.mem b = s.mem b := by
  cases hl : leafPte s.mem pt a with
  | none => simp [lookup, hl] at hlk
  | some e =>
    have hdec : decode (s.mem.load64 e) = some (p, fl) := by
      rw [lookup, hl, Option.bind_some] at hlk
      exact hlk
    obtain ⟨hv, hp, hfl'⟩ := decode_eq_some hdec
    have hw : (walk pt a false).run s = .ok (e, s) := by
      rw [walk_run_false hamax, hl, Option.getD_some]
    -- the free writes only inside the page `p`, and pushes it
    obtain ⟨s1, hk1, hsame, hend1, hfl1, hframe1⟩ : ∃ s1,
        (if do_free then kfree p else pure ()).run s = .ok ((), s1) ∧ SameTree s.mem s1.mem pt ∧
          s1.kernelEnd = s.kernelEnd ∧
          s1.freelist = (if do_free then p :: s.freelist else s.freelist) ∧
          ∀ b, (do_free = true → ¬ b - p < PGSIZE) → s1.mem b = s.mem b := by
      cases do_free with
      | false => exact ⟨s, rfl, fun _ _ _ _ => rfl, rfl, rfl, fun _ _ => rfl⟩
      | true =>
        obtain ⟨hlo, hhi⟩ := hk rfl
        obtain ⟨s1, hk', hend, hfree, hframe⟩ := kfree_spec (lookup_aligned hlk) hlo hhi
        obtain ⟨s1', hk1, hsame, -, -⟩ := free_spec true ht hlk hk
        have hrun : (if true = true then kfree p else pure ()).run s = .ok ((), s1) := by
          rw [if_pos rfl]
          exact hk'
        rw [hrun] at hk1
        cases hk1
        exact ⟨s1, hrun, hsame, hend, hfree, fun b hb => hframe b (hb rfl)⟩
    have ht1 := tableOk_of_sameTree hsame ht
    have hl1 : leafPte s1.mem pt a = some e := by rw [leafPte_of_sameTree hsame, hl]
    refine ⟨e, { s1 with mem := s1.mem.store64 e 0 }, rfl, ?_, tableOk_unmap ht1 hl1, hend1,
      fun va hva => ?_, fun va => ?_, hfl1, fun b hbe hbp => ?_⟩
    · rw [hp] at hk1
      exact uvmunmapLoop_step hlt hw (leafPte_ne_zero ht.tree hl) hv (hfl' ▸ hfl) hk1
    · rw [lookup_unmap (s := s1) ht1.tree hamax hl1 hva, lookup_of_sameTree hsame]
    · rw [leafPte_store_leaf ht1.tree hl1, leafPte_of_sameTree hsame]
    · show (s1.mem.store64 e 0) b = s.mem b
      rw [Mem.store64_of_not_lt hbe]
      exact hframe1 b hbp

/-- After the iteration at `a`, the pages after `a` are mapped as before. -/
theorem mapped_after_iter {s s2 : VmState} {pt a bound : UInt64} {do_free : Bool}
    (hbmax : bound.toNat ≤ 2 ^ 38) (ha : a.toNat % 4096 = 0)
    (hlook : ∀ va, va < MAXVA → lookup s2.mem pt va =
      if va.toNat / 4096 = a.toNat / 4096 then none else lookup s.mem pt va)
    (hend : s2.kernelEnd = s.kernelEnd)
    (hmapped : ∀ va, a.toNat ≤ va.toNat → va.toNat < bound.toNat → ∃ p fl,
      lookup s.mem pt va = some (p, fl) ∧ fl ≠ PTE_V ∧ (do_free → s.kernelEnd ≤ p ∧ p < PHYSTOP)) :
    ∀ va, a.toNat + 4096 ≤ va.toNat → va.toNat < bound.toNat → ∃ p fl,
      lookup s2.mem pt va = some (p, fl) ∧ fl ≠ PTE_V ∧ (do_free → s2.kernelEnd ≤ p ∧ p < PHYSTOP) := by
  intro va h1 h2
  have hva : va < MAXVA := UInt64.lt_iff_toNat_lt.2 (by rw [MAXVA_toNat]; omega)
  obtain ⟨p, fl, h3, h4, h5⟩ := hmapped va (by omega) h2
  refine ⟨p, fl, ?_, h4, ?_⟩
  · rw [hlook va hva, if_neg (by omega), h3]
  · rw [hend]
    exact h5

theorem toNat_add_PGSIZE {a : UInt64} (h : a.toNat < 2 ^ 38) : (a + PGSIZE).toNat = a.toNat + 4096 := by
  rw [UInt64.toNat_add, PGSIZE_toNat]
  omega

/-- The loop of `uvmunmap`, by induction on the iterations left, as `uvmunmapLoop_unmaps`:
one iteration frees the page of `a` and clears its PTE, and writes nothing else. -/
theorem uvmunmapLoop_frame {pt bound : UInt64} {do_free : Bool}
    (hbound : bound.toNat % 4096 = 0) (hbmax : bound.toNat ≤ 2 ^ 38) :
    ∀ (fuel : ℕ) (s : VmState) (a : UInt64), TableOk s.mem pt → a.toNat % 4096 = 0 →
    a.toNat ≤ bound.toNat → (bound.toNat - a.toNat) / 4096 < fuel →
    (∀ va, a.toNat ≤ va.toNat → va.toNat < bound.toNat → ∃ p fl, lookup s.mem pt va = some (p, fl) ∧
      fl ≠ PTE_V ∧ (do_free → s.kernelEnd ≤ p ∧ p < PHYSTOP)) →
    ∀ s', (uvmunmapLoop pt bound do_free fuel a).run s = .ok ((), s') →
      UnmapFrame s s' pt a bound do_free := by
  intro fuel
  induction fuel with
  | zero => intro s a _ _ _ hfuel; omega
  | succ fuel ih =>
    intro s a ht ha hab hfuel hmapped s' hrun
    by_cases hlt : a < bound
    case neg =>
      rw [uvmunmapLoop_done hlt] at hrun
      cases hrun
      exact fun _ _ _ => rfl
    case pos =>
      have hlt' := UInt64.lt_iff_toNat_lt.1 hlt
      have hamax : a < MAXVA := UInt64.lt_iff_toNat_lt.2 (by rw [MAXVA_toNat]; omega)
      obtain ⟨p, fl, hlk, hfl, hk⟩ := hmapped a (le_refl _) hlt'
      obtain ⟨e, s2, hl, hstep, ht2, hend2, hlook2, hleaf2, -, hframe2⟩ :=
        uvmunmapLoop_iter fuel ht hamax hlt hlk hfl hk
      have ha' := toNat_add_PGSIZE (a := a) (by omega)
      rw [hstep] at hrun
      have hrest := ih s2 (a + PGSIZE) ht2 (by rw [ha']; omega) (by rw [ha']; omega)
        (by rw [ha']; omega)
        (fun va h1 h2 => mapped_after_iter hbmax ha hlook2 hend2 hmapped va (by rw [ha'] at h1; exact h1) h2)
        s' hrun
      intro b hpte hfree
      -- the rest of the loop, then this iteration
      rw [hrest b (fun va e' h1 h2 he' => hpte va e' (by rw [ha'] at h1; omega) h2
          (by rw [← hleaf2 va]; exact he'))
        (fun hd va p' fl' h1 h2 hl' => by
          rw [ha'] at h1
          have hva : va < MAXVA := UInt64.lt_iff_toNat_lt.2 (by rw [MAXVA_toNat]; omega)
          rw [hlook2 va hva, if_neg (by omega)] at hl'
          exact hfree hd va p' fl' (by omega) h2 hl')]
      exact hframe2 b (hpte a e (le_refl _) hlt' hl) fun hd => hfree hd a p fl (le_refl _) hlt' hlk

/-- The loop of `uvmunmap` keeps the free list without duplicates when the pages of
`[a, bound)` are mapped to distinct pages that are not free; by induction as above. -/
theorem uvmunmapLoop_nodup {pt bound : UInt64} {do_free : Bool}
    (hbound : bound.toNat % 4096 = 0) (hbmax : bound.toNat ≤ 2 ^ 38) :
    ∀ (fuel : ℕ) (s : VmState) (a : UInt64), TableOk s.mem pt → a.toNat % 4096 = 0 →
    a.toNat ≤ bound.toNat → (bound.toNat - a.toNat) / 4096 < fuel →
    (∀ va, a.toNat ≤ va.toNat → va.toNat < bound.toNat → ∃ p fl, lookup s.mem pt va = some (p, fl) ∧
      fl ≠ PTE_V ∧ (do_free → s.kernelEnd ≤ p ∧ p < PHYSTOP)) →
    (∀ va va' p fl fl', a.toNat ≤ va.toNat → va.toNat < bound.toNat → a.toNat ≤ va'.toNat →
      va'.toNat < bound.toNat → lookup s.mem pt va = some (p, fl) →
      lookup s.mem pt va' = some (p, fl') → va.toNat / 4096 = va'.toNat / 4096) →
    (∀ va p fl, a.toNat ≤ va.toNat → va.toNat < bound.toNat → lookup s.mem pt va = some (p, fl) →
      p ∉ s.freelist) →
    s.freelist.Nodup →
    ∀ s', (uvmunmapLoop pt bound do_free fuel a).run s = .ok ((), s') → s'.freelist.Nodup := by
  intro fuel
  induction fuel with
  | zero => intro s a _ _ _ hfuel; omega
  | succ fuel ih =>
    intro s a ht ha hab hfuel hmapped hinj hnf hnd s' hrun
    by_cases hlt : a < bound
    case neg =>
      rw [uvmunmapLoop_done hlt] at hrun
      cases hrun
      exact hnd
    case pos =>
      have hlt' := UInt64.lt_iff_toNat_lt.1 hlt
      have hamax : a < MAXVA := UInt64.lt_iff_toNat_lt.2 (by rw [MAXVA_toNat]; omega)
      obtain ⟨p, fl, hlk, hfl, hk⟩ := hmapped a (le_refl _) hlt'
      obtain ⟨e, s2, -, hstep, ht2, hend2, hlook2, -, hfl2, -⟩ :=
        uvmunmapLoop_iter fuel ht hamax hlt hlk hfl hk
      have ha' := toNat_add_PGSIZE (a := a) (by omega)
      rw [hstep] at hrun
      -- a page after `a` is mapped as before, so to a page that is neither free nor `p`
      have hlater : ∀ va, a.toNat + 4096 ≤ va.toNat → va.toNat < bound.toNat →
          lookup s2.mem pt va = lookup s.mem pt va := by
        intro va h1 h2
        have hva : va < MAXVA := UInt64.lt_iff_toNat_lt.2 (by rw [MAXVA_toNat]; omega)
        rw [hlook2 va hva, if_neg (by omega)]
      refine ih s2 (a + PGSIZE) ht2 (by rw [ha']; omega) (by rw [ha']; omega) (by rw [ha']; omega)
        (fun va h1 h2 => mapped_after_iter hbmax ha hlook2 hend2 hmapped va (by rw [ha'] at h1; exact h1) h2)
        (fun va va' p' fl' fl'' h1 h2 h3 h4 hl hl' => ?_) (fun va p' fl' h1 h2 hl => ?_) ?_ s' hrun
      · rw [ha'] at h1 h3
        rw [hlater va h1 h2] at hl
        rw [hlater va' h3 h4] at hl'
        exact hinj va va' p' fl' fl'' (by omega) h2 (by omega) h4 hl hl'
      · rw [ha'] at h1
        rw [hlater va h1 h2] at hl
        rw [hfl2]
        have hpp : p' ≠ p := by
          rintro rfl
          have := hinj va a p' fl' fl (by omega) h2 (le_refl _) hlt' hl hlk
          omega
        cases do_free
        · exact hnf va p' fl' (by omega) h2 hl
        · exact fun h => (List.mem_cons.1 h).elim hpp (hnf va p' fl' (by omega) h2 hl)
      · rw [hfl2]
        cases do_free
        · exact hnd
        · exact List.nodup_cons.2 ⟨hnf a p fl (le_refl _) hlt' hlk, hnd⟩

/-- `uvmunmap` on a call as the kernel makes them is its loop up to `va + npages * PGSIZE`. -/
theorem uvmunmap_run_loop {s : VmState} {pt va npages : UInt64} {do_free : Bool}
    (h : UnmapArgs s pt va npages do_free) :
    (uvmunmap pt va npages do_free).run s =
        (uvmunmapLoop pt (va + npages * PGSIZE) do_free pageLoopFuel va).run s ∧
      (va + npages * PGSIZE).toNat = va.toNat + npages.toNat * 4096 := by
  have hend := h.below_maxva
  have hal : ¬ va % PGSIZE ≠ 0 := not_not.2 ((aligned_toNat_iff va).2 h.va_aligned)
  refine ⟨by simp [uvmunmap, hal], ?_⟩
  rw [UInt64.toNat_add, UInt64.toNat_mul, PGSIZE_toNat]
  have : npages.toNat * 4096 < 2 ^ 64 := by omega
  rw [Nat.mod_eq_of_lt this]
  omega

/-- `uvmunmap` on a call as the kernel makes them writes only what its loop may. -/
theorem uvmunmap_frame {s s' : VmState} {pt va npages : UInt64} {do_free : Bool}
    (ht : TableOk s.mem pt) (h : UnmapArgs s pt va npages do_free)
    (hrun : (uvmunmap pt va npages do_free).run s = .ok ((), s')) :
    UnmapFrame s s' pt va (va + npages * PGSIZE) do_free := by
  obtain ⟨hloop, hb⟩ := uvmunmap_run_loop h
  have hend := h.below_maxva
  rw [hloop] at hrun
  exact uvmunmapLoop_frame (by rw [hb]; have := h.va_aligned; omega) (by rw [hb]; omega)
    pageLoopFuel s va ht h.va_aligned (by rw [hb]; omega) (by rw [hb, pageLoopFuel_eq]; omega)
    (fun va' h1 h2 => h.mapped va' h1 (by rw [← hb]; exact h2)) s' hrun

/-- `uvmunmap` on a call as the kernel makes them, of pages mapped to distinct pages that
are not free, keeps the free list without duplicates. -/
theorem uvmunmap_nodup {s s' : VmState} {pt va npages : UInt64} {do_free : Bool}
    (ht : TableOk s.mem pt) (h : UnmapArgs s pt va npages do_free)
    (hinj : ∀ va' va'' p fl fl', va.toNat ≤ va'.toNat → va'.toNat < va.toNat + npages.toNat * 4096 →
      va.toNat ≤ va''.toNat → va''.toNat < va.toNat + npages.toNat * 4096 →
      lookup s.mem pt va' = some (p, fl) → lookup s.mem pt va'' = some (p, fl') →
      va'.toNat / 4096 = va''.toNat / 4096)
    (hnf : ∀ va' p fl, va.toNat ≤ va'.toNat → va'.toNat < va.toNat + npages.toNat * 4096 →
      lookup s.mem pt va' = some (p, fl) → p ∉ s.freelist) (hnd : s.freelist.Nodup)
    (hrun : (uvmunmap pt va npages do_free).run s = .ok ((), s')) : s'.freelist.Nodup := by
  obtain ⟨hloop, hb⟩ := uvmunmap_run_loop h
  have hend := h.below_maxva
  rw [hloop] at hrun
  exact uvmunmapLoop_nodup (by rw [hb]; have := h.va_aligned; omega) (by rw [hb]; omega)
    pageLoopFuel s va ht h.va_aligned (by rw [hb]; omega) (by rw [hb, pageLoopFuel_eq]; omega)
    (fun va' h1 h2 => h.mapped va' h1 (by rw [← hb]; exact h2))
    (fun va' va'' p fl fl' h1 h2 h3 h4 => hinj va' va'' p fl fl' h1 (by rw [← hb]; exact h2) h3
      (by rw [← hb]; exact h4))
    (fun va' p fl h1 h2 => hnf va' p fl h1 (by rw [← hb]; exact h2)) hnd s' hrun

/-- What `uvmunmap` writes lies in pages of level 0 and in pages the table maps, not in the
pages above level 0. -/
theorem upperSame_of_unmapFrame {s s' : VmState} {pt a bound : UInt64} {do_free : Bool}
    (ht : TableOk s.mem pt) (hf : UnmapFrame s s' pt a bound do_free) :
    UpperSame s.mem s'.mem pt := by
  intro path q i hp hq
  have hqpage := isPtPage_of_node hp.tail hq
  have hqa := ht.tree.aligned q hqpage
  apply Mem.load64_congr
  intro b hb
  apply hf b
  · intro va e _ _ he hbe
    simp only [leafPte, Option.map_eq_some_iff] at he
    obtain ⟨p0, hp0, rfl⟩ := he
    -- a leaf PTE lies in a page of level 0, which is not `q`
    have hq0 : q ≠ p0 := by
      rintro rfl
      have := ht.tree.unshared path (vaPath va) q hp.tail (validPath_vaPath va) hq hp0
      have hl := hp.length_lt
      rw [this] at hl
      simp [vaPath] at hl
    exact entry_disjoint hqa (ht.tree.aligned p0 (isPtPage_of_node (validPath_vaPath va) hp0))
      hp.head (PX_lt 0 va) (.inl hq0) b hb hbe
  · intro _ va p fl _ _ hl
    have hpq : p ≠ q := fun e => ht.mapped_not_pt p ⟨va, fl, hl⟩ (e ▸ hqpage)
    exact entry_not_in_page hqa (lookup_aligned hl) hpq.symm hp.head b hb

/-! ## Tearing a table down -/

/-- Every slot of the three levels under the lower half of the root is the slot of some
virtual address below `MAXVA`. -/
theorem exists_va_of_index {i j k : UInt64} (hi : i < 256) (hj : j < 512) (hk : k < 512) :
    ∃ va, va < MAXVA ∧ PX 2 va = i ∧ PX 1 va = j ∧ PX 0 va = k := by
  simp only [UInt64.lt_iff_toNat_lt, UInt64.reduceToNat] at hi hj hk
  have hva : (UInt64.ofNat (i.toNat * 2 ^ 30 + j.toNat * 2 ^ 21 + k.toNat * 2 ^ 12)).toNat =
      i.toNat * 2 ^ 30 + j.toNat * 2 ^ 21 + k.toNat * 2 ^ 12 := by
    rw [UInt64.toNat_ofNat', Nat.mod_eq_of_lt (by omega)]
  refine ⟨UInt64.ofNat (i.toNat * 2 ^ 30 + j.toNat * 2 ^ 21 + k.toNat * 2 ^ 12), ?_, ?_, ?_, ?_⟩
  · rw [UInt64.lt_iff_toNat_lt, hva, MAXVA_toNat]
    omega
  · apply UInt64.toNat_inj.1
    rw [PX2_toNat, hva]
    omega
  · apply UInt64.toNat_inj.1
    rw [PX1_toNat, hva]
    omega
  · apply UInt64.toNat_inj.1
    rw [PX0_toNat, hva]
    omega

/-- A shaped table that maps nothing below `MAXVA` is one `freewalk` can free: its valid
entries of levels 2 and 1 point down, and its pages of level 0 have no valid entry. -/
theorem freeable_of_shaped {m : Mem} {pt : UInt64} (hsh : Shaped m pt)
    (hl : ∀ va, va < MAXVA → lookup m pt va = none) : Freeable m 2 pt := by
  intro i hi c hc
  have hi' : i < 256 := by
    by_contra h
    rw [hsh.high i (UInt64.not_lt.1 h) hi] at hc
    cases hc
  refine ⟨hsh.dirs [] pt i c (validPath_root hi) rfl hc, fun j hj c' hc' => ?_⟩
  refine ⟨hsh.dirs [i] c j c' ⟨by simp, by simp [hi, hj]⟩ (by simp [node_cons, hc]) hc',
    fun k hk => ?_⟩
  -- a valid entry of level 0 would map the address of its slot
  obtain ⟨va, hva, h2, h1, h0⟩ := exists_va_of_index hi' hj hk
  have hleaf : leafPte m pt va = some (c' + 8 * k) := by
    simp [leafPte, vaPath, node_cons, h1, h2, h0, hc, hc']
  have hnone := hl va hva
  rw [lookup, hleaf, Option.bind_some, decode] at hnone
  split_ifs at hnone with hv
  exact next_eq_none_iff.2 (not_not.1 hv)

/-- `uvmfree(pagetable, 0)` on a shaped table that maps nothing below `MAXVA` and whose
pages are pages of RAM that are not free: it frees exactly those pages, as `freewalk`. -/
theorem uvmfree_zero_spec {s : VmState} {pt : UInt64} (ht : TreeOk s.mem pt)
    (hsh : Shaped s.mem pt) (hl : ∀ va, va < MAXVA → lookup s.mem pt va = none)
    (hram : ∀ q, IsPtPage s.mem pt q → s.kernelEnd ≤ q ∧ q < PHYSTOP)
    (hfree : ∀ q, IsPtPage s.mem pt q → q ∉ s.freelist) :
    ∃ s', (uvmfree pt 0).run s = .ok ((), s') ∧ Freed s s' 2 pt := by
  have hrun : (uvmfree pt 0).run s = (freewalk freewalkDepth pt).run s := by
    simp [uvmfree]
  rw [hrun]
  exact freewalk_spec 2 freewalkDepth s pt (by decide)
    ⟨freeable_of_shaped hsh hl, ht.unshared, fun q hq => ⟨ht.aligned q hq, hram q hq⟩, hfree⟩

end Xv6.Vm
