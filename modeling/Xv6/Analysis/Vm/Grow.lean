import Xv6.Analysis.Vm.Map

/-!
# Growing and shrinking a process (`uvmalloc`, `uvmdealloc`)

A process of `sz` bytes has its pages below `PGROUNDUP(sz)` mapped by leaves to pages of
RAM, no two to the same page, and nothing mapped from there up to `TRAPFRAME`
(`AddrSpace`). `uvmalloc` maps one fresh zeroed page per iteration. It stops with the
new size once it passes `newsz`, and with 0 where `kalloc` or the `walk` of `mappages`
finds the free list empty. In that case `uvmdealloc` unmaps and frees the pages mapped
so far, so that the page-table pages are all that the call keeps.

The loop never reaches `TRAPFRAME`, whatever `newsz` is: the user pages and the free
pages are distinct pages of RAM (`AddrSpace.room`), and each iteration takes one page
off the free list.
Source: kernel/vm.c:218-262
-/

set_option autoImplicit false

namespace Xv6.Vm

open Radix

/-- `memlayout.h`: the trampoline page at the top of every address space, and the
trapframe page below it. -/
def TRAMPOLINE : UInt64 := MAXVA - PGSIZE
def TRAPFRAME : UInt64 := TRAMPOLINE - PGSIZE

theorem TRAPFRAME_toNat : TRAPFRAME.toNat = 2 ^ 38 - 8192 := by decide

theorem PHYSTOP_toNat : PHYSTOP.toNat = 557056 * 4096 := by decide

/-- The permissions `uvmalloc` gives a new page. -/
def uvmPerm : UInt64 := PTE_W ||| PTE_X ||| PTE_R ||| PTE_U

/-- The user part of the address space of a process of `sz` bytes: the table satisfies
the invariant; every page below `PGROUNDUP(sz)` is mapped by a leaf to a page of RAM
that `kfree` accepts, no two to the same page; nothing is mapped from there up to
`TRAPFRAME`; and the free pages are pages of RAM too. -/
structure AddrSpace (s : VmState) (pt sz : UInt64) : Prop where
  good : Good s pt
  sz_lt : sz < TRAPFRAME
  user : ∀ va, va.toNat < (PGROUNDUP sz).toNat → ∃ p fl, lookup s.mem pt va = some (p, fl) ∧
    fl ≠ PTE_V ∧ s.kernelEnd ≤ p ∧ p < PHYSTOP
  user_inj : ∀ va va' p fl fl', va.toNat < (PGROUNDUP sz).toNat → va'.toNat < (PGROUNDUP sz).toNat →
    lookup s.mem pt va = some (p, fl) → lookup s.mem pt va' = some (p, fl') →
    va.toNat / 4096 = va'.toNat / 4096
  above : ∀ va, (PGROUNDUP sz).toNat ≤ va.toNat → va < TRAPFRAME → lookup s.mem pt va = none
  free_ram : ∀ p ∈ s.freelist, s.kernelEnd ≤ p ∧ p < PHYSTOP

section Room

variable {s : VmState} {pt sz : UInt64}

theorem PGROUNDUP_le_TRAPFRAME (h : sz < TRAPFRAME) :
    (PGROUNDUP sz).toNat = (sz.toNat + 4095) / 4096 * 4096 ∧ (PGROUNDUP sz).toNat ≤ TRAPFRAME.toNat := by
  rw [UInt64.lt_iff_toNat_lt, TRAPFRAME_toNat] at h
  rw [PGROUNDUP_toNat sz (by omega), TRAPFRAME_toNat]
  omega

/-- Two aligned addresses in one page are one. -/
theorem eq_of_page_eq {p q : UInt64} (hp : p.toNat % 4096 = 0) (hq : q.toNat % 4096 = 0)
    (h : p.toNat / 4096 = q.toNat / 4096) : p = q := by
  apply UInt64.toNat_inj.mp
  omega

/-- The user pages and the free pages are distinct pages of RAM, so there are at most as
many of them as pages below `PHYSTOP`. -/
theorem AddrSpace.room (h : AddrSpace s pt sz) :
    (PGROUNDUP sz).toNat / 4096 + s.freelist.length ≤ PHYSTOP.toNat / 4096 := by
  obtain ⟨hup, -⟩ := PGROUNDUP_le_TRAPFRAME h.sz_lt
  set n := (PGROUNDUP sz).toNat / 4096
  -- the page that the `i`-th user page is mapped to
  let f : ℕ → ℕ := fun i =>
    (((lookup s.mem pt (UInt64.ofNat (i * 4096))).map Prod.fst).getD 0).toNat / 4096
  have hva : ∀ i, i < n → (UInt64.ofNat (i * 4096)).toNat = i * 4096 := by
    intro i hi
    have := TRAPFRAME_toNat
    have := (PGROUNDUP_le_TRAPFRAME h.sz_lt).2
    rw [UInt64.toNat_ofNat', Nat.mod_eq_of_lt (by omega)]
  have huser : ∀ i, i < n → ∃ p fl, lookup s.mem pt (UInt64.ofNat (i * 4096)) = some (p, fl) ∧
      s.kernelEnd ≤ p ∧ p < PHYSTOP ∧ f i = p.toNat / 4096 := by
    intro i hi
    obtain ⟨p, fl, hl, -, hlo, hhi⟩ := h.user _ (by rw [hva i hi]; omega)
    exact ⟨p, fl, hl, hlo, hhi, by simp only [f, hl, Option.map_some, Option.getD_some]⟩
  have hinj : Set.InjOn f (Finset.range n) := by
    intro i hi j hj hij
    rw [Finset.coe_range, Set.mem_Iio] at hi hj
    obtain ⟨p, fl, hp, -, -, hfi⟩ := huser i hi
    obtain ⟨q, fl', hq, -, -, hfj⟩ := huser j hj
    have hpq : p = q := eq_of_page_eq (lookup_aligned hp) (lookup_aligned hq) (by omega)
    subst hpq
    have := h.user_inj _ _ p fl fl' (by rw [hva i hi]; omega) (by rw [hva j hj]; omega) hp hq
    rw [hva i hi, hva j hj] at this
    omega
  let g : UInt64 → ℕ := fun p => p.toNat / 4096
  have hnd : (s.freelist.map g).Nodup := by
    refine (List.nodup_map_iff_inj_on h.good.free_nodup).2 fun p hp q hq hpq => ?_
    exact eq_of_page_eq (h.good.free_aligned p hp) (h.good.free_aligned q hq) hpq
  -- both sets of pages lie below `PHYSTOP`, and no page is in both
  have hsub : (Finset.range n).image f ∪ (s.freelist.map g).toFinset ⊆
      Finset.range (PHYSTOP.toNat / 4096) := by
    intro x hx
    rw [Finset.mem_union, Finset.mem_image, List.mem_toFinset, List.mem_map] at hx
    rw [Finset.mem_range, PHYSTOP_toNat]
    rcases hx with ⟨i, hi, rfl⟩ | ⟨p, hp, rfl⟩
    · obtain ⟨p, -, -, -, hhi, hfi⟩ := huser i (Finset.mem_range.1 hi)
      rw [hfi]
      rw [UInt64.lt_iff_toNat_lt, PHYSTOP_toNat] at hhi
      omega
    · have hhi := (h.free_ram p hp).2
      rw [UInt64.lt_iff_toNat_lt, PHYSTOP_toNat] at hhi
      show p.toNat / 4096 < _
      omega
  have hdisj : Disjoint ((Finset.range n).image f) (s.freelist.map g).toFinset := by
    rw [Finset.disjoint_left]
    intro x hx hx'
    rw [Finset.mem_image] at hx
    rw [List.mem_toFinset, List.mem_map] at hx'
    obtain ⟨i, hi, rfl⟩ := hx
    obtain ⟨q, hq, hqi⟩ := hx'
    obtain ⟨p, fl, hp, -, -, hfi⟩ := huser i (Finset.mem_range.1 hi)
    have hpq : q = p := eq_of_page_eq (h.good.free_aligned q hq) (lookup_aligned hp) (by
      rw [← hfi]
      exact hqi)
    subst hpq
    exact h.good.free_not_mapped q hq ⟨_, fl, hp⟩
  have hcard := Finset.card_le_card hsub
  rw [Finset.card_union_of_disjoint hdisj, Finset.card_image_of_injOn hinj, Finset.card_range,
    List.toFinset_card_of_nodup hnd, List.length_map, Finset.card_range] at hcard
  exact hcard

end Room

/-! ## One iteration -/

section Step

variable {s s' : VmState} {pt : UInt64}

theorem kalloc_run_cons {r : UInt64} {rest : List UInt64} (hf : s.freelist = r :: rest) :
    kalloc.run s = .ok (r, { s with mem := s.mem.fill r 5 PGSIZE, freelist := rest }) := by
  simp [kalloc, hf]
  rfl

theorem kalloc_run_nil (hf : s.freelist = []) : kalloc.run s = .ok (0, s) := by
  simp [kalloc, hf]
  rfl

/-- One level of `walk` takes at most one page off the free list. -/
theorem walkLevel_length {va level q : UInt64} {o : Option UInt64}
    (h : (walkLevel va true level q).run s = .ok (o, s')) :
    s.freelist.length ≤ s'.freelist.length + 1 := by
  cases hn : next s.mem q (PX level va) with
  | some c =>
    rw [walkLevel_of_next hn] at h
    cases h
    omega
  | none =>
    cases hf : s.freelist with
    | nil =>
      rw [walkLevel_empty hn hf] at h
      cases h
      simp [hf]
    | cons r rest =>
      by_cases hr : r = 0
      · -- `kalloc` hands out page 0, which `walk` takes for a failure
        have h0 : (walkLevel va true level q).run s =
            .ok (none, { s with mem := s.mem.fill r 5 PGSIZE, freelist := rest }) := by
          unfold next at hn
          split_ifs at hn with hv
          simp [walkLevel, not_not.1 hv, kalloc, hf, hr]
          rfl
        rw [h0] at h
        cases h
        simp
      · rw [walkLevel_alloc hn hf hr] at h
        cases h
        simp

/-- `walk` takes at most two pages off the free list, one for each level above 0. -/
theorem walk_length {va e : UInt64} (h : (walk pt va true).run s = .ok (e, s')) :
    s.freelist.length ≤ s'.freelist.length + 2 := by
  unfold walk at h
  split at h
  · cases h
  obtain ⟨o1, s1, h1, h2⟩ := StateExcept.run_bind_eq_ok h
  have hl1 := walkLevel_length h1
  cases o1 with
  | none =>
    cases h2
    omega
  | some p1 =>
    obtain ⟨o2, s2, h3, h4⟩ := StateExcept.run_bind_eq_ok h2
    have hl2 := walkLevel_length h3
    cases o2 <;> cases h4 <;> omega

theorem mappages_page_run {a pa perm : UInt64} (ha : a.toNat % 4096 = 0) (hamax : a < MAXVA) :
    (mappages pt a PGSIZE pa perm).run s = (mappagesLoop pt a perm pageLoopFuel a pa).run s := by
  have hlt := UInt64.lt_iff_toNat_lt.1 hamax
  rw [MAXVA_toNat] at hlt
  have hlast : PGROUNDDOWN (a + PGSIZE - 1) = a := by
    apply UInt64.toNat_inj.mp
    have h1 : (a + PGSIZE - 1).toNat = a.toNat + 4095 := by
      rw [UInt64.toNat_sub, UInt64.toNat_add, PGSIZE_toNat]
      simp only [UInt64.reduceToNat]
      omega
    rw [PGROUNDDOWN_toNat, h1]
    omega
  have hne : PGSIZE ≠ 0 := by decide
  simp [mappages, hne, PGROUNDDOWN_of_aligned ha, hlast]

/-- `mappages` of one aligned page that is unmapped: -1 with nothing mapped and the free
list, of at most two pages before, used up; or 0 with the PTE that `walk` found or made
pointing to `pa`, after a `walk` that took at most two pages. -/
theorem mappages_page_spec {a : UInt64} (pa perm : UInt64) (hs : Good s pt) (ha : a.toNat % 4096 = 0)
    (hamax : a < MAXVA) (hnone : lookup s.mem pt a = none) :
    (∃ s1, (mappages pt a PGSIZE pa perm).run s = .ok (-1, s1) ∧ Grows s s1 pt ∧
      s1.freelist = [] ∧ s.freelist.length ≤ 2) ∨
    (∃ s1 e, (mappages pt a PGSIZE pa perm).run s = .ok (0, mapped s1 e pa perm) ∧
      Grows s s1 pt ∧ leafPte s1.mem pt a = some e ∧ s.freelist.length ≤ s1.freelist.length + 2) := by
  obtain ⟨e, s1, hw, g1, hleaf, hempty⟩ := walk_spec hs hamax
  rw [mappages_page_run ha hamax, pageLoopFuel_eq]
  by_cases he : e = 0
  · subst he
    have hlen := walk_length hw
    rw [hempty rfl, List.length_nil] at hlen
    exact Or.inl ⟨s1, mappagesLoop_fail hw, g1, hempty rfl, hlen⟩
  · -- the page was unmapped, so its PTE is not valid and there is no remap
    have he1 := hleaf he
    have hv : s1.mem.load64 e &&& PTE_V = 0 := by
      have hnone1 : lookup s1.mem pt a = none := by rw [g1.lookup_eq, hnone]
      rw [lookup, he1, Option.bind_some, decode] at hnone1
      split_ifs at hnone1 with h
      exact not_not.1 h
    exact Or.inr ⟨s1, e, mappagesLoop_last hw he hv rfl, g1, he1, walk_length hw⟩

/-- Every byte of the page at `p` is 0. -/
def Zeroed (m : Mem) (p : UInt64) : Prop := ∀ b, b - p < PGSIZE → m b = 0

theorem zeroed_fill_self (m : Mem) (p : UInt64) : Zeroed (m.fill p 0 PGSIZE) p :=
  fun _ hb => Mem.fill_of_lt hb

theorem Zeroed.fill {m : Mem} {p r : UInt64} (h : Zeroed m p) (hp : p.toNat % 4096 = 0)
    (hr : r.toNat % 4096 = 0) (hne : r ≠ p) (c : UInt8) : Zeroed (m.fill r c PGSIZE) p := by
  intro b hb
  have hbr : ¬ b - r < PGSIZE := Mem.page_disjoint hr hp (Ne.symm hne) b hb
  rw [Mem.fill_of_not_lt hbr]
  exact h b hb

/-- `walk` writes only inside the table, so a page outside it keeps its bytes. -/
theorem Zeroed.of_grows {s1 : VmState} {p : UInt64} (h : Zeroed s.mem p) (g : Grows s s1 pt)
    (hp : p.toNat % 4096 = 0) (hnpt : ¬ IsPtPage s1.mem pt p) : Zeroed s1.mem p := by
  intro b hb
  rw [g.frame b ?_]
  · exact h b hb
  rintro ⟨q, hq, hbq⟩
  have hne : q ≠ p := fun e => hnpt (e ▸ hq)
  exact Mem.page_disjoint hp (g.good.tree.aligned q hq) hne b hbq hb

/-- The PTE `walk` reaches lies in a page of the table. -/
theorem leafPte_pt {m : Mem} {va e : UInt64} (h : leafPte m pt va = some e) :
    ∃ p0, IsPtPage m pt p0 ∧ e = p0 + 8 * PX 0 va := by
  unfold leafPte at h
  cases hn : node (next m) pt (vaPath va) with
  | none =>
    rw [hn] at h
    cases h
  | some p0 =>
    rw [hn, Option.map_some] at h
    exact ⟨p0, isPtPage_of_node (validPath_vaPath va) hn, (Option.some.inj h).symm⟩

theorem Zeroed.store_leaf {m : Mem} {va e v p : UInt64} (h : Zeroed m p) (ht : TreeOk m pt)
    (he : leafPte m pt va = some e) (hp : p.toNat % 4096 = 0) (hnpt : ¬ IsPtPage m pt p) :
    Zeroed (m.store64 e v) p := by
  obtain ⟨p0, hp0, rfl⟩ := leafPte_pt he
  intro b hb
  rw [Mem.store64_of_not_lt fun hbe =>
    entry_not_in_page (ht.aligned p0 hp0) hp (fun e => hnpt (e ▸ hp0)) (PX_lt 0 va) b hbe hb]
  exact h b hb

/-- The state after `kalloc` hands out the first free page `r` and `uvmalloc` zeroes it. -/
def took (s : VmState) (r : UInt64) (rest : List UInt64) : VmState :=
  { s with mem := s.mem.fill r 0 PGSIZE, freelist := rest }

section Took

variable {r : UInt64} {rest : List UInt64}

theorem sameTree_took (hs : Good s pt) (hf : s.freelist = r :: rest) :
    SameTree s.mem (took s r rest).mem pt :=
  sameTree_fill hs.tree (hs.free_aligned r (by simp [hf])) (hs.free_not_pt r (by simp [hf])) 0

/-- Taking the first free page off the list, with a write that keeps the table, keeps the
invariant. -/
theorem good_pop {m : Mem} (hs : Good s pt) (hf : s.freelist = r :: rest) (h : SameTree s.mem m pt) :
    Good { s with mem := m, freelist := rest } pt := by
  have hrest : ∀ p ∈ rest, p ∈ s.freelist := fun p hp => by simp [hf, hp]
  have hnd := hs.free_nodup
  rw [hf, List.nodup_cons] at hnd
  exact ⟨treeOk_of_sameTree h hs.tree, fun p hp => hs.free_aligned p (hrest p hp),
    fun p hp => hs.free_ne_zero p (hrest p hp), hnd.2,
    fun p hp hq => hs.free_not_pt p (hrest p hp) ((isPtPage_of_sameTree h p).1 hq),
    fun p hp hm => hs.free_not_mapped p (hrest p hp) ((isMapped_of_sameTree h p).1 hm),
    fun p hm hq => hs.mapped_not_pt p ((isMapped_of_sameTree h p).1 hm) ((isPtPage_of_sameTree h p).1 hq)⟩

theorem good_took (hs : Good s pt) (hf : s.freelist = r :: rest) : Good (took s r rest) pt :=
  good_pop hs hf (sameTree_took hs hf)

/-- After the page `r` taken off the free list is mapped at `a` with `perm`, the abstraction
is that of `s` updated on `a`'s page, the table has the pages of `s` and those `walk` took,
and `r` is neither. -/
theorem pop_map_facts {m : Mem} {s1 : VmState} {a e perm : UInt64} (hs : Good s pt)
    (hf : s.freelist = r :: rest) (hm : SameTree s.mem m pt)
    (g1 : Grows { s with mem := m, freelist := rest } s1 pt) (he : leafPte s1.mem pt a = some e)
    (hamax : a < MAXVA) (hperm : perm < 1024) :
    Good (mapped s1 e r perm) pt ∧
      (∀ va, va < MAXVA → lookup (mapped s1 e r perm).mem pt va =
        if va.toNat / 4096 = a.toNat / 4096 then some (r, perm ||| PTE_V) else lookup s.mem pt va) ∧
      (∀ q, IsPtPage (mapped s1 e r perm).mem pt q ↔ IsPtPage s.mem pt q ∨ (q ∈ rest ∧ q ∉ s1.freelist)) ∧
      (∀ q, IsPtPage s1.mem pt q ↔ IsPtPage s.mem pt q ∨ (q ∈ rest ∧ q ∉ s1.freelist)) ∧
      r ∉ s1.freelist ∧ ¬ IsPtPage s1.mem pt r := by
  have hr : r ∈ s.freelist := by simp [hf]
  have hra := hs.free_aligned r hr
  have hnd := hs.free_nodup
  rw [hf, List.nodup_cons] at hnd
  have hpt1 : ∀ q, IsPtPage s1.mem pt q ↔ IsPtPage s.mem pt q ∨ (q ∈ rest ∧ q ∉ s1.freelist) := by
    intro q
    rw [g1.pages, isPtPage_of_sameTree hm]
  have hnpt : ¬ IsPtPage s1.mem pt r := by
    rw [hpt1]
    rintro (h | ⟨h, -⟩)
    · exact hs.free_not_pt r hr h
    · exact hnd.1 h
  have hnfree : r ∉ s1.freelist := fun h => hnd.1 (g1.free_suffix.subset h)
  refine ⟨good_mapped g1.good he hra hperm hnpt hnfree, fun va hva => ?_, fun q => ?_, hpt1,
    hnfree, hnpt⟩
  · rw [lookup_mapped g1.good.tree hamax he hra hperm hva, g1.lookup_eq, lookup_of_sameTree hm]
  · rw [mapped, isPtPage_store_leaf g1.good.tree he, hpt1]

/-- After the page `r` is mapped at `a`, the abstraction is that of `s` updated on `a`'s
page, the table has the pages of `s` and those `walk` took, and `r` is neither. -/
theorem step_facts {s1 : VmState} {a e : UInt64} (hs : Good s pt) (hf : s.freelist = r :: rest)
    (g1 : Grows (took s r rest) s1 pt) (he : leafPte s1.mem pt a = some e) (hamax : a < MAXVA) :
    Good (mapped s1 e r uvmPerm) pt ∧
      (∀ va, va < MAXVA → lookup (mapped s1 e r uvmPerm).mem pt va =
        if va.toNat / 4096 = a.toNat / 4096 then some (r, uvmPerm ||| PTE_V) else lookup s.mem pt va) ∧
      (∀ q, IsPtPage (mapped s1 e r uvmPerm).mem pt q ↔ IsPtPage s.mem pt q ∨ (q ∈ rest ∧ q ∉ s1.freelist)) ∧
      r ∉ s1.freelist ∧ ¬ IsPtPage s1.mem pt r := by
  obtain ⟨hgood, hlook, hpt, -, hnfree, hnpt⟩ :=
    pop_map_facts hs hf (sameTree_took hs hf) g1 he hamax (show uvmPerm < 1024 by decide)
  exact ⟨hgood, hlook, hpt, hnfree, hnpt⟩

/-- A zeroed page outside the table and the free list stays zeroed through the step. -/
theorem step_zeroed {s1 : VmState} {a e p : UInt64} (hs : Good s pt) (hf : s.freelist = r :: rest)
    (g1 : Grows (took s r rest) s1 pt) (he : leafPte s1.mem pt a = some e)
    (hp : p.toNat % 4096 = 0) (hpt : ¬ IsPtPage s.mem pt p) (hpf : p ∉ s.freelist)
    (hz : Zeroed s.mem p) : Zeroed (mapped s1 e r uvmPerm).mem p := by
  have hsame := sameTree_took hs hf
  have hr : r ∈ s.freelist := by simp [hf]
  have hnpt1 : ¬ IsPtPage s1.mem pt p := by
    rw [g1.pages, isPtPage_of_sameTree hsame]
    rintro (h | ⟨h, -⟩)
    · exact hpt h
    · exact hpf (by rw [hf]; exact List.mem_cons_of_mem r h)
  have hz1 := (hz.fill hp (hs.free_aligned r hr) (fun e => hpf (e ▸ hr)) 0).of_grows g1 hp hnpt1
  exact hz1.store_leaf g1.good.tree he hp hnpt1

/-- The page just handed out and zeroed stays zeroed through `mappages`. -/
theorem step_zeroed_new {s1 : VmState} {a e : UInt64} (hs : Good s pt) (hf : s.freelist = r :: rest)
    (g1 : Grows (took s r rest) s1 pt) (he : leafPte s1.mem pt a = some e)
    (hnpt : ¬ IsPtPage s1.mem pt r) : Zeroed (mapped s1 e r uvmPerm).mem r := by
  have hra := hs.free_aligned r (by simp [hf])
  exact ((zeroed_fill_self s.mem r).of_grows g1 hra hnpt).store_leaf g1.good.tree he hra hnpt

end Took

end Step

/-! ## The invariant of the loop -/

/-- The loop of `uvmalloc` from `s₀` after mapping the pages of `[a₀, a)`: the table
satisfies the invariant; each of those pages is mapped with `uvmPerm` to a zeroed page
taken from the free list of `s₀`, no two to the same page, and every other page is as
in `s₀`; the free list is what is left of that of `s₀`, at least one page and at most
three shorter for each page mapped; the table has the pages of `s₀` and some taken from
its free list; and every page taken is a page of the table or one of the pages mapped. -/
structure Grew (s₀ s : VmState) (pt a₀ a : UInt64) : Prop where
  good : Good s pt
  kernelEnd : s.kernelEnd = s₀.kernelEnd
  le : a₀.toNat ≤ a.toNat
  start_aligned : a₀.toNat % 4096 = 0
  aligned : a.toNat % 4096 = 0
  suffix : s.freelist <:+ s₀.freelist
  counted : s.freelist.length + (a.toNat - a₀.toNat) / 4096 ≤ s₀.freelist.length
  bounded : s₀.freelist.length ≤ s.freelist.length + 3 * ((a.toNat - a₀.toNat) / 4096)
  fresh : ∀ va, a₀.toNat ≤ va.toNat → va.toNat < a.toNat → ∃ p,
    lookup s.mem pt va = some (p, uvmPerm ||| PTE_V) ∧ p ∈ s₀.freelist ∧ p ∉ s.freelist ∧
      Zeroed s.mem p
  inj : ∀ va va' p fl fl', a₀.toNat ≤ va.toNat → va.toNat < a.toNat → a₀.toNat ≤ va'.toNat →
    va'.toNat < a.toNat → lookup s.mem pt va = some (p, fl) → lookup s.mem pt va' = some (p, fl') →
    va.toNat / 4096 = va'.toNat / 4096
  other : ∀ va, va < MAXVA → ¬ (a₀.toNat ≤ va.toNat ∧ va.toNat < a.toNat) →
    lookup s.mem pt va = lookup s₀.mem pt va
  pt_new : ∀ q, IsPtPage s.mem pt q → IsPtPage s₀.mem pt q ∨ (q ∈ s₀.freelist ∧ q ∉ s.freelist)
  pt_old : ∀ q, IsPtPage s₀.mem pt q → IsPtPage s.mem pt q
  taken : ∀ q ∈ s₀.freelist, q ∉ s.freelist → IsPtPage s.mem pt q ∨
    ∃ va fl, a₀.toNat ≤ va.toNat ∧ va.toNat < a.toNat ∧ lookup s.mem pt va = some (q, fl)

section Grew

variable {s₀ s s1 : VmState} {pt a₀ a r e : UInt64} {rest : List UInt64}

theorem Grew.init (hs : Good s₀ pt) (ha : a₀.toNat % 4096 = 0) : Grew s₀ s₀ pt a₀ a₀ where
  good := hs
  kernelEnd := rfl
  le := le_refl _
  start_aligned := ha
  aligned := ha
  suffix := List.suffix_refl _
  counted := by simp
  bounded := by simp
  fresh _ h1 h2 := absurd (lt_of_le_of_lt h1 h2) (lt_irrefl _)
  inj _ _ _ _ _ h1 h2 := absurd (lt_of_le_of_lt h1 h2) (lt_irrefl _)
  other _ _ _ := rfl
  pt_new q h := Or.inl h
  pt_old _ h := h
  taken _ h h' := absurd h h'

/-- One iteration that maps the page `r` it took at `a`, whose page was unmapped, keeps
the invariant one page on. -/
theorem Grew.step (hg : Grew s₀ s pt a₀ a) (hamax : a.toNat + 4096 ≤ 2 ^ 38)
    (hf : s.freelist = r :: rest)
    (g1 : Grows (took s r rest) s1 pt) (he : leafPte s1.mem pt a = some e)
    (hlen : rest.length ≤ s1.freelist.length + 2) :
    Grew s₀ (mapped s1 e r uvmPerm) pt a₀ (a + PGSIZE) := by
  have hs := hg.good
  have hamax' : a < MAXVA := UInt64.lt_iff_toNat_lt.2 (by rw [MAXVA_toNat]; omega)
  obtain ⟨hgood, hlook, hpt, hrfree, hrpt⟩ := step_facts hs hf g1 he hamax'
  have ha' : (a + PGSIZE).toNat = a.toNat + 4096 := by
    rw [UInt64.toNat_add, PGSIZE_toNat]
    omega
  have hr : r ∈ s.freelist := by simp [hf]
  have hr₀ : r ∈ s₀.freelist := hg.suffix.subset hr
  have hsuf1 : s1.freelist <:+ s.freelist :=
    g1.free_suffix.trans (by rw [hf]; exact List.suffix_cons r rest)
  have hlen1 : s.freelist.length = rest.length + 1 := by rw [hf, List.length_cons]
  have hend : s1.kernelEnd = s.kernelEnd := g1.kernelEnd
  have hal := hg.aligned
  -- a page of `[a₀, a)` is not `a`'s page
  have hbelow : ∀ va : UInt64, va.toNat < a.toNat → va.toNat / 4096 ≠ a.toNat / 4096 := by
    intro va hva
    omega
  -- the pages mapped before are not `r`, which was free
  have hold : ∀ va p fl : UInt64, a₀.toNat ≤ va.toNat → va.toNat < a.toNat →
      lookup s.mem pt va = some (p, fl) → p ∉ s.freelist := by
    intro va p fl h1 h2 hl hp
    exact hs.free_not_mapped p hp ⟨va, fl, hl⟩
  have hvamax : ∀ va : UInt64, va.toNat < a.toNat + 4096 → va < MAXVA := fun va h =>
    UInt64.lt_iff_toNat_lt.2 (by rw [MAXVA_toNat]; omega)
  have hal₀ := hg.start_aligned
  have hrest1 : s1.freelist.length ≤ rest.length := g1.free_suffix.length_le
  refine ⟨hgood, hend.trans hg.kernelEnd, ?_, hal₀, ?_, hsuf1.trans hg.suffix, ?_, ?_,
    fun va h1 h2 => ?_,
    fun va va' p fl fl' h1 h2 h3 h4 hl hl' => ?_, fun va hva hout => ?_, fun q hq => ?_,
    fun q hq => ?_, fun q hq hq' => ?_⟩
  · rw [ha']
    exact Nat.le_add_right_of_le hg.le
  · rw [ha']
    omega
  · -- one page more mapped, one page fewer free
    have hk := hg.counted
    have hsub : (a.toNat + 4096 - a₀.toNat) / 4096 = (a.toNat - a₀.toNat) / 4096 + 1 := by
      have := hg.le
      omega
    show s1.freelist.length + ((a + PGSIZE).toNat - a₀.toNat) / 4096 ≤ s₀.freelist.length
    rw [ha', hsub]
    omega
  · -- and at most three fewer: `r` and what `walk` took
    have hk := hg.bounded
    have hsub : (a.toNat + 4096 - a₀.toNat) / 4096 = (a.toNat - a₀.toNat) / 4096 + 1 := by
      have := hg.le
      omega
    show s₀.freelist.length ≤ s1.freelist.length + 3 * (((a + PGSIZE).toNat - a₀.toNat) / 4096)
    rw [ha', hsub]
    omega
  · -- a page mapped by this iteration or by an earlier one
    rw [ha'] at h2
    rw [hlook va (hvamax va h2)]
    by_cases hpage : va.toNat / 4096 = a.toNat / 4096
    · rw [if_pos hpage]
      exact ⟨r, rfl, hr₀, hrfree, step_zeroed_new hs hf g1 he hrpt⟩
    · rw [if_neg hpage]
      have hva : va.toNat < a.toNat := by omega
      obtain ⟨p, hl, hp₀, hpf, hz⟩ := hg.fresh va h1 hva
      refine ⟨p, hl, hp₀, fun h => hpf (hsuf1.subset h), ?_⟩
      exact step_zeroed hs hf g1 he (lookup_aligned hl)
        (hs.mapped_not_pt p ⟨va, _, hl⟩) hpf hz
  · rw [ha'] at h2 h4
    rw [hlook va (hvamax va h2)] at hl
    rw [hlook va' (hvamax va' h4)] at hl'
    by_cases hp1 : va.toNat / 4096 = a.toNat / 4096 <;>
      by_cases hp2 : va'.toNat / 4096 = a.toNat / 4096
    · omega
    · -- `r` against a page mapped before: impossible, `r` was free
      rw [if_pos hp1] at hl
      rw [if_neg hp2] at hl'
      cases (Prod.mk.inj (Option.some.inj hl)).1
      exact absurd hr (hold va' r fl' h3 (by omega) hl')
    · rw [if_neg hp1] at hl
      rw [if_pos hp2] at hl'
      cases (Prod.mk.inj (Option.some.inj hl')).1
      exact absurd hr (hold va r fl h1 (by omega) hl)
    · rw [if_neg hp1] at hl
      rw [if_neg hp2] at hl'
      exact hg.inj va va' p fl fl' h1 (by omega) h3 (by omega) hl hl'
  · rw [ha'] at hout
    have hle := hg.le
    have hne : va.toNat / 4096 ≠ a.toNat / 4096 := by omega
    rw [hlook va hva, if_neg hne]
    exact hg.other va hva (by omega)
  · rcases (hpt q).1 hq with h | ⟨h, h'⟩
    · rcases hg.pt_new q h with h | ⟨h, h''⟩
      · exact Or.inl h
      · exact Or.inr ⟨h, fun h''' => h'' (hsuf1.subset h''')⟩
    · exact Or.inr ⟨hg.suffix.subset (by rw [hf]; exact List.mem_cons_of_mem r h), h'⟩
  · exact (hpt q).2 (Or.inl (hg.pt_old q hq))
  · -- a page taken: in this iteration, `r` or a page of the table; or before
    by_cases hqs : q ∈ s.freelist
    · rw [hf, List.mem_cons] at hqs
      rcases hqs with rfl | hqr
      · refine Or.inr ⟨a, uvmPerm ||| PTE_V, hg.le, by rw [ha']; omega, ?_⟩
        rw [hlook a hamax', if_pos rfl]
      · exact Or.inl ((hpt q).2 (Or.inr ⟨hqr, hq'⟩))
    · rcases hg.taken q hq hqs with h | ⟨va, fl, h1, h2, hl⟩
      · exact Or.inl ((hpt q).2 (Or.inl h))
      · refine Or.inr ⟨va, fl, h1, by rw [ha']; omega, ?_⟩
        rw [hlook va (hvamax va (by omega)), if_neg (hbelow va h2), hl]

end Grew

/-! ## The loop of `uvmalloc` -/

section Loop

variable {s s1 : VmState} {pt a₀ newsz a : UInt64} {fuel : ℕ}

theorem uvmallocLoop_done (h : ¬ a < newsz) :
    (uvmallocLoop pt a₀ newsz (fuel + 1) a).run s = .ok (newsz, s) := by
  simp [uvmallocLoop, h]
  rfl

theorem uvmallocLoop_nomem (h : a < newsz) (hf : s.freelist = []) :
    (uvmallocLoop pt a₀ newsz (fuel + 1) a).run s =
      (uvmdealloc pt a a₀ >>= fun _ => pure 0).run s := by
  simp [uvmallocLoop, h, kalloc, hf]

theorem uvmallocLoop_mapfail {r : UInt64} {rest : List UInt64} (h : a < newsz)
    (hf : s.freelist = r :: rest) (hr : r ≠ 0)
    (hm : (mappages pt a PGSIZE r uvmPerm).run (took s r rest) = .ok (-1, s1)) :
    (uvmallocLoop pt a₀ newsz (fuel + 1) a).run s =
      (kfree r >>= fun _ => uvmdealloc pt a a₀ >>= fun _ => pure 0).run s1 := by
  have hm' : (mappages pt a PGSIZE r (PTE_W ||| PTE_X ||| PTE_R ||| PTE_U)).run
      { s with mem := s.mem.fill r 0 PGSIZE, freelist := rest } = .ok (-1, s1) := hm
  simp [uvmallocLoop, h, kalloc, hf, hr, Mem.fill_fill, hm', StateExcept.ok_bind]

theorem uvmallocLoop_step {r : UInt64} {rest : List UInt64} (h : a < newsz)
    (hf : s.freelist = r :: rest) (hr : r ≠ 0)
    (hm : (mappages pt a PGSIZE r uvmPerm).run (took s r rest) = .ok (0, s1)) :
    (uvmallocLoop pt a₀ newsz (fuel + 1) a).run s =
      (uvmallocLoop pt a₀ newsz fuel (a + PGSIZE)).run s1 := by
  have hm' : (mappages pt a PGSIZE r (PTE_W ||| PTE_X ||| PTE_R ||| PTE_U)).run
      { s with mem := s.mem.fill r 0 PGSIZE, freelist := rest } = .ok (0, s1) := hm
  simp [uvmallocLoop, h, kalloc, hf, hr, Mem.fill_fill, hm', StateExcept.ok_bind]

end Loop

/-! ## `growproc` and `sbrk`

`growproc` works on a `uint` copy of `p->sz` and adds the `int` `n` to it in `uint`. A
shrink by more than the size wraps to a size above it, and `uvmdealloc` leaves a process
alone when asked to grow: the call succeeds and changes nothing. -/

section Sbrk

/-- An `int` passed in a register is sign-extended; `argint` reads it back. -/
theorem toUInt32_toInt32_of_toInt64 (n : Int32) : n.toInt64.toUInt64.toUInt32.toInt32 = n := by
  apply Int32.toBitVec_inj.mp
  simp only [UInt32.toBitVec_toInt32, UInt64.toBitVec_toUInt32, Int64.toBitVec_toUInt64,
    Int32.toBitVec_toInt64]
  apply BitVec.eq_of_toNat_eq
  rw [BitVec.toNat_setWidth, BitVec.toNat_signExtend, BitVec.toNat_setWidth]
  have := n.toBitVec.isLt
  split <;> omega

theorem toUInt32_toNat_of_neg {n : Int32} (h : n < 0) : (n.toUInt32.toNat : Int) = n.toInt + 2 ^ 32 := by
  have h1 : n.toInt < 0 := Int32.lt_iff_toInt_lt.1 h
  rw [← Int32.toNat_toBitVec]
  have h2 : n.toInt = n.toBitVec.toInt := rfl
  rw [h2, BitVec.toInt_eq_toNat_cond] at h1 ⊢
  have := n.toBitVec.isLt
  split_ifs at h1 ⊢ with hc <;> omega

/-- A `uint64` below `2^31` survives the trip through `int` and back, as the page count of
`uvmdealloc` and the `addr` of `sys_sbrk` make it. -/
theorem toInt32_toUInt64_of_lt {x : UInt64} (h : x.toNat < 2 ^ 31) :
    x.toUInt32.toInt32.toInt64.toUInt64 = x := by
  apply UInt64.toBitVec_inj.mp
  simp only [Int64.toBitVec_toUInt64, Int32.toBitVec_toInt64, UInt32.toBitVec_toInt32,
    UInt64.toBitVec_toUInt32]
  have h' : x.toBitVec.toNat < 2 ^ 31 := h
  have hmsb : (x.toBitVec.setWidth 32).msb = false := by
    rw [BitVec.msb_eq_false_iff_two_mul_lt, BitVec.toNat_setWidth]
    omega
  rw [BitVec.signExtend_eq_setWidth_of_msb_false hmsb]
  apply BitVec.eq_of_toNat_eq
  simp only [BitVec.toNat_setWidth]
  omega

theorem uvmdealloc_of_le {s : VmState} {pt oldsz newsz : UInt64} (h : oldsz ≤ newsz) :
    (uvmdealloc pt oldsz newsz).run s = .ok (oldsz, s) := by
  simp [uvmdealloc, h]
  rfl

/-- `growproc(n)` with `sz + n < 0` returns 0 and keeps `p->sz` and the whole state, and
`sbrk(n)` returns the old size as for a shrink that happened. -/
theorem sbrk_below_zero_changes_nothing (s : VmState) (pagetable psz : UInt64) (n : Int32)
    (h : (psz.toNat : Int) + n.toInt < 0) :
    (growproc pagetable psz n).run s = .ok ((0, psz), s) ∧
      (sys_sbrk pagetable psz n.toInt64.toUInt64).run s = .ok ((psz, psz), s) := by
  have hn : n < 0 := Int32.lt_iff_toInt_lt.2 (by simp; omega)
  have hlow := Int32.le_toInt n
  have hpsz : psz.toNat < 2 ^ 31 := by omega
  have hsz : psz.toUInt32.toUInt64 = psz := UInt64.toNat_inj.mp (by simp; omega)
  have hun := toUInt32_toNat_of_neg hn
  -- `sz + n` wraps in `uint` to a size above `sz`, which `uvmdealloc` leaves alone
  have hge : psz.toUInt32.toUInt64 ≤ (psz.toUInt32 + n.toUInt32).toUInt64 := by
    rw [UInt64.le_iff_toNat_le]
    simp only [UInt32.toNat_toUInt64, UInt32.toNat_add, UInt64.toNat_toUInt32]
    omega
  have hgrow : (growproc pagetable psz n).run s = .ok ((0, psz), s) := by
    have hnpos : ¬ 0 < n := fun h' => by
      rw [Int32.lt_iff_toInt_lt] at h' hn
      simp at h' hn
      omega
    simp only [growproc, if_neg hnpos, if_pos hn, StateT.run_bind]
    rw [uvmdealloc_of_le hge, StateExcept.ok_bind, hsz]
    simp only [hsz]
    rfl
  refine ⟨hgrow, ?_⟩
  have hr : ¬ (0 : Int32) < 0 := by decide
  simp only [sys_sbrk, toUInt32_toInt32_of_toInt64, StateT.run_bind, hgrow, StateExcept.ok_bind,
    if_neg hr, toInt32_toUInt64_of_lt hpsz]
  rfl

theorem sbrk_below_zero_changes_nothing_at_one_page :
    ((4096 : UInt64).toNat : Int) + (-8192 : Int32).toInt < 0 ∧
      (growproc 0x87fff000 4096 (-8192)).run ⟨fun _ => 0, [], 0x80020000⟩ =
        .ok ((0, 4096), ⟨fun _ => 0, [], 0x80020000⟩) ∧
      (sys_sbrk 0x87fff000 4096 (-8192 : Int32).toInt64.toUInt64).run ⟨fun _ => 0, [], 0x80020000⟩ =
        .ok ((4096, 4096), ⟨fun _ => 0, [], 0x80020000⟩) :=
  ⟨by decide, sbrk_below_zero_changes_nothing _ 0x87fff000 4096 (-8192) (by decide)⟩

end Sbrk

/-! ## Giving up

When the free list runs out, the loop unmaps and frees what it mapped with
`uvmdealloc(pagetable, a, oldsz)`, `oldsz` already rounded up. -/

section Rollback

variable {s₀ s s1 : VmState} {pt oldsz a₀ a : UInt64}

/-- The loop never gets past the pages of RAM: each page it mapped came off the free list,
and the user pages and the free pages of `s₀` are distinct pages below `PHYSTOP`. -/
theorem Grew.room (hsp : AddrSpace s₀ pt oldsz) (hg : Grew s₀ s pt (PGROUNDUP oldsz) a) :
    a.toNat + 4096 * s.freelist.length ≤ PHYSTOP.toNat := by
  have hroom := hsp.room
  have hk := hg.counted
  have hle := hg.le
  have h1 := hg.start_aligned
  have h2 := hg.aligned
  rw [PHYSTOP_toNat] at hroom ⊢
  omega

/-- What a failed `uvmalloc` leaves: every page mapped as in `s₀`, the free list within
that of `s₀`, and every page taken off it a page of the table. -/
structure RolledBack (s₀ s : VmState) (pt : UInt64) : Prop where
  lookup_eq : ∀ va, va < MAXVA → lookup s.mem pt va = lookup s₀.mem pt va
  free_sub : ∀ q ∈ s.freelist, q ∈ s₀.freelist
  taken_pt : ∀ q ∈ s₀.freelist, q ∉ s.freelist → IsPtPage s.mem pt q

/-- A state the loop gives up in: the pages of `[a₀, a)` mapped by leaves to pages taken
off the free list of `s₀`, every other page as in `s₀`, the free list within that of
`s₀`, and every page taken off it a page of the table or one of those mapped. -/
structure Partial (s₀ s : VmState) (pt a₀ a : UInt64) : Prop where
  table : TableOk s.mem pt
  kernelEnd : s.kernelEnd = s₀.kernelEnd
  le : a₀.toNat ≤ a.toNat
  start_aligned : a₀.toNat % 4096 = 0
  aligned : a.toNat % 4096 = 0
  below : a.toNat ≤ PHYSTOP.toNat
  mapped : ∀ va, a₀.toNat ≤ va.toNat → va.toNat < a.toNat → ∃ p fl,
    lookup s.mem pt va = some (p, fl) ∧ fl ≠ PTE_V ∧ p ∈ s₀.freelist
  other : ∀ va, va < MAXVA → ¬ (a₀.toNat ≤ va.toNat ∧ va.toNat < a.toNat) →
    lookup s.mem pt va = lookup s₀.mem pt va
  free_sub : ∀ q ∈ s.freelist, q ∈ s₀.freelist
  taken : ∀ q ∈ s₀.freelist, q ∉ s.freelist → IsPtPage s.mem pt q ∨
    ∃ va fl, a₀.toNat ≤ va.toNat ∧ va.toNat < a.toNat ∧ lookup s.mem pt va = some (q, fl)

theorem uvmPerm_ne : uvmPerm ||| PTE_V ≠ PTE_V := by decide

theorem Grew.toPartial (hsp : AddrSpace s₀ pt oldsz) (hg : Grew s₀ s pt (PGROUNDUP oldsz) a) :
    Partial s₀ s pt (PGROUNDUP oldsz) a where
  table := hg.good.tableOk
  kernelEnd := hg.kernelEnd
  le := hg.le
  start_aligned := hg.start_aligned
  aligned := hg.aligned
  below := by
    have := hg.room hsp
    omega
  mapped va h1 h2 := by
    obtain ⟨p, hl, hp, -, -⟩ := hg.fresh va h1 h2
    exact ⟨p, _, hl, uvmPerm_ne, hp⟩
  other := hg.other
  free_sub q hq := hg.suffix.subset hq
  taken := hg.taken

/-- `kfree` of a page that is neither a page of the table nor mapped keeps the table. -/
theorem kfree_sameTree {p : UInt64} (ht : TableOk s.mem pt) (hp : p.toNat % 4096 = 0)
    (hnpt : ¬ IsPtPage s.mem pt p) (hlo : s.kernelEnd ≤ p) (hhi : p < PHYSTOP) :
    ∃ s1, (kfree p).run s = .ok ((), s1) ∧ SameTree s.mem s1.mem pt ∧
      s1.kernelEnd = s.kernelEnd ∧ s1.freelist = p :: s.freelist := by
  have h1 := sameTree_fill ht.tree hp hnpt 1
  have h2 := sameTree_store (a := p) (v := s.freelist.headD 0) (treeOk_of_sameTree h1 ht.tree) hp
    (fun h => hnpt ((isPtPage_of_sameTree h1 p).1 h))
    (fun b hb => by
      rw [UInt64.lt_iff_toNat_lt] at hb ⊢
      simp only [PGSIZE_toNat, UInt64.reduceToNat] at *
      omega)
  exact ⟨_, kfree_run ((aligned_toNat_iff p).2 hp) hlo hhi, h1.trans h2, rfl, rfl⟩

theorem PGROUNDUP_of_aligned {a : UInt64} (ha : a.toNat % 4096 = 0) (hlt : a.toNat ≤ 2 ^ 38) :
    PGROUNDUP a = a := by
  apply UInt64.toNat_inj.mp
  rw [PGROUNDUP_toNat a (by omega)]
  omega

/-- `uvmdealloc` that shrinks by whole pages: the `uvmunmap` of the pages in between. -/
theorem uvmdealloc_run_of_lt {oldsz newsz : UInt64} {s' : VmState} (h : newsz < oldsz)
    (hround : PGROUNDUP newsz < PGROUNDUP oldsz)
    (hu : (uvmunmap pt (PGROUNDUP newsz)
      ((PGROUNDUP oldsz - PGROUNDUP newsz) / PGSIZE).toUInt32.toInt32.toInt64.toUInt64 true).run s =
        .ok ((), s')) :
    (uvmdealloc pt oldsz newsz).run s = .ok (newsz, s') := by
  have hge : ¬ newsz ≥ oldsz := UInt64.not_le.2 h
  simp only [uvmdealloc, hge, if_false, hround, if_true, StateT.run_bind, hu, StateExcept.ok_bind]
  rfl

/-- `uvmdealloc` within one page changes nothing. -/
theorem uvmdealloc_run_same_page {oldsz newsz : UInt64} (h : newsz < oldsz)
    (hround : ¬ PGROUNDUP newsz < PGROUNDUP oldsz) :
    (uvmdealloc pt oldsz newsz).run s = .ok (newsz, s) := by
  have hge : ¬ newsz ≥ oldsz := UInt64.not_le.2 h
  simp only [uvmdealloc, hge, if_false, hround]
  rfl

/-- The page count of a shrink below `2^38` fits in the `int` it passes through. -/
theorem npages_of_lt {lo hi : UInt64} (hle : lo.toNat ≤ hi.toNat) (hhi : hi.toNat ≤ 2 ^ 38) :
    ((hi - lo) / PGSIZE).toUInt32.toInt32.toInt64.toUInt64 = (hi - lo) / PGSIZE ∧
      ((hi - lo) / PGSIZE).toNat = (hi.toNat - lo.toNat) / 4096 := by
  have hn : ((hi - lo) / PGSIZE).toNat = (hi.toNat - lo.toNat) / 4096 := by
    rw [UInt64.toNat_div, UInt64.toNat_sub_of_le _ _ (UInt64.le_iff_toNat_le.2 hle), PGSIZE_toNat]
  exact ⟨toInt32_toUInt64_of_lt (by omega), hn⟩

/-- Rolling back from a state the loop gives up in unmaps and frees the pages it mapped:
what is left is as in `s₀` but for the pages of the table that `walk` added. -/
theorem rollback_spec (hsp : AddrSpace s₀ pt oldsz) (ha₀ : PGROUNDUP oldsz = a₀)
    (hp : Partial s₀ s pt a₀ a) :
    ∃ s', (uvmdealloc pt a a₀).run s = .ok (a₀, s') ∧ RolledBack s₀ s' pt := by
  have hb := hp.below
  have hle := hp.le
  have ha₀a := hp.start_aligned
  have haa := hp.aligned
  rw [PHYSTOP_toNat] at hb
  have htrap : ∀ va : UInt64, va.toNat < a.toNat → va < TRAPFRAME := fun va h =>
    UInt64.lt_iff_toNat_lt.2 (by rw [TRAPFRAME_toNat]; omega)
  have hmax : ∀ va : UInt64, va.toNat < a.toNat → va < MAXVA := fun va h =>
    UInt64.lt_iff_toNat_lt.2 (by rw [MAXVA_toNat]; omega)
  by_cases heq : a.toNat = a₀.toNat
  · -- nothing was mapped: `uvmdealloc` returns at once
    have ha : a = a₀ := UInt64.toNat_inj.mp heq
    subst ha
    refine ⟨s, uvmdealloc_of_le (UInt64.le_refl a), fun va hva => hp.other va hva (by omega),
      hp.free_sub, fun q hq hq' => ?_⟩
    rcases hp.taken q hq hq' with h | ⟨va, fl, h1, h2, -⟩
    · exact h
    · omega
  · have hlt : a₀ < a := UInt64.lt_iff_toNat_lt.2 (by omega)
    have hround : PGROUNDUP a₀ < PGROUNDUP a := by
      rw [PGROUNDUP_of_aligned ha₀a (by omega), PGROUNDUP_of_aligned haa (by omega)]
      exact hlt
    obtain ⟨hconv, hn⟩ := npages_of_lt hle (by omega)
    have hargs : UnmapArgs s pt a₀ ((a - a₀) / PGSIZE) true := by
      refine ⟨ha₀a, by rw [hn]; omega, fun va h1 h2 => ?_⟩
      rw [hn] at h2
      obtain ⟨p, fl, hl, hfl, hp₀⟩ := hp.mapped va h1 (by omega)
      have hram := hsp.free_ram p hp₀
      exact ⟨p, fl, hl, hfl, fun _ => by rw [hp.kernelEnd]; exact hram⟩
    obtain ⟨s', hrun, ⟨-, -, hlook, hfree⟩, hpt⟩ := uvmunmap_unmaps hp.table hargs
    have hbound : (a₀ + (a - a₀) / PGSIZE * PGSIZE).toNat = a.toNat := by
      rw [UInt64.toNat_add, UInt64.toNat_mul, hn, PGSIZE_toNat]
      omega
    rw [hbound] at hlook hfree
    refine ⟨s', uvmdealloc_run_of_lt hlt hround ?_, fun va hva => ?_, fun q hq => ?_,
      fun q hq hq' => ?_⟩
    · rw [PGROUNDUP_of_aligned ha₀a (by omega), PGROUNDUP_of_aligned haa (by omega), hconv]
      exact hrun
    · rw [hlook va hva]
      split_ifs with hin
      · -- a page mapped by the loop: unmapped again, as it was in `s₀`
        rw [hsp.above va (by rw [ha₀]; exact hin.1) (htrap va hin.2)]
      · exact hp.other va hva hin
    · rcases (hfree q).1 hq with h | ⟨-, va, h1, h2, fl, hl⟩
      · exact hp.free_sub q h
      · obtain ⟨p, fl', hl', -, hp₀⟩ := hp.mapped va h1 h2
        rw [hl'] at hl
        cases hl
        exact hp₀
    · have hqs : q ∉ s.freelist := fun h => hq' ((hfree q).2 (Or.inl h))
      rcases hp.taken q hq hqs with h | ⟨va, fl, h1, h2, hl⟩
      · exact (hpt q).2 h
      · exact absurd ((hfree q).2 (Or.inr ⟨rfl, va, h1, h2, fl, hl⟩)) hq'

/-- Where `mappages` fails after `kalloc` handed out `r`, `kfree(r)` gives back a state the
loop gives up in. -/
theorem mapfail_partial {r : UInt64} {rest : List UInt64} (hsp : AddrSpace s₀ pt oldsz)
    (hg : Grew s₀ s pt (PGROUNDUP oldsz) a) (hf : s.freelist = r :: rest)
    (g1 : Grows (took s r rest) s1 pt) :
    ∃ s2, (kfree r).run s1 = .ok ((), s2) ∧ Partial s₀ s2 pt (PGROUNDUP oldsz) a := by
  have hs := hg.good
  have hr : r ∈ s.freelist := by simp [hf]
  have hr₀ : r ∈ s₀.freelist := hg.suffix.subset hr
  have hsame := sameTree_took hs hf
  have hnd := hs.free_nodup
  rw [hf, List.nodup_cons] at hnd
  -- `r` is not a page of the table: it was free, and `walk` took its pages from `rest`
  have hnpt : ¬ IsPtPage s1.mem pt r := by
    rw [g1.pages, isPtPage_of_sameTree hsame]
    rintro (h | ⟨h, -⟩)
    · exact hs.free_not_pt r hr h
    · exact hnd.1 h
  have hram := hsp.free_ram r hr₀
  have hend1 : s1.kernelEnd = s₀.kernelEnd := g1.kernelEnd.trans hg.kernelEnd
  obtain ⟨s2, hk, hsame2, hend2, hfree2⟩ := kfree_sameTree g1.good.tableOk
    (hs.free_aligned r hr) hnpt (by rw [hend1]; exact hram.1) hram.2
  have hlook : ∀ va, lookup s2.mem pt va = lookup s.mem pt va := fun va => by
    rw [lookup_of_sameTree hsame2, g1.lookup_eq, lookup_of_sameTree hsame]
  have hpt2 : ∀ q, IsPtPage s.mem pt q → IsPtPage s2.mem pt q := fun q hq => by
    rw [isPtPage_of_sameTree hsame2, g1.pages, isPtPage_of_sameTree hsame]
    exact Or.inl hq
  have hsub1 : ∀ q ∈ s1.freelist, q ∈ rest := fun q hq => g1.free_suffix.subset hq
  refine ⟨s2, hk, {
    table := tableOk_of_sameTree hsame2 g1.good.tableOk
    kernelEnd := hend2.trans hend1
    le := hg.le
    start_aligned := hg.start_aligned
    aligned := hg.aligned
    below := by
      have := hg.room hsp
      omega
    mapped := fun va h1 h2 => ?_
    other := fun va hva hout => by rw [hlook va, hg.other va hva hout]
    free_sub := fun q hq => ?_
    taken := fun q hq hq' => ?_ }⟩
  · obtain ⟨p, hl, hp, -, -⟩ := hg.fresh va h1 h2
    exact ⟨p, _, by rw [hlook va, hl], uvmPerm_ne, hp⟩
  · rw [hfree2, List.mem_cons] at hq
    rcases hq with rfl | hq
    · exact hr₀
    · exact hg.suffix.subset (by rw [hf]; exact List.mem_cons_of_mem r (hsub1 q hq))
  · rw [hfree2, List.mem_cons, not_or] at hq'
    by_cases hqs : q ∈ s.freelist
    · -- taken by `walk` for the table
      rw [hf, List.mem_cons] at hqs
      have hqr : q ∈ rest := hqs.resolve_left hq'.1
      rw [isPtPage_of_sameTree hsame2, g1.pages]
      exact Or.inl (Or.inr ⟨hqr, hq'.2⟩)
    · rcases hg.taken q hq hqs with h | ⟨va, fl, h1, h2, hl⟩
      · exact Or.inl (hpt2 q h)
      · exact Or.inr ⟨va, fl, h1, h2, by rw [hlook va, hl]⟩

end Rollback

/-! ## The loop and the calls -/

section Calls

variable {s₀ : VmState} {pt oldsz newsz : UInt64}

/-- The loop of `uvmalloc`, by induction on the iterations left, with more of them than
free pages: it maps every page up to the first aligned address past `newsz`, or gives up
with everything as it was but for the pages of the table, which needs at most three free
pages per page to map. -/
theorem uvmallocLoop_spec (hsp : AddrSpace s₀ pt oldsz) :
    ∀ fuel s a, Grew s₀ s pt (PGROUNDUP oldsz) a → s.freelist.length < fuel →
      a.toNat < newsz.toNat + 4096 →
      (∃ s' a', (uvmallocLoop pt (PGROUNDUP oldsz) newsz fuel a).run s = .ok (newsz, s') ∧
          Grew s₀ s' pt (PGROUNDUP oldsz) a' ∧ newsz.toNat ≤ a'.toNat ∧
          a'.toNat < newsz.toNat + 4096) ∨
        (∃ s', (uvmallocLoop pt (PGROUNDUP oldsz) newsz fuel a).run s = .ok (0, s') ∧
          RolledBack s₀ s' pt ∧
          s₀.freelist.length ≤
            3 * (((newsz.toNat + 4095) / 4096 * 4096 - (PGROUNDUP oldsz).toNat) / 4096)) := by
  intro fuel
  induction fuel with
  | zero => intro s a _ hfuel; omega
  | succ fuel ih =>
    intro s a hg hfuel hnew
    have hs := hg.good
    have hroom := hg.room hsp
    have hal := hg.aligned
    have hle := hg.le
    have hbounded := hg.bounded
    rw [PHYSTOP_toNat] at hroom
    by_cases hlt : a < newsz
    case neg =>
      -- past `newsz`: the loop is done
      have hge := UInt64.not_lt.1 hlt
      rw [UInt64.le_iff_toNat_le] at hge
      exact .inl ⟨s, a, uvmallocLoop_done hlt, hg, hge, hnew⟩
    case pos =>
      have hlt' := UInt64.lt_iff_toNat_lt.1 hlt
      -- the page at `a` is one of those to map
      have hpages : (a.toNat + 4096 - (PGROUNDUP oldsz).toNat) / 4096 ≤
          ((newsz.toNat + 4095) / 4096 * 4096 - (PGROUNDUP oldsz).toNat) / 4096 := by
        omega
      cases hf : s.freelist with
      | nil =>
        -- `kalloc` finds the free list empty
        obtain ⟨s', hrun, hrb⟩ := rollback_spec hsp rfl (hg.toPartial hsp)
        refine .inr ⟨s', ?_, hrb, ?_⟩
        · rw [uvmallocLoop_nomem hlt hf, StateT.run_bind, hrun, StateExcept.ok_bind]
          rfl
        · rw [hf, List.length_nil] at hbounded
          omega
      | cons r rest =>
        have hr0 : r ≠ 0 := hs.free_ne_zero r (by simp [hf])
        have hpos : 1 ≤ s.freelist.length := by
          rw [hf, List.length_cons]
          exact Nat.succ_le_succ (Nat.zero_le _)
        have hamax' : a.toNat + 4096 ≤ 2 ^ 38 := by omega
        have hamax : a < MAXVA := UInt64.lt_iff_toNat_lt.2 (by rw [MAXVA_toNat]; omega)
        have hnone : lookup (took s r rest).mem pt a = none := by
          rw [lookup_of_sameTree (sameTree_took hs hf), hg.other a hamax (by omega)]
          exact hsp.above a hle (UInt64.lt_iff_toNat_lt.2 (by rw [TRAPFRAME_toNat]; omega))
        rcases mappages_page_spec r uvmPerm (good_took hs hf) hal hamax hnone with
          ⟨s1, hm, g1, -, hlen⟩ | ⟨s1, e, hm, g1, he, hlen⟩
        · -- the `walk` of `mappages` finds the free list empty
          obtain ⟨s2, hk, hp2⟩ := mapfail_partial hsp hg hf g1
          obtain ⟨s', hrun, hrb⟩ := rollback_spec hsp rfl hp2
          refine .inr ⟨s', ?_, hrb, ?_⟩
          · rw [uvmallocLoop_mapfail hlt hf hr0 hm, StateT.run_bind, hk, StateExcept.ok_bind,
              StateT.run_bind, hrun, StateExcept.ok_bind]
            rfl
          · have hrest : rest.length ≤ 2 := hlen
            rw [hf, List.length_cons] at hbounded
            omega
        · -- the page is mapped: one page on
          have hg' := hg.step hamax' hf g1 he hlen
          have ha' : (a + PGSIZE).toNat = a.toNat + 4096 := by
            rw [UInt64.toNat_add, PGSIZE_toNat]
            omega
          have hlen1 : s1.freelist.length ≤ rest.length := g1.free_suffix.length_le
          rw [uvmallocLoop_step hlt hf hr0 hm]
          apply ih _ _ hg'
          · show s1.freelist.length < fuel
            rw [hf, List.length_cons] at hfuel
            omega
          · rw [ha']
            omega

/-- Once the loop has mapped `[PGROUNDUP(oldsz), a)` with `a` the first aligned address
past `newsz`, the table is the address space of a process of `newsz` bytes. -/
theorem Grew.addrSpace {s : VmState} {a : UInt64} (hsp : AddrSpace s₀ pt oldsz)
    (hg : Grew s₀ s pt (PGROUNDUP oldsz) a) (hge : newsz.toNat ≤ a.toNat)
    (hlt : a.toNat < newsz.toNat + 4096) :
    AddrSpace s pt newsz ∧ PGROUNDUP newsz = a := by
  have hroom := hg.room hsp
  rw [PHYSTOP_toNat] at hroom
  have hal := hg.aligned
  have hle := hg.le
  have hnew : newsz < TRAPFRAME := UInt64.lt_iff_toNat_lt.2 (by rw [TRAPFRAME_toNat]; omega)
  have hround : PGROUNDUP newsz = a := by
    apply UInt64.toNat_inj.mp
    rw [(PGROUNDUP_le_TRAPFRAME hnew).1]
    omega
  have hmax : ∀ va : UInt64, va < TRAPFRAME → va < MAXVA := fun va h =>
    UInt64.lt_iff_toNat_lt.2 (by rw [UInt64.lt_iff_toNat_lt, TRAPFRAME_toNat] at h; rw [MAXVA_toNat]; omega)
  have hmaxa : ∀ va : UInt64, va.toNat < a.toNat → va < MAXVA := fun va h =>
    UInt64.lt_iff_toNat_lt.2 (by rw [MAXVA_toNat]; omega)
  -- a page of the old process and a page mapped by the loop are different pages of RAM
  have hmixed : ∀ va va' p fl fl', (PGROUNDUP oldsz).toNat ≤ va.toNat → va.toNat < a.toNat →
      va'.toNat < (PGROUNDUP oldsz).toNat → lookup s.mem pt va = some (p, fl) →
      lookup s.mem pt va' = some (p, fl') → False := by
    intro va va' p fl fl' h1 h2 h3 hl hl'
    obtain ⟨p', hl'', hp₀, -, -⟩ := hg.fresh va h1 h2
    rw [hl''] at hl
    have hpp : p' = p := by
      simp only [Option.some.injEq, Prod.mk.injEq] at hl
      exact hl.1
    rw [← hpp, hg.other va' (hmaxa va' (by omega)) (by omega)] at hl'
    exact hsp.good.free_not_mapped p' hp₀ ⟨va', fl', hl'⟩
  refine ⟨⟨hg.good, hnew, fun va hva => ?_, fun va va' p fl fl' h1 h2 hl hl' => ?_,
    fun va h1 h2 => ?_, fun p hp => ?_⟩, hround⟩
  · rw [hround] at hva
    by_cases hin : (PGROUNDUP oldsz).toNat ≤ va.toNat
    · -- a page the loop mapped
      obtain ⟨p, hl, hp, -, -⟩ := hg.fresh va hin hva
      have hram := hsp.free_ram p hp
      exact ⟨p, _, hl, uvmPerm_ne, by rw [hg.kernelEnd]; exact hram.1, hram.2⟩
    · -- a page of the old process
      obtain ⟨p, fl, hl, hfl, hlo, hhi⟩ := hsp.user va (by omega)
      exact ⟨p, fl, by rw [hg.other va (hmaxa va hva) (by omega)]; exact hl, hfl,
        by rw [hg.kernelEnd]; exact hlo, hhi⟩
  · rw [hround] at h1 h2
    by_cases hin : (PGROUNDUP oldsz).toNat ≤ va.toNat <;>
      by_cases hin' : (PGROUNDUP oldsz).toNat ≤ va'.toNat
    · exact hg.inj va va' p fl fl' hin h1 hin' h2 hl hl'
    · exact (hmixed va va' p fl fl' hin h1 (by omega) hl hl').elim
    · exact (hmixed va' va p fl' fl hin' h2 (by omega) hl' hl).elim
    · rw [hg.other va (hmaxa va h1) (by omega)] at hl
      rw [hg.other va' (hmaxa va' h2) (by omega)] at hl'
      exact hsp.user_inj va va' p fl fl' (by omega) (by omega) hl hl'
  · rw [hround] at h1
    rw [hg.other va (hmax va h2) (by omega)]
    exact hsp.above va (by omega) h2
  · rw [hg.kernelEnd]
    exact hsp.free_ram p (hg.suffix.subset hp)

/-- `uvmalloc` on an address space: the address space of the new size, its new pages
mapped to fresh zeroed pages, or 0 with everything as it was but for the pages of the
table, and only where the free list had at most three pages per page to map. -/
theorem uvmalloc_spec (hsp : AddrSpace s₀ pt oldsz) (hle : oldsz ≤ newsz) :
    (∃ s', (uvmalloc pt oldsz newsz).run s₀ = .ok (newsz, s') ∧ AddrSpace s' pt newsz ∧
        Grew s₀ s' pt (PGROUNDUP oldsz) (PGROUNDUP newsz)) ∨
      (∃ s', (uvmalloc pt oldsz newsz).run s₀ = .ok (0, s') ∧ RolledBack s₀ s' pt ∧
        s₀.freelist.length ≤
          3 * (((newsz.toNat + 4095) / 4096 * 4096 - (PGROUNDUP oldsz).toNat) / 4096)) := by
  have hnlt : ¬ newsz < oldsz := UInt64.not_lt.2 hle
  have hrun : (uvmalloc pt oldsz newsz).run s₀ =
      (uvmallocLoop pt (PGROUNDUP oldsz) newsz pageLoopFuel (PGROUNDUP oldsz)).run s₀ := by
    simp [uvmalloc, hnlt]
  have hold := (PGROUNDUP_le_TRAPFRAME hsp.sz_lt).1
  have hroom := hsp.room
  have hle' := UInt64.le_iff_toNat_le.1 hle
  rw [PHYSTOP_toNat] at hroom
  rcases uvmallocLoop_spec hsp pageLoopFuel s₀ (PGROUNDUP oldsz)
      (Grew.init hsp.good (by omega)) (by rw [pageLoopFuel_eq]; omega)
      (show (PGROUNDUP oldsz).toNat < newsz.toNat + 4096 by omega) with
    ⟨s', a', hl, hg, h1, h2⟩ | ⟨s', hl, hrb, hb⟩
  · obtain ⟨hsp', hround⟩ := hg.addrSpace hsp h1 h2
    exact .inl ⟨s', by rw [hrun, hl], hsp', by rw [hround]; exact hg⟩
  · exact .inr ⟨s', by rw [hrun, hl], hrb, hb⟩

/-- `uvmdealloc` on an address space unmaps and frees exactly the pages from
`PGROUNDUP(newsz)` up to `PGROUNDUP(oldsz)`. -/
theorem uvmdealloc_spec (hsp : AddrSpace s₀ pt oldsz) (hlt : newsz < oldsz) :
    ∃ s', (uvmdealloc pt oldsz newsz).run s₀ = .ok (newsz, s') ∧
      Unmaps s₀ s' pt (PGROUNDUP newsz) (PGROUNDUP oldsz) true := by
  obtain ⟨hold, hold'⟩ := PGROUNDUP_le_TRAPFRAME hsp.sz_lt
  have hnew : newsz < TRAPFRAME := UInt64.lt_trans hlt hsp.sz_lt
  obtain ⟨hnew1, -⟩ := PGROUNDUP_le_TRAPFRAME hnew
  have hlt' := UInt64.lt_iff_toNat_lt.1 hlt
  rw [TRAPFRAME_toNat] at hold'
  by_cases hround : PGROUNDUP newsz < PGROUNDUP oldsz
  · have hround' := UInt64.lt_iff_toNat_lt.1 hround
    obtain ⟨hconv, hn⟩ := npages_of_lt
      (show (PGROUNDUP newsz).toNat ≤ (PGROUNDUP oldsz).toNat by omega)
      (show (PGROUNDUP oldsz).toNat ≤ 2 ^ 38 by omega)
    have hargs : UnmapArgs s₀ pt (PGROUNDUP newsz)
        ((PGROUNDUP oldsz - PGROUNDUP newsz) / PGSIZE) true := by
      refine ⟨by omega, by rw [hn]; omega, fun va h1 h2 => ?_⟩
      obtain ⟨p, fl, hl, hfl, hlo, hhi⟩ := hsp.user va (by rw [hn] at h2; omega)
      exact ⟨p, fl, hl, hfl, fun _ => ⟨hlo, hhi⟩⟩
    obtain ⟨s', hrun, hu⟩ := uvmunmap_spec hsp.good.tableOk hargs
    have hbound : PGROUNDUP newsz + (PGROUNDUP oldsz - PGROUNDUP newsz) / PGSIZE * PGSIZE =
        PGROUNDUP oldsz := by
      apply UInt64.toNat_inj.mp
      rw [UInt64.toNat_add, UInt64.toNat_mul, hn, PGSIZE_toNat]
      omega
    rw [hbound] at hu
    exact ⟨s', uvmdealloc_run_of_lt hlt hround (by rw [hconv]; exact hrun), hu⟩
  · -- within one page: nothing to unmap
    have heq : (PGROUNDUP newsz).toNat = (PGROUNDUP oldsz).toNat := by
      rw [UInt64.lt_iff_toNat_lt] at hround
      omega
    refine ⟨s₀, uvmdealloc_run_same_page hlt hround, hsp.good.tableOk, rfl,
      fun va _ => by rw [if_neg (by omega)], fun p => ?_⟩
    constructor
    · exact Or.inl
    · rintro (h | ⟨-, va, h1, h2, -⟩)
      · exact h
      · omega

end Calls

/-! ## The contract -/

/-- What `uvmalloc` and `uvmdealloc` do to an address space of `oldsz` bytes. -/
structure GrowShrink (s : VmState) (pt oldsz newsz : UInt64) : Prop where
  alloc : oldsz ≤ newsz →
    (∃ s', (uvmalloc pt oldsz newsz).run s = .ok (newsz, s') ∧ AddrSpace s' pt newsz ∧
        Grew s s' pt (PGROUNDUP oldsz) (PGROUNDUP newsz)) ∨
      (∃ s', (uvmalloc pt oldsz newsz).run s = .ok (0, s') ∧ RolledBack s s' pt ∧
        s.freelist.length ≤
          3 * (((newsz.toNat + 4095) / 4096 * 4096 - (PGROUNDUP oldsz).toNat) / 4096))
  dealloc : newsz < oldsz → ∃ s', (uvmdealloc pt oldsz newsz).run s = .ok (newsz, s') ∧
    Unmaps s s' pt (PGROUNDUP newsz) (PGROUNDUP oldsz) true

/-- On every address space and for every pair of sizes, `uvmalloc` grows it page by page to
fresh zeroed pages or rolls back, failing only where the free list runs out, and
`uvmdealloc` shrinks it by exactly the pages in between. -/
theorem uvmalloc_uvmdealloc_contract {s : VmState} {pt oldsz : UInt64} (newsz : UInt64)
    (hsp : AddrSpace s pt oldsz) : GrowShrink s pt oldsz newsz :=
  ⟨uvmalloc_spec hsp, uvmdealloc_spec hsp⟩

theorem PGROUNDUP_zero : PGROUNDUP 0 = 0 := by decide

/-- A fresh table with two free pages is the address space of a process of 0 bytes. -/
theorem addrSpace_of_empty {s : VmState} {pt : UInt64} (h : ∀ i, i < 512 → next s.mem pt i = none)
    (hpt : pt.toNat % 4096 = 0) (hpt0 : pt ≠ 0) (hfa : ∀ p ∈ s.freelist, p.toNat % 4096 = 0)
    (hf0 : ∀ p ∈ s.freelist, p ≠ 0) (hnd : s.freelist.Nodup) (hout : pt ∉ s.freelist)
    (hram : ∀ p ∈ s.freelist, s.kernelEnd ≤ p ∧ p < PHYSTOP) : AddrSpace s pt 0 where
  good := good_of_empty h hpt hpt0 hfa hf0 hnd hout
  sz_lt := by decide
  user va hva := by
    rw [PGROUNDUP_zero] at hva
    exact absurd hva (Nat.not_lt_zero _)
  user_inj va _ _ _ _ hva := by
    rw [PGROUNDUP_zero] at hva
    exact absurd hva (Nat.not_lt_zero _)
  above va _ _ := lookup_of_empty h va
  free_ram := hram

/-- An empty root page with two free pages above the kernel. -/
theorem addrSpace_fresh_table :
    AddrSpace { mem := fun _ => 0, freelist := [0x87ffe000, 0x87ffd000], kernelEnd := 0x80020000 }
      0x87fff000 0 :=
  addrSpace_of_empty (fun i _ => by rw [next, Mem.load64_zero, if_neg (not_not.2 zero_not_valid)])
    (by decide) (by decide) (by simp) (by simp) (by decide) (by decide) (by
      intro p hp
      simp only [List.mem_cons, List.not_mem_nil, or_false] at hp
      rcases hp with rfl | rfl <;> decide)

theorem uvmalloc_uvmdealloc_contract_on_fresh_table :
    AddrSpace { mem := fun _ => 0, freelist := [0x87ffe000, 0x87ffd000], kernelEnd := 0x80020000 }
        0x87fff000 0 ∧
      GrowShrink { mem := fun _ => 0, freelist := [0x87ffe000, 0x87ffd000], kernelEnd := 0x80020000 }
        0x87fff000 0 4096 :=
  ⟨addrSpace_fresh_table, uvmalloc_uvmdealloc_contract 4096 addrSpace_fresh_table⟩

/-- `uvmalloc` returns 0 without a failed allocation when both sizes are 0: the loop does not
run and the new size is 0, which `exec` takes for a failure. -/
theorem uvmalloc_zero_size_returns_zero (s : VmState) (pt : UInt64) :
    (uvmalloc pt 0 0).run s = .ok (0, s) := by
  have h0 : ¬ (0 : UInt64) < 0 := by decide
  simp only [uvmalloc, h0, if_false, PGROUNDUP_zero, pageLoopFuel_eq]
  exact uvmallocLoop_done h0

/-- On the fresh table of `uvmalloc_uvmdealloc_contract_on_fresh_table`, with two free
pages, `uvmalloc(pt, 0, 0)` returns 0 and changes nothing. -/
theorem uvmalloc_zero_size_returns_zero_on_fresh_table :
    AddrSpace { mem := fun _ => 0, freelist := [0x87ffe000, 0x87ffd000], kernelEnd := 0x80020000 }
        0x87fff000 0 ∧
      (uvmalloc 0x87fff000 0 0).run
          { mem := fun _ => 0, freelist := [0x87ffe000, 0x87ffd000], kernelEnd := 0x80020000 } =
        .ok (0, { mem := fun _ => 0, freelist := [0x87ffe000, 0x87ffd000], kernelEnd := 0x80020000 }) :=
  ⟨addrSpace_fresh_table, uvmalloc_zero_size_returns_zero _ _⟩

end Xv6.Vm
