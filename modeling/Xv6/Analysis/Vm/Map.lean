import Xv6.Analysis.Vm.Walk

/-!
# `mappages` and `uvmunmap` on the abstraction

`mappages` maps the pages `PGROUNDDOWN(va)` to `PGROUNDDOWN(va + size - 1)` one by one,
each to the next physical page from `pa` on. Each iteration grows the table by `walk`
(which keeps the abstraction) and stores one level-0 PTE (which changes the abstraction
at that page only), so after `k` iterations the abstraction is the old one updated on
the first `k` pages. The loop stops early, with -1, only when `walk` finds the free list
empty (`mappagesLoop_spec`, `mappages_spec`).

`uvmunmap` clears the level-0 PTE of each of its pages and frees the page it named; a
freed page is no page of the table, so the abstraction loses exactly those pages
(`uvmunmapLoop_spec`, `uvmunmap_spec`).
-/

set_option autoImplicit false

namespace Xv6.Vm

open Radix

theorem aligned_toNat_iff (a : UInt64) : a % PGSIZE = 0 ↔ a.toNat % 4096 = 0 := by
  rw [← UInt64.toNat_inj, UInt64.toNat_mod]
  rfl

/-- An aligned address is its own page. -/
theorem PGROUNDDOWN_of_aligned {a : UInt64} (ha : a.toNat % 4096 = 0) : PGROUNDDOWN a = a := by
  apply UInt64.toNat_inj.mp
  rw [PGROUNDDOWN_toNat]
  omega

/-! ## One store -/

section Leaf

variable {s : VmState} {pt a e pa perm : UInt64}

/-- The PTE `mappages` builds says what it was built from. -/
theorem decode_mkPte (hpa : pa.toNat % 4096 = 0) (hperm : perm < 1024) :
    decode (PA2PTE pa ||| perm ||| PTE_V) = some (pa, perm ||| PTE_V) := by
  rw [decode, if_pos (valid_mkPte pa perm), PTE2PA_mkPte pa perm hpa hperm,
    PTE_FLAGS_mkPte pa perm hperm]

/-- Below `MAXVA`, the addresses whose PTE is that of `a` are those of `a`'s page. -/
theorem leafPte_eq_iff (ht : TreeOk s.mem pt) (ha : a < MAXVA) (he : leafPte s.mem pt a = some e)
    {va : UInt64} (hva : va < MAXVA) :
    leafPte s.mem pt va = some e ↔ va.toNat / 4096 = a.toNat / 4096 := by
  constructor
  · intro h
    exact leafPte_inj ht hva ha h he
  · intro h
    rw [leafPte_congr hva ha h, he]

/-- The state after `mappages` stores the PTE `e` of `a`. -/
def mapped (s : VmState) (e pa perm : UInt64) : VmState :=
  { s with mem := s.mem.store64 e (PA2PTE pa ||| perm ||| PTE_V) }

theorem lookup_mapped (ht : TreeOk s.mem pt) (ha : a < MAXVA) (he : leafPte s.mem pt a = some e)
    (hpa : pa.toNat % 4096 = 0) (hperm : perm < 1024) {va : UInt64} (hva : va < MAXVA) :
    lookup (mapped s e pa perm).mem pt va =
      if va.toNat / 4096 = a.toNat / 4096 then some (pa, perm ||| PTE_V) else lookup s.mem pt va := by
  rw [mapped, lookup_store_leaf ht he, decode_mkPte hpa hperm]
  by_cases h : va.toNat / 4096 = a.toNat / 4096
  · rw [if_pos ((leafPte_eq_iff ht ha he hva).2 h), if_pos h]
  · rw [if_neg (fun h' => h ((leafPte_eq_iff ht ha he hva).1 h')), if_neg h]

/-- A page the table maps after the store is the new page or was mapped before. -/
theorem isMapped_mapped (ht : TreeOk s.mem pt) (he : leafPte s.mem pt a = some e)
    (hpa : pa.toNat % 4096 = 0) (hperm : perm < 1024) {p : UInt64}
    (hp : IsMapped (mapped s e pa perm).mem pt p) : p = pa ∨ IsMapped s.mem pt p := by
  obtain ⟨va, fl, hva⟩ := hp
  rw [mapped, lookup_store_leaf ht he, decode_mkPte hpa hperm] at hva
  split_ifs at hva
  · exact Or.inl (Prod.mk.inj (Option.some.inj hva)).1.symm
  · exact Or.inr ⟨va, fl, hva⟩

/-- Mapping a page that is neither free nor a page of the table keeps the invariant. -/
theorem good_mapped (hs : Good s pt) (he : leafPte s.mem pt a = some e)
    (hpa : pa.toNat % 4096 = 0) (hperm : perm < 1024) (hnpt : ¬ IsPtPage s.mem pt pa)
    (hnfree : pa ∉ s.freelist) : Good (mapped s e pa perm) pt := by
  have ht := hs.tree
  have hpt : ∀ q, IsPtPage (mapped s e pa perm).mem pt q ↔ IsPtPage s.mem pt q :=
    isPtPage_store_leaf ht he
  refine ⟨treeOk_store_leaf ht he, hs.free_aligned, hs.free_ne_zero, hs.free_nodup,
    fun p hp h => hs.free_not_pt p hp ((hpt p).1 h), ?_, ?_⟩
  · intro p hp hmap
    rcases isMapped_mapped ht he hpa hperm hmap with rfl | hmap
    · exact hnfree hp
    · exact hs.free_not_mapped p hp hmap
  · intro p hmap hq
    rcases isMapped_mapped ht he hpa hperm hmap with rfl | hmap
    · exact hnpt ((hpt p).1 hq)
    · exact hs.mapped_not_pt p hmap ((hpt p).1 hq)

end Leaf

/-! ## The loop of `mappages` -/

section Mappages

variable {pt last perm : UInt64}

theorem mappagesLoop_fail {s s1 : VmState} {a pa : UInt64} {fuel : ℕ}
    (hw : (walk pt a true).run s = .ok (0, s1)) :
    (mappagesLoop pt last perm (fuel + 1) a pa).run s = .ok (-1, s1) := by
  simp [mappagesLoop, StateExcept.ok_bind, hw]
  rfl

theorem mappagesLoop_last {s s1 : VmState} {a pa e : UInt64} {fuel : ℕ}
    (hw : (walk pt a true).run s = .ok (e, s1)) (he : e ≠ 0)
    (hv : s1.mem.load64 e &&& PTE_V = 0) (hl : a = last) :
    (mappagesLoop pt last perm (fuel + 1) a pa).run s = .ok (0, mapped s1 e pa perm) := by
  subst hl
  simp [mappagesLoop, StateExcept.ok_bind, hw, he, hv]
  rfl

theorem mappagesLoop_step {s s1 : VmState} {a pa e : UInt64} {fuel : ℕ}
    (hw : (walk pt a true).run s = .ok (e, s1)) (he : e ≠ 0)
    (hv : s1.mem.load64 e &&& PTE_V = 0) (hl : a ≠ last) :
    (mappagesLoop pt last perm (fuel + 1) a pa).run s =
      (mappagesLoop pt last perm fuel (a + PGSIZE) (pa + PGSIZE)).run (mapped s1 e pa perm) := by
  simp [mappagesLoop, StateExcept.ok_bind, hw, he, hv, hl, mapped]

/-- The physical page `mappages` gives the page of `va` when it started at `a` with `pa`. -/
def target (pa a va : UInt64) : UInt64 := pa + (PGROUNDDOWN va - a)

theorem target_step (pa a va : UInt64) : target (pa + PGSIZE) (a + PGSIZE) va = target pa a va := by
  unfold target
  grind

/-- What a run of the loop from page `a` leaves: the pages from `a` up to `top` mapped,
all of them when it returns 0, and the free list empty when it returns -1. -/
def MapsUpTo (s s' : VmState) (pt a pa perm last : UInt64) (r : Int) : Prop :=
  Good s' pt ∧ ∃ top : ℕ, a.toNat ≤ top ∧ top ≤ last.toNat + 4096 ∧ top % 4096 = 0 ∧
    ((r = 0 ∧ top = last.toNat + 4096) ∨ (r = -1 ∧ s'.freelist = [])) ∧
    ∀ va, va < MAXVA → lookup s'.mem pt va =
      if a.toNat ≤ va.toNat ∧ va.toNat < top then some (target pa a va, perm ||| PTE_V)
      else lookup s.mem pt va

/-- The loop of `mappages`, by induction on the iterations left: from page `a` to page
`last`, every page unmapped, and every physical page it will use neither free nor a page
of the table. -/
theorem mappagesLoop_spec (hperm : perm < 1024) (hlast : last.toNat % 4096 = 0)
    (hlastmax : last < MAXVA) : ∀ (fuel : ℕ) (s : VmState) (a pa : UInt64), Good s pt →
    a.toNat % 4096 = 0 → a.toNat ≤ last.toNat → (last.toNat - a.toNat) / 4096 < fuel →
    pa.toNat % 4096 = 0 →
    (∀ va, va < MAXVA → a.toNat ≤ va.toNat → va.toNat < last.toNat + 4096 →
      lookup s.mem pt va = none) →
    (∀ va, va < MAXVA → a.toNat ≤ va.toNat → va.toNat < last.toNat + 4096 →
      ¬ IsPtPage s.mem pt (target pa a va) ∧ target pa a va ∉ s.freelist) →
    ∃ r s', (mappagesLoop pt last perm fuel a pa).run s = .ok (r, s') ∧
      MapsUpTo s s' pt a pa perm last r := by
  intro fuel
  induction fuel with
  | zero => intro s a pa _ _ _ hfuel; omega
  | succ fuel ih =>
    intro s a pa hs ha hal hfuel hpa hfree htarget
    have hlast' := UInt64.lt_iff_toNat_lt.1 hlastmax
    rw [MAXVA_toNat] at hlast'
    have hamax : a < MAXVA := UInt64.lt_iff_toNat_lt.2 (by rw [MAXVA_toNat]; omega)
    obtain ⟨e, s1, hw, g1, hleaf, hempty⟩ := walk_spec hs hamax
    by_cases he : e = 0
    · -- `walk` ran out of pages: nothing is mapped in this iteration
      subst he
      refine ⟨-1, s1, mappagesLoop_fail hw, g1.good, a.toNat, le_refl _, by omega, ha,
        Or.inr ⟨rfl, hempty rfl⟩, fun va _ => ?_⟩
      rw [if_neg (by omega), g1.lookup_eq]
    · have he1 := hleaf he
      have ht1 := g1.good.tree
      -- the page was unmapped, so its PTE is not valid and there is no remap
      have hnone : lookup s1.mem pt a = none := by
        rw [g1.lookup_eq]
        exact hfree a hamax (le_refl _) (by omega)
      have hv : s1.mem.load64 e &&& PTE_V = 0 := by
        rw [lookup, he1, Option.bind_some, decode] at hnone
        split_ifs at hnone with h
        exact not_not.1 h
      have hta : target pa a a = pa := by
        rw [target, PGROUNDDOWN_of_aligned ha, UInt64.sub_self, UInt64.add_zero]
      obtain ⟨hnpt, hnfree⟩ := htarget a hamax (le_refl _) (by omega)
      rw [hta] at hnpt hnfree
      have hnpt1 : ¬ IsPtPage s1.mem pt pa := by
        rw [g1.pages]
        rintro (h | ⟨h, -⟩)
        · exact hnpt h
        · exact hnfree h
      have hnfree1 : pa ∉ s1.freelist := fun h => hnfree (g1.free_suffix.subset h)
      have hs2 := good_mapped g1.good he1 hpa hperm hnpt1 hnfree1
      have hlook2 := fun va (hva : va < MAXVA) => lookup_mapped ht1 hamax he1 hpa hperm hva
      by_cases hl : a = last
      · -- the last page
        subst hl
        refine ⟨0, _, mappagesLoop_last hw he hv rfl, hs2, a.toNat + 4096, by omega, le_refl _,
          by omega, Or.inl ⟨rfl, rfl⟩, fun va hva => ?_⟩
        rw [hlook2 va hva, g1.lookup_eq]
        by_cases hpage : va.toNat / 4096 = a.toNat / 4096
        · have hdown : PGROUNDDOWN va = a := by
            apply UInt64.toNat_inj.mp
            rw [PGROUNDDOWN_toNat]
            omega
          rw [if_pos hpage, if_pos (by omega), target, hdown, UInt64.sub_self, UInt64.add_zero]
        · rw [if_neg hpage, if_neg (by omega)]
      · -- more pages: the rest of the loop starts one page on
        have hal' : a.toNat + 4096 ≤ last.toNat := by
          have : a.toNat ≠ last.toNat := fun h => hl (UInt64.toNat_inj.mp h)
          omega
        have ha' : (a + PGSIZE).toNat = a.toNat + 4096 := by
          rw [UInt64.toNat_add, PGSIZE_toNat]
          omega
        have hpa' : (pa + PGSIZE).toNat % 4096 = 0 := by
          rw [UInt64.toNat_add, PGSIZE_toNat]
          have := pa.toNat_lt
          omega
        have hpt2 : ∀ x, IsPtPage (mapped s1 e pa perm).mem pt x ↔ IsPtPage s1.mem pt x :=
          isPtPage_store_leaf ht1 he1
        obtain ⟨r, s', hrun, hs', top, htop1, htop2, htop3, hr, hlook⟩ :=
          ih (mapped s1 e pa perm) (a + PGSIZE) (pa + PGSIZE) hs2 (by rw [ha']; omega)
            (by rw [ha']; omega) (by rw [ha']; omega) hpa'
            (fun va hva h1 h2 => by
              rw [ha'] at h1
              rw [hlook2 va hva, if_neg (by omega), g1.lookup_eq]
              exact hfree va hva (by omega) h2)
            (fun va hva h1 h2 => by
              rw [ha'] at h1
              rw [target_step]
              obtain ⟨hx1, hx2⟩ := htarget va hva (by omega) h2
              refine ⟨fun hx => ?_, fun hx => hx2 (g1.free_suffix.subset hx)⟩
              rcases (g1.pages _).1 ((hpt2 _).1 hx) with hx | ⟨hx, -⟩
              · exact hx1 hx
              · exact hx2 hx)
        refine ⟨r, s', by rw [mappagesLoop_step hw he hv hl, hrun], hs', top, by omega, htop2,
          htop3, hr, fun va hva => ?_⟩
        rw [hlook va hva, ha', target_step, hlook2 va hva, g1.lookup_eq]
        by_cases hpage : va.toNat / 4096 = a.toNat / 4096
        · have hdown : PGROUNDDOWN va = a := by
            apply UInt64.toNat_inj.mp
            rw [PGROUNDDOWN_toNat]
            omega
          rw [if_neg (by omega), if_pos hpage, if_pos (by omega), target, hdown, UInt64.sub_self,
            UInt64.add_zero]
        · by_cases hin : a.toNat + 4096 ≤ va.toNat ∧ va.toNat < top
          · rw [if_pos hin, if_pos (by omega)]
          · rw [if_neg hin, if_neg hpage, if_neg (by omega)]

/-- The pages `mappages(pt, va, size, ...)` maps: those from `PGROUNDDOWN(va)` to
`PGROUNDDOWN(va + size - 1)`. -/
def InPages (va size va' : UInt64) : Prop :=
  va.toNat / 4096 ≤ va'.toNat / 4096 ∧ va'.toNat / 4096 ≤ (va.toNat + size.toNat - 1) / 4096

instance (va size va' : UInt64) : Decidable (InPages va size va') :=
  inferInstanceAs (Decidable (_ ∧ _))

theorem pageLoopFuel_eq : pageLoopFuel = 2 ^ 26 + 1 := rfl

/-- A call `mappages(pt, va, size, pa, perm)` as the kernel makes them: a non-empty range
below `MAXVA`, an aligned `pa`, permission bits only, every page of the range unmapped, and
every physical page it will use neither free nor a page of the table. -/
structure MapArgs (s : VmState) (pt va size pa perm : UInt64) : Prop where
  size_ne_zero : size ≠ 0
  below_maxva : va.toNat + size.toNat ≤ 2 ^ 38
  pa_aligned : pa.toNat % 4096 = 0
  perm_lt : perm < 1024
  unmapped : ∀ va', va' < MAXVA → InPages va size va' → lookup s.mem pt va' = none
  fresh : ∀ va', va' < MAXVA → InPages va size va' →
    ¬ IsPtPage s.mem pt (target pa (PGROUNDDOWN va) va') ∧
      target pa (PGROUNDDOWN va) va' ∉ s.freelist

/-- What `mappages` leaves: the invariant, and either 0 with the abstraction updated on
exactly its pages, or -1 with the free list used up and the abstraction updated on a first
part of them; the abstraction of every other page is as it was. -/
def MapsPages (s s' : VmState) (pt va size pa perm : UInt64) (r : Int) : Prop :=
  Good s' pt ∧
    ((r = 0 ∧ ∀ va', va' < MAXVA → lookup s'.mem pt va' =
        if InPages va size va' then some (target pa (PGROUNDDOWN va) va', perm ||| PTE_V)
        else lookup s.mem pt va') ∨
      (r = -1 ∧ s'.freelist = [] ∧ ∃ top : ℕ, ∀ va', va' < MAXVA → lookup s'.mem pt va' =
        if InPages va size va' ∧ va'.toNat < top then
          some (target pa (PGROUNDDOWN va) va', perm ||| PTE_V)
        else lookup s.mem pt va'))

/-- `mappages` never panics on such a call, and does what `MapsPages` says. -/
theorem mappages_spec {s : VmState} {va size pa : UInt64} (hs : Good s pt)
    (h : MapArgs s pt va size pa perm) :
    ∃ r s', (mappages pt va size pa perm).run s = .ok (r, s') ∧ MapsPages s s' pt va size pa perm r := by
  have hend := h.below_maxva
  have hsz : 1 ≤ size.toNat := by
    have : size.toNat ≠ 0 := fun e => h.size_ne_zero (UInt64.toNat_inj.mp e)
    omega
  have hend' : (va + size - 1).toNat = va.toNat + size.toNat - 1 := by
    rw [UInt64.toNat_sub, UInt64.toNat_add]
    simp only [UInt64.reduceToNat]
    omega
  have ha := PGROUNDDOWN_toNat va
  have hl : (PGROUNDDOWN (va + size - 1)).toNat = (va.toNat + size.toNat - 1) / 4096 * 4096 := by
    rw [PGROUNDDOWN_toNat, hend']
  have hrun : (mappages pt va size pa perm).run s =
      (mappagesLoop pt (PGROUNDDOWN (va + size - 1)) perm pageLoopFuel (PGROUNDDOWN va) pa).run s := by
    simp [mappages, h.size_ne_zero]
  -- the pages of the loop, from `a` to `last`, are the pages of `InPages`
  have hin : ∀ va', InPages va size va' ↔ (PGROUNDDOWN va).toNat ≤ va'.toNat ∧
      va'.toNat < (PGROUNDDOWN (va + size - 1)).toNat + 4096 := by
    intro va'
    rw [ha, hl, InPages]
    omega
  obtain ⟨r, s', hrun', hs', top, htop1, htop2, -, hr, hlook⟩ :=
    mappagesLoop_spec h.perm_lt (by rw [hl]; omega)
      (by rw [UInt64.lt_iff_toNat_lt, hl, MAXVA_toNat]; omega) pageLoopFuel s (PGROUNDDOWN va) pa hs
      (by rw [ha]; omega) (by rw [ha, hl]; omega) (by rw [ha, hl, pageLoopFuel_eq]; omega)
      h.pa_aligned (fun va' hva' h1 h2 => h.unmapped va' hva' ((hin va').2 ⟨h1, h2⟩))
      (fun va' hva' h1 h2 => h.fresh va' hva' ((hin va').2 ⟨h1, h2⟩))
  refine ⟨r, s', hrun ▸ hrun', hs', ?_⟩
  rcases hr with ⟨rfl, rfl⟩ | ⟨rfl, hfl⟩
  · refine Or.inl ⟨rfl, fun va' hva' => ?_⟩
    rw [hlook va' hva']
    simp only [hin]
  · refine Or.inr ⟨rfl, hfl, top, fun va' hva' => ?_⟩
    rw [hlook va' hva']
    have hiff : ((PGROUNDDOWN va).toNat ≤ va'.toNat ∧ va'.toNat < top) ↔
        (InPages va size va' ∧ va'.toNat < top) := by
      rw [hin]
      omega
    simp only [hiff]

end Mappages

/-! ## The loop of `uvmunmap` -/

/-- What `uvmunmap` needs of the table and keeps: a tree, none of whose pages is mapped. -/
structure TableOk (m : Mem) (pt : UInt64) : Prop where
  tree : TreeOk m pt
  mapped_not_pt : ∀ p, IsMapped m pt p → ¬ IsPtPage m pt p

theorem Good.tableOk {s : VmState} {pt : UInt64} (hs : Good s pt) : TableOk s.mem pt :=
  ⟨hs.tree, hs.mapped_not_pt⟩

theorem tableOk_of_sameTree {m m' : Mem} {pt : UInt64} (h : SameTree m m' pt) (ht : TableOk m pt) :
    TableOk m' pt where
  tree := treeOk_of_sameTree h ht.tree
  mapped_not_pt p hp hq :=
    ht.mapped_not_pt p ((isMapped_of_sameTree h p).1 hp) ((isPtPage_of_sameTree h p).1 hq)

theorem decode_eq_some {e p fl : UInt64} (h : decode e = some (p, fl)) :
    e &&& PTE_V ≠ 0 ∧ p = PTE2PA e ∧ fl = PTE_FLAGS e := by
  unfold decode at h
  split_ifs at h with hv
  obtain ⟨rfl, rfl⟩ := Prod.mk.inj (Option.some.inj h)
  exact ⟨hv, rfl, rfl⟩

theorem decode_zero : decode 0 = none := by
  rw [decode, if_neg (not_not.2 zero_not_valid)]

/-- Every page the abstraction names is aligned. -/
theorem lookup_aligned {m : Mem} {pt va p fl : UInt64} (h : lookup m pt va = some (p, fl)) :
    p.toNat % 4096 = 0 := by
  rw [lookup, Option.bind_eq_some_iff] at h
  obtain ⟨e, -, he⟩ := h
  obtain ⟨-, rfl, -⟩ := decode_eq_some he
  exact PTE2PA_aligned _

section Unmap

variable {s : VmState} {pt a e : UInt64}

/-- Clearing the PTE of `a` unmaps exactly `a`'s page. -/
theorem lookup_unmap (ht : TreeOk s.mem pt) (ha : a < MAXVA) (he : leafPte s.mem pt a = some e)
    {va : UInt64} (hva : va < MAXVA) :
    lookup (s.mem.store64 e 0) pt va =
      if va.toNat / 4096 = a.toNat / 4096 then none else lookup s.mem pt va := by
  rw [lookup_store_leaf ht he, decode_zero]
  by_cases h : va.toNat / 4096 = a.toNat / 4096
  · rw [if_pos ((leafPte_eq_iff ht ha he hva).2 h), if_pos h]
  · rw [if_neg (fun h' => h ((leafPte_eq_iff ht ha he hva).1 h')), if_neg h]

theorem tableOk_unmap (ht : TableOk s.mem pt) (he : leafPte s.mem pt a = some e) :
    TableOk (s.mem.store64 e 0) pt where
  tree := treeOk_store_leaf ht.tree he
  mapped_not_pt p hp hq := by
    obtain ⟨va, fl, hva⟩ := hp
    rw [lookup_store_leaf ht.tree he, decode_zero] at hva
    split_ifs at hva
    exact ht.mapped_not_pt p ⟨va, fl, hva⟩ ((isPtPage_store_leaf ht.tree he p).1 hq)

theorem kfree_run {p : UInt64} (hp : p % PGSIZE = 0) (hlo : s.kernelEnd ≤ p) (hhi : p < PHYSTOP) :
    (kfree p).run s = .ok ((), { s with
      mem := (s.mem.fill p 1 PGSIZE).store64 p (s.freelist.headD 0)
      freelist := p :: s.freelist }) := by
  have h1 : ¬ p < s.kernelEnd := UInt64.not_lt.2 hlo
  have h2 : ¬ p ≥ PHYSTOP := UInt64.not_le.2 hhi
  cases hf : s.freelist with
  | nil => simp [kfree, hp, h1, h2, hf]; rfl
  | cons r rest => simp [kfree, hp, h1, h2, hf]; rfl

/-- Freeing a mapped page, as `uvmunmap` does with `do_free`, writes only inside that page,
which is no page of the table, and pushes it on the free list. -/
theorem free_spec {p fl : UInt64} (do_free : Bool) (ht : TableOk s.mem pt)
    (hmap : lookup s.mem pt a = some (p, fl)) (hk : do_free → s.kernelEnd ≤ p ∧ p < PHYSTOP) :
    ∃ s1, (if do_free then kfree p else pure ()).run s = .ok ((), s1) ∧ SameTree s.mem s1.mem pt ∧
      s1.kernelEnd = s.kernelEnd ∧ ∀ x, x ∈ s1.freelist ↔ x ∈ s.freelist ∨ (do_free ∧ x = p) := by
  cases do_free with
  | false => exact ⟨s, rfl, fun _ _ _ _ => rfl, rfl, fun x => by simp⟩
  | true =>
    obtain ⟨hlo, hhi⟩ := hk rfl
    have hal := lookup_aligned hmap
    have hnpt := ht.mapped_not_pt p ⟨a, fl, hmap⟩
    have h1 := sameTree_fill ht.tree hal hnpt 1
    have h2 := sameTree_store (a := p) (v := s.freelist.headD 0) (treeOk_of_sameTree h1 ht.tree) hal
      (fun h => hnpt ((isPtPage_of_sameTree h1 p).1 h))
      (fun b hb => by
        rw [UInt64.lt_iff_toNat_lt] at hb ⊢
        simp only [PGSIZE_toNat, UInt64.reduceToNat] at *
        omega)
    refine ⟨_, kfree_run ((aligned_toNat_iff p).2 hal) hlo hhi, h1.trans h2, rfl, fun x => ?_⟩
    simp [or_comm]

theorem uvmunmapLoop_done {bound a : UInt64} {do_free : Bool} {fuel : ℕ} (h : ¬ a < bound) :
    (uvmunmapLoop pt bound do_free fuel a).run s = .ok ((), s) := by
  cases fuel with
  | zero => rfl
  | succ fuel => simp [uvmunmapLoop, h]; rfl

theorem uvmunmapLoop_step {s1 : VmState} {bound : UInt64} {do_free : Bool} {fuel : ℕ}
    (h : a < bound) (hw : (walk pt a false).run s = .ok (e, s)) (he : e ≠ 0)
    (hv : s.mem.load64 e &&& PTE_V ≠ 0) (hf : PTE_FLAGS (s.mem.load64 e) ≠ PTE_V)
    (hk : (if do_free then kfree (PTE2PA (s.mem.load64 e)) else pure ()).run s = .ok ((), s1)) :
    (uvmunmapLoop pt bound do_free (fuel + 1) a).run s =
      (uvmunmapLoop pt bound do_free fuel (a + PGSIZE)).run { s1 with mem := s1.mem.store64 e 0 } := by
  cases do_free
  · simp at hk
    cases hk
    simp [uvmunmapLoop, h, StateExcept.ok_bind, hw, he, hv, hf]
  · simp at hk
    simp [uvmunmapLoop, h, StateExcept.ok_bind, hw, he, hv, hf, hk]

/-- What a run of the loop of `uvmunmap` from `a` to `bound` leaves: the same invariant,
the pages of `[a, bound)` unmapped and every other page as it was, and with `do_free` the
pages they were mapped to on the free list. -/
def Unmaps (s s' : VmState) (pt a bound : UInt64) (do_free : Bool) : Prop :=
  TableOk s'.mem pt ∧ s'.kernelEnd = s.kernelEnd ∧
    (∀ va, va < MAXVA → lookup s'.mem pt va =
      if a.toNat ≤ va.toNat ∧ va.toNat < bound.toNat then none else lookup s.mem pt va) ∧
    ∀ p, p ∈ s'.freelist ↔ p ∈ s.freelist ∨ (do_free = true ∧ ∃ va, a.toNat ≤ va.toNat ∧
      va.toNat < bound.toNat ∧ ∃ fl, lookup s.mem pt va = some (p, fl))

/-- The loop of `uvmunmap`, by induction on the iterations left: every page of
`[a, bound)` mapped by a leaf, to a page `kfree` accepts where `do_free`. The pages of the
table stay its pages: only leaf entries and the freed pages are written. -/
theorem uvmunmapLoop_unmaps {bound : UInt64} {do_free : Bool} (hbound : bound.toNat % 4096 = 0)
    (hbmax : bound.toNat ≤ 2 ^ 38) : ∀ (fuel : ℕ) (s : VmState) (a : UInt64), TableOk s.mem pt →
    a.toNat % 4096 = 0 → a.toNat ≤ bound.toNat → (bound.toNat - a.toNat) / 4096 < fuel →
    (∀ va, a.toNat ≤ va.toNat → va.toNat < bound.toNat → ∃ p fl, lookup s.mem pt va = some (p, fl) ∧
      fl ≠ PTE_V ∧ (do_free → s.kernelEnd ≤ p ∧ p < PHYSTOP)) →
    ∃ s', (uvmunmapLoop pt bound do_free fuel a).run s = .ok ((), s') ∧
      Unmaps s s' pt a bound do_free ∧ ∀ q, IsPtPage s'.mem pt q ↔ IsPtPage s.mem pt q := by
  intro fuel
  induction fuel with
  | zero => intro s a _ _ _ hfuel; omega
  | succ fuel ih =>
    intro s a ht ha hab hfuel hmapped
    by_cases hlt : a < bound
    case neg =>
      -- the loop is done: `[a, bound)` is empty
      have hba := UInt64.not_lt.1 hlt
      rw [UInt64.le_iff_toNat_le] at hba
      refine ⟨s, uvmunmapLoop_done hlt, ⟨ht, rfl, fun va _ => by rw [if_neg (by omega)],
        fun p => ?_⟩, fun q => Iff.rfl⟩
      constructor
      · exact Or.inl
      · rintro (h | ⟨-, va, h1, h2, -⟩)
        · exact h
        · omega
    case pos =>
      rw [UInt64.lt_iff_toNat_lt] at hlt
      have hamax : a < MAXVA := UInt64.lt_iff_toNat_lt.2 (by rw [MAXVA_toNat]; omega)
      obtain ⟨p, fl, hlk, hfl, hk⟩ := hmapped a (le_refl _) hlt
      cases hl : leafPte s.mem pt a with
      | none => simp [lookup, hl] at hlk
      | some e =>
        have hdec : decode (s.mem.load64 e) = some (p, fl) := by
          rw [lookup, hl, Option.bind_some] at hlk
          exact hlk
        obtain ⟨hv, hp, hfl'⟩ := decode_eq_some hdec
        have hw : (walk pt a false).run s = .ok ((leafPte s.mem pt a).getD 0, s) :=
          walk_run_false hamax
        rw [hl, Option.getD_some] at hw
        obtain ⟨s1, hk1, hsame, hend1, hfree1⟩ := free_spec do_free ht hlk hk
        have ht1 := tableOk_of_sameTree hsame ht
        have hl1 : leafPte s1.mem pt a = some e := by rw [leafPte_of_sameTree hsame, hl]
        have hlook2 : ∀ va, va < MAXVA → lookup (s1.mem.store64 e 0) pt va =
            if va.toNat / 4096 = a.toNat / 4096 then none else lookup s.mem pt va := by
          intro va hva
          rw [lookup_unmap (s := s1) ht1.tree hamax hl1 hva, lookup_of_sameTree hsame]
        have ha' : (a + PGSIZE).toNat = a.toNat + 4096 := by
          rw [UInt64.toNat_add, PGSIZE_toNat]
          omega
        have hab' : a.toNat + 4096 ≤ bound.toNat := by omega
        obtain ⟨s', hrun, ⟨ht', hend', hlook, hfree'⟩, hpt'⟩ :=
          ih { s1 with mem := s1.mem.store64 e 0 } (a + PGSIZE) (tableOk_unmap ht1 hl1)
            (by rw [ha']; omega) (by rw [ha']; omega) (by rw [ha']; omega)
            (fun va h1 h2 => by
              rw [ha'] at h1
              have hva : va < MAXVA := UInt64.lt_iff_toNat_lt.2 (by rw [MAXVA_toNat]; omega)
              obtain ⟨p', fl', h3, h4, h5⟩ := hmapped va (by omega) h2
              refine ⟨p', fl', ?_, h4, ?_⟩
              · rw [hlook2 va hva, if_neg (by omega), h3]
              · simpa [hend1] using h5)
        rw [hp] at hk1
        refine ⟨s', by rw [uvmunmapLoop_step (by rwa [UInt64.lt_iff_toNat_lt]) hw
          (leafPte_ne_zero ht.tree hl) hv (hfl' ▸ hfl) hk1, hrun], ⟨ht', by rw [hend', hend1],
          fun va hva => ?_, fun x => ?_⟩, fun q => ?_⟩
        · -- the page of `a` was unmapped by this iteration, the rest by the loop
          rw [hlook va hva, ha', hlook2 va hva]
          by_cases hpage : va.toNat / 4096 = a.toNat / 4096
          · rw [if_neg (by omega), if_pos hpage, if_pos (by omega)]
          · by_cases hin : a.toNat + 4096 ≤ va.toNat ∧ va.toNat < bound.toNat
            · rw [if_pos hin, if_pos (by omega)]
            · rw [if_neg hin, if_neg hpage, if_neg (by omega)]
        · -- the page freed by this iteration is the one `a` was mapped to
          rw [hfree', ha']
          simp only [hfree1]
          constructor
          · rintro ((h | ⟨hd, rfl⟩) | ⟨hd, va, h1, h2, fl'', h3⟩)
            · exact Or.inl h
            · exact Or.inr ⟨hd, a, le_refl _, hlt, fl, hlk⟩
            · have hva : va < MAXVA := UInt64.lt_iff_toNat_lt.2 (by rw [MAXVA_toNat]; omega)
              rw [hlook2 va hva, if_neg (by omega)] at h3
              exact Or.inr ⟨hd, va, by omega, h2, fl'', h3⟩
          · rintro (h | ⟨hd, va, h1, h2, fl'', h3⟩)
            · exact Or.inl (Or.inl h)
            · have hva : va < MAXVA := UInt64.lt_iff_toNat_lt.2 (by rw [MAXVA_toNat]; omega)
              by_cases hpage : va.toNat / 4096 = a.toNat / 4096
              · -- the same page as `a`, so the same physical page
                rw [lookup_congr hva hamax hpage, hlk] at h3
                exact Or.inl (Or.inr ⟨hd, (Prod.mk.inj (Option.some.inj h3)).1.symm⟩)
              · refine Or.inr ⟨hd, va, by omega, h2, fl'', ?_⟩
                rw [hlook2 va hva, if_neg hpage, h3]
        · rw [hpt' q, isPtPage_store_leaf ht1.tree hl1, isPtPage_of_sameTree hsame]

theorem uvmunmapLoop_spec {bound : UInt64} {do_free : Bool} (hbound : bound.toNat % 4096 = 0)
    (hbmax : bound.toNat ≤ 2 ^ 38) : ∀ (fuel : ℕ) (s : VmState) (a : UInt64), TableOk s.mem pt →
    a.toNat % 4096 = 0 → a.toNat ≤ bound.toNat → (bound.toNat - a.toNat) / 4096 < fuel →
    (∀ va, a.toNat ≤ va.toNat → va.toNat < bound.toNat → ∃ p fl, lookup s.mem pt va = some (p, fl) ∧
      fl ≠ PTE_V ∧ (do_free → s.kernelEnd ≤ p ∧ p < PHYSTOP)) →
    ∃ s', (uvmunmapLoop pt bound do_free fuel a).run s = .ok ((), s') ∧
      Unmaps s s' pt a bound do_free := by
  intro fuel s a ht ha hab hfuel hmapped
  obtain ⟨s', hrun, hu, -⟩ := uvmunmapLoop_unmaps hbound hbmax fuel s a ht ha hab hfuel hmapped
  exact ⟨s', hrun, hu⟩

/-- A call `uvmunmap(pt, va, npages, do_free)` as the kernel makes them: an aligned range
below `MAXVA`, every page of it mapped by a leaf, to a page `kfree` accepts where
`do_free`. -/
structure UnmapArgs (s : VmState) (pt va npages : UInt64) (do_free : Bool) : Prop where
  va_aligned : va.toNat % 4096 = 0
  below_maxva : va.toNat + npages.toNat * 4096 ≤ 2 ^ 38
  mapped : ∀ va', va.toNat ≤ va'.toNat → va'.toNat < va.toNat + npages.toNat * 4096 →
    ∃ p fl, lookup s.mem pt va' = some (p, fl) ∧ fl ≠ PTE_V ∧
      (do_free → s.kernelEnd ≤ p ∧ p < PHYSTOP)

/-- `uvmunmap` never panics on such a call: it removes exactly those entries, with
`do_free` puts exactly the pages they named on the free list, and keeps the pages of the
table. -/
theorem uvmunmap_unmaps {va npages : UInt64} {do_free : Bool} (ht : TableOk s.mem pt)
    (h : UnmapArgs s pt va npages do_free) :
    ∃ s', (uvmunmap pt va npages do_free).run s = .ok ((), s') ∧
      Unmaps s s' pt va (va + npages * PGSIZE) do_free ∧
      ∀ q, IsPtPage s'.mem pt q ↔ IsPtPage s.mem pt q := by
  have hend := h.below_maxva
  have hb : (va + npages * PGSIZE).toNat = va.toNat + npages.toNat * 4096 := by
    rw [UInt64.toNat_add, UInt64.toNat_mul, PGSIZE_toNat]
    have : npages.toNat * 4096 < 2 ^ 64 := by omega
    rw [Nat.mod_eq_of_lt this]
    omega
  have hal : ¬ va % PGSIZE ≠ 0 := not_not.2 ((aligned_toNat_iff va).2 h.va_aligned)
  obtain ⟨s', hrun, hu, hpt⟩ : ∃ s', (uvmunmapLoop pt (va + npages * PGSIZE) do_free pageLoopFuel va).run s =
      .ok ((), s') ∧ Unmaps s s' pt va (va + npages * PGSIZE) do_free ∧
      ∀ q, IsPtPage s'.mem pt q ↔ IsPtPage s.mem pt q := uvmunmapLoop_unmaps
    (by rw [hb]; have := h.va_aligned; omega) (by rw [hb]; omega) pageLoopFuel s va ht h.va_aligned
    (by rw [hb]; omega) (by rw [hb, pageLoopFuel_eq]; omega)
    (fun va' h1 h2 => h.mapped va' h1 (by rw [← hb]; exact h2))
  refine ⟨s', ?_, hu, hpt⟩
  simp [uvmunmap, hal, hrun]

theorem uvmunmap_spec {va npages : UInt64} {do_free : Bool} (ht : TableOk s.mem pt)
    (h : UnmapArgs s pt va npages do_free) :
    ∃ s', (uvmunmap pt va npages do_free).run s = .ok ((), s') ∧
      Unmaps s s' pt va (va + npages * PGSIZE) do_free := by
  obtain ⟨s', hrun, hu, -⟩ := uvmunmap_unmaps ht h
  exact ⟨s', hrun, hu⟩

end Unmap

/-! ## The empty table `uvmcreate` makes -/

section Empty

variable {m : Mem} {pt : UInt64}

/-- A root with no valid entry reaches no page through a non-empty path. -/
theorem node_of_empty (h : ∀ i, i < 512 → next m pt i = none) :
    ∀ path, ValidPath Idx 2 path → path ≠ [] → node (next m) pt path = none := by
  intro path
  induction path with
  | nil => intro _ hne; exact absurd rfl hne
  | cons i path ih =>
    intro hp _
    rw [node_cons]
    cases path with
    | nil => simpa using h i hp.head
    | cons j path => rw [ih hp.tail (List.cons_ne_nil j path), Option.bind_none]

theorem eq_nil_of_node_empty (h : ∀ i, i < 512 → next m pt i = none) {path : List UInt64}
    {q : UInt64} (hp : ValidPath Idx 2 path) (hq : node (next m) pt path = some q) : path = [] := by
  by_contra hne
  rw [node_of_empty h path hp hne] at hq
  cases hq

theorem isPtPage_of_empty (h : ∀ i, i < 512 → next m pt i = none) (q : UInt64) :
    IsPtPage m pt q ↔ q = pt := by
  constructor
  · rintro ⟨path, hp, hq⟩
    rw [eq_nil_of_node_empty h hp hq, node_nil] at hq
    exact (Option.some.inj hq).symm
  · rintro rfl
    exact isNode_root

theorem lookup_of_empty (h : ∀ i, i < 512 → next m pt i = none) (va : UInt64) :
    lookup m pt va = none := by
  rw [lookup, leafPte, node_of_empty h (vaPath va) (validPath_vaPath va) (by simp [vaPath])]
  simp only [Option.map_none, Option.bind_none]

/-- A table that maps nothing and whose only page is the root, with a free list of other
aligned pages, satisfies the invariant. -/
theorem good_of_empty {s : VmState} (h : ∀ i, i < 512 → next s.mem pt i = none)
    (hpt : pt.toNat % 4096 = 0) (hpt0 : pt ≠ 0) (hfa : ∀ p ∈ s.freelist, p.toNat % 4096 = 0)
    (hf0 : ∀ p ∈ s.freelist, p ≠ 0) (hnd : s.freelist.Nodup) (hout : pt ∉ s.freelist) :
    Good s pt where
  tree := {
    aligned := fun q hq => by rw [(isPtPage_of_empty h q).1 hq]; exact hpt
    ne_zero := fun q hq => by rw [(isPtPage_of_empty h q).1 hq]; exact hpt0
    unshared := fun p p' q hp hp' h1 h2 => by
      rw [eq_nil_of_node_empty h hp h1, eq_nil_of_node_empty h hp' h2] }
  free_aligned := hfa
  free_ne_zero := hf0
  free_nodup := hnd
  free_not_pt p hp hq := hout ((isPtPage_of_empty h p).1 hq ▸ hp)
  free_not_mapped p _ hmap := by
    obtain ⟨va, fl, hva⟩ := hmap
    rw [lookup_of_empty h] at hva
    cases hva
  mapped_not_pt p hmap := by
    obtain ⟨va, fl, hva⟩ := hmap
    rw [lookup_of_empty h] at hva
    cases hva

/-- Every entry of a zeroed page is invalid. -/
theorem next_fill_zero (m : Mem) (r : UInt64) : ∀ i, i < 512 → next (m.fill r 0 PGSIZE) r i = none := by
  intro i hi
  rw [next, Mem.load64_fill_zero (fun b hb => entry_sub_lt hi hb), if_neg (not_not.2 zero_not_valid)]

theorem uvmcreate_run {s : VmState} {r : UInt64} {rest : List UInt64}
    (hf : s.freelist = r :: rest) (hr : r ≠ 0) :
    uvmcreate.run s = .ok (r, { s with mem := s.mem.fill r 0 PGSIZE, freelist := rest }) := by
  simp [uvmcreate, kalloc, hf, hr, Mem.fill_fill]
  rfl

end Empty

/-! ## The abstraction the page table implements -/

/-- The page table `pt` in `s` implements the partial map `lookup s.mem pt`: `walk` finds the
PTE the map is read from, `mappages` and `uvmunmap` change the map on exactly their pages
and nowhere else, and `walkaddr` reads it for the user. -/
structure RefinesMap (s : VmState) (pt : UInt64) : Prop where
  walk_eq : ∀ va, va < MAXVA → (walk pt va false).run s = .ok ((leafPte s.mem pt va).getD 0, s)
  mappages_ok : ∀ va size pa perm, MapArgs s pt va size pa perm →
    ∃ r s', (mappages pt va size pa perm).run s = .ok (r, s') ∧ MapsPages s s' pt va size pa perm r
  uvmunmap_ok : ∀ va npages do_free, UnmapArgs s pt va npages do_free →
    ∃ s', (uvmunmap pt va npages do_free).run s = .ok ((), s') ∧
      Unmaps s s' pt va (va + npages * PGSIZE) do_free
  walkaddr_eq : ∀ va,
    (walkaddr pt va).run s = .ok (if va < MAXVA then uaddr s.mem pt va else 0, s)

theorem pagetable_refines_map {s : VmState} {pt : UInt64} (hs : Good s pt) : RefinesMap s pt where
  walk_eq _ hva := walk_run_false hva
  mappages_ok _ _ _ _ h := mappages_spec hs h
  uvmunmap_ok _ _ _ h := uvmunmap_spec hs.tableOk h
  walkaddr_eq va := walkaddr_run hs.tree va

/-- A fresh table, as `uvmcreate` leaves it on zeroed memory, with two free pages. -/
theorem pagetable_refines_map_on_fresh_table :
    Good { mem := fun _ => 0, freelist := [0x87ffe000, 0x87ffd000], kernelEnd := 0x80020000 }
        0x87fff000 ∧
      RefinesMap { mem := fun _ => 0, freelist := [0x87ffe000, 0x87ffd000], kernelEnd := 0x80020000 }
        0x87fff000 :=
  have hs : Good { mem := fun _ => 0, freelist := [0x87ffe000, 0x87ffd000], kernelEnd := 0x80020000 }
      0x87fff000 :=
    good_of_empty (fun i _ => by rw [next, Mem.load64_zero, if_neg (not_not.2 zero_not_valid)])
      (by decide) (by decide) (by simp) (by simp) (by decide) (by decide)
  ⟨hs, pagetable_refines_map hs⟩

/-- Without a free page for a level-1 table, `mappages` on a fresh table returns -1 and
leaves the page unmapped. -/
theorem mappages_maps_nothing_without_free_pages :
    (mappages 0x87fff000 0 PGSIZE 0x87ffe000 (PTE_R ||| PTE_W)).run
        { mem := fun _ => 0, freelist := [], kernelEnd := 0x80020000 } =
      .ok (-1, { mem := fun _ => 0, freelist := [], kernelEnd := 0x80020000 }) ∧
    lookup (fun _ => 0) 0x87fff000 0 = none :=
  ⟨rfl, lookup_of_empty (fun i _ => by rw [next, Mem.load64_zero, if_neg (not_not.2 zero_not_valid)]) 0⟩

end Xv6.Vm
