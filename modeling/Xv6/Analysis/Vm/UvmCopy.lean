import Xv6.Analysis.Vm.Free
import Xv6.Analysis.Memmove

/-!
# Copying an address space (`uvmcopy`)

`uvmcopy(old, new, sz)` gives `new` a copy of every page of `old` below `sz`: for each page
it takes a page off the free list, copies the parent's page into it and maps it with the
parent's flags. Where no page can be had, it unmaps and frees the pages it has mapped and
returns -1.

Both tables live in one memory and share one free list. What `uvmcopy` writes lies in
pages that were free when it started and in the pages of `new` (`WritesIn`). The pages of
`old` and the pages `old` maps are neither, so the parent's table and memory stay as they
were. `Copying` is the invariant of the loop after the pages below `a`. `uvmcopy_spec` says
what the call leaves in either case.
Source: kernel/vm.c:300-328
-/

set_option autoImplicit false

namespace Xv6.Vm

open Radix

/-! ## Writes inside a set of pages -/

/-- `m'` differs from `m` only inside pages that satisfy `P`. -/
def WritesIn (m m' : Mem) (P : UInt64 → Prop) : Prop :=
  ∀ b, (∀ q, P q → ¬ b - q < PGSIZE) → m' b = m b

section WritesIn

variable {m m' m'' : Mem} {P Q : UInt64 → Prop}

theorem WritesIn.refl (m : Mem) (P : UInt64 → Prop) : WritesIn m m P := fun _ _ => rfl

theorem WritesIn.trans (h : WritesIn m m' P) (h' : WritesIn m' m'' Q) (hQ : ∀ q, Q q → P q) :
    WritesIn m m'' P :=
  fun b hb => (h' b fun q hq => hb q (hQ q hq)).trans (h b hb)

theorem WritesIn.mono (h : WritesIn m m' P) (hP : ∀ q, P q → Q q) : WritesIn m m' Q :=
  fun b hb => h b fun q hq => hb q (hP q hq)

/-- An aligned page that is none of the aligned pages written keeps its bytes. -/
theorem WritesIn.page (h : WritesIn m m' P) {x : UInt64} (hx : x.toNat % 4096 = 0)
    (hP : ∀ q, P q → q.toNat % 4096 = 0 ∧ q ≠ x) : ∀ b, b - x < PGSIZE → m' b = m b :=
  fun b hb => h b fun q hq => Mem.page_disjoint (hP q hq).1 hx (hP q hq).2.symm b hb

/-- A table none of whose pages is written keeps its tree. -/
theorem WritesIn.sameTree (h : WritesIn m m' P) {pt : UInt64} (ht : TreeOk m pt)
    (hP : ∀ q, P q → q.toNat % 4096 = 0 ∧ ¬ IsPtPage m pt q) : SameTree m m' pt :=
  fun q hq => h.page (ht.aligned q hq) fun r hr => ⟨(hP r hr).1, fun e => (hP r hr).2 (e ▸ hq)⟩

/-- `walk` writes only inside the pages of the table it leaves. -/
theorem writesIn_grows {s s' : VmState} {pt : UInt64} (g : Grows s s' pt) :
    WritesIn s.mem s'.mem (IsPtPage s'.mem pt) :=
  fun b hb => g.frame b fun ⟨q, hq, hbq⟩ => hb q hq hbq

/-- Storing a leaf PTE writes only inside the page of level 0 that holds it. -/
theorem writesIn_store_leaf {pt va e : UInt64} (he : leafPte m pt va = some e) (v : UInt64) :
    WritesIn m (m.store64 e v) (IsPtPage m pt) := by
  obtain ⟨p0, hp0, rfl⟩ := leafPte_pt he
  intro b hb
  exact Mem.store64_of_not_lt fun hbe => hb p0 hp0 (entry_sub_lt (PX_lt 0 va) hbe)

theorem writesIn_fill (p : UInt64) (c : UInt8) : WritesIn m (m.fill p c PGSIZE) (· = p) :=
  fun _ hb => Mem.fill_of_not_lt (hb p rfl)

theorem writesIn_copy (p : UInt64) (src : Mem) (s : UInt64) :
    WritesIn m (m.copy p src s PGSIZE) (· = p) :=
  fun _ hb => Mem.copy_of_not_lt (hb p rfl)

end WritesIn

/-! ## One iteration of the loop -/

/-- The state after `kalloc` hands out the first free page `r` and `memmove` copies the
page at `p` into it. -/
def copyPage (s : VmState) (r p : UInt64) (rest : List UInt64) : VmState :=
  { s with mem := (memmove (s.mem.fill r 5 PGSIZE) r p 4096).1, freelist := rest }

/-- The permission `uvmcopy` passes to `mappages`: the flags of the PTE through `uint`
and `int`. -/
def copyPerm (e : UInt64) : UInt64 := (PTE_FLAGS e).toUInt32.toInt32.toInt64.toUInt64

section Iteration

variable {s s1 : VmState} {old new sz i e r : UInt64} {rest : List UInt64} {fuel : ℕ}

theorem uvmcopyLoop_done (h : ¬ i < sz) :
    (uvmcopyLoop old new sz (fuel + 1) i).run s = .ok (0, s) := by
  simp [uvmcopyLoop, h]
  rfl

theorem uvmcopyLoop_nomem (h : i < sz) (hw : (walk old i false).run s = .ok (e, s)) (he : e ≠ 0)
    (hv : s.mem.load64 e &&& PTE_V ≠ 0) (hf : s.freelist = []) :
    (uvmcopyLoop old new sz (fuel + 1) i).run s =
      (uvmunmap new 0 (i / PGSIZE) true >>= fun _ => pure (-1)).run s := by
  simp [uvmcopyLoop, h, StateExcept.ok_bind, hw, he, hv, kalloc, hf]

theorem uvmcopyLoop_mapfail {x : Int} (h : i < sz) (hw : (walk old i false).run s = .ok (e, s))
    (he : e ≠ 0) (hv : s.mem.load64 e &&& PTE_V ≠ 0) (hf : s.freelist = r :: rest) (hr : r ≠ 0)
    (hm : (mappages new i PGSIZE r (copyPerm (s.mem.load64 e))).run
      (copyPage s r (PTE2PA (s.mem.load64 e)) rest) = .ok (x, s1)) (hx : x ≠ 0) :
    (uvmcopyLoop old new sz (fuel + 1) i).run s =
      (kfree r >>= fun _ => uvmunmap new 0 (i / PGSIZE) true >>= fun _ => pure (-1)).run s1 := by
  simp only [copyPerm, copyPage] at hm
  simp [uvmcopyLoop, h, StateExcept.ok_bind, hw, he, hv, kalloc, hf, hr, hm, hx]

theorem uvmcopyLoop_step (h : i < sz) (hw : (walk old i false).run s = .ok (e, s))
    (he : e ≠ 0) (hv : s.mem.load64 e &&& PTE_V ≠ 0) (hf : s.freelist = r :: rest) (hr : r ≠ 0)
    (hm : (mappages new i PGSIZE r (copyPerm (s.mem.load64 e))).run
      (copyPage s r (PTE2PA (s.mem.load64 e)) rest) = .ok (0, s1)) :
    (uvmcopyLoop old new sz (fuel + 1) i).run s = (uvmcopyLoop old new sz fuel (i + PGSIZE)).run s1 := by
  simp only [copyPerm, copyPage] at hm
  simp [uvmcopyLoop, h, StateExcept.ok_bind, hw, he, hv, kalloc, hf, hr, hm]

end Iteration

/-! ## The page copied -/

section Copied

variable {s : VmState} {pt r p : UInt64} {rest : List UInt64}

theorem PHYSTOP_lt {x : UInt64} (h : x < PHYSTOP) : x.toNat + 4096 ≤ 2 ^ 64 := by
  rw [UInt64.lt_iff_toNat_lt, PHYSTOP_toNat] at h
  omega

theorem copyPage_mem (hr : r < PHYSTOP) (hp : p < PHYSTOP) :
    (copyPage s r p rest).mem = (s.mem.fill r 5 PGSIZE).copy r (s.mem.fill r 5 PGSIZE) p PGSIZE := by
  rw [copyPage, memmove_spec _ _ _ _ (PHYSTOP_lt hp) (PHYSTOP_lt hr)]
  rfl

/-- Taking and copying a page writes only inside it. -/
theorem writesIn_copyPage (hr : r < PHYSTOP) (hp : p < PHYSTOP) :
    WritesIn s.mem (copyPage s r p rest).mem (· = r) := by
  rw [copyPage_mem hr hp]
  exact (writesIn_fill r 5).trans (writesIn_copy r _ p) fun _ h => h

/-- The page taken holds the bytes of the page copied. -/
theorem copyPage_page (hra : r.toNat % 4096 = 0) (hpa : p.toNat % 4096 = 0) (hrp : r ≠ p)
    (hr : r < PHYSTOP) (hp : p < PHYSTOP) {k : UInt64} (hk : k < PGSIZE) :
    (copyPage s r p rest).mem (r + k) = s.mem (p + k) := by
  have hrk : r + k - r = k := by grind
  have hpk : p + k - p = k := by grind
  rw [copyPage_mem hr hp, Mem.copy_of_lt (by rw [hrk]; exact hk), hrk]
  exact Mem.fill_of_not_lt (Mem.page_disjoint hra hpa hrp.symm (p + k) (by rw [hpk]; exact hk))

theorem sameTree_copyPage (hs : Good s pt) (hf : s.freelist = r :: rest) (hr : r < PHYSTOP)
    (hp : p < PHYSTOP) : SameTree s.mem (copyPage s r p rest).mem pt := by
  have hrf : r ∈ s.freelist := by simp [hf]
  exact (writesIn_copyPage hr hp).sameTree hs.tree fun q hq => by
    subst hq
    exact ⟨hs.free_aligned q hrf, hs.free_not_pt q hrf⟩

end Copied

/-! ## The flags copied -/

theorem PTE_FLAGS_lt (e : UInt64) : PTE_FLAGS e < 1024 := by
  rw [UInt64.lt_iff_toNat_lt, PTE_FLAGS, UInt64.toNat_and]
  exact lt_of_le_of_lt Nat.and_le_right (by decide)

/-- The flags survive the trip through `uint` and `int`. -/
theorem copyPerm_eq (e : UInt64) : copyPerm e = PTE_FLAGS e := by
  have h := PTE_FLAGS_lt e
  simp only [UInt64.lt_iff_toNat_lt, UInt64.reduceToNat] at h
  exact toInt32_toUInt64_of_lt (by omega)

/-- The flags of a valid PTE have `PTE_V`, so `mappages` adds nothing to them. -/
theorem PTE_FLAGS_or_V {e : UInt64} (he : e &&& PTE_V ≠ 0) : PTE_FLAGS e ||| PTE_V = PTE_FLAGS e := by
  apply UInt64.toNat_inj.mp
  have h1 : (1 : UInt64).toNat = 1 := rfl
  have h : (0x3FF : UInt64).toNat = 2 ^ 10 - 1 := rfl
  have hodd : e.toNat % 2 = 1 := by
    rw [PTE_V_eq] at he
    have h0 : (e &&& 1).toNat ≠ 0 := fun h0 => he (UInt64.toNat_inj.mp (by rw [h0]; rfl))
    rw [UInt64.toNat_and, h1, Nat.and_one_is_mod] at h0
    omega
  rw [PTE_FLAGS, UInt64.toNat_or, UInt64.toNat_and, PTE_V_eq, h1, h, Nat.and_two_pow_sub_one_eq_mod]
  -- bit 0 of the flags is set already
  apply Nat.eq_of_testBit_eq
  intro i
  rw [Nat.testBit_or]
  cases i with
  | zero => simp [Nat.testBit_zero, hodd]
  | succ i => simp [Nat.testBit_succ]

/-- The flags a table maps a page with are those of a valid PTE. -/
theorem lookup_flags {m : Mem} {pt va p fl : UInt64} (h : lookup m pt va = some (p, fl)) :
    fl < 1024 ∧ fl ||| PTE_V = fl := by
  cases hl : leafPte m pt va with
  | none => simp [lookup, hl] at h
  | some e =>
    rw [lookup, hl, Option.bind_some] at h
    obtain ⟨hv, -, rfl⟩ := decode_eq_some h
    exact ⟨PTE_FLAGS_lt _, PTE_FLAGS_or_V hv⟩

/-! ## The invariant of the loop -/

/-- What `uvmcopy(old, new, sz)` needs: `old` is an address space of size `sz`; `new` has
the invariant and the shape `walk` builds, and maps nothing below `TRAPFRAME`; and no page
of `new` is a page of `old` or a page `old` maps. -/
structure CopyArgs (s : VmState) (old new sz : UInt64) : Prop where
  space : AddrSpace s old sz
  good : Good s new
  shaped : Shaped s.mem new
  empty : ∀ va, va < TRAPFRAME → lookup s.mem new va = none
  apart : ∀ q, IsPtPage s.mem new q → ¬ IsPtPage s.mem old q ∧ ¬ IsMapped s.mem old q

/-- The pages `uvmcopy` may write: those free when it starts and the pages of `new`. -/
def CopyArgs.Writable (s : VmState) (new q : UInt64) : Prop := q ∈ s.freelist ∨ IsPtPage s.mem new q

/-- A page `uvmcopy` may write is none of `old`'s. -/
theorem CopyArgs.writable {s : VmState} {old new sz q : UInt64} (h : CopyArgs s old new sz)
    (hq : CopyArgs.Writable s new q) :
    q.toNat % 4096 = 0 ∧ ¬ IsPtPage s.mem old q ∧ ¬ IsMapped s.mem old q := by
  have hg := h.space.good
  rcases hq with hq | hq
  · exact ⟨hg.free_aligned q hq, hg.free_not_pt q hq, hg.free_not_mapped q hq⟩
  · exact ⟨h.good.tree.aligned q hq, h.apart q hq⟩

/-- The loop of `uvmcopy` from `s₀` after the pages of `[0, a)`: `new` has the invariant and
its shape; each of those pages is mapped in `new`, with the flags `old` maps it with in
`s₀`, to a page taken from the free list of `s₀` that holds the bytes of the page `old`
maps it to, no two to the same page; every other page is as in `s₀`; the free list is what
is left of that of `s₀`; `new` has the pages it had and some taken from the free list;
every page taken is a page of `new` or one of those mapped; and only pages `uvmcopy` may
write were written. -/
structure Copying (s₀ s : VmState) (old new a : UInt64) : Prop where
  good : Good s new
  shaped : Shaped s.mem new
  kernelEnd : s.kernelEnd = s₀.kernelEnd
  aligned : a.toNat % 4096 = 0
  suffix : s.freelist <:+ s₀.freelist
  copied : ∀ va, va.toNat < a.toNat → ∃ q p fl, lookup s.mem new va = some (q, fl) ∧
    lookup s₀.mem old va = some (p, fl) ∧ q ∈ s₀.freelist ∧ q ∉ s.freelist ∧
    ∀ k, k < PGSIZE → s.mem (q + k) = s₀.mem (p + k)
  inj : ∀ va va' q fl fl', va.toNat < a.toNat → va'.toNat < a.toNat →
    lookup s.mem new va = some (q, fl) → lookup s.mem new va' = some (q, fl') →
    va.toNat / 4096 = va'.toNat / 4096
  other : ∀ va, va < MAXVA → a.toNat ≤ va.toNat → lookup s.mem new va = lookup s₀.mem new va
  pt_new : ∀ q, IsPtPage s.mem new q → IsPtPage s₀.mem new q ∨ (q ∈ s₀.freelist ∧ q ∉ s.freelist)
  pt_old : ∀ q, IsPtPage s₀.mem new q → IsPtPage s.mem new q
  taken : ∀ q ∈ s₀.freelist, q ∉ s.freelist → IsPtPage s.mem new q ∨
    ∃ va fl, va.toNat < a.toNat ∧ lookup s.mem new va = some (q, fl)
  writes : WritesIn s₀.mem s.mem (CopyArgs.Writable s₀ new)

section Copying

variable {s₀ s s1 : VmState} {old new sz a : UInt64}

theorem Copying.init (h : CopyArgs s₀ old new sz) : Copying s₀ s₀ old new 0 where
  good := h.good
  shaped := h.shaped
  kernelEnd := rfl
  aligned := rfl
  suffix := List.suffix_refl _
  copied _ h := absurd h (Nat.not_lt_zero _)
  inj _ _ _ _ _ h := absurd h (Nat.not_lt_zero _)
  other _ _ _ := rfl
  pt_new _ h := .inl h
  pt_old _ h := h
  taken _ h h' := absurd h h'
  writes := WritesIn.refl _ _

/-- The parent's table is as in `s₀`. -/
theorem Copying.old_same (hc : Copying s₀ s old new a) (h : CopyArgs s₀ old new sz) :
    SameTree s₀.mem s.mem old :=
  hc.writes.sameTree h.space.good.tree fun _ hq => ⟨(h.writable hq).1, (h.writable hq).2.1⟩

/-- A page the parent maps in `s₀` holds its bytes. -/
theorem Copying.old_page (hc : Copying s₀ s old new a) (h : CopyArgs s₀ old new sz) {p : UInt64}
    (hp : IsMapped s₀.mem old p) : ∀ b, b - p < PGSIZE → s.mem b = s₀.mem b := by
  obtain ⟨va, fl, hl⟩ := hp
  exact hc.writes.page (lookup_aligned hl) fun q hq =>
    ⟨(h.writable hq).1, fun e => (h.writable hq).2.2 (e ▸ ⟨va, fl, hl⟩)⟩

/-- One iteration that copies the parent's page `p` of `a` into the page `r` it took and
maps it at `a` with the parent's flags keeps the invariant one page on. -/
theorem Copying.step {p fl r e : UInt64} {rest : List UInt64} (hc : Copying s₀ s old new a)
    (h : CopyArgs s₀ old new sz) (hlt : a.toNat < (PGROUNDUP sz).toNat)
    (hlk : lookup s₀.mem old a = some (p, fl)) (hf : s.freelist = r :: rest)
    (hwalk : (walk new a true).run (copyPage s r p rest) = .ok (e, s1))
    (g1 : Grows (copyPage s r p rest) s1 new) (he : leafPte s1.mem new a = some e) :
    Copying s₀ (mapped s1 e r fl) old new (a + PGSIZE) := by
  have hs := hc.good
  have hsp := h.space
  have hroom := PGROUNDUP_le_TRAPFRAME hsp.sz_lt
  have htf := TRAPFRAME_toNat
  have hamax : a < MAXVA := UInt64.lt_iff_toNat_lt.2 (by rw [MAXVA_toNat]; omega)
  have ha' : (a + PGSIZE).toNat = a.toNat + 4096 := toNat_add_PGSIZE (by omega)
  have hal := hc.aligned
  obtain ⟨hfl, hflv⟩ := lookup_flags hlk
  -- the page taken was free in `s₀`; the page copied is the parent's, which was not
  have hr : r ∈ s.freelist := by simp [hf]
  have hr₀ : r ∈ s₀.freelist := hc.suffix.subset hr
  have hrR : r < PHYSTOP := (hsp.free_ram r hr₀).2
  have hra : r.toNat % 4096 = 0 := hs.free_aligned r hr
  have hpa : p.toNat % 4096 = 0 := lookup_aligned hlk
  have hpR : p < PHYSTOP := by
    obtain ⟨p', fl', hl', -, -, hp'⟩ := hsp.user a (by omega)
    rw [hlk] at hl'
    cases hl'
    exact hp'
  have hpm : IsMapped s₀.mem old p := ⟨a, fl, hlk⟩
  have hrp : r ≠ p := fun e => hsp.good.free_not_mapped r hr₀ (e ▸ hpm)
  have hm := sameTree_copyPage hs hf hrR hpR
  obtain ⟨hgood, hlook, hpt, hpt1, hrfree, hrpt⟩ := pop_map_facts hs hf hm g1 he hamax hfl
  have hsuf1 : s1.freelist <:+ s.freelist :=
    g1.free_suffix.trans (by rw [hf]; exact List.suffix_cons r rest)
  -- what the iteration writes: the page taken and pages of `new`
  have hw : WritesIn s.mem (mapped s1 e r fl).mem (fun x => x = r ∨ IsPtPage s1.mem new x) :=
    (((writesIn_copyPage hrR hpR).mono fun _ hx => .inl hx).trans (writesIn_grows g1)
      fun _ hx => .inr hx).trans (writesIn_store_leaf he _) fun _ hx => .inr hx
  have hwr : ∀ x, (x = r ∨ IsPtPage s1.mem new x) →
      x.toNat % 4096 = 0 ∧ (x ∈ s.freelist ∨ IsPtPage s.mem new x) := by
    rintro x (rfl | hx)
    · exact ⟨hra, .inl hr⟩
    · refine ⟨g1.good.tree.aligned x hx, ?_⟩
      rcases (hpt1 x).1 hx with hx | ⟨hx, -⟩
      · exact .inr hx
      · exact .inl (by rw [hf]; exact List.mem_cons_of_mem r hx)
  -- a page neither free nor of `new` keeps its bytes through the iteration
  have hkeep : ∀ x, x.toNat % 4096 = 0 → x ∉ s.freelist → ¬ IsPtPage s.mem new x →
      ∀ b, b - x < PGSIZE → (mapped s1 e r fl).mem b = s.mem b := by
    intro x hx hxf hxp
    refine hw.page hx fun q hq => ⟨(hwr q hq).1, ?_⟩
    rintro rfl
    rcases (hwr q hq).2 with h1 | h1
    · exact hxf h1
    · exact hxp h1
  -- the page taken holds the parent's bytes
  have hrbytes : ∀ k, k < PGSIZE → (mapped s1 e r fl).mem (r + k) = s₀.mem (p + k) := by
    intro k hk
    have hlate : WritesIn (copyPage s r p rest).mem (mapped s1 e r fl).mem (IsPtPage s1.mem new) :=
      (writesIn_grows g1).trans (writesIn_store_leaf he _) fun _ hx => hx
    have hrk : r + k - r < PGSIZE := by rw [show r + k - r = k by grind]; exact hk
    have hpk : p + k - p < PGSIZE := by rw [show p + k - p = k by grind]; exact hk
    rw [hlate.page hra (fun q hq => ⟨g1.good.tree.aligned q hq, fun e => hrpt (e ▸ hq)⟩) (r + k) hrk,
      copyPage_page hra hpa hrp hrR hpR hk, hc.old_page h hpm (p + k) hpk]
  have hlook' : ∀ va, va < MAXVA → lookup (mapped s1 e r fl).mem new va =
      if va.toNat / 4096 = a.toNat / 4096 then some (r, fl) else lookup s.mem new va := by
    intro va hva
    rw [hlook va hva, hflv]
  have hvamax : ∀ va : UInt64, va.toNat < a.toNat + 4096 → va < MAXVA := fun va h1 =>
    UInt64.lt_iff_toNat_lt.2 (by rw [MAXVA_toNat]; omega)
  refine ⟨hgood, ?_, ?_, by rw [ha']; omega, hsuf1.trans hc.suffix, fun va hva => ?_,
    fun va va' q fl₁ fl₂ h1 h2 hl hl2 => ?_, fun va hva hge => ?_, fun q hq => ?_,
    fun q hq => (hpt q).2 (.inl (hc.pt_old q hq)), fun q hq hq2 => ?_, ?_⟩
  · -- the shape: `walk` keeps it, and so does the leaf store
    have hsh := walk_shaped (good_pop hs hf hm) hamax hwalk
      (hc.shaped.of_upperSame (upperSame_of_sameTree hm))
    exact hsh.of_upperSame (upperSame_store_leaf g1.good.tree he _)
  · show s1.kernelEnd = s₀.kernelEnd
    rw [g1.kernelEnd]
    exact hc.kernelEnd
  · -- a page copied by this iteration or by an earlier one
    rw [ha'] at hva
    rw [hlook' va (hvamax va hva)]
    by_cases hpage : va.toNat / 4096 = a.toNat / 4096
    · rw [if_pos hpage, lookup_congr (hvamax va hva) hamax hpage, hlk]
      exact ⟨r, p, fl, rfl, rfl, hr₀, hrfree, hrbytes⟩
    · rw [if_neg hpage]
      obtain ⟨q, p2, fl2, hl, hl₀, hq₀, hqf, hbytes⟩ := hc.copied va (by omega)
      refine ⟨q, p2, fl2, hl, hl₀, hq₀, fun h1 => hqf (hsuf1.subset h1), fun k hk => ?_⟩
      have hqa := lookup_aligned hl
      have hqk : q + k - q < PGSIZE := by rw [show q + k - q = k by grind]; exact hk
      rw [hkeep q hqa (fun h1 => hs.free_not_mapped q h1 ⟨va, fl2, hl⟩)
        (hs.mapped_not_pt q ⟨va, fl2, hl⟩) (q + k) hqk, hbytes k hk]
  · rw [ha'] at h1 h2
    rw [hlook' va (hvamax va h1)] at hl
    rw [hlook' va' (hvamax va' h2)] at hl2
    -- `r` was free, so no earlier page is mapped to it
    have hold : ∀ x fl3, lookup s.mem new x = some (r, fl3) → False :=
      fun x fl3 hx => hs.free_not_mapped r hr ⟨x, fl3, hx⟩
    by_cases hp1 : va.toNat / 4096 = a.toNat / 4096 <;>
      by_cases hp2 : va'.toNat / 4096 = a.toNat / 4096
    · omega
    · rw [if_pos hp1] at hl
      rw [if_neg hp2] at hl2
      cases (Prod.mk.inj (Option.some.inj hl)).1
      exact (hold va' fl₂ hl2).elim
    · rw [if_neg hp1] at hl
      rw [if_pos hp2] at hl2
      cases (Prod.mk.inj (Option.some.inj hl2)).1
      exact (hold va fl₁ hl).elim
    · rw [if_neg hp1] at hl
      rw [if_neg hp2] at hl2
      exact hc.inj va va' q fl₁ fl₂ (by omega) (by omega) hl hl2
  · rw [ha'] at hge
    rw [hlook' va hva, if_neg (by omega)]
    exact hc.other va hva (by omega)
  · rcases (hpt q).1 hq with h1 | ⟨h1, h2⟩
    · rcases hc.pt_new q h1 with h1 | ⟨h1, h3⟩
      · exact .inl h1
      · exact .inr ⟨h1, fun h4 => h3 (hsuf1.subset h4)⟩
    · exact .inr ⟨hc.suffix.subset (by rw [hf]; exact List.mem_cons_of_mem r h1), h2⟩
  · -- a page taken: in this iteration, `r` or a page of `new`; or before
    by_cases hqs : q ∈ s.freelist
    · rw [hf, List.mem_cons] at hqs
      rcases hqs with rfl | hqr
      · refine .inr ⟨a, fl, by rw [ha']; omega, ?_⟩
        rw [hlook' a hamax, if_pos rfl]
      · exact .inl ((hpt q).2 (.inr ⟨hqr, hq2⟩))
    · rcases hc.taken q hq hqs with h1 | ⟨va, fl3, h1, hl⟩
      · exact .inl ((hpt q).2 (.inl h1))
      · refine .inr ⟨va, fl3, by rw [ha']; omega, ?_⟩
        rw [hlook' va (hvamax va (by omega)), if_neg (by omega), hl]
  · -- what was written: pages free in `s₀` or of `new` in `s₀`
    refine hc.writes.trans hw fun x hx => ?_
    rcases (hwr x hx).2 with h1 | h1
    · exact .inl (hc.suffix.subset h1)
    · rcases hc.pt_new x h1 with h1 | ⟨h1, -⟩
      · exact .inr h1
      · exact .inl h1

end Copying

/-- What `uvmunmap` writes, as pages: pages of the table, and with `do_free` the pages of
`[a, bound)` it frees. -/
theorem writesIn_of_unmapFrame {s s' : VmState} {pt a bound : UInt64} {do_free : Bool}
    (hf : UnmapFrame s s' pt a bound do_free) :
    WritesIn s.mem s'.mem fun x => IsPtPage s.mem pt x ∨ (do_free = true ∧
      ∃ va fl, a.toNat ≤ va.toNat ∧ va.toNat < bound.toNat ∧ lookup s.mem pt va = some (x, fl)) := by
  intro b hb
  apply hf b
  · intro va e _ _ he hbe
    obtain ⟨p0, hp0, rfl⟩ := leafPte_pt he
    exact hb p0 (.inl hp0) (entry_sub_lt (PX_lt 0 va) hbe)
  · intro hd va p fl h1 h2 hl
    exact hb p (.inr ⟨hd, va, fl, h1, h2, hl⟩)

/-! ## Unwinding -/

/-- The state at the label `err` of `uvmcopy` after the pages of `[0, a)`: `new` keeps its
tree and shape; those pages are mapped to distinct pages taken off the free list of `s₀`;
every other page is as in `s₀`; the free list has no duplicates and, with the pages mapped
below `a`, is the free list of `s₀` less the pages `new` gained; and only pages `uvmcopy`
may write were written. -/
structure Unwinding (s₀ s : VmState) (new a : UInt64) : Prop where
  table : TableOk s.mem new
  shaped : Shaped s.mem new
  kernelEnd : s.kernelEnd = s₀.kernelEnd
  aligned : a.toNat % 4096 = 0
  le : a.toNat ≤ TRAPFRAME.toNat
  user : ∀ va, va.toNat < a.toNat → ∃ q fl, lookup s.mem new va = some (q, fl) ∧ fl ≠ PTE_V ∧
    q ∈ s₀.freelist
  inj : ∀ va va' q fl fl', va.toNat < a.toNat → va'.toNat < a.toNat →
    lookup s.mem new va = some (q, fl) → lookup s.mem new va' = some (q, fl') →
    va.toNat / 4096 = va'.toNat / 4096
  other : ∀ va, va < MAXVA → a.toNat ≤ va.toNat → lookup s.mem new va = lookup s₀.mem new va
  free_nodup : s.freelist.Nodup
  free_iff : ∀ q, (q ∈ s.freelist ∨ ∃ va fl, va.toNat < a.toNat ∧ lookup s.mem new va = some (q, fl)) ↔
    q ∈ s₀.freelist ∧ ¬ IsPtPage s.mem new q
  user_not_free : ∀ va q fl, va.toNat < a.toNat → lookup s.mem new va = some (q, fl) → q ∉ s.freelist
  pt_new : ∀ q, IsPtPage s.mem new q → IsPtPage s₀.mem new q ∨ q ∈ s₀.freelist
  pt_old : ∀ q, IsPtPage s₀.mem new q → IsPtPage s.mem new q
  writes : WritesIn s₀.mem s.mem (CopyArgs.Writable s₀ new)

/-- What a failed `uvmcopy` leaves: `new` keeps its tree and shape, maps nothing below
`TRAPFRAME` and the rest as before; the free list has no duplicates and is the free list
of `s₀` less the pages `new` gained; and only pages `uvmcopy` may write were written. -/
structure CopyFailed (s₀ s : VmState) (new : UInt64) : Prop where
  table : TableOk s.mem new
  shaped : Shaped s.mem new
  kernelEnd : s.kernelEnd = s₀.kernelEnd
  lookup_eq : ∀ va, va < MAXVA →
    lookup s.mem new va = if va < TRAPFRAME then none else lookup s₀.mem new va
  free_nodup : s.freelist.Nodup
  free_iff : ∀ q, q ∈ s.freelist ↔ q ∈ s₀.freelist ∧ ¬ IsPtPage s.mem new q
  pt_new : ∀ q, IsPtPage s.mem new q → IsPtPage s₀.mem new q ∨ q ∈ s₀.freelist
  pt_old : ∀ q, IsPtPage s₀.mem new q → IsPtPage s.mem new q
  writes : WritesIn s₀.mem s.mem (CopyArgs.Writable s₀ new)

section Unwind

variable {s₀ s : VmState} {old new sz a : UInt64}

/-- `uvmunmap(new, 0, a / PGSIZE, 1)` at the label `err` puts every page copied back on the
free list. -/
theorem Unwinding.unwind (hu : Unwinding s₀ s new a) (h : CopyArgs s₀ old new sz) :
    ∃ s', (uvmunmap new 0 (a / PGSIZE) true).run s = .ok ((), s') ∧ CopyFailed s₀ s' new := by
  have htf := TRAPFRAME_toNat
  have hle := hu.le
  have hal := hu.aligned
  have hn : (a / PGSIZE).toNat = a.toNat / 4096 := by
    rw [UInt64.toNat_div, PGSIZE_toNat]
  have hb : (0 + a / PGSIZE * PGSIZE : UInt64).toNat = a.toNat := by
    rw [UInt64.zero_add, UInt64.toNat_mul, hn, PGSIZE_toNat]
    omega
  have hargs : UnmapArgs s new 0 (a / PGSIZE) true := by
    refine ⟨rfl, by rw [hn]; simp only [UInt64.reduceToNat]; omega, fun va _ h2 => ?_⟩
    simp only [UInt64.reduceToNat, Nat.zero_add, hn] at h2
    obtain ⟨q, fl, hl, hfl, hq⟩ := hu.user va (by omega)
    exact ⟨q, fl, hl, hfl, fun _ => by rw [hu.kernelEnd]; exact h.space.free_ram q hq⟩
  obtain ⟨s', hrun, ⟨ht', hend', hlook', hfree'⟩, hpt'⟩ := uvmunmap_unmaps hu.table hargs
  have hframe := uvmunmap_frame hu.table hargs hrun
  have hnd : s'.freelist.Nodup := by
    refine uvmunmap_nodup hu.table hargs (fun va va' q fl fl' _ h2 _ h4 hl hl' => ?_)
      (fun va q fl _ h2 hl => hu.user_not_free va q fl
        (by simp only [UInt64.reduceToNat, Nat.zero_add, hn] at h2; omega) hl)
      hu.free_nodup hrun
    simp only [UInt64.reduceToNat, Nat.zero_add, hn] at h2 h4
    exact hu.inj va va' q fl fl' (by omega) (by omega) hl hl'
  -- the pages unmapped are those below `a`
  have hrange : ∀ va : UInt64, ((0 : UInt64).toNat ≤ va.toNat ∧ va.toNat < (0 + a / PGSIZE * PGSIZE).toNat) ↔
      va.toNat < a.toNat := by
    intro va
    rw [hb]
    simp
  refine ⟨s', hrun, ht', hu.shaped.of_upperSame (upperSame_of_unmapFrame hu.table hframe),
    hend'.trans hu.kernelEnd, fun va hva => ?_, hnd, fun q => ?_, fun q hq => ?_,
    fun q hq => (hpt' q).2 (hu.pt_old q hq), ?_⟩
  · rw [hlook' va hva]
    by_cases hlt : va.toNat < a.toNat
    · rw [if_pos ((hrange va).2 hlt), if_pos (UInt64.lt_iff_toNat_lt.2 (by omega))]
    · rw [if_neg (fun h' => hlt ((hrange va).1 h')), hu.other va hva (by omega)]
      by_cases htr : va < TRAPFRAME
      · rw [if_pos htr, h.empty va htr]
      · rw [if_neg htr]
  · rw [hfree' q, hpt' q, ← hu.free_iff q]
    constructor
    · rintro (hq | ⟨-, va, h1, h2, fl, hl⟩)
      · exact .inl hq
      · exact .inr ⟨va, fl, (hrange va).1 ⟨h1, h2⟩, hl⟩
    · rintro (hq | ⟨va, fl, h1, hl⟩)
      · exact .inl hq
      · exact .inr ⟨rfl, va, ((hrange va).2 h1).1, ((hrange va).2 h1).2, fl, hl⟩
  · exact hu.pt_new q ((hpt' q).1 hq)
  · -- the leaf PTEs lie in pages of `new`, the pages freed were taken from the free list
    refine hu.writes.trans (writesIn_of_unmapFrame hframe) fun x hx => ?_
    rcases hx with hx | ⟨-, va, fl, -, h2, hl⟩
    · rcases hu.pt_new x hx with hx | hx
      · exact .inr hx
      · exact .inl hx
    · rw [hb] at h2
      obtain ⟨q, fl', hl', -, hq⟩ := hu.user va h2
      rw [hl] at hl'
      cases hl'
      exact .inl hq

end Unwind

section Unwind2

variable {s₀ s s1 : VmState} {old new sz a : UInt64}

/-- The flags of a copied page are the parent's, which name a leaf. -/
theorem Copying.user (hc : Copying s₀ s old new a) (h : CopyArgs s₀ old new sz)
    (ha : a.toNat ≤ (PGROUNDUP sz).toNat) :
    ∀ va, va.toNat < a.toNat → ∃ q fl, lookup s.mem new va = some (q, fl) ∧ fl ≠ PTE_V ∧
      q ∈ s₀.freelist := by
  intro va hva
  obtain ⟨q, p, fl, hl, hl₀, hq, -, -⟩ := hc.copied va hva
  obtain ⟨p', fl', hl', hfl', -⟩ := h.space.user va (by omega)
  rw [hl₀] at hl'
  cases hl'
  exact ⟨q, fl, hl, hfl', hq⟩

/-- `kalloc` found no page: the label `err` after the pages below `a`. -/
theorem Copying.unwinding (hc : Copying s₀ s old new a) (h : CopyArgs s₀ old new sz)
    (ha : a.toNat ≤ (PGROUNDUP sz).toNat) : Unwinding s₀ s new a := by
  have hs := hc.good
  have hroom := PGROUNDUP_le_TRAPFRAME h.space.sz_lt
  refine ⟨hs.tableOk, hc.shaped, hc.kernelEnd, hc.aligned, by omega, hc.user h ha, hc.inj,
    hc.other, hs.free_nodup, fun q => ?_, fun va q fl _ hl hq => hs.free_not_mapped q hq ⟨va, fl, hl⟩,
    fun q hq => (hc.pt_new q hq).imp_right And.left, hc.pt_old, hc.writes⟩
  constructor
  · rintro (hq | ⟨va, fl, hva, hl⟩)
    · exact ⟨hc.suffix.subset hq, hs.free_not_pt q hq⟩
    · obtain ⟨q', p, fl', hl', -, hq, -, -⟩ := hc.copied va hva
      rw [hl] at hl'
      cases hl'
      exact ⟨hq, hs.mapped_not_pt q ⟨va, fl, hl⟩⟩
  · rintro ⟨hq, hnpt⟩
    by_cases hqs : q ∈ s.freelist
    · exact .inl hqs
    · rcases hc.taken q hq hqs with hpt | hmap
      · exact absurd hpt hnpt
      · exact .inr hmap

/-- `mappages` found no page for the table: `kfree(mem)` and the label `err` after the pages
below `a`. -/
theorem Copying.unwinding_mapfail {p fl r : UInt64} {rest : List UInt64}
    (hc : Copying s₀ s old new a) (h : CopyArgs s₀ old new sz) (hlt : a.toNat < (PGROUNDUP sz).toNat)
    (hlk : lookup s₀.mem old a = some (p, fl)) (hf : s.freelist = r :: rest)
    (hwalk : (walk new a true).run (copyPage s r p rest) = .ok (0, s1))
    (g1 : Grows (copyPage s r p rest) s1 new) (hempty : s1.freelist = []) :
    ∃ s2, (kfree r).run s1 = .ok ((), s2) ∧ Unwinding s₀ s2 new a := by
  have hs := hc.good
  have hsp := h.space
  have hroom := PGROUNDUP_le_TRAPFRAME hsp.sz_lt
  have htf := TRAPFRAME_toNat
  have hamax : a < MAXVA := UInt64.lt_iff_toNat_lt.2 (by rw [MAXVA_toNat]; omega)
  have hr : r ∈ s.freelist := by simp [hf]
  have hr₀ : r ∈ s₀.freelist := hc.suffix.subset hr
  obtain ⟨hlo, hhi⟩ := hsp.free_ram r hr₀
  have hra : r.toNat % 4096 = 0 := hs.free_aligned r hr
  have hpR : p < PHYSTOP := by
    obtain ⟨p', fl', hl', -, -, hp'⟩ := hsp.user a (by omega)
    rw [hlk] at hl'
    cases hl'
    exact hp'
  have hm := sameTree_copyPage hs hf hhi hpR
  have hnd := hs.free_nodup
  rw [hf, List.nodup_cons] at hnd
  -- the pages of `new` are those of `s` and all of the rest of the free list
  have hpt1 : ∀ q, IsPtPage s1.mem new q ↔ IsPtPage s.mem new q ∨ q ∈ rest := by
    intro q
    rw [g1.pages, isPtPage_of_sameTree hm, hempty]
    simp [copyPage]
  have hrpt : ¬ IsPtPage s1.mem new r := by
    rw [hpt1]
    rintro (h' | h')
    · exact hs.free_not_pt r hr h'
    · exact hnd.1 h'
  obtain ⟨s2, hk, hend2, hfl2, hframe2⟩ :=
    kfree_spec hra (by rw [g1.kernelEnd]; show s.kernelEnd ≤ r; rw [hc.kernelEnd]; exact hlo) hhi
  have hw2 : WritesIn s1.mem s2.mem (· = r) := fun b hb => hframe2 b (hb r rfl)
  have hsame2 : SameTree s1.mem s2.mem new :=
    hw2.sameTree g1.good.tree fun q hq => by subst hq; exact ⟨hra, hrpt⟩
  -- `new` maps in `s2` what it maps in `s`
  have hlook2 : ∀ va, lookup s2.mem new va = lookup s.mem new va := by
    intro va
    rw [lookup_of_sameTree hsame2, g1.lookup_eq, lookup_of_sameTree hm]
  have hpt2 : ∀ q, IsPtPage s2.mem new q ↔ IsPtPage s.mem new q ∨ q ∈ rest := by
    intro q
    rw [isPtPage_of_sameTree hsame2, hpt1]
  have hfree2 : s2.freelist = [r] := by rw [hfl2, hempty]
  have hmapped : ∀ va q fl', va.toNat < a.toNat → lookup s.mem new va = some (q, fl') → q ≠ r :=
    fun va q fl' _ hl e => hs.free_not_mapped r hr (e ▸ ⟨va, fl', hl⟩)
  refine ⟨s2, hk, ⟨tableOk_of_sameTree hsame2 g1.good.tableOk, ?_, ?_, hc.aligned, by omega,
    fun va hva => ?_, fun va va' q fl₁ fl₂ h1 h2 hl hl2 => ?_, fun va hva hge => ?_,
    by rw [hfree2]; exact List.nodup_singleton r, fun q => ?_, fun va q fl' hva hl => ?_,
    fun q hq => ?_, fun q hq => (hpt2 q).2 (.inl (hc.pt_old q hq)), ?_⟩⟩
  · -- `walk` keeps the shape, and `kfree` writes no page of `new`
    have hsh := walk_shaped (good_pop hs hf hm) hamax hwalk
      (hc.shaped.of_upperSame (upperSame_of_sameTree hm))
    exact hsh.of_upperSame (upperSame_of_sameTree hsame2)
  · rw [hend2, g1.kernelEnd]
    exact hc.kernelEnd
  · rw [hlook2]
    exact hc.user h (by omega) va hva
  · rw [hlook2] at hl hl2
    exact hc.inj va va' q fl₁ fl₂ h1 h2 hl hl2
  · rw [hlook2]
    exact hc.other va hva hge
  · rw [hfree2, hpt2, List.mem_singleton]
    constructor
    · rintro (rfl | ⟨va, fl', hva, hl⟩)
      · exact ⟨hr₀, fun h' => h'.elim (hs.free_not_pt q hr) hnd.1⟩
      · rw [hlook2] at hl
        obtain ⟨q', p', fl₃, hl', -, hq, -, -⟩ := hc.copied va hva
        rw [hl] at hl'
        cases hl'
        refine ⟨hq, fun h' => h'.elim (hs.mapped_not_pt q ⟨va, fl', hl⟩) fun hqr => ?_⟩
        exact hs.free_not_mapped q (by rw [hf]; exact List.mem_cons_of_mem r hqr) ⟨va, fl', hl⟩
    · rintro ⟨hq, hnpt⟩
      by_cases hqs : q ∈ s.freelist
      · rw [hf, List.mem_cons] at hqs
        rcases hqs with rfl | hqr
        · exact .inl rfl
        · exact absurd (.inr hqr) hnpt
      · rcases hc.taken q hq hqs with hpt | ⟨va, fl', hva, hl⟩
        · exact absurd (.inl hpt) hnpt
        · exact .inr ⟨va, fl', hva, by rw [hlook2]; exact hl⟩
  · rw [hlook2] at hl
    rw [hfree2, List.mem_singleton]
    exact hmapped va q fl' hva hl
  · rcases (hpt2 q).1 hq with hq | hq
    · exact (hc.pt_new q hq).imp_right And.left
    · exact .inr (hc.suffix.subset (by rw [hf]; exact List.mem_cons_of_mem r hq))
  · -- the page taken, the pages `walk` took, and the page taken again
    have hw : WritesIn s.mem s2.mem fun x => x = r ∨ IsPtPage s1.mem new x :=
      ((((writesIn_copyPage hhi hpR).mono fun _ hx => .inl hx).trans (writesIn_grows g1)
        fun _ hx => .inr hx).trans hw2) fun _ hx => .inl hx
    refine hc.writes.trans hw fun x hx => ?_
    rcases hx with rfl | hx
    · exact .inl hr₀
    · rcases (hpt1 x).1 hx with hx | hx
      · rcases hc.pt_new x hx with hx | ⟨hx, -⟩
        · exact .inr hx
        · exact .inl hx
      · exact .inl (hc.suffix.subset (by rw [hf]; exact List.mem_cons_of_mem r hx))

end Unwind2

/-! ## The loop and the call -/

section Loop

variable {s₀ : VmState} {old new sz : UInt64}

/-- The label `err`: `uvmunmap` then -1. -/
theorem unwind_run {s s' : VmState} {a : UInt64}
    (h : (uvmunmap new 0 (a / PGSIZE) true).run s = .ok ((), s')) :
    (uvmunmap new 0 (a / PGSIZE) true >>= fun _ => pure (-1)).run s = .ok (-1, s') := by
  rw [StateT.run_bind, h, StateExcept.ok_bind]
  rfl

/-- The loop of `uvmcopy`, by induction on the iterations left: from the invariant at an
aligned `a`, it copies the rest of the pages below `PGROUNDUP(sz)`, or gives up and unwinds. -/
theorem uvmcopyLoop_spec (h : CopyArgs s₀ old new sz) : ∀ (fuel : ℕ) (a : UInt64) (s : VmState),
    Copying s₀ s old new a → a.toNat ≤ (PGROUNDUP sz).toNat →
    ((PGROUNDUP sz).toNat - a.toNat) / 4096 < fuel →
    ∃ r s', (uvmcopyLoop old new sz fuel a).run s = .ok (r, s') ∧
      ((r = 0 ∧ Copying s₀ s' old new (PGROUNDUP sz)) ∨ (r = -1 ∧ CopyFailed s₀ s' new)) := by
  have hroom := PGROUNDUP_le_TRAPFRAME h.space.sz_lt
  have htf := TRAPFRAME_toNat
  intro fuel
  induction fuel with
  | zero => intro a s _ _ hfuel; omega
  | succ fuel ih =>
    intro a s hc hle hfuel
    have hal := hc.aligned
    by_cases hlt : a < sz
    case neg =>
      -- an aligned `a` at or above `sz` and at most `PGROUNDUP(sz)` is `PGROUNDUP(sz)`
      have heq : a = PGROUNDUP sz := by
        apply UInt64.toNat_inj.mp
        rw [UInt64.not_lt, UInt64.le_iff_toNat_le] at hlt
        omega
      subst heq
      exact ⟨0, s, uvmcopyLoop_done hlt, .inl ⟨rfl, hc⟩⟩
    case pos =>
      have hs := hc.good
      have hlt' : a.toNat < (PGROUNDUP sz).toNat := by
        rw [UInt64.lt_iff_toNat_lt] at hlt
        omega
      have hamax : a < MAXVA := UInt64.lt_iff_toNat_lt.2 (by rw [MAXVA_toNat]; omega)
      have ha' : (a + PGSIZE).toNat = a.toNat + 4096 := toNat_add_PGSIZE (by omega)
      obtain ⟨p, fl, hlk, -, -, -⟩ := h.space.user a hlt'
      -- the parent's PTE of `a`, read in `s`
      have hold := hc.old_same h
      obtain ⟨e₀, hl₀, hdec⟩ : ∃ e₀, leafPte s.mem old a = some e₀ ∧
          decode (s.mem.load64 e₀) = some (p, fl) := by
        have hlk' : lookup s.mem old a = some (p, fl) := by rw [lookup_of_sameTree hold, hlk]
        cases hl : leafPte s.mem old a with
        | none => simp [lookup, hl] at hlk'
        | some e₀ =>
          rw [lookup, hl, Option.bind_some] at hlk'
          exact ⟨e₀, rfl, hlk'⟩
      obtain ⟨hv, hp, hfl⟩ := decode_eq_some hdec
      have hw : (walk old a false).run s = .ok (e₀, s) := by
        rw [walk_run_false hamax, hl₀, Option.getD_some]
      have he₀ : e₀ ≠ 0 := leafPte_ne_zero (treeOk_of_sameTree hold h.space.good.tree) hl₀
      have hperm : copyPerm (s.mem.load64 e₀) = fl := by rw [copyPerm_eq, hfl]
      cases hf : s.freelist with
      | nil =>
        obtain ⟨s', hun, hfail⟩ := (hc.unwinding h hle).unwind h
        exact ⟨-1, s', by rw [uvmcopyLoop_nomem hlt hw he₀ hv hf, unwind_run hun], .inr ⟨rfl, hfail⟩⟩
      | cons r rest =>
        have hr0 : r ≠ 0 := hs.free_ne_zero r (by simp [hf])
        have hpR : p < PHYSTOP := by
          obtain ⟨p', fl', hl', -, -, hp'⟩ := h.space.user a hlt'
          rw [hlk] at hl'
          cases hl'
          exact hp'
        have hrR : r < PHYSTOP := (h.space.free_ram r (hc.suffix.subset (by simp [hf]))).2
        have hm := sameTree_copyPage (p := p) hs hf hrR hpR
        -- `a` is not mapped yet: `new` maps nothing below `TRAPFRAME` in `s₀`
        have hnone : lookup (copyPage s r p rest).mem new a = none := by
          rw [lookup_of_sameTree hm, hc.other a hamax (le_refl _),
            h.empty a (UInt64.lt_iff_toNat_lt.2 (by omega))]
        rcases mappages_page_walk r fl (good_pop hs hf hm) hal hamax hnone with
          ⟨e, s1, hwalk, g1, ⟨rfl, hmap, hempty⟩ | ⟨he, hleaf, hmap⟩⟩
        · -- `mappages` failed: free the page taken, then unwind
          obtain ⟨s2, hk, hu⟩ := hc.unwinding_mapfail h hlt' hlk hf hwalk g1 hempty
          obtain ⟨s', hun, hfail⟩ := hu.unwind h
          refine ⟨-1, s', ?_, .inr ⟨rfl, hfail⟩⟩
          rw [uvmcopyLoop_mapfail hlt hw he₀ hv hf hr0 (by rw [hperm, ← hp]; exact hmap)
            (show (-1 : Int) ≠ 0 by decide), StateT.run_bind, hk, StateExcept.ok_bind, unwind_run hun]
        · -- one page copied: on to the next
          obtain ⟨r', s', hrun, hres⟩ := ih (a + PGSIZE) _ (hc.step h hlt' hlk hf hwalk g1 hleaf)
            (by rw [ha']; omega) (by rw [ha']; omega)
          exact ⟨r', s', by
            rw [uvmcopyLoop_step hlt hw he₀ hv hf hr0 (by rw [hperm, ← hp]; exact hmap), hrun], hres⟩

/-- `uvmcopy(old, new, sz)` never panics on such a call: it returns 0 with every page below
`PGROUNDUP(sz)` copied, or -1 with every page it took back on the free list but those `new`
gained. -/
theorem uvmcopy_spec (h : CopyArgs s₀ old new sz) :
    ∃ r s', (uvmcopy old new sz).run s₀ = .ok (r, s') ∧
      ((r = 0 ∧ Copying s₀ s' old new (PGROUNDUP sz)) ∨ (r = -1 ∧ CopyFailed s₀ s' new)) := by
  have hroom := PGROUNDUP_le_TRAPFRAME h.space.sz_lt
  have htf := TRAPFRAME_toNat
  unfold uvmcopy
  exact uvmcopyLoop_spec h pageLoopFuel 0 s₀ (Copying.init h) (Nat.zero_le _)
    (by rw [pageLoopFuel_eq]; simp only [UInt64.reduceToNat, Nat.sub_zero]; omega)

end Loop

end Xv6.Vm
