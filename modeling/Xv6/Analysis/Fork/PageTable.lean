import Xv6.Analysis.Vm.UvmCopy
import Xv6.Model.Fork

/-!
# The page table of a new process (`proc_pagetable`, `proc_freepagetable`)

`proc_pagetable` makes an empty table and maps two pages into it: the trampoline at
`TRAMPOLINE` and the process's trapframe at `TRAPFRAME`. Where `walk` finds no page for a
page-table page, it unmaps what it mapped and frees the table with `uvmfree(pagetable, 0)`.
That leaves the free list a permutation of the one it started from (`Restored`). Otherwise
the table has exactly those two pages mapped, and its pages are the pages it took (`Built`).

`proc_freepagetable` unmaps the two pages without freeing them and frees the rest. On a
table with no other page mapped, `uvmfree` frees exactly its pages (`uvmfree_zero_frees`).
Source: kernel/proc.c:169-211, kernel/vm.c:271-297
-/

set_option autoImplicit false

namespace Xv6.Vm

open Radix

/-! ## One page mapped -/

/-- What `mappages` of one page leaves: the invariant and the shape; the pages `walk` took,
and only those pages written; and either -1 with the free list used up and nothing mapped,
or 0 with `a`'s page mapped to `pa`. -/
structure MapsOne (s s' : VmState) (pt a pa perm : UInt64) (r : Int) : Prop where
  good : Good s' pt
  shaped : Shaped s'.mem pt
  kernelEnd : s'.kernelEnd = s.kernelEnd
  suffix : s'.freelist <:+ s.freelist
  pages : ∀ q, IsPtPage s'.mem pt q ↔ IsPtPage s.mem pt q ∨ (q ∈ s.freelist ∧ q ∉ s'.freelist)
  writes : WritesIn s.mem s'.mem (IsPtPage s'.mem pt)
  result : (r = -1 ∧ s'.freelist = [] ∧ ∀ va, lookup s'.mem pt va = lookup s.mem pt va) ∨
    (r = 0 ∧ ∀ va, va < MAXVA → lookup s'.mem pt va =
      if va.toNat / 4096 = a.toNat / 4096 then some (pa, perm ||| PTE_V) else lookup s.mem pt va)

/-- `mappages` of one aligned unmapped page below `MAXVA` to a page that is neither a page
of the table nor free. -/
theorem map_page_spec {s : VmState} {pt a pa perm : UInt64} (hs : Good s pt)
    (hsh : Shaped s.mem pt) (ha : a.toNat % 4096 = 0) (hamax : a < MAXVA)
    (hnone : lookup s.mem pt a = none) (hpa : pa.toNat % 4096 = 0) (hperm : perm < 1024)
    (hpt : ¬ IsPtPage s.mem pt pa) (hfree : pa ∉ s.freelist) :
    ∃ r s', (mappages pt a PGSIZE pa perm).run s = .ok (r, s') ∧ MapsOne s s' pt a pa perm r := by
  obtain ⟨e, s1, hw, g1, hres⟩ := mappages_page_walk pa perm hs ha hamax hnone
  have hsh1 := walk_shaped hs hamax hw hsh
  rcases hres with ⟨-, hmap, hempty⟩ | ⟨-, he, hmap⟩
  · exact ⟨-1, s1, hmap, g1.good, hsh1, g1.kernelEnd, g1.free_suffix, g1.pages, writesIn_grows g1,
      .inl ⟨rfl, hempty, g1.lookup_eq⟩⟩
  · -- `pa` is no page `walk` took either
    have hpt1 : ¬ IsPtPage s1.mem pt pa := by
      rw [g1.pages]
      rintro (h | ⟨h, -⟩)
      · exact hpt h
      · exact hfree h
    have hfree1 : pa ∉ s1.freelist := fun h => hfree (g1.free_suffix.subset h)
    have hsh2 : Shaped (mapped s1 e pa perm).mem pt :=
      hsh1.of_upperSame (upperSame_store_leaf g1.good.tree he (PA2PTE pa ||| perm ||| PTE_V))
    refine ⟨0, mapped s1 e pa perm, hmap, good_mapped g1.good he hpa hperm hpt1 hfree1,
      hsh2, g1.kernelEnd, g1.free_suffix, fun q => ?_, ?_, .inr ⟨rfl, fun va hva => ?_⟩⟩
    · rw [mapped, isPtPage_store_leaf g1.good.tree he, g1.pages]
    · have hw : WritesIn s.mem (mapped s1 e pa perm).mem (IsPtPage s1.mem pt) :=
        (writesIn_grows g1).trans (writesIn_store_leaf he (PA2PTE pa ||| perm ||| PTE_V))
          fun _ hq => hq
      exact hw.mono fun q hq => by rwa [mapped, isPtPage_store_leaf g1.good.tree he]
    · rw [lookup_mapped g1.good.tree hamax he hpa hperm hva, g1.lookup_eq]

/-! ## One page unmapped -/

/-- What `uvmunmap(pagetable, a, 1, 0)` leaves: `a`'s page unmapped, the invariant, the
shape, the free list and the pages of the table kept, and only the table's pages written. -/
structure UnmapsOne (s s' : VmState) (pt a : UInt64) : Prop where
  table : TableOk s'.mem pt
  shaped : Shaped s'.mem pt
  kernelEnd : s'.kernelEnd = s.kernelEnd
  lookup_eq : ∀ va, va < MAXVA → lookup s'.mem pt va =
    if a.toNat ≤ va.toNat ∧ va.toNat < a.toNat + 4096 then none else lookup s.mem pt va
  freelist : s'.freelist = s.freelist
  pages : ∀ q, IsPtPage s'.mem pt q ↔ IsPtPage s.mem pt q
  writes : WritesIn s.mem s'.mem (IsPtPage s.mem pt)

/-- `uvmunmap` of one mapped page without freeing it: one turn of its loop, which leaves the
free list as it was. -/
theorem uvmunmap_one_freelist {s s' : VmState} {pt a : UInt64} (ht : TableOk s.mem pt)
    (h : UnmapArgs s pt a 1 false) (hrun : (uvmunmap pt a 1 false).run s = .ok ((), s')) :
    s'.freelist = s.freelist := by
  obtain ⟨hloop, hb⟩ := uvmunmap_run_loop h
  have hend := h.below_maxva
  simp only [UInt64.reduceToNat, one_mul] at hloop hb hend
  have hlt : a < a + PGSIZE := UInt64.lt_iff_toNat_lt.2 (by omega)
  have hamax : a < MAXVA := UInt64.lt_iff_toNat_lt.2 (by rw [MAXVA_toNat]; omega)
  obtain ⟨p, fl, hlk, hfl, -⟩ := h.mapped a le_rfl (by simp only [UInt64.reduceToNat]; omega)
  obtain ⟨e, s2, -, hstep, -, -, -, -, hfree2, -⟩ := uvmunmapLoop_iter (2 ^ 26) ht hamax hlt
    hlk hfl (fun h => absurd h Bool.false_ne_true)
  -- after the one turn, `a + PGSIZE` is the bound and the loop stops
  rw [hloop, pageLoopFuel_eq, hstep, uvmunmapLoop_done (UInt64.lt_irrefl _)] at hrun
  cases hrun
  rw [hfree2]
  rfl

/-- `uvmunmap(pagetable, a, 1, 0)` of an aligned page below `MAXVA` mapped by a leaf. -/
theorem unmap_page_spec {s : VmState} {pt a p fl : UInt64} (ht : TableOk s.mem pt)
    (hsh : Shaped s.mem pt) (ha : a.toNat % 4096 = 0) (hamax : a.toNat + 4096 ≤ 2 ^ 38)
    (hlk : lookup s.mem pt a = some (p, fl)) (hfl : fl ≠ PTE_V) :
    ∃ s', (uvmunmap pt a 1 false).run s = .ok ((), s') ∧ UnmapsOne s s' pt a := by
  have hva : a < MAXVA := UInt64.lt_iff_toNat_lt.2 (by rw [MAXVA_toNat]; omega)
  have hargs : UnmapArgs s pt a 1 false := by
    refine ⟨ha, by simpa using hamax, fun va h1 h2 => ⟨p, fl, ?_, hfl, fun h => absurd h Bool.false_ne_true⟩⟩
    simp only [UInt64.reduceToNat, one_mul] at h2
    have hva' : va < MAXVA := UInt64.lt_iff_toNat_lt.2 (by rw [MAXVA_toNat]; omega)
    rw [lookup_congr hva' hva (by omega), hlk]
  obtain ⟨s', hrun, ⟨ht', hend, hlook, -⟩, hpt⟩ := uvmunmap_unmaps ht hargs
  have hframe := uvmunmap_frame ht hargs hrun
  have hb : (a + 1 * PGSIZE).toNat = a.toNat + 4096 := by
    simpa using (uvmunmap_run_loop hargs).2
  refine ⟨s', hrun, ht', hsh.of_upperSame (upperSame_of_unmapFrame ht hframe), hend,
    fun va hva => by rw [hlook va hva, hb], uvmunmap_one_freelist ht hargs hrun, hpt, ?_⟩
  refine (writesIn_of_unmapFrame hframe).mono fun q hq => ?_
  rcases hq with hq | ⟨h, -⟩
  · exact hq
  · exact absurd h Bool.false_ne_true

/-! ## Freeing a table that maps nothing -/

/-- A root with no valid entry has the shape `walk` builds. -/
theorem shaped_of_empty {m : Mem} {pt : UInt64} (h : ∀ i, i < 512 → next m pt i = none) :
    Shaped m pt where
  dirs path q i c hp hq hc := by
    rw [eq_nil_of_node_empty h hp.tail hq, node_nil] at hq
    cases hq
    rw [h i hp.head] at hc
    cases hc
  high i _ hi := h i hi

/-- `uvmfree(pagetable, 0)` on a shaped table that maps nothing below `MAXVA`, whose pages
are pages of RAM and not free: it pushes exactly its pages on the free list and writes only
inside them. -/
theorem uvmfree_zero_frees {s : VmState} {pt : UInt64} (ht : TreeOk s.mem pt)
    (hsh : Shaped s.mem pt) (hl : ∀ va, va < MAXVA → lookup s.mem pt va = none)
    (hram : ∀ q, IsPtPage s.mem pt q → s.kernelEnd ≤ q ∧ q < PHYSTOP)
    (hfree : ∀ q, IsPtPage s.mem pt q → q ∉ s.freelist) (hnd : s.freelist.Nodup) :
    ∃ s', (uvmfree pt 0).run s = .ok ((), s') ∧ s'.kernelEnd = s.kernelEnd ∧
      s'.freelist.Nodup ∧ (∀ q, q ∈ s'.freelist ↔ q ∈ s.freelist ∨ IsPtPage s.mem pt q) ∧
      WritesIn s.mem s'.mem (IsPtPage s.mem pt) := by
  obtain ⟨s', hrun, hend, ⟨l, hl', hlnd, hmem⟩, hframe⟩ := uvmfree_zero_spec ht hsh hl hram hfree
  refine ⟨s', hrun, hend, ?_, fun q => ?_, hframe⟩
  · rw [hl']
    exact List.nodup_append.2 ⟨hlnd, hnd, fun x hx y hy hxy => hfree x ((hmem x).1 hx) (hxy ▸ hy)⟩
  · rw [hl', List.mem_append, hmem q, or_comm]
    rfl

end Xv6.Vm

namespace Xv6.Fork

open Vm Radix

/-! ## The free pages and the pages a table took -/

/-- The free list as `kalloc` keeps it: aligned, non-zero pages of RAM, each once. -/
structure FreeOk (s : VmState) : Prop where
  aligned : ∀ q ∈ s.freelist, q.toNat % 4096 = 0
  ne_zero : ∀ q ∈ s.freelist, q ≠ 0
  nodup : s.freelist.Nodup
  ram : ∀ q ∈ s.freelist, s.kernelEnd ≤ q ∧ q < PHYSTOP

/-- Every page taken is back: the same free pages in some order, the same kernel end, and
only bytes of free pages written. -/
structure Restored (s s' : VmState) : Prop where
  perm : s'.freelist.Perm s.freelist
  kernelEnd : s'.kernelEnd = s.kernelEnd
  writes : WritesIn s.mem s'.mem (· ∈ s.freelist)

/-- The pages of the table `pt` in `s'` and the free pages of `s'` are the free pages of `s`. -/
def Ledger (s s' : VmState) (pt : UInt64) : Prop :=
  ∀ q, IsPtPage s'.mem pt q ∨ q ∈ s'.freelist ↔ q ∈ s.freelist

/-- `mappages` of one page moves the pages `walk` took from the free list to the table. -/
theorem Ledger.mapsOne {s s1 s2 : VmState} {pt a pa perm : UInt64} {r : Int} (hl : Ledger s s1 pt)
    (hm : MapsOne s1 s2 pt a pa perm r) : Ledger s s2 pt := by
  intro q
  rw [← hl q, hm.pages q]
  constructor
  · rintro ((h | ⟨h, -⟩) | h)
    · exact .inl h
    · exact .inr h
    · exact .inr (hm.suffix.subset h)
  · rintro (h | h)
    · exact .inl (.inl h)
    · by_cases h2 : q ∈ s2.freelist
      · exact .inr h2
      · exact .inl (.inr ⟨h, h2⟩)

/-- All free pages of `s` are back when the free list has them all, each once. -/
theorem restored_of_mem {s s' : VmState} (hnd : s.freelist.Nodup) (hnd' : s'.freelist.Nodup)
    (hmem : ∀ q, q ∈ s'.freelist ↔ q ∈ s.freelist) (hend : s'.kernelEnd = s.kernelEnd)
    (hw : WritesIn s.mem s'.mem (· ∈ s.freelist)) : Restored s s' :=
  ⟨(List.perm_ext_iff_of_nodup hnd' hnd).2 hmem, hend, hw⟩

/-- What `proc_pagetable` builds from `s`: a table with the invariant and its shape that maps
the trapframe `tf` at `TRAPFRAME`, the trampoline at `TRAMPOLINE` and nothing else, whose
pages are the pages it took off the free list, and only those written. -/
structure Built (s s' : VmState) (pt tramp tf : UInt64) : Prop where
  good : Good s' pt
  shaped : Shaped s'.mem pt
  kernelEnd : s'.kernelEnd = s.kernelEnd
  lookup_eq : ∀ va, va < MAXVA → lookup s'.mem pt va =
    if va < TRAPFRAME then none
    else if va < TRAMPOLINE then some (tf, PTE_R ||| PTE_W ||| PTE_V)
    else some (tramp, PTE_R ||| PTE_X ||| PTE_V)
  suffix : s'.freelist <:+ s.freelist
  ledger : Ledger s s' pt
  writes : WritesIn s.mem s'.mem (· ∈ s.freelist)

/-! ## `proc_pagetable` -/

section Pagetable

variable {s s1 s2 s3 : VmState} {tramp tf pt : UInt64}

theorem proc_pagetable_nomem (h : uvmcreate.run s = .ok (0, s1)) :
    (proc_pagetable tramp tf).run s = .ok (0, s1) := by
  simp [proc_pagetable, StateExcept.ok_bind, h]
  rfl

theorem proc_pagetable_fail1 (h : uvmcreate.run s = .ok (pt, s1)) (hpt : pt ≠ 0)
    (hm : (mappages pt TRAMPOLINE Vm.PGSIZE tramp (PTE_R ||| PTE_X)).run s1 = .ok (-1, s2)) :
    (proc_pagetable tramp tf).run s = (uvmfree pt 0 >>= fun _ => pure 0).run s2 := by
  simp [proc_pagetable, StateExcept.ok_bind, h, hpt, hm]

theorem proc_pagetable_fail2 (h : uvmcreate.run s = .ok (pt, s1)) (hpt : pt ≠ 0)
    (hm1 : (mappages pt TRAMPOLINE Vm.PGSIZE tramp (PTE_R ||| PTE_X)).run s1 = .ok (0, s2))
    (hm2 : (mappages pt TRAPFRAME Vm.PGSIZE tf (PTE_R ||| PTE_W)).run s2 = .ok (-1, s3)) :
    (proc_pagetable tramp tf).run s =
      (uvmunmap pt TRAMPOLINE 1 false >>= fun _ => uvmfree pt 0 >>= fun _ => pure 0).run s3 := by
  simp [proc_pagetable, StateExcept.ok_bind, h, hpt, hm1, hm2]

theorem proc_pagetable_ok (h : uvmcreate.run s = .ok (pt, s1)) (hpt : pt ≠ 0)
    (hm1 : (mappages pt TRAMPOLINE Vm.PGSIZE tramp (PTE_R ||| PTE_X)).run s1 = .ok (0, s2))
    (hm2 : (mappages pt TRAPFRAME Vm.PGSIZE tf (PTE_R ||| PTE_W)).run s2 = .ok (0, s3)) :
    (proc_pagetable tramp tf).run s = .ok (pt, s3) := by
  simp [proc_pagetable, StateExcept.ok_bind, h, hpt, hm1, hm2]
  rfl

end Pagetable

/-! ## The two pages of every process -/

theorem TRAMPOLINE_toNat : TRAMPOLINE.toNat = 2 ^ 38 - 4096 := by decide

theorem TRAMPOLINE_lt : TRAMPOLINE < MAXVA := by decide

theorem TRAPFRAME_lt : TRAPFRAME < MAXVA := by decide

/-- Below `MAXVA`, the page of `TRAPFRAME` and the page of `TRAMPOLINE` are the last two. -/
theorem two_pages_lookup {α : Type} {va : UInt64} (hva : va < MAXVA) (x y z : α) :
    (if va.toNat / 4096 = TRAPFRAME.toNat / 4096 then x
      else if va.toNat / 4096 = TRAMPOLINE.toNat / 4096 then y else z) =
      if va < TRAPFRAME then z else if va < TRAMPOLINE then x else y := by
  rw [UInt64.lt_iff_toNat_lt, MAXVA_toNat] at hva
  have h1 := TRAPFRAME_toNat
  have h2 := TRAMPOLINE_toNat
  simp only [UInt64.lt_iff_toNat_lt, h1, h2]
  split_ifs <;> first | rfl | omega

/-- `uvmfree(pagetable, 0)` on a table that maps nothing and holds, with a free list apart from
it, every page that was free in `s` puts them all back. -/
theorem teardown_restores {s sx : VmState} {pt : UInt64} (hf : FreeOk s) (ht : TreeOk sx.mem pt)
    (hsh : Shaped sx.mem pt) (hl : ∀ va, va < MAXVA → lookup sx.mem pt va = none)
    (hled : Ledger s sx pt) (hapart : ∀ q, IsPtPage sx.mem pt q → q ∉ sx.freelist)
    (hnd : sx.freelist.Nodup) (hend : sx.kernelEnd = s.kernelEnd)
    (hw : WritesIn s.mem sx.mem (· ∈ s.freelist)) :
    ∃ s', (uvmfree pt 0).run sx = .ok ((), s') ∧ Restored s s' := by
  have hin : ∀ q, IsPtPage sx.mem pt q → q ∈ s.freelist := fun q hq => (hled q).1 (.inl hq)
  obtain ⟨s', hrun, hend', hnd', hmem', hw'⟩ := uvmfree_zero_frees ht hsh hl
    (fun q hq => by rw [hend]; exact hf.ram q (hin q hq)) hapart hnd
  refine ⟨s', hrun, restored_of_mem hf.nodup hnd' (fun q => ?_) (hend'.trans hend)
    (hw.trans hw' hin)⟩
  rw [hmem' q, ← hled q, or_comm]

/-- With an empty free list, the table holds every page that was free. -/
theorem teardown_restores_of_empty {s sx : VmState} {pt : UInt64} (hf : FreeOk s)
    (ht : TreeOk sx.mem pt) (hsh : Shaped sx.mem pt)
    (hl : ∀ va, va < MAXVA → lookup sx.mem pt va = none) (hled : Ledger s sx pt)
    (hempty : sx.freelist = []) (hend : sx.kernelEnd = s.kernelEnd)
    (hw : WritesIn s.mem sx.mem (· ∈ s.freelist)) :
    ∃ s', (uvmfree pt 0).run sx = .ok ((), s') ∧ Restored s s' :=
  teardown_restores hf ht hsh hl hled (fun q _ => by rw [hempty]; exact List.not_mem_nil)
    (by rw [hempty]; exact List.nodup_nil) hend hw

section Spec

variable {s : VmState} {tramp tf : UInt64}

/-- `proc_pagetable` never panics with the trampoline and the trapframe off the free list:
it returns 0 with every page it took back, or the table `Built` says. -/
theorem proc_pagetable_spec (hf : FreeOk s) (htramp : tramp.toNat % 4096 = 0)
    (htramp' : tramp ∉ s.freelist) (htf : tf.toNat % 4096 = 0) (htf' : tf ∉ s.freelist) :
    ∃ pt s', (proc_pagetable tramp tf).run s = .ok (pt, s') ∧
      ((pt = 0 ∧ Restored s s') ∨ (pt ≠ 0 ∧ Built s s' pt tramp tf)) := by
  cases hfl : s.freelist with
  | nil =>
    have h0 : uvmcreate.run s = .ok (0, s) := by
      simp [uvmcreate, kalloc, hfl]
      rfl
    exact ⟨0, s, proc_pagetable_nomem h0, .inl ⟨rfl, List.Perm.refl _, rfl, WritesIn.refl _ _⟩⟩
  | cons r rest =>
    have hr : r ∈ s.freelist := by simp [hfl]
    have hrest : ∀ q ∈ rest, q ∈ s.freelist := fun q hq => by simp [hfl, hq]
    have hr0 := hf.ne_zero r hr
    have hnd := hf.nodup
    rw [hfl, List.nodup_cons] at hnd
    -- the root, zeroed and taken off the free list
    have hc : uvmcreate.run s = .ok (r, { s with mem := s.mem.fill r 0 Vm.PGSIZE, freelist := rest }) :=
      uvmcreate_run hfl hr0
    have hempty := next_fill_zero s.mem r
    have hg1 : Good { s with mem := s.mem.fill r 0 Vm.PGSIZE, freelist := rest } r :=
      good_of_empty hempty (hf.aligned r hr) hr0 (fun q hq => hf.aligned q (hrest q hq))
        (fun q hq => hf.ne_zero q (hrest q hq)) hnd.2 hnd.1
    have hpt1 := isPtPage_of_empty hempty
    have hl1 := lookup_of_empty hempty
    have hled1 : Ledger s { s with mem := s.mem.fill r 0 Vm.PGSIZE, freelist := rest } r := by
      intro q
      rw [hpt1, hfl, List.mem_cons]
    have hw1 : WritesIn s.mem (s.mem.fill r 0 Vm.PGSIZE) (· ∈ s.freelist) :=
      (writesIn_fill r 0).mono fun q hq => hq ▸ hr
    -- the trampoline
    obtain ⟨r1, s2, hm1, hmo1⟩ := map_page_spec hg1 (shaped_of_empty hempty) (by decide)
      TRAMPOLINE_lt (hl1 _) htramp (show PTE_R ||| PTE_X < 1024 by decide)
      (fun h => htramp' (by rw [(hpt1 tramp).1 h]; exact hr)) (fun h => htramp' (hrest tramp h))
    have hled2 := hled1.mapsOne hmo1
    have hin2 : ∀ q, IsPtPage s2.mem r q → q ∈ s.freelist := fun q hq => (hled2 q).1 (.inl hq)
    have hw2 : WritesIn s.mem s2.mem (· ∈ s.freelist) := hw1.trans hmo1.writes hin2
    rcases hmo1.result with ⟨rfl, hempty2, hl2⟩ | ⟨rfl, hl2⟩
    · -- no page for the table: free it
      obtain ⟨s', hfree, hres⟩ := teardown_restores_of_empty hf hmo1.good.tree hmo1.shaped
        (fun va _ => by rw [hl2, hl1]) hled2 hempty2 hmo1.kernelEnd hw2
      refine ⟨0, s', ?_, .inl ⟨rfl, hres⟩⟩
      rw [proc_pagetable_fail1 hc hr0 hm1, StateT.run_bind, hfree, StateExcept.ok_bind]
      rfl
    · -- the trapframe
      have hnone2 : lookup s2.mem r TRAPFRAME = none := by
        rw [hl2 _ TRAPFRAME_lt, if_neg (by decide), hl1]
      obtain ⟨r2, s3, hm2, hmo2⟩ := map_page_spec hmo1.good hmo1.shaped (by decide) TRAPFRAME_lt
        hnone2 htf (show PTE_R ||| PTE_W < 1024 by decide) (fun h => htf' (hin2 tf h))
        (fun h => htf' (hrest tf (hmo1.suffix.subset h)))
      have hled3 := hled2.mapsOne hmo2
      have hin3 : ∀ q, IsPtPage s3.mem r q → q ∈ s.freelist := fun q hq => (hled3 q).1 (.inl hq)
      have hw3 : WritesIn s.mem s3.mem (· ∈ s.freelist) := hw2.trans hmo2.writes hin3
      rcases hmo2.result with ⟨rfl, hempty3, hl3⟩ | ⟨rfl, hl3⟩
      · -- no page for the table: unmap the trampoline, then free the table
        have hargs : UnmapArgs s3 r TRAMPOLINE 1 false := by
          refine ⟨by decide, by rw [TRAMPOLINE_toNat]; decide, fun va h1 h2 => ?_⟩
          have hva : va < MAXVA := by
            rw [UInt64.lt_iff_toNat_lt, MAXVA_toNat]
            rw [TRAMPOLINE_toNat] at h1 h2
            simp only [UInt64.reduceToNat] at h2
            omega
          refine ⟨tramp, PTE_R ||| PTE_X ||| PTE_V, ?_, by decide, fun h => absurd h (by decide)⟩
          rw [hl3, hl2 va hva, if_pos]
          rw [TRAMPOLINE_toNat] at h1 h2 ⊢
          simp only [UInt64.reduceToNat] at h2
          omega
        obtain ⟨s4, hun, ⟨ht4, hend4, hlook4, hfree4⟩, hpt4⟩ := uvmunmap_unmaps hmo2.good.tableOk hargs
        have hframe4 := uvmunmap_frame hmo2.good.tableOk hargs hun
        have hempty4 : s4.freelist = [] := by
          apply List.eq_nil_iff_forall_not_mem.2
          intro q hq
          rcases (hfree4 q).1 hq with h | ⟨h, -⟩
          · rw [hempty3] at h
            exact List.not_mem_nil h
          · exact Bool.false_ne_true h
        have hl4 : ∀ va, va < MAXVA → lookup s4.mem r va = none := by
          intro va hva
          rw [hlook4 va hva]
          split_ifs with h
          · rfl
          · have hva' := UInt64.lt_iff_toNat_lt.1 hva
            rw [MAXVA_toNat] at hva'
            have hb : (TRAMPOLINE + 1 * Vm.PGSIZE).toNat = 2 ^ 38 := by decide
            rw [hl3, hl2 va hva, if_neg, hl1]
            rw [TRAMPOLINE_toNat, hb] at h
            rw [TRAMPOLINE_toNat]
            omega
        have hled4 : Ledger s s4 r := by
          intro q
          rw [← hled3 q, hpt4 q, hempty4, hempty3]
        have hw4 : WritesIn s.mem s4.mem (· ∈ s.freelist) := by
          refine hw3.trans (writesIn_of_unmapFrame hframe4) fun q hq => ?_
          rcases hq with hq | ⟨h, -⟩
          · exact hin3 q hq
          · exact absurd h Bool.false_ne_true
        obtain ⟨s', hfree, hres⟩ := teardown_restores_of_empty hf ht4.tree
          (hmo2.shaped.of_upperSame (upperSame_of_unmapFrame hmo2.good.tableOk hframe4)) hl4 hled4
          hempty4 (hend4.trans (hmo2.kernelEnd.trans hmo1.kernelEnd)) hw4
        refine ⟨0, s', ?_, .inl ⟨rfl, hres⟩⟩
        rw [proc_pagetable_fail2 hc hr0 hm1 hm2, StateT.run_bind, hun, StateExcept.ok_bind,
          StateT.run_bind, hfree, StateExcept.ok_bind]
        rfl
      · -- both pages mapped
        refine ⟨r, s3, proc_pagetable_ok hc hr0 hm1 hm2, .inr ⟨hr0, hmo2.good, hmo2.shaped,
          hmo2.kernelEnd.trans hmo1.kernelEnd, fun va hva => ?_, ?_, hled3, hw3⟩⟩
        · rw [hl3 va hva, hl2 va hva, hl1, two_pages_lookup hva]
        · exact hmo2.suffix.trans (hmo1.suffix.trans (by rw [hfl]; exact List.suffix_cons r rest))

end Spec

/-! ## `proc_freepagetable` -/

/-- `proc_freepagetable(pagetable, 0)` on a table that maps only the trapframe and the
trampoline, and holds, with a free list apart from it, every page that was free in `s`: it
unmaps the two pages and puts every page back. -/
theorem proc_freepagetable_restores {s sx : VmState} {pt tramp tf : UInt64} (hf : FreeOk s)
    (ht : TableOk sx.mem pt) (hsh : Shaped sx.mem pt)
    (hl : ∀ va, va < MAXVA → lookup sx.mem pt va =
      if va < TRAPFRAME then none
      else if va < TRAMPOLINE then some (tf, PTE_R ||| PTE_W ||| PTE_V)
      else some (tramp, PTE_R ||| PTE_X ||| PTE_V))
    (hled : Ledger s sx pt) (hapart : ∀ q, IsPtPage sx.mem pt q → q ∉ sx.freelist)
    (hnd : sx.freelist.Nodup) (hend : sx.kernelEnd = s.kernelEnd)
    (hw : WritesIn s.mem sx.mem (· ∈ s.freelist)) :
    ∃ s', (proc_freepagetable pt 0).run sx = .ok ((), s') ∧ Restored s s' := by
  have hin : ∀ q, IsPtPage sx.mem pt q → q ∈ s.freelist := fun q hq => (hled q).1 (.inl hq)
  -- the trampoline, then the trapframe
  have hl1 : lookup sx.mem pt TRAMPOLINE = some (tramp, PTE_R ||| PTE_X ||| PTE_V) := by
    rw [hl _ TRAMPOLINE_lt, if_neg (by decide), if_neg (by decide)]
  obtain ⟨s1, hun1, hu1⟩ := unmap_page_spec ht hsh (by decide) (by decide) hl1 (by decide)
  have hl2 : lookup s1.mem pt TRAPFRAME = some (tf, PTE_R ||| PTE_W ||| PTE_V) := by
    rw [hu1.lookup_eq _ TRAPFRAME_lt, if_neg (by decide), hl _ TRAPFRAME_lt, if_neg (by decide),
      if_pos (by decide)]
  obtain ⟨s2, hun2, hu2⟩ := unmap_page_spec hu1.table hu1.shaped (by decide) (by decide) hl2
    (by decide)
  have hpages : ∀ q, IsPtPage s2.mem pt q ↔ IsPtPage sx.mem pt q := fun q => by
    rw [hu2.pages, hu1.pages]
  have hfree : s2.freelist = sx.freelist := hu2.freelist.trans hu1.freelist
  have hl3 : ∀ va, va < MAXVA → lookup s2.mem pt va = none := by
    intro va hva
    rw [hu2.lookup_eq va hva, hu1.lookup_eq va hva]
    split_ifs with h2 h1
    · rfl
    · rfl
    · -- below the two pages nothing is mapped
      have hva' := UInt64.lt_iff_toNat_lt.1 hva
      rw [MAXVA_toNat] at hva'
      rw [TRAMPOLINE_toNat] at h1
      rw [TRAPFRAME_toNat] at h2
      rw [hl va hva, if_pos (UInt64.lt_iff_toNat_lt.2 (by rw [TRAPFRAME_toNat]; omega))]
  have hled2 : Ledger s s2 pt := fun q => by rw [hpages, hfree, hled q]
  have hw2 : WritesIn s.mem s2.mem (· ∈ s.freelist) :=
    (hw.trans hu1.writes hin).trans hu2.writes fun q hq => hin q ((hu1.pages q).1 hq)
  obtain ⟨s', hrun, hres⟩ := teardown_restores hf hu2.table.tree hu2.shaped hl3 hled2
    (fun q hq => by rw [hfree]; exact hapart q ((hpages q).1 hq)) (by rw [hfree]; exact hnd)
    (hu2.kernelEnd.trans (hu1.kernelEnd.trans hend)) hw2
  refine ⟨s', ?_, hres⟩
  show (uvmunmap pt TRAMPOLINE 1 false >>= fun _ => uvmunmap pt TRAPFRAME 1 false >>= fun _ =>
    uvmfree pt 0).run sx = _
  rw [StateT.run_bind, hun1, StateExcept.ok_bind, StateT.run_bind, hun2, StateExcept.ok_bind, hrun]

end Xv6.Fork
