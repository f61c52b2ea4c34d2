import Xv6.Analysis.Fork.PageTable

/-!
# `allocproc` and `freeproc` (`kernel/proc.c`)

`allocproc` takes the first UNUSED entry, gives it the next pid, a trapframe page and a new
page table. Where a page cannot be had, `freeproc` gives back what was taken and clears the
entry. `Undone` is what is left then: the entry cleared to UNUSED, every free page back on
the free list, the file system untouched, and of the entries and `nextpid` what `Dropped`
says. `Allocated` is the entry and the table otherwise.

The parent of `fork` is not touched by any of this: every page written was free, so its
address space keeps its invariant and its bytes (`AddrSpace.of_writesIn`).
Source: kernel/proc.c:100-211
-/

set_option autoImplicit false

namespace Xv6.Vm

/-! ## The parent's address space -/

/-- A table keeps the invariant through writes outside its pages, with a free list of pages
that were free, each once. -/
theorem Good.of_sameTree {s s' : VmState} {pt : UInt64} (hg : Good s pt)
    (hsame : SameTree s.mem s'.mem pt) (hsub : ∀ q ∈ s'.freelist, q ∈ s.freelist)
    (hnd : s'.freelist.Nodup) : Good s' pt where
  tree := treeOk_of_sameTree hsame hg.tree
  free_aligned q hq := hg.free_aligned q (hsub q hq)
  free_ne_zero q hq := hg.free_ne_zero q (hsub q hq)
  free_nodup := hnd
  free_not_pt q hq := by
    rw [isPtPage_of_sameTree hsame]
    exact hg.free_not_pt q (hsub q hq)
  free_not_mapped q hq := by
    rw [isMapped_of_sameTree hsame]
    exact hg.free_not_mapped q (hsub q hq)
  mapped_not_pt q hq := by
    rw [isPtPage_of_sameTree hsame]
    exact hg.mapped_not_pt q ((isMapped_of_sameTree hsame q).1 hq)

/-- An address space survives writes outside its table's pages with a free list of pages that
were free, each once: its table is the same tree and maps the same pages. -/
theorem AddrSpace.of_sameTree {s s' : VmState} {pt sz : UInt64} (h : AddrSpace s pt sz)
    (hsame : SameTree s.mem s'.mem pt) (hsub : ∀ q ∈ s'.freelist, q ∈ s.freelist)
    (hnd : s'.freelist.Nodup) (hend : s'.kernelEnd = s.kernelEnd) : AddrSpace s' pt sz := by
  have hlk := lookup_of_sameTree hsame
  refine ⟨h.good.of_sameTree hsame hsub hnd, h.sz_lt, fun va hva => ?_,
    fun va va' p fl fl' h1 h2 hl hl' => ?_, fun va h1 h2 => ?_, fun q hq => ?_⟩
  · rw [hlk, hend]
    exact h.user va hva
  · rw [hlk] at hl hl'
    exact h.user_inj va va' p fl fl' h1 h2 hl hl'
  · rw [hlk]
    exact h.above va h1 h2
  · rw [hend]
    exact h.free_ram q (hsub q hq)

/-- An address space survives a run that writes only pages that were free and leaves a free
list of pages that were free, each once. -/
theorem AddrSpace.of_writesIn {s s' : VmState} {pt sz : UInt64} (h : AddrSpace s pt sz)
    (hw : WritesIn s.mem s'.mem (· ∈ s.freelist)) (hsub : ∀ q ∈ s'.freelist, q ∈ s.freelist)
    (hnd : s'.freelist.Nodup) (hend : s'.kernelEnd = s.kernelEnd) :
    SameTree s.mem s'.mem pt ∧ AddrSpace s' pt sz := by
  have hsame : SameTree s.mem s'.mem pt :=
    hw.sameTree h.good.tree fun q hq => ⟨h.good.free_aligned q hq, h.good.free_not_pt q hq⟩
  exact ⟨hsame, h.of_sameTree hsame hsub hnd hend⟩

/-- The free list of an address space is one as `kalloc` keeps it. -/
theorem AddrSpace.freeOk {s : VmState} {pt sz : UInt64} (h : AddrSpace s pt sz) : Fork.FreeOk s :=
  ⟨h.good.free_aligned, h.good.free_ne_zero, h.good.free_nodup, h.free_ram⟩

end Xv6.Vm

namespace Xv6.Fork

open Vm Radix

/-! ## Running code of `vm.c` on the kernel state -/

theorem run_onVm {α : Type} (x : VmM α) (s : KState) :
    (onVm x).run s = (fun r => (r.1, { s with vm := r.2 })) <$> x.run s.vm := by
  simp only [onVm, StateExcept.focus, StateT.run]
  cases x s.vm <;> rfl

theorem run_onVm_ok {α : Type} {x : VmM α} {s : KState} {a : α} {vm : VmState}
    (hx : x.run s.vm = .ok (a, vm)) : (onVm x).run s = .ok (a, { s with vm := vm }) := by
  rw [run_onVm, hx]
  rfl

/-! ## `freeproc` -/

/-- The entry `freeproc` leaves: UNUSED, with no trapframe, no table, no memory, no pid, no
parent and an empty name. The kernel stack and the saved context stay. -/
def Proc.cleared (pr : Proc) : Proc :=
  { pr with
    trapframe := 0
    pagetable := 0
    sz := 0
    pid := 0
    parent := none
    name := setAt pr.name 0 0
    chan := 0
    killed := 0
    xstate := 0
    state := .UNUSED }

/-- The calls of `freeproc` into `kalloc.c` and `vm.c` for the entry `pr`. -/
def freeMem (pr : Proc) : VmM Unit :=
  (if pr.trapframe ≠ 0 then kfree pr.trapframe else pure ()) >>= fun _ =>
    if pr.pagetable ≠ 0 then proc_freepagetable pr.pagetable pr.sz else pure ()

/-- `freeproc(p)` once its calls into `vm.c` have run: the entry is cleared. -/
theorem freeproc_run {s : KState} {p : Fin NPROC} {vm : VmState}
    (h : (freeMem (s.proc p)).run s.vm = .ok ((), vm)) :
    (freeproc p).run s =
      .ok ((), { s with vm := vm, proc := Function.update s.proc p (s.proc p).cleared }) := by
  unfold freeMem at h
  obtain ⟨⟨⟩, vm1, h1, h2⟩ := StateExcept.run_bind_eq_ok h
  -- the two calls are guarded apart; the entry is cleared in every case
  by_cases htf : (s.proc p).trapframe = 0 <;> by_cases hpt : (s.proc p).pagetable = 0
  · rw [if_neg (not_not.2 htf)] at h1
    rw [if_neg (not_not.2 hpt)] at h2
    cases h1
    cases h2
    simp [freeproc, htf, hpt, modifyProc]
    rfl
  · rw [if_neg (not_not.2 htf)] at h1
    rw [if_pos hpt] at h2
    cases h1
    simp [freeproc, htf, hpt, modifyProc, run_onVm, h2]
    rfl
  · rw [if_pos htf] at h1
    rw [if_neg (not_not.2 hpt)] at h2
    cases h2
    simp [freeproc, htf, hpt, modifyProc, run_onVm, h1]
    rfl
  · rw [if_pos htf] at h1
    rw [if_pos hpt] at h2
    simp [freeproc, htf, hpt, modifyProc, run_onVm, h1, h2, StateExcept.ok_bind]
    rfl

/-! ## What `allocproc` leaves -/

/-- What `allocproc` needs of the state: the free list as `kalloc` keeps it, the trampoline an
aligned page that is not free, and every UNUSED entry without pages or memory. -/
structure AllocArgs (s : KState) : Prop where
  free : FreeOk s.vm
  tramp_aligned : s.trampoline.toNat % 4096 = 0
  tramp_not_free : s.trampoline ∉ s.vm.freelist
  unused : ∀ q, (s.proc q).state = .UNUSED →
    (s.proc q).trapframe = 0 ∧ (s.proc q).pagetable = 0 ∧ (s.proc q).sz = 0

/-- The first UNUSED entry, which `allocproc` takes. -/
def firstUnused (s : KState) : Option (Fin NPROC) :=
  (List.finRange NPROC).find? (fun q => (s.proc q).state = .UNUSED)

/-- What a failed `allocproc` or `fork` leaves of the entries and of `nextpid`: nothing, when
no entry is UNUSED; or the first UNUSED entry cleared, its saved context apart, and
`nextpid` moved on, since `allocpid` ran. -/
def Dropped (s s' : KState) : Prop :=
  (firstUnused s = none ∧ s'.proc = s.proc ∧ s'.nextpid = s.nextpid) ∨
    ∃ c ctx, firstUnused s = some c ∧
      s'.proc = Function.update s.proc c { (s.proc c).cleared with context := ctx } ∧
      s'.nextpid = s.nextpid + 1

/-- Nothing of `s` is left taken in `s'`: each entry is as it was or, if it was UNUSED, cleared
(its saved context apart), every free page is back, and the file system is as it was. -/
structure Undone (s s' : KState) : Prop where
  procs : ∀ q, s'.proc q = s.proc q ∨
    ((s.proc q).state = .UNUSED ∧ ∃ ctx, s'.proc q = { (s.proc q).cleared with context := ctx })
  vm : Restored s.vm s'.vm
  fs : s'.fs = s.fs

/-- `allocproc` took the first UNUSED entry `c`, gave it the next pid, the trapframe page `tf`
off the front of the free list and the table `pt` that `proc_pagetable` built, moved
`nextpid` on, and changed nothing else. -/
structure Allocated (s s' : KState) (c : Fin NPROC) (tf pt : UInt64) : Prop where
  first : firstUnused s = some c
  unused : (s.proc c).state = .UNUSED
  nextpid : s'.nextpid = s.nextpid + 1
  entry : s'.proc c = { s.proc c with
    pid := s.nextpid
    state := .USED
    trapframe := tf
    pagetable := pt
    context := ⟨s.forkret, (s.proc c).kstack + Vm.PGSIZE, fun _ => 0⟩ }
  others : ∀ q, q ≠ c → s'.proc q = s.proc q
  pt_ne : pt ≠ 0
  built : ∃ rest, s.vm.freelist = tf :: rest ∧
    Built { s.vm with mem := s.vm.mem.fill tf 5 Vm.PGSIZE, freelist := rest } s'.vm pt s.trampoline tf
  fs : s'.fs = s.fs

theorem Restored.refl (s : VmState) : Restored s s := ⟨List.Perm.refl _, rfl, WritesIn.refl _ _⟩

theorem Undone.refl (s : KState) : Undone s s := ⟨fun _ => .inl rfl, Restored.refl _, rfl⟩

/-- Clearing one UNUSED entry, with the pages back and the file system as it was, is undone. -/
theorem Undone.of_entry {s s' : KState} {c : Fin NPROC} (hc : (s.proc c).state = .UNUSED)
    (ctx : Context)
    (hproc : s'.proc = Function.update s.proc c { (s.proc c).cleared with context := ctx })
    (hvm : Restored s.vm s'.vm) (hfs : s'.fs = s.fs) : Undone s s' := by
  refine ⟨fun q => ?_, hvm, hfs⟩
  by_cases hq : q = c
  · subst hq
    exact .inr ⟨hc, ctx, by rw [hproc, Function.update_self]⟩
  · exact .inl (by rw [hproc, Function.update_of_ne hq])

/-- The free list of `s` less its first page, as `kalloc` leaves it. -/
theorem FreeOk.pop {s : VmState} {r : UInt64} {rest : List UInt64} (hf : FreeOk s)
    (hfl : s.freelist = r :: rest) (m : Mem) : FreeOk { s with mem := m, freelist := rest } := by
  have hsub : ∀ q ∈ rest, q ∈ s.freelist := fun q hq => by rw [hfl]; exact List.mem_cons_of_mem r hq
  have hnd := hf.nodup
  rw [hfl] at hnd
  exact ⟨fun q hq => hf.aligned q (hsub q hq), fun q hq => hf.ne_zero q (hsub q hq),
    (List.nodup_cons.1 hnd).2, fun q hq => hf.ram q (hsub q hq)⟩

/-! ## The runs of `allocproc` -/

section Runs

variable {s : KState} {c : Fin NPROC}

theorem allocproc_full
    (hfind : (List.finRange NPROC).find? (fun q => (s.proc q).state = .UNUSED) = none) :
    allocproc.run s = .ok (none, s) := by
  simp [allocproc, hfind]
  rfl

/-- No page for the trapframe: `freeproc` has nothing to free. -/
theorem allocproc_nomem
    (hfind : (List.finRange NPROC).find? (fun q => (s.proc q).state = .UNUSED) = some c)
    (hfl : s.vm.freelist = []) (hpt0 : (s.proc c).pagetable = 0) :
    allocproc.run s = .ok (none, { s with
      nextpid := s.nextpid + 1
      proc := Function.update s.proc c (s.proc c).cleared }) := by
  have h1 : allocproc.run s = (freeproc c >>= fun _ => pure none).run { s with
      nextpid := s.nextpid + 1
      proc := Function.update s.proc c
        { s.proc c with pid := s.nextpid, state := .USED, trapframe := 0 } } := by
    simp [allocproc, hfind, modifyProc, run_onVm, kalloc_run_nil hfl]
    rfl
  rw [h1, StateT.run_bind, freeproc_run (by simp [freeMem, hpt0]; rfl)]
  simp only [Function.update_idem, Function.update_self]
  rfl

/-- No page for the table: `freeproc` gives the trapframe page back. -/
theorem allocproc_notable {tf : UInt64} {rest : List UInt64} {vm vm' : VmState}
    (hfind : (List.finRange NPROC).find? (fun q => (s.proc q).state = .UNUSED) = some c)
    (hfl : s.vm.freelist = tf :: rest) (htf : tf ≠ 0)
    (hpt : (proc_pagetable s.trampoline tf).run
      { s.vm with mem := s.vm.mem.fill tf 5 Vm.PGSIZE, freelist := rest } = .ok (0, vm))
    (hk : (kfree tf).run vm = .ok ((), vm')) :
    allocproc.run s = .ok (none, { s with
      vm := vm'
      nextpid := s.nextpid + 1
      proc := Function.update s.proc c (s.proc c).cleared }) := by
  have h1 : allocproc.run s = (freeproc c >>= fun _ => pure none).run { s with
      vm := vm
      nextpid := s.nextpid + 1
      proc := Function.update s.proc c
        { s.proc c with pid := s.nextpid, state := .USED, trapframe := tf, pagetable := 0 } } := by
    simp [allocproc, hfind, modifyProc, run_onVm, kalloc_run_cons hfl, htf, hpt, StateExcept.ok_bind]
    rfl
  rw [h1, StateT.run_bind, freeproc_run (by simp [freeMem, htf, hk]; rfl)]
  simp only [Function.update_idem, Function.update_self]
  rfl

theorem allocproc_ok {tf pt : UInt64} {rest : List UInt64} {vm : VmState}
    (hfind : (List.finRange NPROC).find? (fun q => (s.proc q).state = .UNUSED) = some c)
    (hfl : s.vm.freelist = tf :: rest) (htf : tf ≠ 0)
    (hpt : (proc_pagetable s.trampoline tf).run
      { s.vm with mem := s.vm.mem.fill tf 5 Vm.PGSIZE, freelist := rest } = .ok (pt, vm))
    (hne : pt ≠ 0) :
    allocproc.run s = .ok (some c, { s with
      vm := vm
      nextpid := s.nextpid + 1
      proc := Function.update s.proc c { s.proc c with
        pid := s.nextpid
        state := .USED
        trapframe := tf
        pagetable := pt
        context := ⟨s.forkret, (s.proc c).kstack + Vm.PGSIZE, fun _ => 0⟩ } }) := by
  simp [allocproc, hfind, modifyProc, run_onVm, kalloc_run_cons hfl, htf, hpt, hne,
    StateExcept.ok_bind]
  rfl

end Runs

/-- `allocproc` never panics on such a state: it returns `none` with everything undone, or the
entry it took. -/
theorem allocproc_spec {s : KState} (h : AllocArgs s) :
    ∃ r s', allocproc.run s = .ok (r, s') ∧
      ((r = none ∧ Undone s s' ∧ Dropped s s') ∨ ∃ c tf pt, r = some c ∧ Allocated s s' c tf pt) := by
  cases hfind : (List.finRange NPROC).find? (fun q => (s.proc q).state = .UNUSED) with
  | none => exact ⟨none, s, allocproc_full hfind, .inl ⟨rfl, Undone.refl s, .inl ⟨hfind, rfl, rfl⟩⟩⟩
  | some c =>
    have hc : (s.proc c).state = .UNUSED := by simpa using List.find?_some hfind
    obtain ⟨-, hpt0, -⟩ := h.unused c hc
    cases hfl : s.vm.freelist with
    | nil =>
      exact ⟨none, _, allocproc_nomem hfind hfl hpt0,
        .inl ⟨rfl, Undone.of_entry hc (s.proc c).context rfl (Restored.refl _) rfl,
          .inr ⟨c, (s.proc c).context, hfind, rfl, rfl⟩⟩⟩
    | cons tf rest =>
      have hr : tf ∈ s.vm.freelist := by
        rw [hfl]
        exact List.mem_cons_self
      have hrest : ∀ q ∈ rest, q ∈ s.vm.freelist := fun q hq => by
        rw [hfl]
        exact List.mem_cons_of_mem _ hq
      have hnd := h.free.nodup
      rw [hfl, List.nodup_cons] at hnd
      obtain ⟨pt, vm, hpt, hres⟩ := proc_pagetable_spec (h.free.pop hfl (s.vm.mem.fill tf 5 Vm.PGSIZE))
        h.tramp_aligned (fun hm => h.tramp_not_free (hrest _ hm)) (h.free.aligned tf hr) hnd.1
      rcases hres with ⟨rfl, hres⟩ | ⟨hne, hb⟩
      · -- no table: `freeproc` gives the trapframe page back, in front of the pages
        -- `proc_pagetable` gave back
        obtain ⟨vm', hk, hend', hfl', hframe⟩ := kfree_spec (h.free.aligned tf hr)
          (by rw [hres.kernelEnd]; exact (h.free.ram tf hr).1) (h.free.ram tf hr).2
        have hw1 : WritesIn s.vm.mem (s.vm.mem.fill tf 5 Vm.PGSIZE) (· ∈ s.vm.freelist) :=
          (writesIn_fill tf 5).mono fun q hq => hq ▸ hr
        have hw : WritesIn s.vm.mem vm'.mem (· ∈ s.vm.freelist) :=
          (hw1.trans hres.writes hrest).trans (fun b hb => hframe b (hb tf hr)) fun _ hq => hq
        have hperm : vm'.freelist.Perm s.vm.freelist := by
          rw [hfl', hfl]
          exact hres.perm.cons tf
        exact ⟨none, _, allocproc_notable hfind hfl (h.free.ne_zero tf hr) hpt hk,
          .inl ⟨rfl, Undone.of_entry hc (s.proc c).context rfl
            ⟨hperm, hend'.trans hres.kernelEnd, hw⟩ rfl,
            .inr ⟨c, (s.proc c).context, hfind, rfl, rfl⟩⟩⟩
      · exact ⟨some c, _, allocproc_ok hfind hfl (h.free.ne_zero tf hr) hpt hne,
          .inr ⟨c, tf, pt, rfl, hfind, hc, rfl, Function.update_self _ _ _,
            fun q hq => Function.update_of_ne hq _ _, hne, ⟨rest, hfl, hb⟩, rfl⟩⟩

end Xv6.Fork
