import Xv6.Analysis.Fork.Files
import Xv6.Analysis.Vm.Copy
import Xv6.Model.Fs.System

/-!
# `fork` (`kernel/proc.c`)

`fork` runs `allocproc`, `uvmcopy` of the parent's memory into the child's new table, the
copy of the trapframe with `a0 = 0`, `forkFiles` and `safestrcpy` of the name. On a state
where the parent's memory is an address space (`ForkArgs`), it either returns -1 with
everything undone (`Undone`: the entry it took cleared, every page it took back, the file
system untouched), or returns the child's pid having built the child `Forked` describes.

Every byte `fork` writes lies in a page that was free when it started. The child's pages
were free and the parent's were not, so the two address spaces are apart: a write through
either one's mapping leaves the other's view of its memory as it was (`userByte_update`).
Source: kernel/proc.c:100-211, kernel/proc.c:272-319, kernel/vm.c:300-328
-/

set_option autoImplicit false

namespace Xv6.Vm

open Radix

/-! ## The user's view of memory and writes to it -/

theorem physAddr_eq_some {m : Mem} {pt va b : UInt64} (h : physAddr m pt va = some b) :
    ∃ p fl, va < MAXVA ∧ lookup m pt va = some (p, fl) ∧ fl &&& PTE_U ≠ 0 ∧
      b = p + (va - PGROUNDDOWN va) := by
  by_cases hva : va < MAXVA
  · cases hl : lookup m pt va with
    | none =>
      rw [physAddr_none hva hl] at h
      cases h
    | some x =>
      obtain ⟨p, fl⟩ := x
      rw [physAddr_some hva hl] at h
      split_ifs at h with hu
      cases h
      exact ⟨p, fl, hva, rfl, hu, rfl⟩
  · rw [physAddr, if_neg hva] at h
    cases h

/-- A user byte lies in the page it is mapped to. -/
theorem add_off_sub_lt (p va : UInt64) : p + (va - PGROUNDDOWN va) - p < PGSIZE := by
  rw [add_sub_cancel_left, UInt64.lt_iff_toNat_lt, off_toNat, PGSIZE_toNat]
  omega

/-- A write outside every page the table's user view reads, its own pages and the pages it
maps with `PTE_U`, leaves that view. -/
theorem userByte_update {m : Mem} {pt a : UInt64}
    (hpt : ∀ q, IsPtPage m pt q → ¬ a - q < PGSIZE)
    (hmap : ∀ va q fl, va < MAXVA → lookup m pt va = some (q, fl) → fl &&& PTE_U ≠ 0 →
      ¬ a - q < PGSIZE)
    (v : UInt8) (va : UInt64) : userByte (Function.update m a v) pt va = userByte m pt va := by
  have hsame : SameTree m (Function.update m a v) pt := fun q hq b hb =>
    Function.update_of_ne (fun e => hpt q hq (by rw [← e]; exact hb)) _ _
  rw [userByte, userByte, physAddr_of_sameTree hsame]
  cases hb : physAddr m pt va with
  | none => rfl
  | some b =>
    obtain ⟨q, fl, hva, hl, hu, rfl⟩ := physAddr_eq_some hb
    rw [Option.map_some, Option.map_some,
      Function.update_of_ne (fun e => hmap va q fl hva hl hu (by rw [← e]; exact add_off_sub_lt q va))]

/-- Writes only to pages that were free leave an address space's view of its memory. -/
theorem userByte_of_writesIn {s : VmState} {m' : Mem} {pt : UInt64} (hg : Good s pt)
    (hw : WritesIn s.mem m' (· ∈ s.freelist)) (va : UInt64) :
    userByte m' pt va = userByte s.mem pt va := by
  have hsame : SameTree s.mem m' pt :=
    hw.sameTree hg.tree fun q hq => ⟨hg.free_aligned q hq, hg.free_not_pt q hq⟩
  rw [userByte, userByte, physAddr_of_sameTree hsame]
  cases hb : physAddr s.mem pt va with
  | none => rfl
  | some b =>
    obtain ⟨p, fl, -, hl, -, rfl⟩ := physAddr_eq_some hb
    have hp : IsMapped s.mem pt p := ⟨va, fl, hl⟩
    rw [Option.map_some, Option.map_some, hw.page (lookup_aligned hl)
      (fun q hq => ⟨hg.free_aligned q hq, fun e => hg.free_not_mapped q hq (e ▸ hp)⟩) _
      (add_off_sub_lt p va)]

/-! ## The trapframe -/

/-- The memory after `*(np->trapframe) = *(p->trapframe)` and `np->trapframe->a0 = 0`, for the
child's trapframe `d` and the parent's `s`: the 288 bytes of `struct trapframe` copied, then
the word `a0` at offset 112 set to 0. -/
def copyTrapframe (m : Mem) (d s : UInt64) : Mem := (m.copy d m s 288).store64 (d + 112) 0

/-- The copy and the store write only the page of the child's trapframe `d`. -/
theorem writesIn_trapframe (m : Mem) (d s : UInt64) : WritesIn m (copyTrapframe m d s) (· = d) := by
  intro b hb
  have h := UInt64.lt_iff_toNat_lt.not.1 (hb d rfl)
  rw [PGSIZE_toNat] at h
  have hb := b.toNat_lt
  have hd := d.toNat_lt
  have h1 : ¬ b - (d + 112) < 8 := by
    rw [UInt64.lt_iff_toNat_lt, UInt64.toNat_sub, UInt64.toNat_add]
    rw [UInt64.toNat_sub] at h
    simp only [UInt64.reduceToNat] at h ⊢
    omega
  have h2 : ¬ b - d < 288 := by
    rw [UInt64.lt_iff_toNat_lt]
    simp only [UInt64.reduceToNat]
    omega
  rw [copyTrapframe, Mem.store64_of_not_lt h1, Mem.copy_of_not_lt h2]

/-- The child's trapframe after the copy and the store: the parent's bytes, but the eight
bytes of `a0` at offset 112, which are 0. -/
theorem trapframe_bytes (m : Mem) (d s : UInt64) {k : UInt64} (hk : k < 288) :
    copyTrapframe m d s (d + k) = if 112 ≤ k ∧ k < 120 then 0 else m (s + k) := by
  have hk' := UInt64.lt_iff_toNat_lt.1 hk
  simp only [UInt64.reduceToNat] at hk'
  have hsub : d + k - (d + 112) = k - 112 := by
    rw [add_sub_add_left_eq_sub]
  by_cases ha0 : 112 ≤ k ∧ k < 120
  · have h8 : d + k - (d + 112) < 8 := by
      rw [hsub, UInt64.lt_iff_toNat_lt, UInt64.toNat_sub_of_le _ _ ha0.1]
      have := UInt64.lt_iff_toNat_lt.1 ha0.2
      simp only [UInt64.reduceToNat] at this ⊢
      omega
    rw [if_pos ha0, copyTrapframe, Mem.store64, if_pos h8]
    simp
  · have h8 : ¬ d + k - (d + 112) < 8 := by
      rw [hsub, UInt64.lt_iff_toNat_lt, UInt64.toNat_sub]
      rw [UInt64.le_iff_toNat_le, UInt64.lt_iff_toNat_lt] at ha0
      simp only [UInt64.reduceToNat] at ha0 ⊢
      omega
    rw [if_neg ha0, copyTrapframe, Mem.store64_of_not_lt h8, Mem.copy_of_lt (by rw [add_sub_cancel_left]; exact hk),
      add_sub_cancel_left]

end Xv6.Vm

namespace Xv6.Fork

open Vm Radix

theorem run_onFs {α : Type} (x : FsM α) (s : KState) :
    (onFs x).run s = (fun r => (r.1, { s with fs := r.2 })) <$> x.run s.fs := by
  simp only [onFs, StateExcept.focus, StateT.run]
  cases x s.fs <;> rfl

/-! ## The runs of `fork` -/

/-- The state `fork` leaves after `allocproc` left `s1` with the child `c`, `uvmcopy` left
the memory `vm` and `forkFiles` the file system `fs`: the trapframe copied with `a0 = 0`, and
the child's size, name, parent and state set. -/
def forkedState (s1 : KState) (vm : VmState) (fs : FsState) (p c : Fin NPROC) : KState :=
  { s1 with
    vm := { vm with mem := copyTrapframe vm.mem (s1.proc c).trapframe (s1.proc p).trapframe }
    fs := fs
    proc := Function.update s1.proc c { s1.proc c with
      sz := (s1.proc p).sz
      name := safestrcpy (s1.proc c).name (s1.proc p).name 16
      parent := some p
      state := .RUNNABLE } }

section Runs

variable {s s1 s2 : KState} {p c : Fin NPROC} {vm : VmState}

theorem fork_full (h : allocproc.run s = .ok (none, s1)) : (fork p).run s = .ok (-1, s1) := by
  simp [fork, StateT.run_bind, h, StateExcept.ok_bind]
  rfl

theorem fork_copyfail (h : allocproc.run s = .ok (some c, s1))
    (hc : (uvmcopy (s1.proc p).pagetable (s1.proc c).pagetable (s1.proc p).sz).run s1.vm =
      .ok (-1, vm))
    (hfree : (freeproc c).run { s1 with vm := vm } = .ok ((), s2)) :
    (fork p).run s = .ok (-1, s2) := by
  simp only [fork, StateT.run_bind, h, StateExcept.ok_bind, StateT.run_get, pure_bind]
  -- `uvmcopy` as one step: unfolding `onVm` under the binders is slow to check
  rw [run_onVm_ok hc, StateExcept.ok_bind, if_pos (show (-1 : ℤ) < 0 by decide), StateT.run_bind,
    hfree]
  rfl

theorem fork_ok {fs : FsState} (h : allocproc.run s = .ok (some c, s1))
    (hc : (uvmcopy (s1.proc p).pagetable (s1.proc c).pagetable (s1.proc p).sz).run s1.vm =
      .ok (0, vm))
    (hf : (forkFiles p c).run s1.fs = .ok ((), fs)) :
    (fork p).run s = .ok ((s1.proc c).pid, forkedState s1 vm fs p c) := by
  simp only [fork, StateT.run_bind, h, StateExcept.ok_bind, StateT.run_get, pure_bind]
  rw [run_onVm_ok hc, StateExcept.ok_bind, if_neg (show ¬ (0 : ℤ) < 0 by decide)]
  simp only [StateT.run_bind, modifyProc, StateT.run_modify, pure_bind]
  -- the two stores of the trapframe copy, then `forkFiles`
  rw [run_onVm_ok rfl, StateExcept.ok_bind, run_onVm_ok rfl, StateExcept.ok_bind]
  dsimp only
  rw [run_onFs, hf, Except.map_ok, StateExcept.ok_bind]
  simp only [StateT.run_get, pure_bind, StateT.run_pure, Function.update_self, Function.update_idem]
  rfl

end Runs

/-! ## What `fork` needs, and the parent through `allocproc` -/

/-- What `fork` by `p` needs of the state: `p` is a process whose memory is an address space
of its size; the trampoline and `p`'s trapframe are aligned pages that are not free; every
UNUSED entry has no pages, no memory and no open file; every file `p` holds is open; and
`p`'s name is NUL-terminated. -/
structure ForkArgs (s : KState) (p : Fin NPROC) : Prop where
  live : (s.proc p).state ≠ .UNUSED
  space : AddrSpace s.vm (s.proc p).pagetable (s.proc p).sz
  tramp_aligned : s.trampoline.toNat % 4096 = 0
  tramp_not_free : s.trampoline ∉ s.vm.freelist
  tf_aligned : (s.proc p).trapframe.toNat % 4096 = 0
  tf_not_free : (s.proc p).trapframe ∉ s.vm.freelist
  unused : ∀ q, (s.proc q).state = .UNUSED → (s.proc q).trapframe = 0 ∧
    (s.proc q).pagetable = 0 ∧ (s.proc q).sz = 0 ∧ ∀ fd, (s.fs.proc q).ofile fd = none
  files : ∀ fd f, (s.fs.proc p).ofile fd = some f → 1 ≤ (s.fs.ftable f).ref
  name : ∃ k, (s.proc p).name k = 0

section Parent

variable {s : KState} {p : Fin NPROC} {vm1 : VmState} {tf pt : UInt64} {rest : List UInt64}

theorem ForkArgs.alloc (h : ForkArgs s p) : AllocArgs s :=
  ⟨h.space.freeOk, h.tramp_aligned, h.tramp_not_free, fun q hq =>
    ⟨(h.unused q hq).1, (h.unused q hq).2.1, (h.unused q hq).2.2.1⟩⟩

/-- The pages `allocproc` took were free: the trapframe page and the pages of the table. -/
theorem writesIn_alloc (hfl : s.vm.freelist = tf :: rest)
    (hb : Built { s.vm with mem := s.vm.mem.fill tf 5 Vm.PGSIZE, freelist := rest } vm1 pt
      s.trampoline tf) :
    WritesIn s.vm.mem vm1.mem (· ∈ s.vm.freelist) := by
  have hr : tf ∈ s.vm.freelist := by
    rw [hfl]
    exact List.mem_cons_self
  have hw1 : WritesIn s.vm.mem (s.vm.mem.fill tf 5 Vm.PGSIZE) (· ∈ s.vm.freelist) :=
    (writesIn_fill tf 5).mono fun q hq => hq ▸ hr
  exact hw1.trans hb.writes fun q hq => by
    rw [hfl]
    exact List.mem_cons_of_mem _ hq

/-- The free list after `allocproc` is part of the one before it. -/
theorem free_alloc
    (hb : Built { s.vm with mem := s.vm.mem.fill tf 5 Vm.PGSIZE, freelist := rest } vm1 pt
      s.trampoline tf) :
    ∀ q ∈ vm1.freelist, q ∈ rest := fun _ hq => hb.suffix.subset hq

/-- The parent's address space survives `allocproc`, its table the same tree. -/
theorem parent_alloc (h : ForkArgs s p) (hfl : s.vm.freelist = tf :: rest)
    (hb : Built { s.vm with mem := s.vm.mem.fill tf 5 Vm.PGSIZE, freelist := rest } vm1 pt
      s.trampoline tf) :
    SameTree s.vm.mem vm1.mem (s.proc p).pagetable ∧
      AddrSpace vm1 (s.proc p).pagetable (s.proc p).sz :=
  h.space.of_writesIn (writesIn_alloc hfl hb)
    (fun q hq => by rw [hfl]; exact List.mem_cons_of_mem _ (free_alloc hb q hq))
    hb.good.free_nodup hb.kernelEnd

/-- The pages of the child's new table were free, so none is the parent's. -/
theorem copyArgs_alloc (h : ForkArgs s p) (hfl : s.vm.freelist = tf :: rest)
    (hb : Built { s.vm with mem := s.vm.mem.fill tf 5 Vm.PGSIZE, freelist := rest } vm1 pt
      s.trampoline tf) :
    CopyArgs vm1 (s.proc p).pagetable pt (s.proc p).sz := by
  obtain ⟨hsame, hspace⟩ := parent_alloc h hfl hb
  have hg := h.space.good
  refine ⟨hspace, hb.good, hb.shaped, fun va hva => ?_, fun q hq => ?_⟩
  · rw [hb.lookup_eq va (UInt64.lt_trans hva TRAPFRAME_lt), if_pos hva]
  · have hq' : q ∈ s.vm.freelist := by
      rw [hfl]
      exact List.mem_cons_of_mem _ ((hb.ledger q).1 (.inl hq))
    rw [isPtPage_of_sameTree hsame, isMapped_of_sameTree hsame]
    exact ⟨hg.free_not_pt q hq', hg.free_not_mapped q hq'⟩

end Parent

/-! ## A failed copy -/

/-- `allocproc`'s entry, as a table. -/
theorem Allocated.proc_eq {s s1 : KState} {c : Fin NPROC} {tf pt : UInt64}
    (ha : Allocated s s1 c tf pt) : s1.proc = Function.update s.proc c { s.proc c with
      pid := s.nextpid
      state := .USED
      trapframe := tf
      pagetable := pt
      context := ⟨s.forkret, (s.proc c).kstack + Vm.PGSIZE, fun _ => 0⟩ } := by
  funext q
  by_cases hq : q = c
  · subst hq
    rw [Function.update_self, ha.entry]
  · rw [Function.update_of_ne hq, ha.others q hq]

/-- A failed `uvmcopy` keeps the pages of the table and the free list, together, as they were. -/
theorem Ledger.copyFailed {s₀ s s' : VmState} {pt : UInt64} (hl : Ledger s₀ s pt)
    (hcf : CopyFailed s s' pt) : Ledger s₀ s' pt := by
  intro q
  rw [← hl q]
  constructor
  · rintro (hq | hq)
    · rcases hcf.pt_new q hq with h | h
      · exact .inl h
      · exact .inr h
    · exact .inr ((hcf.free_iff q).1 hq).1
  · rintro (hq | hq)
    · exact .inl (hcf.pt_old q hq)
    · by_cases hpt : IsPtPage s'.mem pt q
      · exact .inl hpt
      · exact .inr ((hcf.free_iff q).2 ⟨hq, hpt⟩)

section Failed

variable {s s1 : KState} {p c : Fin NPROC} {vm2 : VmState} {tf pt : UInt64} {rest : List UInt64}

/-- After a failed `uvmcopy`, `freeproc` gives back the trapframe page and, through
`proc_freepagetable`, every page of the child's table, and clears the entry: nothing `fork`
took is left. -/
theorem undone_of_copyFailed (h : ForkArgs s p) (ha : Allocated s s1 c tf pt)
    (hfl : s.vm.freelist = tf :: rest)
    (hb : Built { s.vm with mem := s.vm.mem.fill tf 5 Vm.PGSIZE, freelist := rest } s1.vm pt
      s.trampoline tf)
    (hcf : CopyFailed s1.vm vm2 pt) :
    ∃ s2, (freeproc c).run { s1 with vm := vm2 } = .ok ((), s2) ∧ Undone s s2 ∧ Dropped s s2 := by
  have hf := h.space.freeOk
  have hr : tf ∈ s.vm.freelist := by
    rw [hfl]
    exact List.mem_cons_self
  have hin : ∀ q ∈ rest, q ∈ s.vm.freelist := fun q hq => by
    rw [hfl]
    exact List.mem_cons_of_mem _ hq
  have hnd := hf.nodup
  rw [hfl, List.nodup_cons] at hnd
  have hl2 := hb.ledger.copyFailed hcf
  have htf2 : ¬ IsPtPage vm2.mem pt tf := fun hq => hnd.1 ((hl2 tf).1 (.inl hq))
  have htf2' : tf ∉ vm2.freelist := fun hq => hnd.1 ((hl2 tf).1 (.inr hq))
  -- `kfree(p->trapframe)`
  obtain ⟨vm3, hk, hend3, hfl3, hframe3⟩ := kfree_spec (hf.aligned tf hr)
    (by rw [hcf.kernelEnd, hb.kernelEnd]; exact (hf.ram tf hr).1) (hf.ram tf hr).2
  have hw3 : WritesIn vm2.mem vm3.mem (· = tf) := fun b hb' => hframe3 b (hb' tf rfl)
  have hsame3 : SameTree vm2.mem vm3.mem pt :=
    hw3.sameTree hcf.table.tree fun q hq => ⟨hq ▸ hf.aligned tf hr, hq ▸ htf2⟩
  -- `proc_freepagetable(p->pagetable, p->sz)`, with `sz` still 0
  have hl3 : ∀ va, va < MAXVA → lookup vm3.mem pt va =
      if va < TRAPFRAME then none
      else if va < TRAMPOLINE then some (tf, PTE_R ||| PTE_W ||| PTE_V)
      else some (s.trampoline, PTE_R ||| PTE_X ||| PTE_V) := by
    intro va hva
    rw [lookup_of_sameTree hsame3, hcf.lookup_eq va hva, hb.lookup_eq va hva]
    split_ifs <;> rfl
  have hled3 : Ledger s.vm vm3 pt := by
    intro q
    rw [isPtPage_of_sameTree hsame3, hfl3, hfl, List.mem_cons, List.mem_cons, ← hl2 q]
    tauto
  have hw : WritesIn s.vm.mem vm3.mem (· ∈ s.vm.freelist) := by
    refine ((writesIn_alloc hfl hb).trans hcf.writes fun q hq => hin q ?_).trans hw3
      fun q hq => hq ▸ hr
    rcases hq with hq | hq
    · exact free_alloc hb q hq
    · exact (hb.ledger q).1 (.inl hq)
  obtain ⟨vm4, hrun4, hres⟩ := proc_freepagetable_restores hf (tableOk_of_sameTree hsame3 hcf.table)
    (hcf.shaped.of_upperSame (upperSame_of_sameTree hsame3)) hl3 hled3
    (fun q hq => by
      rw [isPtPage_of_sameTree hsame3] at hq
      rw [hfl3, List.mem_cons]
      rintro (rfl | hq')
      · exact htf2 hq
      · exact ((hcf.free_iff q).1 hq').2 hq)
    (by rw [hfl3]; exact List.nodup_cons.2 ⟨htf2', hcf.free_nodup⟩)
    (hend3.trans (hcf.kernelEnd.trans hb.kernelEnd)) hw
  -- the entry has the trapframe, the table and the size 0 of an UNUSED entry
  have hsz : (s.proc c).sz = 0 := (h.unused c ha.unused).2.2.1
  have hmem : (freeMem ({ s1 with vm := vm2 }.proc c)).run vm2 = .ok ((), vm4) := by
    simp [freeMem, ha.entry, hf.ne_zero tf hr, ha.pt_ne, hsz, StateT.run_bind, hk, hrun4,
      StateExcept.ok_bind]
  -- the entry is cleared, with the context `allocproc` gave it
  let ctx : Context := ⟨s.forkret, (s.proc c).kstack + Vm.PGSIZE, fun _ => 0⟩
  have hproc : Function.update s1.proc c (s1.proc c).cleared =
      Function.update s.proc c { (s.proc c).cleared with context := ctx } := by
    rw [ha.proc_eq, Function.update_idem, Function.update_self]
    rfl
  exact ⟨_, freeproc_run hmem, Undone.of_entry ha.unused ctx hproc hres ha.fs,
    .inr ⟨c, ctx, ha.first, hproc, ha.nextpid⟩⟩

end Failed

/-! ## A successful copy -/

/-- The situation after a successful `uvmcopy`: `allocproc` took the child's trapframe page
`tf` off the front of the free list of `s` and built the table `pt` in `vm1`, and `uvmcopy`
copied the parent's memory into it, leaving `vm2`. -/
structure Copied (s : KState) (p : Fin NPROC) (vm1 vm2 : VmState) (tf pt : UInt64)
    (rest : List UInt64) : Prop where
  args : ForkArgs s p
  free : s.vm.freelist = tf :: rest
  built : Built { s.vm with mem := s.vm.mem.fill tf 5 Vm.PGSIZE, freelist := rest } vm1 pt
    s.trampoline tf
  copy : Copying vm1 vm2 (s.proc p).pagetable pt (Vm.PGROUNDUP (s.proc p).sz)

namespace Copied

variable {s : KState} {p : Fin NPROC} {vm1 vm2 : VmState} {tf pt : UInt64} {rest : List UInt64}

theorem mem_free (hc : Copied s p vm1 vm2 tf pt rest) {q : UInt64} (hq : q ∈ rest) :
    q ∈ s.vm.freelist := by
  rw [hc.free]
  exact List.mem_cons_of_mem _ hq

/-- The child's trapframe page was free, is aligned, and is none of the pages left on the free
list after it. -/
theorem tf_page (hc : Copied s p vm1 vm2 tf pt rest) :
    tf ∈ s.vm.freelist ∧ tf ∉ rest ∧ tf.toNat % 4096 = 0 := by
  have hr : tf ∈ s.vm.freelist := by
    rw [hc.free]
    exact List.mem_cons_self
  have hnd := hc.args.space.freeOk.nodup
  rw [hc.free, List.nodup_cons] at hnd
  exact ⟨hr, hnd.1, hc.args.space.freeOk.aligned tf hr⟩

/-- Up to the trapframe copy, `fork` writes only pages that were free. -/
theorem writesIn_copy (hc : Copied s p vm1 vm2 tf pt rest) :
    WritesIn s.vm.mem vm2.mem (· ∈ s.vm.freelist) := by
  refine (writesIn_alloc hc.free hc.built).trans hc.copy.writes fun q hq => hc.mem_free ?_
  rcases hq with hq | hq
  · exact free_alloc hc.built q hq
  · exact (hc.built.ledger q).1 (.inl hq)

/-- The pages of the child's table and the free pages after `uvmcopy` were free before it. -/
theorem pages (hc : Copied s p vm1 vm2 tf pt rest) :
    (∀ q, IsPtPage vm2.mem pt q → q ∈ rest) ∧ ∀ q ∈ vm2.freelist, q ∈ rest := by
  refine ⟨fun q hq => ?_, fun q hq => free_alloc hc.built q (hc.copy.suffix.subset hq)⟩
  rcases hc.copy.pt_new q hq with h | ⟨h, -⟩
  · exact (hc.built.ledger q).1 (.inl h)
  · exact free_alloc hc.built q h

/-- A page the child maps below the parent's size was free. -/
theorem user_page (hc : Copied s p vm1 vm2 tf pt rest) {va q fl : UInt64}
    (hva : va.toNat < (Vm.PGROUNDUP (s.proc p).sz).toNat) (hl : lookup vm2.mem pt va = some (q, fl)) :
    q ∈ rest := by
  obtain ⟨q', _, _, hl', -, hq', -, -⟩ := hc.copy.copied va hva
  rw [hl] at hl'
  cases hl'
  exact free_alloc hc.built q hq'

/-- The child's memory after `uvmcopy` is an address space of the parent's size. -/
theorem child_space (hc : Copied s p vm1 vm2 tf pt rest) : AddrSpace vm2 pt (s.proc p).sz := by
  have hend : vm2.kernelEnd = s.vm.kernelEnd := hc.copy.kernelEnd.trans hc.built.kernelEnd
  have hram := hc.args.space.freeOk.ram
  refine ⟨hc.copy.good, hc.args.space.sz_lt, fun va hva => ?_, hc.copy.inj, fun va h1 h2 => ?_,
    fun q hq => ?_⟩
  · obtain ⟨q, fl, hl, hfl', -⟩ := hc.copy.user (copyArgs_alloc hc.args hc.free hc.built) le_rfl va hva
    have hq := hram q (hc.mem_free (hc.user_page hva hl))
    exact ⟨q, fl, hl, hfl', by rw [hend]; exact hq.1, hq.2⟩
  · have hva : va < MAXVA := UInt64.lt_trans h2 TRAPFRAME_lt
    rw [hc.copy.other va hva h1, hc.built.lookup_eq va hva, if_pos h2]
  · rw [hend]
    exact hram q (hc.mem_free (hc.pages.2 q hq))

/-- The trapframe copy writes no page of the child's table. -/
theorem sameTree_trapframe (hc : Copied s p vm1 vm2 tf pt rest) :
    SameTree vm2.mem (copyTrapframe vm2.mem tf (s.proc p).trapframe) pt := by
  obtain ⟨-, hnr, hal⟩ := hc.tf_page
  exact (writesIn_trapframe _ _ _).sameTree hc.copy.good.tree fun q hq =>
    ⟨hq ▸ hal, fun hpt => hnr (hq ▸ hc.pages.1 q hpt)⟩

/-- Every byte `fork` writes lies in a page that was free when it started. -/
theorem writesIn_fork (hc : Copied s p vm1 vm2 tf pt rest) :
    WritesIn s.vm.mem (copyTrapframe vm2.mem tf (s.proc p).trapframe) (· ∈ s.vm.freelist) :=
  hc.writesIn_copy.trans (writesIn_trapframe _ _ _) fun _ hq => hq ▸ hc.tf_page.1

/-- The parent's memory survives `fork`, its table the same tree. -/
theorem parent_space (hc : Copied s p vm1 vm2 tf pt rest) :
    SameTree s.vm.mem (copyTrapframe vm2.mem tf (s.proc p).trapframe) (s.proc p).pagetable ∧
      AddrSpace { vm2 with mem := copyTrapframe vm2.mem tf (s.proc p).trapframe }
        (s.proc p).pagetable (s.proc p).sz :=
  @AddrSpace.of_writesIn s.vm { vm2 with mem := copyTrapframe vm2.mem tf (s.proc p).trapframe } _ _
    hc.args.space hc.writesIn_fork (fun q hq => hc.mem_free (hc.pages.2 q hq))
    hc.copy.good.free_nodup (hc.copy.kernelEnd.trans hc.built.kernelEnd)

/-- The child's memory after the trapframe copy. -/
theorem child_space_fork (hc : Copied s p vm1 vm2 tf pt rest) :
    AddrSpace { vm2 with mem := copyTrapframe vm2.mem tf (s.proc p).trapframe } pt (s.proc p).sz :=
  hc.child_space.of_sameTree hc.sameTree_trapframe (fun _ hq => hq) hc.copy.good.free_nodup rfl

/-- An address below the parent's size lies below `TRAPFRAME`. -/
theorem lt_TRAPFRAME (hc : Copied s p vm1 vm2 tf pt rest) {va : UInt64}
    (hva : va.toNat < (Vm.PGROUNDUP (s.proc p).sz).toNat) : va < TRAPFRAME :=
  UInt64.lt_iff_toNat_lt.2 (lt_of_lt_of_le hva (PGROUNDUP_le_TRAPFRAME hc.args.space.sz_lt).2)

/-- Below the parent's size, the child's view of its memory is the parent's before `fork`. -/
theorem bytes (hc : Copied s p vm1 vm2 tf pt rest) {va : UInt64}
    (hva : va.toNat < (Vm.PGROUNDUP (s.proc p).sz).toNat) :
    userByte (copyTrapframe vm2.mem tf (s.proc p).trapframe) pt va =
      userByte s.vm.mem (s.proc p).pagetable va := by
  obtain ⟨q, p0, fl, hl, hl0, hq, -, hcopy⟩ := hc.copy.copied va hva
  have hmax : va < MAXVA := UInt64.lt_trans (hc.lt_TRAPFRAME hva) TRAPFRAME_lt
  have hl0' : lookup s.vm.mem (s.proc p).pagetable va = some (p0, fl) := by
    rw [← lookup_of_sameTree (parent_alloc hc.args hc.free hc.built).1]
    exact hl0
  have hoff : va - PGROUNDDOWN va < Vm.PGSIZE :=
    UInt64.lt_iff_toNat_lt.2 (by rw [off_toNat, PGSIZE_toNat]; omega)
  rw [userByte, userByte, physAddr_of_sameTree hc.sameTree_trapframe, physAddr_some hmax hl,
    physAddr_some hmax hl0']
  split_ifs
  · rw [Option.map_some, Option.map_some]
    congr 1
    -- the child's page is not written after the copy, and the parent's page not at all
    obtain ⟨-, hnr, htfal⟩ := hc.tf_page
    have hg := hc.args.space.good
    calc copyTrapframe vm2.mem tf (s.proc p).trapframe (q + (va - PGROUNDDOWN va))
        = vm2.mem (q + (va - PGROUNDDOWN va)) :=
          (writesIn_trapframe _ _ _).page (lookup_aligned hl) (fun x hx => ⟨hx ▸ htfal,
            fun e => hnr (by rw [← hx, e]; exact free_alloc hc.built q hq)⟩) _ (add_off_sub_lt q va)
      _ = vm1.mem (p0 + (va - PGROUNDDOWN va)) := hcopy _ hoff
      _ = s.vm.mem (p0 + (va - PGROUNDDOWN va)) :=
          (writesIn_alloc hc.free hc.built).page (lookup_aligned hl0') (fun x hx =>
            ⟨hg.free_aligned x hx, fun e => hg.free_not_mapped x hx (by rw [e]; exact ⟨va, fl, hl0'⟩)⟩) _
            (add_off_sub_lt p0 va)
  · rfl

/-- Below the parent's size, the child maps each page with the parent's flags. -/
theorem perms (hc : Copied s p vm1 vm2 tf pt rest) {va : UInt64}
    (hva : va.toNat < (Vm.PGROUNDUP (s.proc p).sz).toNat) :
    (lookup (copyTrapframe vm2.mem tf (s.proc p).trapframe) pt va).map Prod.snd =
      (lookup s.vm.mem (s.proc p).pagetable va).map Prod.snd := by
  obtain ⟨q, p0, fl, hl, hl0, -⟩ := hc.copy.copied va hva
  rw [lookup_of_sameTree hc.sameTree_trapframe, hl,
    ← lookup_of_sameTree (parent_alloc hc.args hc.free hc.built).1, hl0]
  rfl

/-- Every page the child maps below `TRAPFRAME` was free. -/
theorem fresh (hc : Copied s p vm1 vm2 tf pt rest) {va q fl : UInt64} (hva : va < TRAPFRAME)
    (hl : lookup (copyTrapframe vm2.mem tf (s.proc p).trapframe) pt va = some (q, fl)) : q ∈ rest := by
  rw [lookup_of_sameTree hc.sameTree_trapframe] at hl
  by_cases hv : va.toNat < (Vm.PGROUNDUP (s.proc p).sz).toNat
  · exact hc.user_page hv hl
  · rw [hc.child_space.above va (Nat.not_lt.1 hv) hva] at hl
    cases hl

/-- Above the user memory, the child maps its trapframe and the trampoline. -/
theorem top (hc : Copied s p vm1 vm2 tf pt rest) {va : UInt64} (hva : va < MAXVA)
    (h2 : TRAPFRAME ≤ va) :
    lookup (copyTrapframe vm2.mem tf (s.proc p).trapframe) pt va =
      if va < TRAMPOLINE then some (tf, PTE_R ||| PTE_W ||| PTE_V)
      else some (s.trampoline, PTE_R ||| PTE_X ||| PTE_V) := by
  have hle : (Vm.PGROUNDUP (s.proc p).sz).toNat ≤ va.toNat :=
    le_trans (PGROUNDUP_le_TRAPFRAME hc.args.space.sz_lt).2 (UInt64.le_iff_toNat_le.1 h2)
  rw [lookup_of_sameTree hc.sameTree_trapframe, hc.copy.other va hva hle,
    hc.built.lookup_eq va hva, if_neg (UInt64.not_lt.2 h2)]

/-- Every page the child maps with `PTE_U` was free: the trapframe and the trampoline are not
the user's. -/
theorem user_mapped (hc : Copied s p vm1 vm2 tf pt rest) {va q fl : UInt64} (hva : va < MAXVA)
    (hl : lookup (copyTrapframe vm2.mem tf (s.proc p).trapframe) pt va = some (q, fl))
    (hu : fl &&& PTE_U ≠ 0) : q ∈ rest := by
  by_cases h2 : va < TRAPFRAME
  · exact hc.fresh h2 hl
  · rw [hc.top hva (UInt64.not_lt.1 h2)] at hl
    split_ifs at hl <;> cases hl <;> exact absurd hu (by decide)

/-- A write through the child's mapping is invisible to the parent. -/
theorem child_writes (hc : Copied s p vm1 vm2 tf pt rest) {va a : UInt64}
    (ha : physAddr (copyTrapframe vm2.mem tf (s.proc p).trapframe) pt va = some a) (v : UInt8)
    (va' : UInt64) :
    userByte (Function.update (copyTrapframe vm2.mem tf (s.proc p).trapframe) a v) (s.proc p).pagetable va' =
      userByte (copyTrapframe vm2.mem tf (s.proc p).trapframe) (s.proc p).pagetable va' := by
  obtain ⟨q, fl, hva, hl, hu, rfl⟩ := physAddr_eq_some ha
  have hq := hc.mem_free (hc.user_mapped hva hl hu)
  have hqal := lookup_aligned hl
  have hsame := hc.parent_space.1
  have hg := hc.args.space.good
  -- the parent's pages were not free, so none is the child's page `q`
  refine userByte_update (fun q' hq' => ?_) (fun va'' q' fl' _ hl' _ => ?_) v va'
  · rw [isPtPage_of_sameTree hsame] at hq'
    exact Mem.page_disjoint (hg.tree.aligned q' hq') hqal
      (fun e => hg.free_not_pt q hq (by rw [e]; exact hq')) _ (add_off_sub_lt q va)
  · rw [lookup_of_sameTree hsame] at hl'
    exact Mem.page_disjoint (lookup_aligned hl') hqal
      (fun e => hg.free_not_mapped q hq (by rw [e]; exact ⟨va'', fl', hl'⟩)) _ (add_off_sub_lt q va)

/-- A write through the parent's mapping is invisible to the child. -/
theorem parent_writes (hc : Copied s p vm1 vm2 tf pt rest) {va a : UInt64}
    (ha : physAddr (copyTrapframe vm2.mem tf (s.proc p).trapframe) (s.proc p).pagetable va = some a)
    (v : UInt8) (va' : UInt64) :
    userByte (Function.update (copyTrapframe vm2.mem tf (s.proc p).trapframe) a v) pt va' =
      userByte (copyTrapframe vm2.mem tf (s.proc p).trapframe) pt va' := by
  obtain ⟨q, fl, -, hl, -, rfl⟩ := physAddr_eq_some ha
  rw [lookup_of_sameTree hc.parent_space.1] at hl
  have hqal := lookup_aligned hl
  -- the child's pages were free, so none is the parent's page `q`
  have hnf : ∀ x ∈ rest, x ≠ q := fun x hx e =>
    hc.args.space.good.free_not_mapped x (hc.mem_free hx) (by rw [e]; exact ⟨va, fl, hl⟩)
  refine userByte_update (fun q' hq' => ?_) (fun va'' q' fl' hva' hl' hu' => ?_) v va'
  · rw [isPtPage_of_sameTree hc.sameTree_trapframe] at hq'
    exact Mem.page_disjoint (hc.copy.good.tree.aligned q' hq') hqal
      (fun e => hnf q' (hc.pages.1 q' hq') e.symm) _ (add_off_sub_lt q va)
  · exact Mem.page_disjoint (lookup_aligned hl') hqal
      (fun e => hnf q' (hc.user_mapped hva' hl' hu') e.symm) _ (add_off_sub_lt q va)

/-- The child's trapframe holds the parent's, with `a0 = 0`. -/
theorem trapframe (hc : Copied s p vm1 vm2 tf pt rest) {k : UInt64} (hk : k < 288) :
    copyTrapframe vm2.mem tf (s.proc p).trapframe (tf + k) =
      if 112 ≤ k ∧ k < 120 then 0 else s.vm.mem ((s.proc p).trapframe + k) := by
  rw [trapframe_bytes _ _ _ hk]
  split_ifs
  · rfl
  · -- the parent's trapframe page was not free, so it holds its bytes
    exact hc.writesIn_copy.page hc.args.tf_aligned (fun x hx => ⟨hc.args.space.good.free_aligned x hx,
      fun e => hc.args.tf_not_free (e ▸ hx)⟩) _ (by rw [add_sub_cancel_left]; exact UInt64.lt_trans hk (by decide))

end Copied

/-! ## `fork` -/

/-- What `fork` by `p` built in `s'` from `s`, returning `pid`: the child `c`, RUNNABLE with the
next pid and the parent `p`, every other entry as it was. The child's memory is an address
space of the parent's size that holds the parent's bytes with the parent's flags, in pages
that were free, and maps the child's own trapframe and the trampoline above it; the parent's
memory is as it was; the two are apart, so that a write through either one's mapping leaves
the other's view as it was; only pages that were free are written. The child's trapframe
is the parent's with `a0 = 0`; it has the parent's open files and current directory, each
count raised; and its name is the parent's up to its NUL. -/
structure Forked (s s' : KState) (p c : Fin NPROC) (pid : Int32) : Prop where
  unused : (s.proc c).state = .UNUSED
  pid_eq : pid = s.nextpid ∧ (s'.proc c).pid = pid
  runnable : (s'.proc c).state = .RUNNABLE
  parent : (s'.proc c).parent = some p
  sz : (s'.proc c).sz = (s.proc p).sz
  others : ∀ q, q ≠ c → s'.proc q = s.proc q
  child_space : AddrSpace s'.vm (s'.proc c).pagetable (s'.proc c).sz
  parent_space : AddrSpace s'.vm (s.proc p).pagetable (s.proc p).sz
  bytes : ∀ va, va.toNat < (Vm.PGROUNDUP (s.proc p).sz).toNat →
    userByte s'.vm.mem (s'.proc c).pagetable va = userByte s.vm.mem (s.proc p).pagetable va
  perms : ∀ va, va.toNat < (Vm.PGROUNDUP (s.proc p).sz).toNat →
    (lookup s'.vm.mem (s'.proc c).pagetable va).map Prod.snd =
      (lookup s.vm.mem (s.proc p).pagetable va).map Prod.snd
  parent_bytes : ∀ va,
    userByte s'.vm.mem (s.proc p).pagetable va = userByte s.vm.mem (s.proc p).pagetable va
  fresh : ∀ va q fl, va < TRAPFRAME → lookup s'.vm.mem (s'.proc c).pagetable va = some (q, fl) →
    q ∈ s.vm.freelist
  top : ∀ va, va < MAXVA → TRAPFRAME ≤ va → lookup s'.vm.mem (s'.proc c).pagetable va =
    if va < TRAMPOLINE then some ((s'.proc c).trapframe, PTE_R ||| PTE_W ||| PTE_V)
    else some (s.trampoline, PTE_R ||| PTE_X ||| PTE_V)
  tf_fresh : (s'.proc c).trapframe ∈ s.vm.freelist
  child_writes : ∀ va a, physAddr s'.vm.mem (s'.proc c).pagetable va = some a → ∀ v va',
    userByte (Function.update s'.vm.mem a v) (s.proc p).pagetable va' =
      userByte s'.vm.mem (s.proc p).pagetable va'
  parent_writes : ∀ va a, physAddr s'.vm.mem (s.proc p).pagetable va = some a → ∀ v va',
    userByte (Function.update s'.vm.mem a v) (s'.proc c).pagetable va' =
      userByte s'.vm.mem (s'.proc c).pagetable va'
  trapframe : ∀ k, k < 288 → s'.vm.mem ((s'.proc c).trapframe + k) =
    if 112 ≤ k ∧ k < 120 then 0 else s.vm.mem ((s.proc p).trapframe + k)
  writes : WritesIn s.vm.mem s'.vm.mem (· ∈ s.vm.freelist)
  fs : s'.fs = { s.fs with
    ftable := fun f => { s.fs.ftable f with
      ref := (s.fs.ftable f).ref +
        (List.finRange NOFILE).countP fun fd => (s.fs.proc p).ofile fd = some f }
    itable := Function.update s.fs.itable (s.fs.proc p).cwd
      { s.fs.itable (s.fs.proc p).cwd with ref := (s.fs.itable (s.fs.proc p).cwd).ref + 1 }
    proc := Function.update s.fs.proc c { s.fs.proc c with
      ofile := (s.fs.proc p).ofile
      cwd := (s.fs.proc p).cwd
      alive := true } }
  name : ∀ k, (∀ j, j < k → (s.proc p).name j ≠ 0) → (s'.proc c).name k = (s.proc p).name k

section Fork

variable {s s1 : KState} {p c : Fin NPROC} {vm2 : VmState} {fs : FsState} {tf pt : UInt64}
  {rest : List UInt64}

/-- The file system after `forkFiles` into an entry with no open file. -/
theorem fs_forked (h : ForkArgs s p) (ha : Allocated s s1 c tf pt) (hpc : p ≠ c)
    (hf : (forkFiles p c).run s1.fs = .ok ((), fs)) : fs = { s.fs with
      ftable := fun f => { s.fs.ftable f with
        ref := (s.fs.ftable f).ref +
          (List.finRange NOFILE).countP fun fd => (s.fs.proc p).ofile fd = some f }
      itable := Function.update s.fs.itable (s.fs.proc p).cwd
        { s.fs.itable (s.fs.proc p).cwd with ref := (s.fs.itable (s.fs.proc p).cwd).ref + 1 }
      proc := Function.update s.fs.proc c { s.fs.proc c with
        ofile := (s.fs.proc p).ofile
        cwd := (s.fs.proc p).cwd
        alive := true } } := by
  rw [ha.fs, forkFiles_run hpc h.files] at hf
  cases hf
  -- the child had no open file, so it gets exactly the parent's
  have hnone := (h.unused c ha.unused).2.2.2
  simp only [hnone, Option.or_none]

/-- The child's entry in the state `fork` leaves. -/
theorem forkedState_child (ha : Allocated s s1 c tf pt) (hpc : p ≠ c) :
    (forkedState s1 vm2 fs p c).proc c = { s.proc c with
      pid := s.nextpid
      state := .RUNNABLE
      trapframe := tf
      pagetable := pt
      context := ⟨s.forkret, (s.proc c).kstack + Vm.PGSIZE, fun _ => 0⟩
      sz := (s.proc p).sz
      name := safestrcpy (s.proc c).name (s.proc p).name 16
      parent := some p } := by
  simp only [forkedState, Function.update_self, ha.entry, ha.others p hpc]

/-- The memory `fork` leaves: what `uvmcopy` left, with the trapframe copied. -/
theorem forkedState_vm (ha : Allocated s s1 c tf pt) (hpc : p ≠ c) :
    (forkedState s1 vm2 fs p c).vm =
      { vm2 with mem := copyTrapframe vm2.mem tf (s.proc p).trapframe } := by
  simp only [forkedState, ha.entry, ha.others p hpc]

/-- After a successful `uvmcopy`, the rest of `fork` builds the child `Forked` describes. -/
theorem forked_of_copied (hc : Copied s p s1.vm vm2 tf pt rest) (ha : Allocated s s1 c tf pt)
    (hf : (forkFiles p c).run s1.fs = .ok ((), fs)) :
    Forked s (forkedState s1 vm2 fs p c) p c (s1.proc c).pid := by
  have h := hc.args
  have hpc : p ≠ c := fun e => h.live (e ▸ ha.unused)
  have hproc : (forkedState s1 vm2 fs p c).proc c = _ := forkedState_child ha hpc
  have hvm : (forkedState s1 vm2 fs p c).vm = _ := forkedState_vm ha hpc
  refine ⟨ha.unused, ⟨by rw [ha.entry], by rw [hproc, ha.entry]⟩, by rw [hproc], by rw [hproc],
    by rw [hproc], fun q hq => ?_, ?_, ?_, fun va hva => ?_, fun va hva => ?_, fun va => ?_,
    fun va q fl hva hl => ?_, fun va hva h2 => ?_, by rw [hproc]; exact hc.tf_page.1,
    fun va a ha' v va' => ?_, fun va a ha' v va' => ?_, fun k hk => ?_, ?_,
    by rw [forkedState, fs_forked h ha hpc hf], fun k hk => ?_⟩
  · simp only [forkedState, Function.update_of_ne hq]
    exact ha.others q hq
  · rw [hvm, hproc]
    exact hc.child_space_fork
  · rw [hvm]
    exact hc.parent_space.2
  · rw [hvm, hproc]
    exact hc.bytes hva
  · rw [hvm, hproc]
    exact hc.perms hva
  · rw [hvm]
    exact userByte_of_writesIn h.space.good hc.writesIn_fork va
  · rw [hvm, hproc] at hl
    exact hc.mem_free (hc.fresh hva hl)
  · rw [hvm, hproc]
    exact hc.top hva h2
  · rw [hvm, hproc] at ha'
    rw [hvm]
    exact hc.child_writes ha' v va'
  · rw [hvm] at ha'
    rw [hvm, hproc]
    exact hc.parent_writes ha' v va'
  · rw [hvm, hproc]
    exact hc.trapframe hk
  · rw [hvm]
    exact hc.writesIn_fork
  · rw [hproc]
    exact safestrcpy_eq_upto_nul _ _ h.name k hk

/-- The ways `fork` ends on a state it may run on: -1 with everything undone, or the copy,
with the pieces `Copied` and `Allocated` describe and the state the rest of `fork` builds
from them. -/
theorem fork_cases (h : ForkArgs s p) :
    ∃ r s', (fork p).run s = .ok (r, s') ∧
      ((r = -1 ∧ Undone s s' ∧ Dropped s s') ∨
        ∃ c s1 vm2 tf pt rest fs, Copied s p s1.vm vm2 tf pt rest ∧ Allocated s s1 c tf pt ∧
          (forkFiles p c).run s1.fs = .ok ((), fs) ∧ s' = forkedState s1 vm2 fs p c ∧
          r = (s1.proc c).pid) := by
  obtain ⟨r, s1, hrun, hres⟩ := allocproc_spec h.alloc
  rcases hres with ⟨rfl, hu, hd⟩ | ⟨c, tf, pt, rfl, ha⟩
  · -- no entry or no page: `allocproc` undid what it did
    exact ⟨-1, s1, fork_full hrun, .inl ⟨rfl, hu, hd⟩⟩
  · obtain ⟨rest, hfl, hb⟩ := ha.built
    have hpc : p ≠ c := fun e => h.live (e ▸ ha.unused)
    have hp1 : s1.proc p = s.proc p := ha.others p hpc
    obtain ⟨r, vm2, hcopy, hres⟩ := uvmcopy_spec (copyArgs_alloc h hfl hb)
    have hcopy' : (uvmcopy (s1.proc p).pagetable (s1.proc c).pagetable (s1.proc p).sz).run s1.vm =
        .ok (r, vm2) := by
      rw [hp1, ha.entry]
      exact hcopy
    rcases hres with ⟨rfl, hcp⟩ | ⟨rfl, hcf⟩
    · -- the copy: the files, the name, and the child made RUNNABLE
      have hf := forkFiles_run (s := s1.fs) hpc (by rw [ha.fs]; exact h.files)
      exact ⟨_, _, fork_ok hrun hcopy' hf,
        .inr ⟨c, s1, vm2, tf, pt, rest, _, ⟨h, hfl, hb, hcp⟩, ha, hf, rfl, rfl⟩⟩
    · -- no page for the copy: `freeproc` gives everything back
      obtain ⟨s2, hfree, hu, hd⟩ := undone_of_copyFailed h ha hfl hb hcf
      exact ⟨-1, s2, fork_copyfail hrun hcopy' hfree, .inl ⟨rfl, hu, hd⟩⟩

/-- `fork()` by a process whose memory is an address space never panics. It returns -1 having
undone everything it did (no entry left taken, every page back on the free list, the file
system as it was), or the pid of a new RUNNABLE child with an identical and independent
copy of the parent's memory and trapframe (`a0 = 0`), the parent's open files and current
directory with their counts raised, and the parent's name. -/
theorem fork_copies_or_undoes (h : ForkArgs s p) :
    ∃ r s', (fork p).run s = .ok (r, s') ∧
      ((r = -1 ∧ Undone s s') ∨ ∃ c, Forked s s' p c r) := by
  obtain ⟨r, s', hrun, ⟨rfl, hu, -⟩ | ⟨c, s1, vm2, tf, pt, rest, fs, hc, ha, hf, rfl, rfl⟩⟩ :=
    fork_cases h
  · exact ⟨-1, s', hrun, .inl ⟨rfl, hu⟩⟩
  · exact ⟨_, _, hrun, .inr ⟨c, forked_of_copied hc ha hf⟩⟩

/-- `init` right after `userinit` on a disk of 2000 blocks: of 0 bytes on a fresh table, the
only process, with five free pages. -/
def initMachine : KState where
  vm := { mem := fun _ => 0
          freelist := [0x87ffe000, 0x87ffd000, 0x87ffb000, 0x87ffa000, 0x87ff9000]
          kernelEnd := 0x80020000 }
  fs := Fs.boot (Fs.mkfs 2000)
  proc q := { state := if q = 0 then .RUNNING else .UNUSED
              chan := 0
              killed := 0
              xstate := 0
              pid := if q = 0 then 1 else 0
              parent := none
              kstack := TRAMPOLINE - 2 * Vm.PGSIZE * (UInt64.ofNat q.val + 1)
              sz := 0
              pagetable := if q = 0 then 0x87fff000 else 0
              trapframe := if q = 0 then 0x87ffc000 else 0
              context := ⟨0, 0, fun _ => 0⟩
              name := fun _ => 0 }
  nextpid := 2
  trampoline := 0x80000000
  forkret := 0x80001000

/-- `init` after `userinit`, as in `initMachine` but with sixteen free pages. -/
def bigMachine : KState :=
  { initMachine with
    vm := { initMachine.vm with
            freelist := (List.range 16).map fun i => 0x87fe0000 + 0x1000 * UInt64.ofNat i } }

/-- The file system of `initMachine` after `init` opened `/` read-only. -/
def openRoot : FsState :=
  match (Fs.sys_open 0 [47] Fs.O_RDONLY).run (Fs.boot (Fs.mkfs 2000)) with
  | .ok (_, fs) => fs
  | .error _ => Fs.boot (Fs.mkfs 2000)

/-- `init` after `sbrk(4096)` and `open("/", O_RDONLY)`: one page of user memory that
`uvmalloc` mapped, and descriptor 0 open on `/`. -/
def grownMachine : KState :=
  match (uvmalloc 0x87fff000 0 4096).run bigMachine.vm with
  | .ok (_, vm) =>
    { bigMachine with
      vm := vm
      proc := Function.update bigMachine.proc 0 { bigMachine.proc 0 with sz := 4096 }
      fs := openRoot }
  | .error _ => bigMachine

/-- `Fintype UInt64` would decide `∀ p ∈ l` over every 64-bit word: read the free list of
`bigMachine` as sixteen indices instead. -/
theorem addrSpace_bigMachine : AddrSpace bigMachine.vm 0x87fff000 0 :=
  Vm.addrSpace_of_empty
    (fun i _ => by
      show next (fun _ => 0) _ i = none
      rw [next, Mem.load64_zero, if_neg (not_not.2 zero_not_valid)])
    (by decide) (by decide)
    (by simp only [bigMachine, List.forall_mem_map, List.mem_range]; decide)
    (by simp only [bigMachine, List.forall_mem_map, List.mem_range]; decide)
    (by decide +kernel) (by decide +kernel)
    (by simp only [bigMachine, List.forall_mem_map, List.mem_range]; decide)

/-- `uvmalloc` maps the page: sixteen free pages are more than the three the rollback
would need to have run out. -/
theorem grownMachine_eq : ∃ vm, AddrSpace vm 0x87fff000 4096 ∧
    vm.freelist <:+ bigMachine.vm.freelist ∧
    grownMachine = { bigMachine with
      vm := vm
      proc := Function.update bigMachine.proc 0 { bigMachine.proc 0 with sz := 4096 }
      fs := openRoot } := by
  rcases Vm.uvmalloc_spec addrSpace_bigMachine (show (0 : UInt64) ≤ 4096 by decide) with
    ⟨vm, hrun, hsp, hgrew⟩ | ⟨vm, -, -, hlen⟩
  · refine ⟨vm, hsp, hgrew.suffix, ?_⟩
    unfold grownMachine
    rw [hrun]
  · exact absurd hlen (by decide +kernel)

theorem forkArgs_grownMachine : ForkArgs grownMachine 0 := by
  obtain ⟨vm, hsp, hsuf, hg⟩ := grownMachine_eq
  -- the trampoline and the trapframe were not free before `uvmalloc` took pages
  have htramp : (0x80000000 : UInt64) ∉ bigMachine.vm.freelist := by decide +kernel
  have htf : (0x87ffc000 : UInt64) ∉ bigMachine.vm.freelist := by decide +kernel
  rw [hg]
  refine ⟨?_, hsp, show bigMachine.trampoline.toNat % 4096 = 0 by decide,
    fun h => htramp (hsuf.subset h), ?_, fun h => htf (hsuf.subset h), fun q hq => ?_,
    show ∀ fd f, (openRoot.proc 0).ofile fd = some f → 1 ≤ (openRoot.ftable f).ref by
      decide +kernel,
    ⟨0, rfl⟩⟩
  · simp only [Function.update_self]
    decide
  · simp only [Function.update_self]
    decide
  · have hq0 : q ≠ 0 := by
      rintro rfl
      exact absurd hq (by simp only [Function.update_self]; decide)
    simp only [Function.update_of_ne hq0] at hq ⊢
    refine ⟨by simp [bigMachine, initMachine, hq0], by simp [bigMachine, initMachine, hq0],
      rfl, ?_⟩
    revert q
    decide +kernel

/-- `init`, holding `/` open and one page of memory that `uvmalloc` mapped, forks. -/
theorem fork_copies_or_undoes_of_grown_parent :
    ForkArgs grownMachine 0 ∧ (grownMachine.proc 0).sz = 4096 ∧
      (grownMachine.fs.proc 0).ofile 0 ≠ none ∧
      ∃ r s', (fork 0).run grownMachine = .ok (r, s') ∧
        ((r = -1 ∧ Undone grownMachine s') ∨ ∃ c, Forked grownMachine s' 0 c r) := by
  obtain ⟨vm, -, -, hg⟩ := grownMachine_eq
  refine ⟨forkArgs_grownMachine, by rw [hg]; rfl,
    by rw [hg]; exact show (openRoot.proc 0).ofile 0 ≠ none by decide +kernel,
    fork_copies_or_undoes forkArgs_grownMachine⟩

end Fork

end Xv6.Fork
