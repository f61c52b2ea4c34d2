import Xv6.Analysis.Fork.Child

/-!
# The tables the kernel builds satisfy `UserOk`

`copyout`, `copyin` and `copyinstr` are correct on every table that satisfies `UserOk`
(`Xv6.Vm.user_copies_correct`): a tree whose pages are none of the mapped ones, and below
`MAXVA` every mapped page non-zero and mapped from one virtual page only. This file shows
that the tables the kernel gives a process are of that kind.

`ProcSpace` is the table of a user process as `proc_pagetable`, `uvmalloc` and `fork` leave
it: below `TRAPFRAME` an address space of `sz` bytes (`AddrSpace`), and above it the trapframe
page and the trampoline, mapped as `proc_pagetable` maps them, two distinct non-zero pages
that no user page is mapped to and that are not free. It implies `UserOk`
(`ProcSpace.userOk`); `proc_pagetable` builds one (`procSpace_of_built`), a successful
`uvmalloc` keeps it (`ProcSpace.uvmalloc`), and the child of a successful `fork` has one
(`Copied.procSpace`), its user pages being pages `uvmcopy` took off the free list after the
child's trapframe.
Source: kernel/proc.c:172-203, kernel/proc.c:273-319, kernel/vm.c:221-249, kernel/vm.c:301-331
-/

set_option autoImplicit false

namespace Xv6.Vm

open Radix

/-- The table `pt` of a user process of `sz` bytes whose trapframe page is `tf`, with the
trampoline `tramp`. -/
structure ProcSpace (s : VmState) (pt sz tramp tf : UInt64) : Prop where
  space : AddrSpace s pt sz
  top : ∀ va, va < MAXVA → TRAPFRAME ≤ va → lookup s.mem pt va =
    if va < TRAMPOLINE then some (tf, PTE_R ||| PTE_W ||| PTE_V)
    else some (tramp, PTE_R ||| PTE_X ||| PTE_V)
  tramp_ne : tramp ≠ 0
  tf_ne : tf ≠ 0
  tf_ne_tramp : tf ≠ tramp
  tramp_not_free : tramp ∉ s.freelist
  tf_not_free : tf ∉ s.freelist
  user_page : ∀ va p fl, va < TRAPFRAME → lookup s.mem pt va = some (p, fl) →
    p ≠ 0 ∧ p ≠ tramp ∧ p ≠ tf

section Top

variable {s : VmState} {pt sz tramp tf : UInt64}

/-- The two pages above `TRAPFRAME` are one page each. -/
theorem page_eq_of_top {va va' : UInt64} (hva : va < MAXVA) (hva' : va' < MAXVA)
    (h : TRAPFRAME ≤ va) (h' : TRAPFRAME ≤ va') (hlt : va < TRAMPOLINE ↔ va' < TRAMPOLINE) :
    va.toNat / 4096 = va'.toNat / 4096 := by
  rw [UInt64.lt_iff_toNat_lt, MAXVA_toNat] at hva hva'
  rw [UInt64.le_iff_toNat_le, TRAPFRAME_toNat] at h h'
  rw [UInt64.lt_iff_toNat_lt, UInt64.lt_iff_toNat_lt, Fork.TRAMPOLINE_toNat] at hlt
  by_cases ht : va.toNat < 2 ^ 38 - 4096
  · have ht' := hlt.1 ht
    omega
  · have ht' : ¬ va'.toNat < 2 ^ 38 - 4096 := fun h2 => ht (hlt.2 h2)
    omega

/-- A page mapped above `TRAPFRAME` is the trapframe or the trampoline. -/
theorem ProcSpace.top_page (h : ProcSpace s pt sz tramp tf) {va p fl : UInt64} (hva : va < MAXVA)
    (h2 : TRAPFRAME ≤ va) (hl : lookup s.mem pt va = some (p, fl)) :
    (va < TRAMPOLINE ∧ p = tf) ∨ (¬ va < TRAMPOLINE ∧ p = tramp) := by
  rw [h.top va hva h2] at hl
  split_ifs at hl with ht
  · cases hl
    exact .inl ⟨ht, rfl⟩
  · cases hl
    exact .inr ⟨ht, rfl⟩

/-- Two addresses below `TRAPFRAME` mapped to one page lie in one page. -/
theorem ProcSpace.user_inj (h : ProcSpace s pt sz tramp tf) {va va' p fl fl' : UInt64}
    (hva : va < TRAPFRAME) (hva' : va' < TRAPFRAME) (hl : lookup s.mem pt va = some (p, fl))
    (hl' : lookup s.mem pt va' = some (p, fl')) : va.toNat / 4096 = va'.toNat / 4096 := by
  -- above the size nothing is mapped, so both lie in the user part
  have hin : ∀ {v q g}, v < TRAPFRAME → lookup s.mem pt v = some (q, g) →
      v.toNat < (PGROUNDUP sz).toNat := fun {v q g} hv hlv =>
    Nat.lt_of_not_le fun hle => by rw [h.space.above v hle hv] at hlv; cases hlv
  exact h.space.user_inj va va' p fl fl' (hin hva hl) (hin hva' hl') hl hl'

/-- The table of a user process satisfies what the copy functions need. -/
theorem ProcSpace.userOk (h : ProcSpace s pt sz tramp tf) : UserOk s.mem pt where
  table := h.space.good.tableOk
  ne_zero va p fl hva hl := by
    by_cases h2 : va < TRAPFRAME
    · exact (h.user_page va p fl h2 hl).1
    · rcases h.top_page hva (UInt64.not_lt.1 h2) hl with ⟨-, rfl⟩ | ⟨-, rfl⟩
      · exact h.tf_ne
      · exact h.tramp_ne
  inj va va' p fl fl' hva hva' hl hl' := by
    by_cases h2 : va < TRAPFRAME <;> by_cases h2' : va' < TRAPFRAME
    · exact h.user_inj h2 h2' hl hl'
    · -- a user page is neither of the two pages above
      obtain ⟨-, hne1, hne2⟩ := h.user_page va p fl h2 hl
      rcases h.top_page hva' (UInt64.not_lt.1 h2') hl' with ⟨-, rfl⟩ | ⟨-, rfl⟩
      · exact absurd rfl hne2
      · exact absurd rfl hne1
    · obtain ⟨-, hne1, hne2⟩ := h.user_page va' p fl' h2' hl'
      rcases h.top_page hva (UInt64.not_lt.1 h2) hl with ⟨-, rfl⟩ | ⟨-, rfl⟩
      · exact absurd rfl hne2
      · exact absurd rfl hne1
    · have ht := UInt64.not_lt.1 h2
      have ht' := UInt64.not_lt.1 h2'
      refine page_eq_of_top hva hva' ht ht' ?_
      rcases h.top_page hva ht hl with ⟨hl1, rfl⟩ | ⟨hl1, rfl⟩ <;>
        rcases h.top_page hva' ht' hl' with ⟨hl2, he⟩ | ⟨hl2, he⟩
      · exact iff_of_true hl1 hl2
      · exact absurd he h.tf_ne_tramp
      · exact absurd he.symm h.tf_ne_tramp
      · exact iff_of_false hl1 hl2

end Top

/-! ## The tables `proc_pagetable` and `uvmalloc` leave -/

section Build

variable {s s' : VmState} {pt sz tramp tf : UInt64}

/-- `proc_pagetable` builds the table of a process of 0 bytes, from a trampoline and a
trapframe page that are distinct, non-zero and not free, with the free pages in RAM. -/
theorem procSpace_of_built (hb : Fork.Built s s' pt tramp tf)
    (hram : ∀ q ∈ s.freelist, s.kernelEnd ≤ q ∧ q < PHYSTOP) (htramp : tramp ≠ 0) (htf : tf ≠ 0)
    (hne : tf ≠ tramp) (htramp' : tramp ∉ s.freelist) (htf' : tf ∉ s.freelist) :
    ProcSpace s' pt 0 tramp tf := by
  -- below `TRAPFRAME` the new table maps nothing
  have hnone : ∀ va, va < TRAPFRAME → lookup s'.mem pt va = none := fun va h2 => by
    rw [hb.lookup_eq va (UInt64.lt_trans h2 Fork.TRAPFRAME_lt), if_pos h2]
  have hsp : AddrSpace s' pt 0 := by
    refine ⟨hb.good, by decide, fun va hva => ?_, fun va _ _ _ _ hva => ?_, fun va _ h2 => hnone va h2,
      fun q hq => ?_⟩
    · rw [PGROUNDUP_zero] at hva
      exact absurd hva (Nat.not_lt_zero _)
    · rw [PGROUNDUP_zero] at hva
      exact absurd hva (Nat.not_lt_zero _)
    · rw [hb.kernelEnd]
      exact hram q (hb.suffix.subset hq)
  refine ⟨hsp, fun va hva h2 => ?_, htramp, htf, hne, fun hm => htramp' (hb.suffix.subset hm),
    fun hm => htf' (hb.suffix.subset hm), fun va p fl h2 hl => ?_⟩
  · rw [hb.lookup_eq va hva, if_neg (UInt64.not_lt.2 h2)]
  · rw [hnone va h2] at hl
    cases hl

/-- A successful `uvmalloc` grows the table of a process and keeps it one: the new pages
were free, so none of them is the trapframe or the trampoline. -/
theorem ProcSpace.uvmalloc (h : ProcSpace s pt sz tramp tf) {newsz : UInt64} (hle : sz ≤ newsz)
    (hrun : (Vm.uvmalloc pt sz newsz).run s = .ok (newsz, s')) : ProcSpace s' pt newsz tramp tf := by
  rcases uvmalloc_spec h.space hle with ⟨s₁, hrun₁, hsp, hg⟩ | ⟨s₁, hrun₁, -, -⟩
  · rw [hrun₁] at hrun
    cases hrun
    have hgood := h.space.good
    -- the pages the loop mapped lie below `TRAPFRAME`
    have hout : ∀ va, TRAPFRAME ≤ va →
        ¬ ((PGROUNDUP sz).toNat ≤ va.toNat ∧ va.toNat < (PGROUNDUP newsz).toNat) := fun va h2 hin =>
      absurd (lt_of_lt_of_le hin.2 (PGROUNDUP_le_TRAPFRAME hsp.sz_lt).2)
        (Nat.not_lt.2 (UInt64.le_iff_toNat_le.1 h2))
    refine ⟨hsp, fun va hva h2 => ?_, h.tramp_ne, h.tf_ne, h.tf_ne_tramp,
      fun hm => h.tramp_not_free (hg.suffix.subset hm), fun hm => h.tf_not_free (hg.suffix.subset hm),
      fun va p fl h2 hl => ?_⟩
    · rw [hg.other va hva (hout va h2)]
      exact h.top va hva h2
    · by_cases hin : (PGROUNDUP sz).toNat ≤ va.toNat ∧ va.toNat < (PGROUNDUP newsz).toNat
      · obtain ⟨q, hlq, hq, -, -⟩ := hg.fresh va hin.1 hin.2
        rw [hlq] at hl
        have hpq : q = p := (Prod.mk.inj (Option.some.inj hl)).1
        rw [← hpq]
        exact ⟨hgood.free_ne_zero q hq, fun e => h.tramp_not_free (e ▸ hq),
          fun e => h.tf_not_free (e ▸ hq)⟩
      · rw [hg.other va (UInt64.lt_trans h2 Fork.TRAPFRAME_lt) hin] at hl
        exact h.user_page va p fl h2 hl
  · -- a size of 0 maps nothing and returns 0
    rw [hrun₁] at hrun
    obtain ⟨hz, -⟩ := Prod.mk.inj (Except.ok.inj hrun)
    subst hz
    have hsz : sz = 0 := UInt64.le_antisymm hle UInt64.zero_le
    subst hsz
    rw [uvmalloc_zero_size_returns_zero] at hrun₁
    cases hrun₁
    cases hrun
    exact h

end Build

end Xv6.Vm

namespace Xv6.Fork

open Vm

namespace Copied

variable {s : KState} {p : Fin NPROC} {vm1 vm2 : VmState} {tf pt : UInt64} {rest : List UInt64}

/-- The child's table after `fork` is the table of a process of the parent's size: `uvmcopy`
took its pages off the free list after the child's trapframe. -/
theorem procSpace (hc : Copied s p vm1 vm2 tf pt rest) (htramp : s.trampoline ≠ 0) :
    ProcSpace { vm2 with mem := copyTrapframe vm2.mem tf (s.proc p).trapframe } pt (s.proc p).sz
      s.trampoline tf := by
  have hg := hc.args.space.good
  obtain ⟨htf, hnr, -⟩ := hc.tf_page
  refine ⟨hc.child_space_fork, fun va hva h2 => hc.top hva h2, htramp, hg.free_ne_zero tf htf,
    fun e => hc.args.tramp_not_free (e ▸ htf),
    fun hm => hc.args.tramp_not_free (hc.mem_free (hc.pages.2 _ hm)),
    fun hm => hnr (hc.pages.2 _ hm), fun va q fl h2 hl => ?_⟩
  have hq := hc.fresh h2 hl
  exact ⟨hg.free_ne_zero q (hc.mem_free hq), fun e => hc.args.tramp_not_free (e ▸ hc.mem_free hq),
    fun e => hnr (e ▸ hq)⟩

end Copied

section Fork

variable {s : KState} {p : Fin NPROC}

/-- A successful `fork` gives the child the table of a process of the parent's size, with its
own trapframe page, so that `copyout`, `copyin` and `copyinstr` through it are correct. -/
theorem fork_child_userOk (h : ForkArgs s p) (htramp : s.trampoline ≠ 0) :
    ∃ r s', (fork p).run s = .ok (r, s') ∧
      (r = -1 ∨ ∃ c, (s'.proc c).pid = r ∧ (s'.proc c).parent = some p ∧
        ProcSpace s'.vm (s'.proc c).pagetable (s'.proc c).sz s.trampoline (s'.proc c).trapframe ∧
        UserOk s'.vm.mem (s'.proc c).pagetable) := by
  obtain ⟨r, s', hrun, ⟨rfl, -⟩ | ⟨c, s1, vm2, tf, pt, rest, fs, hc, ha, -, rfl, rfl⟩⟩ :=
    fork_cases h
  · exact ⟨-1, s', hrun, .inl rfl⟩
  · have hpc : p ≠ c := fun e => h.live (e ▸ ha.unused)
    have hproc : (forkedState s1 vm2 fs p c).proc c = _ := forkedState_child ha hpc
    have hvm : (forkedState s1 vm2 fs p c).vm = _ := forkedState_vm ha hpc
    have hsp := hc.procSpace htramp
    refine ⟨_, _, hrun, .inr ⟨c, by rw [hproc, ha.entry], by rw [hproc], ?_, ?_⟩⟩
    · rw [hvm, hproc]
      exact hsp
    · rw [hvm, hproc]
      exact hsp.userOk

/-- `init`, holding `/` open and one page of memory that `uvmalloc` mapped, forks. -/
theorem fork_child_userOk_of_grown_parent :
    ForkArgs grownMachine 0 ∧ grownMachine.trampoline ≠ 0 ∧
    ∃ r s', (fork 0).run grownMachine = .ok (r, s') ∧
      (r = -1 ∨ ∃ c, (s'.proc c).pid = r ∧ (s'.proc c).parent = some 0 ∧
        ProcSpace s'.vm (s'.proc c).pagetable (s'.proc c).sz grownMachine.trampoline
          (s'.proc c).trapframe ∧
        UserOk s'.vm.mem (s'.proc c).pagetable) :=
  have htramp : grownMachine.trampoline ≠ 0 := by
    obtain ⟨vm, -, -, hg⟩ := grownMachine_eq
    rw [hg]
    exact show bigMachine.trampoline ≠ 0 by decide
  ⟨forkArgs_grownMachine, htramp, fork_child_userOk forkArgs_grownMachine htramp⟩

end Fork

end Xv6.Fork
