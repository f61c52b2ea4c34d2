import Xv6.Analysis.Vm.Grow
import Xv6.Model.Fs.Syscall
import Xv6.Model.Proc

/-!
# `fork` with the child's memory and files (`kernel/proc.c`)

`allocproc`, `proc_pagetable`, `freeproc`, `proc_freepagetable` and `fork` on the fields of
`struct proc` that they read and write, the physical memory and free list of `Xv6.Vm`, and
the open-file and inode tables of `Xv6.Fs`. The file system's part of `struct proc`, the
open files and the current directory, stays in `Xv6.Fs`'s state; the rest is `Proc` below.

The trapframe is a page of physical memory, so `*(np->trapframe) = *(p->trapframe)` copies
the 288 bytes of `struct trapframe`, and `np->trapframe->a0 = 0` stores the word at offset
112. The locks are not modelled: `fork` runs as one call, and `Xv6.Lifecycle` has the steps
other CPUs can see in between. The addresses of `trampoline` and `forkret` are fixed by the
linker and are part of the state.
Source: kernel/proc.c:100-190, kernel/proc.c:272-319, kernel/proc.h:20-107
-/

set_option autoImplicit false

namespace Xv6.Fork

open Vm

/-- `struct context`: `ra`, `sp` and the callee-saved `s0`-`s11`. -/
structure Context where
  ra : UInt64
  sp : UInt64
  s : Fin 12 → UInt64

/-- The fields of `struct proc` outside the file system's part. -/
structure Proc where
  state : Lifecycle.ProcState
  chan : UInt64
  killed : Int32
  xstate : Int32
  pid : Int32
  parent : Option (Fin NPROC)
  kstack : UInt64
  sz : UInt64
  pagetable : UInt64
  trapframe : UInt64
  context : Context
  name : Fin 16 → UInt8

/-- The state `fork` runs on: the memory, the file system, the process table, `nextpid`,
and the addresses of `trampoline` and `forkret`. -/
structure KState where
  vm : VmState
  fs : FsState
  proc : Fin NPROC → Proc
  nextpid : Int32
  trampoline : UInt64
  forkret : UInt64

/-- Code of `proc.c` runs on the state and may panic. -/
abbrev KM := StateT KState (Except String)

/-- Run code of `vm.c` and `kalloc.c` on the memory and the free list. -/
def onVm {α : Type} (x : VmM α) : KM α :=
  StateExcept.focus KState.vm (fun s vm => { s with vm := vm }) x

/-- Run code of `file.c` and `fs.c` on the file system. -/
def onFs {α : Type} (x : FsM α) : KM α :=
  StateExcept.focus KState.fs (fun s fs => { s with fs := fs }) x

/-- Change the entry of process `p`. -/
def modifyProc (p : Fin NPROC) (g : Proc → Proc) : KM Unit :=
  modify fun s => { s with proc := Function.update s.proc p (g (s.proc p)) }

/-! ## The page table of a process -/

/-- `proc_pagetable(p)` for a process whose trapframe page is `trapframe`: an empty table
with the trampoline mapped at `TRAMPOLINE` and the trapframe page at `TRAPFRAME`, or 0
when a page cannot be had, after freeing what was taken. -/
def proc_pagetable (trampoline trapframe : UInt64) : VmM UInt64 := do
  let pagetable ← uvmcreate
  if pagetable = 0 then return 0
  if (← mappages pagetable TRAMPOLINE Vm.PGSIZE trampoline (PTE_R ||| PTE_X)) < 0 then
    uvmfree pagetable 0
    return 0
  if (← mappages pagetable TRAPFRAME Vm.PGSIZE trapframe (PTE_R ||| PTE_W)) < 0 then
    uvmunmap pagetable TRAMPOLINE 1 false
    uvmfree pagetable 0
    return 0
  return pagetable

/-- `proc_freepagetable(pagetable, sz)`: unmap the trampoline and the trapframe, which are
not the process's to free, then free the user memory and the table. -/
def proc_freepagetable (pagetable sz : UInt64) : VmM Unit := do
  uvmunmap pagetable TRAMPOLINE 1 false
  uvmunmap pagetable TRAPFRAME 1 false
  uvmfree pagetable sz

/-! ## Process entries -/

/-- `freeproc(p)`: free the trapframe page, the user memory and the page table, and clear
the entry back to UNUSED. -/
def freeproc (p : Fin NPROC) : KM Unit := do
  let pr := (← get).proc p
  if pr.trapframe ≠ 0 then onVm (kfree pr.trapframe)
  modifyProc p fun pr => { pr with trapframe := 0 }
  if pr.pagetable ≠ 0 then onVm (proc_freepagetable pr.pagetable pr.sz)
  modifyProc p fun pr => { pr with
    pagetable := 0
    sz := 0
    pid := 0
    parent := none
    name := setAt pr.name 0 0
    chan := 0
    killed := 0
    xstate := 0
    state := .UNUSED }

/-- `allocproc()`: the first UNUSED entry gets the next pid, the state USED, a trapframe
page, an empty user page table, and a context that starts `forkret` on its kernel stack.
`none` where no entry is UNUSED, or, after `freeproc`, where a page cannot be had. -/
def allocproc : KM (Option (Fin NPROC)) := do
  let s ← get
  match (List.finRange NPROC).find? (fun q => (s.proc q).state = .UNUSED) with
  | none => return none
  | some p =>
    let pid := (Lifecycle.ProcTable.allocpid s.nextpid).1
    modify fun s => { s with nextpid := (Lifecycle.ProcTable.allocpid s.nextpid).2 }
    modifyProc p fun pr => { pr with pid := pid, state := .USED }
    let tf ← onVm kalloc
    modifyProc p fun pr => { pr with trapframe := tf }
    if tf = 0 then
      freeproc p
      return none
    let pt ← onVm (proc_pagetable s.trampoline tf)
    modifyProc p fun pr => { pr with pagetable := pt }
    if pt = 0 then
      freeproc p
      return none
    modifyProc p fun pr => { pr with context := ⟨s.forkret, pr.kstack + Vm.PGSIZE, fun _ => 0⟩ }
    return some p

/-! ## `fork` -/

/-- The file references of `fork`: `np->ofile[i] = filedup(p->ofile[i])` for each open
file of `p`, and `np->cwd = idup(p->cwd)`. The child's slot is marked live in the file
system's part of `struct proc`, as its `state` will say. -/
def forkFiles (p np : Fin NPROC) : FsM Unit := do
  (List.finRange NOFILE).forM fun fd => do
    if let some f := ((← get).proc p).ofile fd then
      Fs.filedup f
      Fs.modifyProc np fun pr => { pr with ofile := Function.update pr.ofile fd (some f) }
  let cwd := ((← get).proc p).cwd
  Fs.idup cwd
  Fs.modifyProc np fun pr => { pr with cwd := cwd, alive := true }

/-- `fork()` by process `p`: -1, or the pid of a new RUNNABLE child of `p` with a copy of
its user memory, its saved registers but `a0 = 0`, its open files and current directory
shared, and its name. -/
def fork (p : Fin NPROC) : KM Int32 := do
  match ← allocproc with
  | none => return -1
  | some np =>
    let s ← get
    if (← onVm (uvmcopy (s.proc p).pagetable (s.proc np).pagetable (s.proc p).sz)) < 0 then
      freeproc np
      return -1
    modifyProc np fun pr => { pr with sz := (s.proc p).sz }
    onVm (modify fun vs =>
      { vs with mem := vs.mem.copy (s.proc np).trapframe vs.mem (s.proc p).trapframe 288 })
    onVm (modify fun vs => { vs with mem := vs.mem.store64 ((s.proc np).trapframe + 112) 0 })
    onFs (forkFiles p np)
    modifyProc np fun pr => { pr with name := safestrcpy pr.name (s.proc p).name 16 }
    let pid := ((← get).proc np).pid
    modifyProc np fun pr => { pr with parent := some p }
    modifyProc np fun pr => { pr with state := .RUNNABLE }
    return pid

end Xv6.Fork
