import Xv6.Param
import Xv6.Lib.Reach
import Mathlib.Data.List.FinRange
import Mathlib.Data.Int.Notation

/-!
# The process table (`kernel/proc.c`)

`fork`, `exit`, `wait` and `kill` on the fields of `struct proc` that they read and write:
the state, the pid, the parent, the killed flag and the exit status. Memory, files and the
scheduler are other modules' subject: RUNNABLE and RUNNING are one state here, the state of
a process that can make a system call, and a `sleep` is a step that cannot run.

`exit` and `wait` hold `wait_lock` from their scan to their last write, and `kill` holds
each process's lock while it tests and writes it, so each is one step. `fork` releases
`np->lock` between `allocproc` and `np->parent = p`, and `wait_lock` between that and
`np->state = RUNNABLE`, so it is three steps, and the child is visible in between. The
outcome of the allocations and copies a call makes (`kalloc`, `uvmcopy`, `copyout`) is given
with the step. `exited` and `reaped` are not kernel state: they record the pid and status
of each `exit`, and the pid and status of each zombie a successful `wait` freed. The
declarations live in `Xv6.Lifecycle`, beside the file system's part of `struct proc`.
Source: kernel/proc.c:100-170, kernel/proc.c:272-428, kernel/proc.c:575-595
-/

set_option autoImplicit false

namespace Xv6.Lifecycle

open TransitionSystem

/-- `enum procstate`. -/
inductive ProcState where
  | UNUSED
  | USED
  | SLEEPING
  | RUNNABLE
  | RUNNING
  | ZOMBIE
  deriving DecidableEq, Repr

/-- The fields of `struct proc` that the lifecycle calls use. -/
structure Proc where
  state : ProcState
  pid : Int32
  parent : Option (Fin NPROC)
  killed : Bool
  xstate : ℤ
  deriving DecidableEq, Repr

/-- A `struct proc` as `freeproc` leaves it and as it is at boot. -/
def Proc.free : Proc := ⟨.UNUSED, 0, none, false, 0⟩

/-- Where a process is in `fork`: it holds the child `allocproc` gave it, before and after
`np->parent = p`. -/
inductive ForkStage where
  | alloced (np : Fin NPROC)
  | parented (np : Fin NPROC)
  deriving DecidableEq, Repr

/-- The child of a `fork` in progress. -/
def ForkStage.child : ForkStage → Fin NPROC
  | .alloced np => np
  | .parented np => np

/-- The process table, `nextpid` and `initproc`, where each process is in `fork`, what its
last call returned, and the two records described above. -/
structure ProcTable where
  proc : Fin NPROC → Proc
  nextpid : Int32
  initproc : Fin NPROC
  fork : Fin NPROC → Option ForkStage
  ret : Fin NPROC → ℤ
  exited : List (Int32 × ℤ)
  reaped : List (Int32 × ℤ)

/-- The steps: the three parts of `fork` (`allocproc`, then `uvmcopy` and
`np->parent = p`, then `np->state = RUNNABLE`), `exit(status)`, `wait(addr)`, `kill(pid)`. -/
inductive ProcAct where
  | forkAlloc (p : Fin NPROC) (ok : Bool)
  | forkParent (p : Fin NPROC) (ok : Bool)
  | forkRun (p : Fin NPROC)
  | exit (p : Fin NPROC) (status : ℤ)
  | wait (p : Fin NPROC) (addr : ℕ) (ok : Bool)
  | kill (p : Fin NPROC) (pid : Int32)

namespace ProcTable

/-- The table after `userinit`: `initproc` is `proc[0]`, with pid 1. -/
def boot : ProcTable where
  proc := fun q => if q = ⟨0, by decide⟩ then { Proc.free with pid := 1, state := .RUNNABLE }
    else Proc.free
  nextpid := 2
  initproc := ⟨0, by decide⟩
  fork := fun _ => none
  ret := fun _ => 0
  exited := []
  reaped := []

/-- Write the entry of `q`. -/
def setProc (s : ProcTable) (q : Fin NPROC) (pr : Proc) : ProcTable :=
  { s with proc := Function.update s.proc q pr }

/-- `p` returns `r` from its call. -/
def setRet (s : ProcTable) (p : Fin NPROC) (r : ℤ) : ProcTable :=
  { s with ret := Function.update s.ret p r }

/-- Whether `p` is running its own code, so that it can make a system call. -/
def canCall (s : ProcTable) (p : Fin NPROC) : Bool :=
  (s.proc p).state = .RUNNABLE && (s.fork p).isNone

/-- `allocproc`'s scan: the first UNUSED entry. -/
def findUnused (s : ProcTable) : Option (Fin NPROC) :=
  (List.finRange NPROC).find? fun q => (s.proc q).state = .UNUSED

/-- `reparent(p)`: `p`'s children go to `initproc`. -/
def reparent (s : ProcTable) (p : Fin NPROC) : ProcTable :=
  { s with proc := fun q =>
      if (s.proc q).parent = some p then { s.proc q with parent := some s.initproc }
      else s.proc q }

/-- `wait`'s scan: the first child of `p` that is a ZOMBIE. -/
def findZombieChild (s : ProcTable) (p : Fin NPROC) : Option (Fin NPROC) :=
  (List.finRange NPROC).find? fun q => (s.proc q).parent = some p ∧ (s.proc q).state = .ZOMBIE

/-- `havekids` after `wait`'s scan. -/
def haveKids (s : ProcTable) (p : Fin NPROC) : Bool :=
  (List.finRange NPROC).any fun q => (s.proc q).parent = some p

/-- `kill`'s scan: the first entry with the pid. -/
def findPid (s : ProcTable) (pid : Int32) : Option (Fin NPROC) :=
  (List.finRange NPROC).find? fun q => (s.proc q).pid = pid

/-- `allocpid()` on the kernel's `int nextpid`: the pid it returns and the next value. As
the kernel is compiled, `nextpid + 1` wraps past `INT_MAX`. -/
def allocpid (nextpid : Int32) : Int32 × Int32 := (nextpid, nextpid + 1)

/-- `fork` up to `allocproc`: the entry found gets the next pid and the state USED; if the
trapframe or the page table cannot be allocated, `freeproc` clears it and `fork` fails. -/
def forkAlloc (s : ProcTable) (p : Fin NPROC) (ok : Bool) : ProcTable :=
  match s.findUnused with
  | none => s.setRet p (-1)
  | some np =>
    let s' := { s with nextpid := (allocpid s.nextpid).2 }
    if ok then
      { s'.setProc np { s.proc np with pid := (allocpid s.nextpid).1, state := .USED } with
        fork := Function.update s.fork p (some (.alloced np)) }
    else (s'.setProc np Proc.free).setRet p (-1)

/-- `fork` from `uvmcopy` to `np->parent = p`; if the copy fails, `freeproc(np)` and `-1`. -/
def forkParent (s : ProcTable) (p np : Fin NPROC) (ok : Bool) : ProcTable :=
  if ok then
    { s.setProc np { s.proc np with parent := some p } with
      fork := Function.update s.fork p (some (.parented np)) }
  else
    { (s.setProc np Proc.free).setRet p (-1) with fork := Function.update s.fork p none }

/-- The end of `fork`: `np->state = RUNNABLE`, and the child's pid returned. -/
def forkRun (s : ProcTable) (p np : Fin NPROC) : ProcTable :=
  { (s.setProc np { s.proc np with state := .RUNNABLE }).setRet p (s.proc np).pid.toInt with
    fork := Function.update s.fork p none }

/-- `exit(status)` from `reparent` on: the process becomes a ZOMBIE with its status. -/
def exit (s : ProcTable) (p : Fin NPROC) (status : ℤ) : ProcTable :=
  let s := s.reparent p
  { s.setProc p { s.proc p with xstate := status, state := .ZOMBIE } with
    exited := s.exited ++ [((s.proc p).pid, status)] }

/-- `wait(addr)` with a ZOMBIE child `np`: unless copying its status out fails, `freeproc`
and its pid. -/
def reap (s : ProcTable) (p np : Fin NPROC) (addr : ℕ) (ok : Bool) : ProcTable :=
  if addr ≠ 0 ∧ ok = false then s.setRet p (-1)
  else
    { (s.setProc np Proc.free).setRet p (s.proc np).pid.toInt with
      reaped := s.reaped ++ [((s.proc np).pid, (s.proc np).xstate)] }

/-- `kill(pid)`: the first entry with the pid is marked killed, and woken if asleep. -/
def kill (s : ProcTable) (p : Fin NPROC) (pid : Int32) : ProcTable :=
  match s.findPid pid with
  | some q =>
    (s.setProc q { s.proc q with
      killed := true,
      state := if (s.proc q).state = .SLEEPING then .RUNNABLE else (s.proc q).state }).setRet p 0
  | none => s.setRet p (-1)

/-- The process table's step. -/
def step (s : ProcTable) : ProcAct → Outcome ProcTable
  | .forkAlloc p ok => if s.canCall p then .next (s.forkAlloc p ok) else .blocked
  | .forkParent p ok =>
    match s.fork p with
    | some (.alloced np) => .next (s.forkParent p np ok)
    | _ => .blocked
  | .forkRun p =>
    match s.fork p with
    | some (.parented np) => .next (s.forkRun p np)
    | _ => .blocked
  | .exit p status =>
    if s.canCall p then
      if p = s.initproc then .panic "init exiting" else .next (s.exit p status)
    else .blocked
  | .wait p addr ok =>
    if s.canCall p then
      match s.findZombieChild p with
      | some np => .next (s.reap p np addr ok)
      | none =>
        -- `sleep(p, &wait_lock)` while there are children and `p` is not killed
        if !s.haveKids p || (s.proc p).killed then .next (s.setRet p (-1)) else .blocked
    else .blocked
  | .kill p pid => if s.canCall p then .next (s.kill p pid) else .blocked

end ProcTable

end Xv6.Lifecycle
