import Mathlib.Order.Basic

/-!
# `push_off` and `pop_off` (`kernel/spinlock.c`)

`push_off` reads the interrupt-enable bit (`intr_get`), turns interrupts off and, at depth 0,
saves the bit in `mycpu()->intena` before it adds one to `mycpu()->noff`. `pop_off` panics
if interrupts are on or `noff` is 0; otherwise it takes one from `noff` and, back at depth 0,
turns interrupts on if `intena` says they were on. `acquire` starts with `push_off` and
`release` ends with `pop_off`, and `myproc` brackets its read of `c->proc` with the pair.

`noff` is an `int` of `struct cpu`; here it is a natural number, since `acquire` panics on a
lock the CPU already holds, so the depth never passes the number of spinlocks plus one.
A sequence of calls runs on one CPU, a panic stopping it with its text.
Source: kernel/spinlock.c:84-110, kernel/proc.h:22-27
-/

set_option autoImplicit false

namespace Xv6

/-- What `push_off` and `pop_off` use of a CPU: the interrupt-enable bit `intr_get()`
reads, and `noff` and `intena` of its `struct cpu`. -/
structure Cpu where
  intr : Bool
  noff : ℕ
  intena : Bool
  deriving DecidableEq, Repr

/-- `push_off()`. -/
def push_off (c : Cpu) : Cpu :=
  let old := c.intr
  let c := { c with intr := false }
  let c := if c.noff = 0 then { c with intena := old } else c
  { c with noff := c.noff + 1 }

/-- `pop_off()`. -/
def pop_off (c : Cpu) : Except String Cpu :=
  if c.intr then .error "pop_off - interruptible"
  else if c.noff < 1 then .error "pop_off"
  else
    let c := { c with noff := c.noff - 1 }
    .ok (if c.noff = 0 ∧ c.intena then { c with intr := true } else c)

/-- A call a CPU makes. -/
inductive Call where
  | push
  | pop
  deriving DecidableEq, Repr

/-- The calls `calls` made in order on one CPU. -/
def runCalls : List Call → Cpu → Except String Cpu
  | [], c => .ok c
  | .push :: calls, c => runCalls calls (push_off c)
  | .pop :: calls, c =>
    match pop_off c with
    | .ok c' => runCalls calls c'
    | .error e => .error e

end Xv6
