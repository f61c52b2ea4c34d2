import Xv6.Lib.Ring
import Xv6.Lib.Reach
import Mathlib.Data.Int.Notation

/-!
# The console's input (`kernel/console.c`)

The input half of `cons`: a ring of `INPUT_BUF` bytes with three `uint` indices that only
ever advance and wrap as in C. The bytes from `r` to `w` are committed and wait for
`consoleread`; the bytes from `w` to `e` are the line being edited, which `consoleintr`
extends, erases and commits.

`consoleintr` runs with `cons.lock` held from start to end, so it is one step. A process in
`consoleread` runs one iteration of its loop per step: between iterations it holds the
lock, and it releases it only in `sleep`, which is a step that cannot run here (its loop
tests again when the process is scheduled). `myproc()->killed` can be set by `kill`
between any two steps. The echo through `consputc` and `procdump` only write to the UART
and are left out.

The destination of a read is given with the call: for `consoleread(user_dst, dst, n)`,
whether `either_copyout` to `dst + i` succeeds, for each `i < n`. `committed`,
`consumed` and `delivered` are not kernel state: they record the bytes that `cons.w`
moved past, the bytes that `cons.r` moved past, and the bytes that reached a reader's
buffer, in order.
Source: kernel/console.c:44-179
-/

set_option autoImplicit false

namespace Xv6

open TransitionSystem

/-- `INPUT_BUF`, the size of the input ring. -/
def INPUT_BUF : ℕ := 128

instance : NeZero INPUT_BUF := ⟨by decide⟩

/-- `C(x)`: the byte control-`x` sends, `x - '@'`. -/
def C (x : Char) : UInt8 := x.toUInt8 - '@'.toUInt8

/-- `cons` without its lock: `buf` and its read, write and edit indices. -/
structure Cons where
  buf : Fin INPUT_BUF → UInt8
  r : UInt32
  w : UInt32
  e : UInt32

namespace Cons

/-- The cell of index `x`: `x % INPUT_BUF`. -/
def slot (x : UInt32) : Fin INPUT_BUF := Ring.slot INPUT_BUF x.toNat

/-- `cons.e--`: the line loses its last byte. -/
def erase (cs : Cons) : Cons := { cs with e := cs.e - 1 }

/-- `cons.buf[cons.e++ % INPUT_BUF] = c`: the line gains the byte `c`. -/
def put (cs : Cons) (c : UInt8) : Cons :=
  { cs with buf := Function.update cs.buf (slot cs.e) c, e := cs.e + 1 }

/-- `cons.w = cons.e`: the line is committed. -/
def commit (cs : Cons) : Cons := { cs with w := cs.e }

/-- The loop of `^U`,
`while(cons.e != cons.w && cons.buf[(cons.e-1) % INPUT_BUF] != '\n') cons.e--;`,
with `n` rounds of fuel. Each round moves `e` one step toward `w`, so with `e - w` rounds
the fuel runs out exactly where the first test of the loop fails. -/
def killLine (cs : Cons) : ℕ → Cons
  | 0 => cs
  | n + 1 =>
    if cs.e ≠ cs.w ∧ cs.buf (slot (cs.e - 1)) ≠ '\n'.toUInt8 then cs.erase.killLine n
    else cs

/-- `consoleintr(c)` on the ring, for a byte `c` from the UART. -/
def intr (cs : Cons) (c : UInt8) : Cons :=
  -- `procdump()` prints the process list and stores nothing
  if c = C 'P' then cs
  else if c = C 'U' then cs.killLine (cs.e - cs.w).toNat
  else if c = C 'H' ∨ c = '\x7f'.toUInt8 then
    if cs.e ≠ cs.w then cs.erase else cs
  else if c ≠ 0 ∧ cs.e - cs.r < INPUT_BUF.toUInt32 then
    let c := if c = '\r'.toUInt8 then '\n'.toUInt8 else c
    let cs := cs.put c
    -- a whole line, an end-of-file or a full ring is committed
    if c = '\n'.toUInt8 ∨ c = C 'D' ∨ cs.e = cs.r + INPUT_BUF.toUInt32 then cs.commit
    else cs
  else cs

end Cons

/-- Where a process is in `consoleread(user_dst, dst, n)`: not in it, or in its loop with
`i` bytes copied out and `oks` saying, for each of the remaining `n` bytes at `dst + i`
on, whether `either_copyout` to it succeeds. -/
inductive ConsCall where
  | idle
  | reading (oks : List Bool) (i : ℕ)

/-- The console input and the processes reading it, with the three byte records described
above. `ret p` is what `p`'s last call returned. -/
structure ConsSys (ι : Type) where
  cons : Cons
  call : ι → ConsCall
  killed : ι → Bool
  ret : ι → ℤ
  committed : List UInt8
  consumed : List UInt8
  delivered : List UInt8

/-- The steps: a byte arrives from the UART, a process starts a read or runs one iteration
of its read, a process is killed. -/
inductive ConsAct (ι : Type) where
  | intr (c : UInt8)
  | read (p : ι) (oks : List Bool)
  | run (p : ι)
  | kill (p : ι)

namespace ConsSys

variable {ι : Type} [DecidableEq ι]

/-- The console at boot: `cons` is zeroed static storage and no process is reading. -/
def init : ConsSys ι where
  cons := { buf := fun _ => 0, r := 0, w := 0, e := 0 }
  call := fun _ => .idle
  killed := fun _ => false
  ret := fun _ => 0
  committed := []
  consumed := []
  delivered := []

/-- `p` returns `r` from its read. -/
def finish (s : ConsSys ι) (p : ι) (r : ℤ) : ConsSys ι :=
  { s with call := Function.update s.call p .idle, ret := Function.update s.ret p r }

/-- One iteration of `consoleread`'s loop by `p`, with `i = target - n` bytes copied out.
The byte leaves the ring (`cons.r++`) before `either_copyout` is tried. -/
def readStep (s : ConsSys ι) (p : ι) : List Bool → ℕ → Outcome (ConsSys ι)
  | [], i => .next (s.finish p i)
  | ok :: oks, i =>
    if s.cons.r = s.cons.w then
      if s.killed p then .next (s.finish p (-1))
      -- `sleep(&cons.r, &cons.lock)`
      else .blocked
    else
      let c := s.cons.buf (Cons.slot s.cons.r)
      let cons := { s.cons with r := s.cons.r + 1 }
      if c = C 'D' then
        -- after some bytes the `^D` is saved for the next read: `cons.r--`
        if 0 < i then .next { s.finish p i with cons := { cons with r := cons.r - 1 } }
        else .next { s.finish p i with cons, consumed := s.consumed ++ [c] }
      else
        let s := { s with cons, consumed := s.consumed ++ [c] }
        if ok then
          let s := { s with delivered := s.delivered ++ [c] }
          if c = '\n'.toUInt8 then .next (s.finish p (i + 1))
          else .next { s with call := Function.update s.call p (.reading oks (i + 1)) }
        -- `either_copyout` failed: `break`
        else .next (s.finish p i)

/-- The console system's step. A byte from the UART runs all of `consoleintr`; what moves
`cons.w` joins the committed record. -/
def step (s : ConsSys ι) : ConsAct ι → Outcome (ConsSys ι)
  | .intr c =>
    let cons := s.cons.intr c
    .next { s with cons,
                   committed := s.committed ++
                     Ring.window cons.buf s.cons.w.toNat (cons.w - s.cons.w).toNat }
  | .read p oks =>
    match s.call p with
    | .idle => .next { s with call := Function.update s.call p (.reading oks 0) }
    | _ => .blocked
  | .run p =>
    match s.call p with
    | .idle => .blocked
    | .reading oks i => s.readStep p oks i
  | .kill p => .next { s with killed := Function.update s.killed p true }

end ConsSys

end Xv6
