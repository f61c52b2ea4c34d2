import Xv6.Param
import Xv6.Lib.Ring
import Xv6.Lib.Reach
import Mathlib.Data.Int.Notation

/-!
# Pipes (`kernel/pipe.c`)

`struct pipe` and the calls on it as a system of processes. The counters `nread` and
`nwrite` are `uint`, so they are `UInt32` here and wrap as in C; a counter names the
cell `counter % PIPESIZE` of `data`.

Each step is one iteration of a loop of `pipewrite` or `piperead`, or one `pipeclose`.
The kernel holds `pi->lock` across all the iterations between two `sleep`s, so the
runs here interleave the processes more finely than the kernel does; a `sleep` is a
step that cannot run (its loop tests again when the process is scheduled). `pr->killed`
is read without the pipe lock and can be set by `kill` between any two steps.

The user buffers are given with the call: for `pipewrite(pi, addr, n)` the `n` bytes at
`addr`, `none` where `copyin` fails; for `piperead(pi, addr, n)` whether `copyout` to
`addr + i` succeeds, for each `i < n`. `accepted`, `consumed` and `delivered` are not
kernel state: they record the bytes written into the ring, the bytes taken out of it,
and the bytes that reached a reader's buffer, in order.
-/

set_option autoImplicit false

namespace Xv6

open TransitionSystem

instance : NeZero PIPESIZE := ⟨by decide⟩

/-- `struct pipe` without its lock; `readopen` and `writeopen` are `int` flags that the
code only sets to 0 or 1. -/
structure Pipe (α : Type) where
  data : Fin PIPESIZE → α
  nread : UInt32
  nwrite : UInt32
  readopen : Bool
  writeopen : Bool

namespace Pipe

variable {α : Type}

/-- What `pipealloc` sets up in a fresh page holding `junk`. -/
def alloc (junk : Fin PIPESIZE → α) : Pipe α where
  data := junk
  nread := 0
  nwrite := 0
  readopen := true
  writeopen := true

/-- `pi->nwrite == pi->nread + PIPESIZE`. -/
def full (pi : Pipe α) : Bool := pi.nwrite == pi.nread + PIPESIZE.toUInt32

/-- `pi->nread == pi->nwrite`. -/
def empty (pi : Pipe α) : Bool := pi.nread == pi.nwrite

/-- `pi->data[pi->nwrite++ % PIPESIZE] = ch`. -/
def put (pi : Pipe α) (ch : α) : Pipe α :=
  { pi with data := Function.update pi.data (Ring.slot PIPESIZE pi.nwrite.toNat) ch,
            nwrite := pi.nwrite + 1 }

/-- `ch = pi->data[pi->nread++ % PIPESIZE]`: the byte, and the pipe after. -/
def get (pi : Pipe α) : α × Pipe α :=
  (pi.data (Ring.slot PIPESIZE pi.nread.toNat), { pi with nread := pi.nread + 1 })

/-- `pipeclose(pi, writable)`: the pipe after, and whether it is freed. -/
def close (pi : Pipe α) (writable : Bool) : Pipe α × Bool :=
  let pi := if writable then { pi with writeopen := false } else { pi with readopen := false }
  (pi, !pi.readopen && !pi.writeopen)

end Pipe

/-- Where a process is in its call on the pipe: in `pipewrite`'s loop with `i` bytes
written and `rest` the bytes at `addr + i` on; in `piperead`'s wait loop; or in its copy
loop at index `i`, `oks` saying for each remaining index whether `copyout` succeeds. -/
inductive PipeCall (α : Type) where
  | idle
  | writing (rest : List (Option α)) (i : ℕ)
  | waiting (oks : List Bool)
  | copying (oks : List Bool) (i : ℕ)

/-- One pipe and the processes using it, with the three byte records described above.
`ret p` is what `p`'s last call returned. -/
structure PipeSys (ι α : Type) where
  pipe : Pipe α
  freed : Bool
  call : ι → PipeCall α
  killed : ι → Bool
  ret : ι → ℤ
  accepted : List α
  consumed : List α
  delivered : List α

/-- The steps: a process starts a call, or runs one iteration of the call it is in; a
file's last reference is closed; a process is killed. -/
inductive PipeAct (ι α : Type) where
  | write (p : ι) (src : List (Option α))
  | read (p : ι) (oks : List Bool)
  | run (p : ι)
  | close (writable : Bool)
  | kill (p : ι)

namespace PipeSys

variable {ι α : Type} [DecidableEq ι]

/-- A new pipe that no process is using yet. -/
def init (junk : Fin PIPESIZE → α) : PipeSys ι α where
  pipe := Pipe.alloc junk
  freed := false
  call := fun _ => .idle
  killed := fun _ => false
  ret := fun _ => 0
  accepted := []
  consumed := []
  delivered := []

/-- `p` returns `r` from its call. -/
def finish (s : PipeSys ι α) (p : ι) (r : ℤ) : PipeSys ι α :=
  { s with call := Function.update s.call p .idle, ret := Function.update s.ret p r }

/-- One iteration of `pipewrite`'s loop by `p`. -/
def writeStep (s : PipeSys ι α) (p : ι) : List (Option α) → ℕ → Outcome (PipeSys ι α)
  | [], i => .next (s.finish p i)
  | c :: cs, i =>
    if s.pipe.readopen = false ∨ s.killed p = true then .next (s.finish p (-1))
    -- `wakeup(&pi->nread); sleep(&pi->nwrite, ...)`
    else if s.pipe.full then .blocked
    else
      match c with
      -- `copyin` failed: `break`
      | none => .next (s.finish p i)
      | some ch =>
        .next { s with pipe := s.pipe.put ch, call := Function.update s.call p (.writing cs (i + 1)),
                       accepted := s.accepted ++ [ch] }

/-- One test of `piperead`'s wait loop by `p`. -/
def waitStep (s : PipeSys ι α) (p : ι) (oks : List Bool) : Outcome (PipeSys ι α) :=
  if s.pipe.empty ∧ s.pipe.writeopen then
    if s.killed p then .next (s.finish p (-1))
    -- `sleep(&pi->nread, ...)`
    else .blocked
  else .next { s with call := Function.update s.call p (.copying oks 0) }

/-- One iteration of `piperead`'s copy loop by `p`: the byte leaves the ring before
`copyout` is tried. -/
def copyStep (s : PipeSys ι α) (p : ι) : List Bool → ℕ → Outcome (PipeSys ι α)
  | [], i => .next (s.finish p i)
  | ok :: oks, i =>
    if s.pipe.empty then .next (s.finish p i)
    else
      match s.pipe.get with
      | (ch, pipe) =>
        let s := { s with pipe, consumed := s.consumed ++ [ch] }
        if ok then
          .next { s with call := Function.update s.call p (.copying oks (i + 1)),
                         delivered := s.delivered ++ [ch] }
        -- `copyout` failed: `break`
        else .next (s.finish p i)

/-- The pipe system's step; nothing runs once the pipe is freed. -/
def step (s : PipeSys ι α) (a : PipeAct ι α) : Outcome (PipeSys ι α) :=
  if s.freed then .blocked
  else
    match a with
    | .write p src =>
      match s.call p with
      | .idle => .next { s with call := Function.update s.call p (.writing src 0) }
      | _ => .blocked
    | .read p oks =>
      match s.call p with
      | .idle => .next { s with call := Function.update s.call p (.waiting oks) }
      | _ => .blocked
    | .run p =>
      match s.call p with
      | .idle => .blocked
      | .writing rest i => s.writeStep p rest i
      | .waiting oks => s.waitStep p oks
      | .copying oks i => s.copyStep p oks i
    | .close writable =>
      match s.pipe.close writable with
      | (pipe, freed) => .next { s with pipe, freed }
    | .kill p => .next { s with killed := Function.update s.killed p true }

/-! ## What a step does to the ring -/

section Spec

variable {s s' : PipeSys ι α} {p : ι}

@[simp] theorem finish_pipe (s : PipeSys ι α) (p : ι) (r : ℤ) : (s.finish p r).pipe = s.pipe := rfl
@[simp] theorem finish_accepted (s : PipeSys ι α) (p : ι) (r : ℤ) :
    (s.finish p r).accepted = s.accepted := rfl
@[simp] theorem finish_consumed (s : PipeSys ι α) (p : ι) (r : ℤ) :
    (s.finish p r).consumed = s.consumed := rfl
@[simp] theorem finish_delivered (s : PipeSys ι α) (p : ι) (r : ℤ) :
    (s.finish p r).delivered = s.delivered := rfl

/-- What one step does to the ring and the three records: nothing (the ring's cells and
counters are kept), a byte written by a writer into a ring that is not full, or a byte
taken by a process in `piperead`'s copy loop from a ring that is not empty, which
reaches the reader's buffer when `copyout` succeeds there. -/
inductive RingEffect (s s' : PipeSys ι α) : Prop
  | keep : s'.pipe.data = s.pipe.data → s'.pipe.nread = s.pipe.nread →
      s'.pipe.nwrite = s.pipe.nwrite → s'.accepted = s.accepted → s'.consumed = s.consumed →
      s'.delivered = s.delivered → RingEffect s s'
  | put (ch : α) : s.pipe.full = false → s'.pipe = s.pipe.put ch →
      s'.accepted = s.accepted ++ [ch] → s'.consumed = s.consumed →
      s'.delivered = s.delivered → RingEffect s s'
  | get (q : ι) (ok : Bool) (oks : List Bool) (i : ℕ) : s.call q = .copying (ok :: oks) i →
      s.pipe.empty = false → s'.pipe = s.pipe.get.2 → s'.accepted = s.accepted →
      s'.consumed = s.consumed ++ [s.pipe.get.1] →
      s'.delivered = (if ok then s.delivered ++ [s.pipe.get.1] else s.delivered) →
      RingEffect s s'

omit [DecidableEq ι] in
theorem RingEffect.of_eq (hpipe : s'.pipe = s.pipe) (ha : s'.accepted = s.accepted)
    (hc : s'.consumed = s.consumed) (hd : s'.delivered = s.delivered) : RingEffect s s' :=
  .keep (by rw [hpipe]) (by rw [hpipe]) (by rw [hpipe]) ha hc hd

theorem writeStep_effect {rest : List (Option α)} {i : ℕ} (h : s.writeStep p rest i = .next s') :
    RingEffect s s' := by
  cases rest with
  | nil =>
    cases h
    exact .of_eq rfl rfl rfl rfl
  | cons c cs =>
    simp only [writeStep] at h
    split at h
    · cases h
      exact .of_eq rfl rfl rfl rfl
    · split at h
      · cases h
      · next hfull =>
        cases c with
        | none =>
          cases h
          exact .of_eq rfl rfl rfl rfl
        | some ch =>
          cases h
          exact .put ch (by simpa using hfull) rfl rfl rfl rfl

theorem waitStep_effect {oks : List Bool} (h : s.waitStep p oks = .next s') : RingEffect s s' := by
  simp only [waitStep] at h
  split at h
  · split at h
    · cases h
      exact .of_eq rfl rfl rfl rfl
    · cases h
  · cases h
    exact .of_eq rfl rfl rfl rfl

theorem copyStep_effect {oks : List Bool} {i : ℕ} (hp : s.call p = .copying oks i)
    (h : s.copyStep p oks i = .next s') : RingEffect s s' := by
  cases oks with
  | nil =>
    cases h
    exact .of_eq rfl rfl rfl rfl
  | cons ok oks =>
    simp only [copyStep] at h
    split at h
    · cases h
      exact .of_eq rfl rfl rfl rfl
    · next hempty =>
      have hempty' : s.pipe.empty = false := by simpa using hempty
      cases ok with
      | true =>
        cases h
        exact .get p true oks i hp hempty' rfl rfl rfl rfl
      | false =>
        cases h
        exact .get p false oks i hp hempty' rfl rfl rfl rfl

/-- Every step is one of the three effects. -/
theorem step_effect {a : PipeAct ι α} (h : s.step a = .next s') : RingEffect s s' := by
  have hf : s.freed = false := by
    cases hf : s.freed
    · rfl
    · simp [step, hf] at h
  cases a with
  | write p src =>
    simp only [step, hf, Bool.false_eq_true, ite_false] at h
    split at h
    · cases h
      exact .of_eq rfl rfl rfl rfl
    · cases h
  | read p oks =>
    simp only [step, hf, Bool.false_eq_true, ite_false] at h
    split at h
    · cases h
      exact .of_eq rfl rfl rfl rfl
    · cases h
  | run p =>
    simp only [step, hf, Bool.false_eq_true, ite_false] at h
    split at h
    · cases h
    · exact writeStep_effect h
    · exact waitStep_effect h
    · next oks i hp => exact copyStep_effect hp h
  | close writable =>
    simp only [step, hf, Bool.false_eq_true, ite_false, Outcome.next.injEq] at h
    subst h
    exact .keep (by cases writable <;> rfl) (by cases writable <;> rfl)
      (by cases writable <;> rfl) rfl rfl rfl
  | kill p =>
    simp only [step, hf, Bool.false_eq_true, ite_false, Outcome.next.injEq] at h
    subst h
    exact .of_eq rfl rfl rfl rfl

end Spec

end PipeSys

end Xv6
