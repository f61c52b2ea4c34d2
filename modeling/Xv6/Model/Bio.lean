import Xv6.Param
import Xv6.Lib.Dll
import Xv6.Lib.Reach

/-!
# The buffer cache (`kernel/bio.c`)

`bcache` is `NBUF` buffers on a circular list through `bcache.head`, most recently released
first. A buffer pointer is `some b`, and `&bcache.head` is `none`, so the list is a
`Dll.Links (Fin NBUF)` whose sentinel is the head. Of `struct buf` the model keeps what
`bio.c` reads and writes besides the links: `valid`, `dev`, `blockno` and `refcnt`, the last
a `uint` that wraps as in C. The block data and `disk` are the disk driver's.

`bget`'s work under `bcache.lock` is one function, and so is the part of `brelse` under it:
the list only changes while that lock is held. The callers are processes: `bread` is
`bget`'s scan, then `acquiresleep` (a step that cannot run while another process holds the
buffer), then the test of `valid` and the disk read; `brelse` tests `holdingsleep`, releases
the sleep lock, and takes `bcache.lock` in a later step, so that another process can run in
between. `bwrite`, `bpin` and `bunpin` are one step each. The loops of `bget` follow the
pointers and visit at most `NBUF` buffers: on a list through all of them that is every
buffer, so the fuel never runs out there.
Source: kernel/bio.c:26-151, kernel/buf.h:1-12, kernel/sleeplock.c:21-55
-/

set_option autoImplicit false

namespace Xv6

open TransitionSystem

/-- The fields of `struct buf` that `bio.c` uses, besides the links. -/
structure Buf where
  valid : Bool
  dev : UInt32
  blockno : UInt32
  refcnt : UInt32
  deriving DecidableEq, Repr

/-- `bcache` without its lock. -/
structure Bcache where
  buf : Fin NBUF → Buf
  links : Dll.Links (Fin NBUF)

namespace Bcache

/-- Change the fields of buffer `b`. -/
def modifyBuf (bc : Bcache) (b : Fin NBUF) (f : Buf → Buf) : Bcache :=
  { bc with buf := Function.update bc.buf b (f (bc.buf b)) }

/-- `binit()`: `bcache` is zero before it; the head points at itself, and the loop puts
`buf[0]`, ..., `buf[NBUF-1]` in turn right after the head. -/
def binit : Bcache where
  buf := fun _ => ⟨false, 0, 0, 0⟩
  links := (List.finRange NBUF).foldl Dll.Links.pushFront ⟨fun _ => none, fun _ => none⟩

/-- Whether `b` holds block `blockno` of `dev`. -/
def holds (bc : Bcache) (dev blockno : UInt32) (b : Fin NBUF) : Bool :=
  (bc.buf b).dev == dev && (bc.buf b).blockno == blockno

/-- `bget(dev, blockno)` up to `release(&bcache.lock)`: the buffer it returns, with a
reference taken, or its panic. -/
def bget (bc : Bcache) (dev blockno : UInt32) : Except String (Fin NBUF × Bcache) :=
  -- Is the block already cached?
  match Dll.scan bc.links.next (bc.holds dev blockno) NBUF (bc.links.next none) with
  | some (some b) => .ok (b, bc.modifyBuf b fun x => { x with refcnt := x.refcnt + 1 })
  | none => .error "bget: out of fuel"
  | some none =>
    -- Not cached: recycle the least recently used unused buffer.
    match Dll.scan bc.links.prev (fun b => (bc.buf b).refcnt == 0) NBUF (bc.links.prev none) with
    | some (some b) =>
      .ok (b, bc.modifyBuf b fun x => { x with dev, blockno, valid := false, refcnt := 1 })
    | some none => .error "bget: no buffers"
    | none => .error "bget: out of fuel"

/-- `brelse(b)` from `acquire(&bcache.lock)` on: the reference is dropped, and the buffer
goes to the head of the list when nobody holds one any more. -/
def brelse (bc : Bcache) (b : Fin NBUF) : Bcache :=
  let bc := bc.modifyBuf b fun x => { x with refcnt := x.refcnt - 1 }
  if (bc.buf b).refcnt = 0 then { bc with links := (bc.links.unlink b).pushFront b } else bc

/-- `bpin(b)`. -/
def bpin (bc : Bcache) (b : Fin NBUF) : Bcache :=
  bc.modifyBuf b fun x => { x with refcnt := x.refcnt + 1 }

/-- `bunpin(b)`. -/
def bunpin (bc : Bcache) (b : Fin NBUF) : Bcache :=
  bc.modifyBuf b fun x => { x with refcnt := x.refcnt - 1 }

end Bcache

/-- Where a process is in a call on the cache: in `bget`'s `acquiresleep` with the reference
taken; in `bread` holding the buffer, before its test of `valid`; or in `brelse` after
`releasesleep`. -/
inductive BufCall where
  | idle
  | sleeping (b : Fin NBUF)
  | reading (b : Fin NBUF)
  | releasing (b : Fin NBUF)
  deriving DecidableEq, Repr

/-- The cache, the holder of each buffer's sleep lock (`locked` and `pid`), and where each
process is. -/
structure BioSys (ι : Type) where
  bcache : Bcache
  holder : Fin NBUF → Option ι
  call : ι → BufCall

/-- The steps: a process calls `bread`, `bwrite`, `brelse`, `bpin` or `bunpin`, or runs the
next part of the call it is in. -/
inductive BioAct (ι : Type) where
  | bread (p : ι) (dev blockno : UInt32)
  | run (p : ι)
  | bwrite (p : ι) (b : Fin NBUF)
  | brelse (p : ι) (b : Fin NBUF)
  | bpin (p : ι) (b : Fin NBUF)
  | bunpin (p : ι) (b : Fin NBUF)

namespace BioSys

variable {ι : Type} [DecidableEq ι]

/-- The cache after `binit`, with no process in a call. -/
def init : BioSys ι where
  bcache := Bcache.binit
  holder := fun _ => none
  call := fun _ => .idle

/-- `p` is in `c`. -/
def setCall (s : BioSys ι) (p : ι) (c : BufCall) : BioSys ι :=
  { s with call := Function.update s.call p c }

/-- The next part of `p`'s call. -/
def runStep (s : BioSys ι) (p : ι) : BufCall → Outcome (BioSys ι)
  | .idle => .blocked
  | .sleeping b =>
    -- `while (lk->locked) sleep(lk, &lk->lk);`
    if s.holder b = none then .next { s.setCall p (.reading b) with holder := Function.update s.holder b (some p) }
    else .blocked
  | .reading b =>
    -- `if(!b->valid) { virtio_disk_rw(b, 0); b->valid = 1; }`
    .next { s.setCall p .idle with
      bcache := if (s.bcache.buf b).valid then s.bcache
        else s.bcache.modifyBuf b fun x => { x with valid := true } }
  | .releasing b => .next { s.setCall p .idle with bcache := s.bcache.brelse b }

/-- The cache's step. -/
def step (s : BioSys ι) : BioAct ι → Outcome (BioSys ι)
  | .bread p dev blockno =>
    if s.call p = .idle then
      match s.bcache.bget dev blockno with
      | .ok (b, bc) => .next { s.setCall p (.sleeping b) with bcache := bc }
      | .error msg => .panic msg
    else .blocked
  | .run p => s.runStep p (s.call p)
  | .bwrite p b =>
    if s.call p = .idle then
      if s.holder b = some p then .next s else .panic "bwrite"
    else .blocked
  | .brelse p b =>
    if s.call p = .idle then
      if s.holder b = some p then
        .next { s.setCall p (.releasing b) with holder := Function.update s.holder b none }
      else .panic "brelse"
    else .blocked
  | .bpin p b => if s.call p = .idle then .next { s with bcache := s.bcache.bpin b } else .blocked
  | .bunpin p b => if s.call p = .idle then .next { s with bcache := s.bcache.bunpin b } else .blocked

end BioSys

end Xv6
