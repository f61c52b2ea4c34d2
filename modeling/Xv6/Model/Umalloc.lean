import Xv6.Param
import Mathlib.Data.Int.Notation
import Mathlib.Logic.Function.Basic

/-!
# The user heap allocator (`user/umalloc.c`) and `sbrk` (`kernel/sysproc.c`)

Kernighan and Ritchie's `malloc` and `free` over a circular free list threaded through the
headers of the free blocks, and `morecore`, which grows the heap with `sbrk`. The kernel
side of `sbrk` is `sys_sbrk` and `growproc` as written, with their `int` and `uint`
variables, over `p->sz` and the kernel's free pages (`uvmalloc` maps the pages it needs
when there are enough of them, and otherwise unmaps the ones it mapped and fails).

Memory is the header stored at each address, read and written whole at the addresses the
code computes; the pages below `PGROUNDUP(p->sz)` are mapped, and an access elsewhere faults,
which kills the process. `base` and `freep` are static and zero at `exec`. Pointers are
64-bit, far from wrapping at the sizes a process can have, so they are natural numbers; a
block's size is a `uint`. The loops of `free` and `malloc` take fuel: on a free list that
is a cycle through `base`, a run that needs more rounds than the fuel stops with an error
the code does not have.
Source: user/umalloc.c:1-90, kernel/sysproc.c:41-53, kernel/proc.c:252-268,
kernel/vm.c:218-262
-/

set_option autoImplicit false

namespace Xv6

/-- `sizeof(Header)`: a pointer and a `uint`, padded to the alignment of `long`. -/
def HDR : ℕ := 16

/-- `union header`'s `s`: the next block on the free list and the block's size in headers. -/
structure Header where
  ptr : ℕ
  size : UInt32
  deriving DecidableEq, Repr

/-- What the allocator uses of a user process: the header stored at each address, the
address of `base`, the value of `freep`, `p->sz`, and the kernel's free pages. -/
structure Heap where
  mem : ℕ → Header
  base : ℕ
  freep : ℕ
  sz : ℕ
  freePages : ℕ

/-- A process right after `exec`, with `base` at `base`, `sz` bytes of memory and `pages`
free pages in the kernel: static storage and fresh pages are zero. -/
def Heap.init (base sz pages : ℕ) : Heap where
  mem := fun _ => ⟨0, 0⟩
  base := base
  freep := 0
  sz := sz
  freePages := pages

abbrev HeapM := StateT Heap (Except String)

/-- The conversion of a 64-bit unsigned value to `int`: its low 32 bits read in two's
complement. -/
def toCInt (x : ℕ) : ℤ :=
  if x % 2 ^ 32 < 2 ^ 31 then (x % 2 ^ 32 : ℕ) else ((x % 2 ^ 32 : ℕ) : ℤ) - 2 ^ 32

/-! ## `sbrk` in the kernel -/

/-- How many pages `uvmalloc` maps, or `uvmdealloc` unmaps, between two sizes. -/
def pagesBetween (lo hi : ℕ) : ℕ := (PGROUNDUP hi - PGROUNDUP lo) / PGSIZE

/-- `uvmalloc(pagetable, oldsz, newsz)`: the pages from `PGROUNDUP(oldsz)` below `newsz`
come zeroed from the free pages; if there are too few, it fails and returns 0. -/
def uvmalloc (oldsz newsz : ℕ) : HeapM ℕ := do
  if newsz < oldsz then return oldsz
  let h ← get
  let n := pagesBetween oldsz newsz
  if n ≤ h.freePages then
    set { h with freePages := h.freePages - n,
                 mem := fun a => if PGROUNDUP oldsz ≤ a ∧ a < PGROUNDUP newsz then ⟨0, 0⟩
                   else h.mem a }
    return newsz
  else return 0

/-- `uvmdealloc(pagetable, oldsz, newsz)`: the pages above `PGROUNDUP(newsz)` go back to the
free pages. -/
def uvmdealloc (oldsz newsz : ℕ) : HeapM ℕ := do
  if newsz ≥ oldsz then return oldsz
  modify fun h => { h with freePages := h.freePages + pagesBetween newsz oldsz }
  return newsz

/-- `growproc(n)`, whose `uint sz` holds `p->sz` and `sz + n` in 32 bits. -/
def growproc (n : ℤ) : HeapM ℤ := do
  let sz := (← get).sz % 2 ^ 32
  -- `sz + n` converts `n` to `uint`
  let sum := (sz + (n % 2 ^ 32).toNat) % 2 ^ 32
  let sz ←
    if 0 < n then do
      let sz' := (← uvmalloc sz sum) % 2 ^ 32
      if sz' = 0 then return -1
      pure sz'
    else if n < 0 then (· % 2 ^ 32) <$> uvmdealloc sz sum
    else pure sz
  modify fun h => { h with sz }
  return 0

/-- `sys_sbrk` with argument `n`, as the 64-bit value the user's `sbrk` returns: the old
`p->sz` through `int addr`, or `-1`. -/
def sys_sbrk (n : ℤ) : HeapM ℕ := do
  let addr := toCInt (← get).sz
  if (← growproc n) < 0 then return 2 ^ 64 - 1
  return (addr % 2 ^ 64).toNat

/-! ## `umalloc.c` -/

/-- Read the header at `a`. -/
def load (a : ℕ) : HeapM Header := do
  let h ← get
  if a + HDR ≤ PGROUNDUP h.sz then return h.mem a
  throw "usertrap(): unexpected scause"

/-- Write the field `s.ptr` of the header at `a`. -/
def setPtr (a ptr : ℕ) : HeapM Unit := do
  let h ← get
  if a + HDR ≤ PGROUNDUP h.sz then
    set { h with mem := Function.update h.mem a { h.mem a with ptr } }
  else throw "usertrap(): unexpected scause"

/-- Write the field `s.size` of the header at `a`. -/
def setSize (a : ℕ) (size : UInt32) : HeapM Unit := do
  let h ← get
  if a + HDR ≤ PGROUNDUP h.sz then
    set { h with mem := Function.update h.mem a { h.mem a with size } }
  else throw "usertrap(): unexpected scause"

/-- `free`'s search from `p` for the block after which `bp` belongs:
`for(p = freep; !(bp > p && bp < p->s.ptr); p = p->s.ptr)` with the `break` at the
wrap-around. -/
def freeLoop (bp : ℕ) : ℕ → ℕ → HeapM ℕ
  | 0, _ => throw "free: out of fuel"
  | fuel + 1, p => do
    let next := (← load p).ptr
    if bp > p ∧ bp < next then return p
    if p ≥ next ∧ (bp > p ∨ bp < next) then return p
    freeLoop bp fuel next

/-- `free(ap)`: insert the block into the list after `p`, joining it to the block after
and to `p` where they touch. -/
def free (fuel ap : ℕ) : HeapM Unit := do
  let bp := ap - HDR
  let p ← freeLoop bp fuel (← get).freep
  if bp + (← load bp).size.toNat * HDR = (← load p).ptr then
    setSize bp ((← load bp).size + (← load (← load p).ptr).size)
    setPtr bp (← load (← load p).ptr).ptr
  else setPtr bp (← load p).ptr
  if p + (← load p).size.toNat * HDR = bp then
    setSize p ((← load p).size + (← load bp).size)
    setPtr p (← load bp).ptr
  else setPtr p bp
  modify fun h => { h with freep := p }

/-- `morecore(nu)`: at least 4096 headers from `sbrk`, handed to `free`; 0 if `sbrk`
fails. `nu * sizeof(Header)` is an `unsigned long`, passed to `sbrk(int)`. -/
def morecore (fuel : ℕ) (nu : UInt32) : HeapM ℕ := do
  let nu := if nu < 4096 then 4096 else nu
  let p ← sys_sbrk (toCInt (nu.toNat * HDR))
  if p = 2 ^ 64 - 1 then return 0
  setSize p nu
  free fuel (p + HDR)
  return (← get).freep

/-- `malloc`'s loop `for(p = prevp->s.ptr; ; prevp = p, p = p->s.ptr)`: the first block
of at least `nunits` headers, split from its tail when larger; `morecore` when the search
is back at `freep`. -/
def mallocLoop (nunits : UInt32) : ℕ → ℕ → ℕ → HeapM ℕ
  | 0, _, _ => throw "malloc: out of fuel"
  | fuel + 1, prevp, p => do
    let size := (← load p).size
    if size ≥ nunits then
      let q ←
        if size = nunits then do
          setPtr prevp (← load p).ptr
          pure p
        else do
          setSize p (size - nunits)
          let q := p + (← load p).size.toNat * HDR
          setSize q nunits
          pure q
      modify fun h => { h with freep := prevp }
      return q + HDR
    let p ← if p = (← get).freep then morecore fuel nunits else pure p
    if p = 0 then return 0
    mallocLoop nunits fuel p (← load p).ptr

/-- The unit count of `malloc(nbytes)`: `(nbytes + sizeof(Header) - 1)/sizeof(Header) + 1`,
computed as an `unsigned long` and stored in a `uint`. -/
def nunits (nbytes : UInt32) : UInt32 := ((nbytes.toNat + HDR - 1) / HDR + 1).toUInt32

/-- `malloc(nbytes)`: on the first call the free list is `base` alone. -/
def malloc (fuel : ℕ) (nbytes : UInt32) : HeapM ℕ := do
  if (← get).freep = 0 then
    let b := (← get).base
    setPtr b b
    modify fun h => { h with freep := b }
    setSize b 0
  let prevp := (← get).freep
  mallocLoop (nunits nbytes) fuel prevp (← load prevp).ptr

end Xv6
