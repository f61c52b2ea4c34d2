import Xv6.Lib.Mem
import Xv6.Model.String
import Mathlib.Logic.Function.Basic
import Mathlib.Data.Int.Notation

/-!
# Page tables and user memory (`kernel/vm.c`, `kernel/kalloc.c`, `kernel/riscv.h`)

The Sv39 macros of `riscv.h` over `uint64`, the page allocator of `kalloc.c`, and the
functions of `vm.c` that walk, build and tear down a user page table and copy between it
and the kernel. Everything the code reads or writes through a pointer is a byte of the
physical memory `mem`; a page-table page is the 512 little-endian PTEs in its 4096 bytes.

Two parts of the machine are kept apart from `mem`. The free list `kmem.freelist` is the
list `freelist`: `kfree` writes each `r->next` into its page as the code does, but
`kalloc` takes the head of the list rather than following the pointer, which is the same
as long as nothing else writes a free page. The kernel side of `copyout`, `copyin` and
`copyinstr` is a memory of its own, so a kernel buffer never shares a byte with a user
page or a page-table page.

The C loops run on `uint64` addresses that advance by `PGSIZE`. Each of them ends, at the
latest, at the first address `≥ MAXVA`, where `walk` panics or `walkaddr` returns 0; the
recursion below counts its iterations with `pageLoopFuel`, which is one more than the
number of pages below `MAXVA`, so the count never runs out before the C loop ends.
-/

set_option autoImplicit false

namespace Xv6.Vm

/-! ## Sv39 (`riscv.h`, `memlayout.h`) -/

/-- Bytes per page. -/
def PGSIZE : UInt64 := 4096
/-- Bits of offset within a page. -/
def PGSHIFT : UInt64 := 12

def PGROUNDUP (sz : UInt64) : UInt64 := (sz + PGSIZE - 1) &&& ~~~(PGSIZE - 1)
def PGROUNDDOWN (a : UInt64) : UInt64 := a &&& ~~~(PGSIZE - 1)

def PTE_V : UInt64 := (1 : UInt64) <<< 0
def PTE_R : UInt64 := (1 : UInt64) <<< 1
def PTE_W : UInt64 := (1 : UInt64) <<< 2
def PTE_X : UInt64 := (1 : UInt64) <<< 3
def PTE_U : UInt64 := (1 : UInt64) <<< 4

/-- Shift a physical address to the right place for a PTE. -/
def PA2PTE (pa : UInt64) : UInt64 := (pa >>> 12) <<< 10
def PTE2PA (pte : UInt64) : UInt64 := (pte >>> 10) <<< 12
def PTE_FLAGS (pte : UInt64) : UInt64 := pte &&& 0x3FF

def PXMASK : UInt64 := 0x1FF
def PXSHIFT (level : UInt64) : UInt64 := PGSHIFT + 9 * level
/-- The 9-bit index of `va` in a page-table page of `level`. -/
def PX (level va : UInt64) : UInt64 := (va >>> PXSHIFT level) &&& PXMASK

/-- One beyond the highest virtual address. -/
def MAXVA : UInt64 := (1 : UInt64) <<< (9 + 9 + 9 + 12 - 1)

def KERNBASE : UInt64 := 0x80000000
def PHYSTOP : UInt64 := KERNBASE + 128 * 1024 * 1024

/-- The iterations any of the page loops below can make: one per page below `MAXVA` and
the one that ends the loop. -/
def pageLoopFuel : ℕ := (MAXVA / PGSIZE).toNat + 1

/-! ## The state -/

/-- What the virtual-memory code reads and writes. -/
structure VmState where
  /-- Physical memory. -/
  mem : Mem
  /-- `kmem.freelist`, head first. -/
  freelist : List UInt64
  /-- The linker symbol `end`, the first address after the kernel. -/
  kernelEnd : UInt64

abbrev VmM := StateT VmState (Except String)

/-! ## `kalloc.c` -/

/-- Allocate one page; 0 if none is free. The page is filled with junk (5). -/
def kalloc : VmM UInt64 := do
  let s ← get
  match s.freelist with
  | [] => return 0
  | r :: rest =>
    set { s with mem := s.mem.fill r 5 PGSIZE, freelist := rest }
    return r

/-- Free the page at `pa`: check it, fill it with junk (1), link it in front of the list. -/
def kfree (pa : UInt64) : VmM Unit := do
  let s ← get
  if pa % PGSIZE ≠ 0 ∨ pa < s.kernelEnd ∨ pa ≥ PHYSTOP then throw "kfree"
  -- `r->next = kmem.freelist` is the first word of the freed page
  let next := match s.freelist with
    | [] => 0
    | r :: _ => r
  set { s with mem := (s.mem.fill pa 1 PGSIZE).store64 pa next, freelist := pa :: s.freelist }

/-! ## Walking a page table -/

/-- One iteration of `walk`'s loop at `level`: the page-table page that the PTE
`pagetable[PX(level, va)]` points to, or, where it is not valid and `alloc` is set, a
fresh zeroed page that the PTE is made to point to; `none` where `walk` returns 0. -/
def walkLevel (va : UInt64) (alloc : Bool) (level pagetable : UInt64) :
    VmM (Option UInt64) := do
  let pte := pagetable + 8 * PX level va
  let e := (← get).mem.load64 pte
  if e &&& PTE_V ≠ 0 then
    return some (PTE2PA e)
  else if !alloc then
    return none
  else
    let p ← kalloc
    if p = 0 then return none
    modify fun s => { s with mem := (s.mem.fill p 0 PGSIZE).store64 pte (PA2PTE p ||| PTE_V) }
    return some p

/-- The address of the PTE for `va` in `pagetable`, or 0; the loop over levels 2 and 1
is unrolled. -/
def walk (pagetable va : UInt64) (alloc : Bool) : VmM UInt64 := do
  if va ≥ MAXVA then throw "walk"
  match ← walkLevel va alloc 2 pagetable with
  | none => return 0
  | some p1 =>
    match ← walkLevel va alloc 1 p1 with
    | none => return 0
    | some p0 => return p0 + 8 * PX 0 va

/-- The physical address `va` maps to for the user, or 0. -/
def walkaddr (pagetable va : UInt64) : VmM UInt64 := do
  if va ≥ MAXVA then return 0
  let pte ← walk pagetable va false
  if pte = 0 then return 0
  let e := (← get).mem.load64 pte
  if e &&& PTE_V = 0 then return 0
  if e &&& PTE_U = 0 then return 0
  return PTE2PA e

/-! ## Mapping and unmapping -/

/-- The `for(;;)` loop of `mappages` from page `a`, which maps to `pa`, on. -/
def mappagesLoop (pagetable last perm : UInt64) : ℕ → UInt64 → UInt64 → VmM Int
  | 0, _, _ => return 0
  | fuel + 1, a, pa => do
    let pte ← walk pagetable a true
    if pte = 0 then return -1
    if (← get).mem.load64 pte &&& PTE_V ≠ 0 then throw "mappages: remap"
    modify fun s => { s with mem := s.mem.store64 pte (PA2PTE pa ||| perm ||| PTE_V) }
    if a = last then return 0
    mappagesLoop pagetable last perm fuel (a + PGSIZE) (pa + PGSIZE)

/-- Create PTEs for the pages of `[va, va + size)` that refer to `pa` on; 0 on success,
-1 where `walk` could not allocate a page-table page. `perm` is the `int` argument as
the `|` converts it. -/
def mappages (pagetable va size pa perm : UInt64) : VmM Int := do
  if size = 0 then throw "mappages: size"
  let a := PGROUNDDOWN va
  let last := PGROUNDDOWN (va + size - 1)
  mappagesLoop pagetable last perm pageLoopFuel a pa

/-- The loop of `uvmunmap` from `a` on, while `a < bound`. -/
def uvmunmapLoop (pagetable bound : UInt64) (do_free : Bool) : ℕ → UInt64 → VmM Unit
  | 0, _ => return ()
  | fuel + 1, a => do
    if ¬ a < bound then return ()
    let pte ← walk pagetable a false
    if pte = 0 then throw "uvmunmap: walk"
    let e := (← get).mem.load64 pte
    if e &&& PTE_V = 0 then throw "uvmunmap: not mapped"
    if PTE_FLAGS e = PTE_V then throw "uvmunmap: not a leaf"
    if do_free then kfree (PTE2PA e)
    modify fun s => { s with mem := s.mem.store64 pte 0 }
    uvmunmapLoop pagetable bound do_free fuel (a + PGSIZE)

/-- Remove the `npages` mappings from `va` on, and free their pages if `do_free`. -/
def uvmunmap (pagetable va npages : UInt64) (do_free : Bool) : VmM Unit := do
  if va % PGSIZE ≠ 0 then throw "uvmunmap: not aligned"
  uvmunmapLoop pagetable (va + npages * PGSIZE) do_free pageLoopFuel va

/-- An empty user page table, or 0 when there is no free page. -/
def uvmcreate : VmM UInt64 := do
  let pagetable ← kalloc
  if pagetable = 0 then return 0
  modify fun s => { s with mem := s.mem.fill pagetable 0 PGSIZE }
  return pagetable

/-! ## Growing and shrinking a process -/

/-- Unmap and free the pages from `PGROUNDUP(newsz)` up to `PGROUNDUP(oldsz)`; the new
size. `npages` is an `int`, so the page count is truncated to 32 bits and sign-extended
back when `uvmunmap` takes it. -/
def uvmdealloc (pagetable oldsz newsz : UInt64) : VmM UInt64 := do
  if newsz ≥ oldsz then return oldsz
  if PGROUNDUP newsz < PGROUNDUP oldsz then
    let npages := ((PGROUNDUP oldsz - PGROUNDUP newsz) / PGSIZE).toUInt32.toInt32.toInt64.toUInt64
    uvmunmap pagetable (PGROUNDUP newsz) npages true
  return newsz

/-- The loop of `uvmalloc` from `a` on, with `oldsz` already rounded up. -/
def uvmallocLoop (pagetable oldsz newsz : UInt64) : ℕ → UInt64 → VmM UInt64
  | 0, _ => return newsz
  | fuel + 1, a => do
    if ¬ a < newsz then return newsz
    let mem ← kalloc
    if mem = 0 then
      let _ ← uvmdealloc pagetable a oldsz
      return 0
    modify fun s => { s with mem := s.mem.fill mem 0 PGSIZE }
    if (← mappages pagetable a PGSIZE mem (PTE_W ||| PTE_X ||| PTE_R ||| PTE_U)) ≠ 0 then
      kfree mem
      let _ ← uvmdealloc pagetable a oldsz
      return 0
    uvmallocLoop pagetable oldsz newsz fuel (a + PGSIZE)

/-- Map fresh zeroed pages to grow a process from `oldsz` to `newsz`; the new size, or 0
on error. -/
def uvmalloc (pagetable oldsz newsz : UInt64) : VmM UInt64 := do
  if newsz < oldsz then return oldsz
  uvmallocLoop pagetable (PGROUNDUP oldsz) newsz pageLoopFuel (PGROUNDUP oldsz)

/-- `growproc(n)` (`proc.c`) for a process whose page table is `pagetable` and whose
`p->sz` is `psz`: the result and the new `p->sz`. The local `uint sz` holds the low 32
bits of `p->sz`, `sz + n` is computed in `uint`, and the `uint64` that `uvmalloc` or
`uvmdealloc` returns is stored back into `sz` before `p->sz = sz`. -/
def growproc (pagetable psz : UInt64) (n : Int32) : VmM (Int32 × UInt64) := do
  let sz : UInt32 := psz.toUInt32
  if 0 < n then
    let sz' := (← uvmalloc pagetable sz.toUInt64 (sz + n.toUInt32).toUInt64).toUInt32
    if sz' = 0 then return (-1, psz)
    return (0, sz'.toUInt64)
  else if n < 0 then
    let sz' := (← uvmdealloc pagetable sz.toUInt64 (sz + n.toUInt32).toUInt64).toUInt32
    return (0, sz'.toUInt64)
  else
    return (0, sz.toUInt64)

/-- `sys_sbrk` (`sysproc.c`) with the argument register `a0`: the value it returns in
`a0` and the new `p->sz`. `argint` keeps the low 32 bits of the register; `int addr`
holds the low 32 bits of the old `p->sz`, and returning it as `uint64` sign-extends it. -/
def sys_sbrk (pagetable psz a0 : UInt64) : VmM (UInt64 × UInt64) := do
  let n : Int32 := a0.toUInt32.toInt32
  let addr : Int32 := psz.toUInt32.toInt32
  let (r, psz') ← growproc pagetable psz n
  if r < 0 then return (-1, psz')
  return (addr.toInt64.toUInt64, psz')

/-! ## Copying between user and kernel -/

/-- The bytes of the chunk that starts at `va` and is cut at the end of its page. -/
def chunkLen (va va0 len : UInt64) : UInt64 :=
  if PGSIZE - (va - va0) > len then len else PGSIZE - (va - va0)

/-- The loop of `copyout`: the `len` bytes at `src` in the kernel memory `ksrc` to
`dstva` on. -/
def copyoutLoop (pagetable : UInt64) (ksrc : Mem) : ℕ → UInt64 → UInt64 → UInt64 → VmM Int
  | 0, _, _, _ => return 0
  | fuel + 1, dstva, src, len => do
    if len = 0 then return 0
    let va0 := PGROUNDDOWN dstva
    let pa0 ← walkaddr pagetable va0
    if pa0 = 0 then return -1
    let n := chunkLen dstva va0 len
    modify fun s => { s with mem := s.mem.copy (pa0 + (dstva - va0)) ksrc src n }
    copyoutLoop pagetable ksrc fuel (va0 + PGSIZE) (src + n) (len - n)

/-- Copy `len` bytes from `src` in the kernel memory `ksrc` to `dstva`; 0 or -1. -/
def copyout (pagetable dstva : UInt64) (ksrc : Mem) (src len : UInt64) : VmM Int :=
  copyoutLoop pagetable ksrc pageLoopFuel dstva src len

/-- The loop of `copyin`: the `len` bytes at `srcva` on to `dst` in the kernel memory
`kdst`, with the kernel memory as it ends. -/
def copyinLoop (pagetable : UInt64) : ℕ → Mem → UInt64 → UInt64 → UInt64 → VmM (Int × Mem)
  | 0, kdst, _, _, _ => return (0, kdst)
  | fuel + 1, kdst, dst, srcva, len => do
    if len = 0 then return (0, kdst)
    let va0 := PGROUNDDOWN srcva
    let pa0 ← walkaddr pagetable va0
    if pa0 = 0 then return (-1, kdst)
    let n := chunkLen srcva va0 len
    let m := (← get).mem
    copyinLoop pagetable fuel (kdst.copy dst m (pa0 + (srcva - va0)) n) (dst + n)
      (va0 + PGSIZE) (len - n)

/-- Copy `len` bytes from `srcva` to `dst` in the kernel memory `kdst`; 0 or -1, and the
kernel memory after the copy. -/
def copyin (pagetable : UInt64) (kdst : Mem) (dst srcva len : UInt64) : VmM (Int × Mem) :=
  copyinLoop pagetable pageLoopFuel kdst dst srcva len

/-- The inner loop of `copyinstr` over the `n` bytes from `p` in the page: whether it met
the NUL, the kernel memory, and `dst` and `max` as it leaves them. At a NUL it breaks
before `dst` and `max` move. -/
def copyinstrInner (m : Mem) : ℕ → Mem → UInt64 → UInt64 → UInt64 → Bool × Mem × UInt64 × UInt64
  | 0, kdst, _, dst, max => (false, kdst, dst, max)
  | n + 1, kdst, p, dst, max =>
    if m p = 0 then (true, Function.update kdst dst 0, dst, max)
    else copyinstrInner m n (Function.update kdst dst (m p)) (p + 1) (dst + 1) (max - 1)

/-- The outer loop of `copyinstr`, while no NUL has been met and `max > 0`. -/
def copyinstrLoop (pagetable : UInt64) :
    ℕ → Bool → Mem → UInt64 → UInt64 → UInt64 → VmM (Int × Mem)
  | 0, got_null, kdst, _, _, _ => return (if got_null then 0 else -1, kdst)
  | fuel + 1, got_null, kdst, dst, srcva, max => do
    if got_null ∨ max = 0 then return (if got_null then 0 else -1, kdst)
    let va0 := PGROUNDDOWN srcva
    let pa0 ← walkaddr pagetable va0
    if pa0 = 0 then return (-1, kdst)
    let n := chunkLen srcva va0 max
    let m := (← get).mem
    let r := copyinstrInner m n.toNat kdst (pa0 + (srcva - va0)) dst max
    copyinstrLoop pagetable fuel r.1 r.2.1 r.2.2.1 (va0 + PGSIZE) r.2.2.2

/-- Copy the NUL-terminated string at `srcva`, at most `max` bytes of it, to `dst` in the
kernel memory `kdst`; 0 if the NUL was copied, else -1. -/
def copyinstr (pagetable : UInt64) (kdst : Mem) (dst srcva max : UInt64) : VmM (Int × Mem) :=
  copyinstrLoop pagetable pageLoopFuel false kdst dst srcva max

/-! ## Copying and freeing a table -/

/-- The loop of `uvmcopy` from `i` on: each page of `old` below `sz` is copied into a page
from `kalloc` and mapped at the same address of `new` with the same flags. Where `kalloc`
or `mappages` fails, `goto err` unmaps and frees the pages mapped so far and the result is
-1. `flags` is a `uint`; `mappages`'s `int perm` takes it, and its `|` widens that to 64
bits. -/
def uvmcopyLoop (old new sz : UInt64) : ℕ → UInt64 → VmM Int
  | 0, _ => return 0
  | fuel + 1, i => do
    if ¬ i < sz then return 0
    let pte ← walk old i false
    if pte = 0 then throw "uvmcopy: pte should exist"
    let e := (← get).mem.load64 pte
    if e &&& PTE_V = 0 then throw "uvmcopy: page not present"
    let pa := PTE2PA e
    let flags : UInt32 := (PTE_FLAGS e).toUInt32
    let mem ← kalloc
    if mem = 0 then
      uvmunmap new 0 (i / PGSIZE) true
      return -1
    modify fun s => { s with mem := (memmove s.mem mem pa 4096).1 }
    if (← mappages new i PGSIZE mem flags.toInt32.toInt64.toUInt64) ≠ 0 then
      kfree mem
      uvmunmap new 0 (i / PGSIZE) true
      return -1
    uvmcopyLoop old new sz fuel (i + PGSIZE)

/-- Copy the user memory below `sz` of the table `old` into the table `new`: 0, or -1 with
every page it mapped unmapped and freed again. -/
def uvmcopy (old new sz : UInt64) : VmM Int :=
  uvmcopyLoop old new sz pageLoopFuel 0

/-- The nesting of `freewalk` calls that the model follows, one for each page of the 64-bit
address space; the tables the kernel builds need three. -/
def freewalkDepth : ℕ := 2 ^ 52

/-- One round of `freewalk`'s loop, at the entry `i` of `pagetable`: an entry that points
down (valid, with R, W and X clear) is freed below by `below` and cleared, and a valid leaf
panics. -/
def freewalkEntry (below : UInt64 → VmM Unit) (pagetable : UInt64) (i : ℕ) : VmM Unit := do
  let pte := (← get).mem.load64 (pagetable + 8 * UInt64.ofNat i)
  if pte &&& PTE_V ≠ 0 ∧ pte &&& (PTE_R ||| PTE_W ||| PTE_X) = 0 then
    below (PTE2PA pte)
    modify fun s => { s with mem := s.mem.store64 (pagetable + 8 * UInt64.ofNat i) 0 }
  else if pte &&& PTE_V ≠ 0 then
    throw "freewalk: leaf"

/-- `freewalk(pagetable)` with at most `depth` nested calls: the loop over the 512 entries,
each freed below by a nested call, then the page itself. -/
def freewalk : ℕ → UInt64 → VmM Unit
  | 0, _ => throw "freewalk: depth"
  | depth + 1, pagetable => do
    (List.range 512).forM (freewalkEntry (freewalk depth) pagetable)
    kfree pagetable

/-- Unmap and free the user pages below `sz`, then free the pages of the table. -/
def uvmfree (pagetable sz : UInt64) : VmM Unit := do
  if sz > 0 then uvmunmap pagetable 0 (PGROUNDUP sz / PGSIZE) true
  freewalk freewalkDepth pagetable

end Xv6.Vm
