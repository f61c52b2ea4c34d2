import Xv6.Model.Fs.State

/-!
# Blocks and inodes (`kernel/fs.c`)

The block allocator, the inode table and the inode contents, one definition per C
function under its C name. `bread`/`brelse` are reads of the state; a loop of the C code
is a fold over the indices it visits, or a recursion on the bytes still to copy, so that
every function here is a terminating program on the state. The sleep-locks of the
inodes are not modelled: each system call runs alone.
Source: kernel/fs.c:49-517
-/

set_option autoImplicit false

namespace Xv6.Fs

/-! ## Blocks -/

/-- `bzero`: zero a block and log it. -/
def bzero (_dev bno : ℕ) : FsM Unit := do
  modifyData bno fun _ _ => 0
  logWrite bno

/-- `balloc`: mark the first free block in use and return it zeroed. Its two loops visit
the blocks `0 .. sb.size - 1` in order, reading the bitmap block of each `BPB` of them. -/
def balloc (dev : ℕ) : FsM ℕ := do
  let s ← get
  match (List.range s.disk.sb.size).find? (fun b => !s.disk.used b) with
  | none => throw "balloc: out of blocks"
  | some b =>
    set { s with disk := { s.disk with used := Function.update s.disk.used b true } }
    logWrite (BBLOCK b s.disk.sb)
    bzero dev b
    return b

/-- `bfree`: clear the bit of block `b`. -/
def bfree (_dev b : ℕ) : FsM Unit := do
  let s ← get
  if !s.disk.used b then throw "freeing free block"
  set { s with disk := { s.disk with used := Function.update s.disk.used b false } }
  logWrite (BBLOCK b s.disk.sb)

theorem run_bfree (dev b : ℕ) (s : FsState) : (bfree dev b).run s =
    if s.disk.used b then
      .ok (⟨⟩, { s with
        disk := { s.disk with used := Function.update s.disk.used b false }
        logged := s.logged ++ [BBLOCK b s.disk.sb] })
    else .error "freeing free block" := by
  cases h : s.disk.used b <;> simp [bfree, h, logWrite] <;> rfl

/-! ## The inode table -/

/-- `iget`: the entry that holds inode `inum` with one more reference, or the first
free entry recycled for it. -/
def iget (dev inum : ℕ) : FsM (Fin NINODE) := do
  let s ← get
  match (List.finRange NINODE).find? (fun i =>
      decide (0 < (s.itable i).ref) && (s.itable i).dev == dev && (s.itable i).inum == inum) with
  | some i =>
    modifyInode i fun ip => { ip with ref := ip.ref + 1 }
    return i
  | none =>
    match (List.finRange NINODE).find? (fun i => (s.itable i).ref == 0) with
    | none => throw "iget: no inodes"
    | some i =>
      modifyInode i fun ip => { ip with dev, inum, ref := 1, valid := false }
      return i

/-- `idup`. -/
def idup (i : Fin NINODE) : FsM Unit :=
  modifyInode i fun ip => { ip with ref := ip.ref + 1 }

/-- `iupdate`: copy the entry's inode to the disk. -/
def iupdate (i : Fin NINODE) : FsM Unit := do
  let s ← get
  let ip := s.itable i
  set { s with disk := { s.disk with dinode := Function.update s.disk.dinode ip.inum ip.di } }
  logWrite (IBLOCK ip.inum s.disk.sb)

theorem run_iupdate (i : Fin NINODE) (s : FsState) : (iupdate i).run s = .ok (⟨⟩, { s with
    disk := { s.disk with dinode := Function.update s.disk.dinode (s.itable i).inum (s.itable i).di }
    logged := s.logged ++ [IBLOCK (s.itable i).inum s.disk.sb] }) := rfl

/-- `ialloc`: give the first free disk inode the type `type` and return its entry. -/
def ialloc (dev : ℕ) (type : IType) : FsM (Fin NINODE) := do
  let s ← get
  match (List.range' 1 (s.disk.sb.ninodes - 1)).find? (fun inum =>
      (s.disk.dinode inum).type == .free) with
  | none => throw "ialloc: no inodes"
  | some inum =>
    let di : DInode := { DInode.zero with type := type }
    set { s with disk := { s.disk with dinode := Function.update s.disk.dinode inum di } }
    logWrite (IBLOCK inum s.disk.sb)
    iget dev inum

/-- `ilock`, without the sleep-lock: read the inode from the disk if the entry does not
hold it, and panic on a free one. -/
def ilock (i : Fin NINODE) : FsM Unit := do
  let ip := (← get).itable i
  if ip.ref < 1 then throw "ilock"
  if !ip.valid then
    let di := (← get).disk.dinode ip.inum
    modifyInode i fun ip => { ip with di, valid := true }
    if di.type = .free then throw "ilock: no type"

/-- `iunlock`, without the sleep-lock. -/
def iunlock (i : Fin NINODE) : FsM Unit := do
  if ((← get).itable i).ref < 1 then throw "iunlock"

/-! ## Inode contents -/

/-- `bmap`: the block holding block `bn` of the file, allocated if there is none. -/
def bmap (i : Fin NINODE) (bn : ℕ) : FsM ℕ := do
  let ip := (← get).itable i
  if h : bn < NDIRECT then
    let k : Fin (NDIRECT + 1) := ⟨bn, Nat.lt_succ_of_lt h⟩
    if ip.di.addrs k = 0 then
      let addr ← balloc ip.dev
      modifyDi i fun d => { d with addrs := Function.update d.addrs k addr }
      return addr
    return ip.di.addrs k
  let bn := bn - NDIRECT
  if bn < NINDIRECT then
    -- load the indirect block, allocating it if necessary
    let mut ind := ip.di.addrs (Fin.last NDIRECT)
    if ind = 0 then
      ind ← balloc ip.dev
      modifyDi i fun d => { d with addrs := Function.update d.addrs (Fin.last NDIRECT) ind }
    let addr := getWord ((← get).disk.data ind) bn
    if addr = 0 then
      let addr ← balloc ip.dev
      modifyData ind fun blk => setWord blk bn addr
      logWrite ind
      return addr
    return addr
  throw "bmap: out of range"

/-- The round of `itrunc`'s first loop for direct block `k`. -/
def itruncDirect (i : Fin NINODE) (k : Fin NDIRECT) : FsM Unit := do
  let ip := (← get).itable i
  if ip.di.addrs k.castSucc ≠ 0 then
    bfree ip.dev (ip.di.addrs k.castSucc)
    modifyDi i fun d => { d with addrs := Function.update d.addrs k.castSucc 0 }

/-- The part of `itrunc` after its first loop: free the blocks the indirect block lists,
then the indirect block. The indirect block is read once, before its entries are freed. -/
def itruncIndirect (i : Fin NINODE) : FsM Unit := do
  let ip := (← get).itable i
  let ind := ip.di.addrs (Fin.last NDIRECT)
  if ind ≠ 0 then
    let a := (← get).disk.data ind
    (List.range NINDIRECT).forM fun j => do
      if getWord a j ≠ 0 then bfree ip.dev (getWord a j)
    bfree ip.dev ind
    modifyDi i fun d => { d with addrs := Function.update d.addrs (Fin.last NDIRECT) 0 }

/-- `itrunc`: free every block of the file and write the emptied inode. -/
def itrunc (i : Fin NINODE) : FsM Unit := do
  (List.finRange NDIRECT).forM (itruncDirect i)
  itruncIndirect i
  modifyDi i fun d => { d with size := 0 }
  iupdate i

/-- `iput`: drop a reference; the last reference to an inode with no links frees it. -/
def iput (i : Fin NINODE) : FsM Unit := do
  let ip := (← get).itable i
  if ip.ref = 1 ∧ ip.valid = true ∧ ip.di.nlink = 0 then
    itrunc i
    modifyDi i fun d => { d with type := .free }
    iupdate i
    modifyInode i fun ip => { ip with valid := false }
  modifyInode i fun ip => { ip with ref := ip.ref - 1 }

/-- `iunlockput`. -/
def iunlockput (i : Fin NINODE) : FsM Unit := do
  iunlock i
  iput i

/-- The loop of `readi` into a kernel buffer: `rem` bytes from `off` on. Each round
copies at least one byte, so `fuel = rem` rounds are enough. -/
def readiLoop (i : Fin NINODE) : ℕ → ℕ → ℕ → FsM (List UInt8)
  | 0, _, _ => return []
  | fuel + 1, off, rem =>
    if rem = 0 then return []
    else do
      let addr ← bmap i (off / BSIZE)
      let m := min rem (BSIZE - off % BSIZE)
      let blk := (← get).disk.data addr
      let rest ← readiLoop i fuel (off + m) (rem - m)
      return (List.range m).map (fun k => blk (off % BSIZE + k)) ++ rest

/-- `readi` into a kernel buffer: the bytes read, as many as its return value. -/
def readi (i : Fin NINODE) (off n : ℕ) : FsM (List UInt8) := do
  let ip := (← get).itable i
  if ip.di.size < off ∨ (off + n) % 2 ^ 32 < off then return []
  let n := if ip.di.size < off + n then ip.di.size - off else n
  readiLoop i n off n

/-- The loop of `readi` into user memory: `dst` says of each byte of the destination
whether `either_copyout` can write it, and a chunk with a byte it cannot write stops the
loop with `-1` (`none`). Otherwise returns the bytes copied. -/
def readiUserLoop (i : Fin NINODE) : ℕ → List Bool → ℕ → FsM (Option (List UInt8))
  | 0, _, _ => return some []
  | fuel + 1, dst, off =>
    if dst = [] then return some []
    else do
      let addr ← bmap i (off / BSIZE)
      let m := min dst.length (BSIZE - off % BSIZE)
      let blk := (← get).disk.data addr
      if (dst.take m).all id then
        let rest ← readiUserLoop i fuel (dst.drop m) (off + m)
        return rest.map ((List.range m).map (fun k => blk (off % BSIZE + k)) ++ ·)
      else return none

/-- `readi(ip, 1, dst, off, n)` into a user destination of `n = dst.length` bytes: the
bytes copied out, or `none` for the `-1` of a failed `either_copyout`. -/
def readiUser (i : Fin NINODE) (dst : List Bool) (off : ℕ) : FsM (Option (List UInt8)) := do
  let ip := (← get).itable i
  if ip.di.size < off ∨ (off + dst.length) % 2 ^ 32 < off then return some []
  let dst := if ip.di.size < off + dst.length then dst.take (ip.di.size - off) else dst
  readiUserLoop i dst.length dst off

/-- The loop of `writei`: write the source bytes from `off` on, one block at a time,
stopping where `either_copyin` fails (a `none` among the chunk's bytes, a byte whose page is
not mapped). `copyin` has then copied the pages before the failing one, the bytes of the
chunk before its first `none`, into the block, which `brelse` releases without `log_write`.
Returns the bytes written and the offset reached. -/
def writeiLoop (i : Fin NINODE) : ℕ → List (Option UInt8) → ℕ → ℕ → FsM (ℕ × ℕ)
  | 0, _, off, tot => return (tot, off)
  | fuel + 1, src, off, tot =>
    if src = [] then return (tot, off)
    else do
      let addr ← bmap i (off / BSIZE)
      let m := min src.length (BSIZE - off % BSIZE)
      match (src.take m).mapM id with
      | none =>
        let part := ((src.take m).takeWhile Option.isSome).filterMap id
        modifyData addr fun blk k =>
          if off % BSIZE ≤ k ∧ k < off % BSIZE + part.length then part.getD (k - off % BSIZE) 0
          else blk k
        return (tot, off)
      | some bytes =>
        modifyData addr fun blk k =>
          if off % BSIZE ≤ k ∧ k < off % BSIZE + m then bytes.getD (k - off % BSIZE) 0 else blk k
        logWrite addr
        writeiLoop i fuel (src.drop m) (off + m) (tot + m)

/-- `writei`: write `src` (the bytes at the source address, `none` where it faults) at
`off`, extend the size, and write the inode back even if only `bmap` changed it. -/
def writei (i : Fin NINODE) (src : List (Option UInt8)) (off : ℕ) : FsM ℤ := do
  let n := src.length
  let ip := (← get).itable i
  if ip.di.size < off ∨ (off + n) % 2 ^ 32 < off then return -1
  if MAXFILE * BSIZE < off + n then return -1
  let (tot, off) ← writeiLoop i n src off 0
  if ((← get).itable i).di.size < off then modifyDi i fun d => { d with size := off }
  iupdate i
  return tot

end Xv6.Fs
