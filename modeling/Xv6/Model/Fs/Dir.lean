import Xv6.Model.Fs.Inode

/-!
# Directories and path names (`kernel/fs.c`)

A directory is a file of 16-byte `struct dirent`s, read and written through `readi`
and `writei` at offsets `0, 16, 32, …` below its size. A path is a list of bytes
without its terminating zero.
Source: kernel/fs.c:520-661
-/

set_option autoImplicit false

namespace Xv6.Fs

/-- The offsets `off = 0, 16, …` with `off < size` that the directory loops visit. -/
def direntOffsets (size : ℕ) : List ℕ :=
  (List.range ((size + 15) / 16)).map (· * 16)

/-- The loop of `dirlookup` over the offsets still to visit. -/
def dirlookupLoop (dp : Fin NINODE) (name : List UInt8) :
    List ℕ → FsM (Option (Fin NINODE × ℕ))
  | [] => return none
  | off :: offs => do
    let bs ← readi dp off 16
    if bs.length ≠ 16 then throw "dirlookup read"
    let de := Dirent.decode bs
    if de.inum = 0 then dirlookupLoop dp name offs
    else if nameEq name de.name then
      let ip ← iget ((← get).itable dp).dev de.inum
      return some (ip, off)
    else dirlookupLoop dp name offs

/-- `dirlookup`: the entry named `name`, as a referenced inode and its offset. -/
def dirlookup (dp : Fin NINODE) (name : List UInt8) : FsM (Option (Fin NINODE × ℕ)) := do
  let ip := (← get).itable dp
  if ip.di.type ≠ .dir then throw "dirlookup not DIR"
  dirlookupLoop dp name (direntOffsets ip.di.size)

/-- The loop of `dirlink` that looks for an empty entry: its offset, or the offset the
loop ends at. -/
def emptyDirentLoop (dp : Fin NINODE) (last : ℕ) : List ℕ → FsM ℕ
  | [] => return last
  | off :: offs => do
    let bs ← readi dp off 16
    if bs.length ≠ 16 then throw "dirlink read"
    if (Dirent.decode bs).inum = 0 then return off
    emptyDirentLoop dp last offs

/-- `dirlink`: add the entry `(name, inum)` to `dp`, unless `name` is there; `true` is
the return value 0. -/
def dirlink (dp : Fin NINODE) (name : List UInt8) (inum : ℕ) : FsM Bool := do
  match ← dirlookup dp name with
  | some (ip, _) =>
    iput ip
    return false
  | none =>
    let size := ((← get).itable dp).di.size
    let off ← emptyDirentLoop dp ((size + 15) / 16 * 16) (direntOffsets size)
    let de : Dirent := { inum, name := name.take DIRSIZ }
    let r ← writei dp (de.encode.map some) off
    if r ≠ 16 then throw "dirlink"
    return true

/-- The byte `/`. -/
def slash : UInt8 := 47

/-- `skipelem`: the rest of the path after its next element, and that element cut to
`DIRSIZ` bytes; `none` when no element is left. -/
def skipelem (path : List UInt8) : Option (List UInt8 × List UInt8) :=
  let path := path.dropWhile (· = slash)
  if path = [] then none
  else
    some (((path.dropWhile (· ≠ slash)).dropWhile (· = slash)),
      (path.takeWhile (· ≠ slash)).take DIRSIZ)

/-- The loop of `namex`, holding a reference to `ip`; each round consumes a path element,
so `fuel = path.length + 1` rounds are enough. Returns the inode and the last element. -/
def namexLoop (nameiparent : Bool) : ℕ → Fin NINODE → List UInt8 → List UInt8 →
    FsM (Option (Fin NINODE × List UInt8))
  | 0, _, _, _ => return none
  | fuel + 1, ip, path, name =>
    match skipelem path with
    | none => do
      if nameiparent then
        iput ip
        return none
      return some (ip, name)
    | some (path, name) => do
      ilock ip
      if ((← get).itable ip).di.type ≠ .dir then
        iunlockput ip
        return none
      if nameiparent ∧ path = [] then
        -- stop one level early
        iunlock ip
        return some (ip, name)
      match ← dirlookup ip name with
      | none =>
        iunlockput ip
        return none
      | some (next, _) =>
        iunlockput ip
        namexLoop nameiparent fuel next path name

/-- `namex` for process `p`: from the root for an absolute path, else from its current
directory. -/
def namex (p : Fin NPROC) (path : List UInt8) (nameiparent : Bool) :
    FsM (Option (Fin NINODE × List UInt8)) := do
  let ip ← if path.head? = some slash then iget ROOTDEV ROOTINO
    else do
      let c := ((← get).proc p).cwd
      idup c
      pure c
  namexLoop nameiparent (path.length + 1) ip path []

/-- `namei`. -/
def namei (p : Fin NPROC) (path : List UInt8) : FsM (Option (Fin NINODE)) := do
  return (← namex p path false).map Prod.fst

/-- `nameiparent`: the parent directory and the last element. -/
def nameiparent (p : Fin NPROC) (path : List UInt8) : FsM (Option (Fin NINODE × List UInt8)) :=
  namex p path true

end Xv6.Fs
