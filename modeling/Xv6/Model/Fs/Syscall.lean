import Xv6.Model.Fs.Dir

/-!
# File-system system calls (`kernel/sysfile.c`, `kernel/file.c`)

The system calls that change the file system, with the open-file layer below them and
the file references of `fork` and `exit` (`kernel/proc.c`). Paths and user buffers are
given as lists of bytes: `argstr`'s copy of the path is not modelled, and a source
buffer has `none` where `copyin` faults. `begin_op` starts the record of the
transaction's `log_write`s; the commit at `end_op` is `Xv6.LogSys`'s.
Source: kernel/sysfile.c:21-486, kernel/file.c:28-177, kernel/pipe.c:22-74,
kernel/kalloc.c:64-82, kernel/proc.c:273-359
-/

set_option autoImplicit false

namespace Xv6.Fs

/-- `begin_op`. -/
def beginOp : FsM Unit :=
  modify fun s => { s with logged := [] }

/-- `end_op`: the commit is the log's, and changes nothing the file system reads. -/
def endOp : FsM Unit :=
  pure ()

/-- Change the open-file table entry `f`. -/
def modifyFile (f : Fin NFILE) (g : File → File) : FsM Unit :=
  modify fun s => { s with ftable := Function.update s.ftable f (g (s.ftable f)) }

/-- Change process `p`. -/
def modifyProc (p : Fin NPROC) (g : Proc → Proc) : FsM Unit :=
  modify fun s => { s with proc := Function.update s.proc p (g (s.proc p)) }

/-! ## Open files -/

/-- `filealloc`. -/
def filealloc : FsM (Option (Fin NFILE)) := do
  let s ← get
  match (List.finRange NFILE).find? (fun f => (s.ftable f).ref == 0) with
  | none => return none
  | some f =>
    modifyFile f fun g => { g with ref := 1 }
    return some f

/-- `filedup`. -/
def filedup (f : Fin NFILE) : FsM Unit := do
  if ((← get).ftable f).ref < 1 then throw "filedup"
  modifyFile f fun g => { g with ref := g.ref + 1 }

/-- `pipeclose(pi, writable)`: close one end; the page goes back to `kalloc` with the
other. The code has no test for a page that is no longer a pipe (it would use freed
memory): the model stops there. -/
def pipeclose (pa : ℕ) (writable : Bool) : FsM Unit := do
  match (← get).pipes pa with
  | none => throw "pipeclose: freed pipe"
  | some pi =>
    match pi.close writable with
    | (pi, freed) =>
      modify fun s => { s with pipes := Function.update s.pipes pa (if freed then none else some pi) }

/-- `fileclose`: drop a reference; the last one closes the file's end of its pipe, or
releases its inode in a transaction of its own. -/
def fileclose (f : Fin NFILE) : FsM Unit := do
  let ff := (← get).ftable f
  if ff.ref < 1 then throw "fileclose"
  if 0 < ff.ref - 1 then
    modifyFile f fun g => { g with ref := ff.ref - 1 }
  else
    modifyFile f fun g => { g with ref := 0, type := .none }
    if ff.type = .pipe then pipeclose ff.pipe ff.writable
    else if ff.type = .inode ∨ ff.type = .device then
      beginOp
      iput ff.ip
      endOp

/-- `kalloc()` for a pipe: the page the allocator hands out is given with the call, `none`
when its free list is empty. It only hands out free pages, so a page that is still a pipe
(or 0) is read as no page. -/
def kalloc (page : Option ℕ) : FsM (Option ℕ) := do
  match page with
  | none => return none
  | some pa => return if pa ≠ 0 ∧ ((← get).pipes pa).isNone then some pa else none

/-- `pipealloc`: two open files and a new pipe in the page `kalloc` gives, the first file
its read end and the second its write end. On a failure the files allocated are closed
(`pi` is still 0 at `bad`, so nothing is freed). -/
def pipealloc (page : Option ℕ) : FsM (Option (Fin NFILE × Fin NFILE)) := do
  -- `(*f0 = filealloc()) == 0 || (*f1 = filealloc()) == 0`
  let f0 ← filealloc
  let f1 ← if f0.isSome then filealloc else pure none
  let pi ← if f0.isSome ∧ f1.isSome then kalloc page else pure none
  match f0, f1, pi with
  | some f0, some f1, some pa =>
    -- `memset(pi, 5, PGSIZE)` in `kalloc`, then the four fields
    modify fun s => { s with pipes := Function.update s.pipes pa (some (Pipe.alloc fun _ => 5)) }
    modifyFile f0 fun g => { g with type := .pipe, readable := true, writable := false, pipe := pa }
    modifyFile f1 fun g => { g with type := .pipe, readable := false, writable := true, pipe := pa }
    return some (f0, f1)
  | _, _, _ =>
    if let some f0 := f0 then fileclose f0
    if let some f1 := f1 then fileclose f1
    return none

/-- `fdalloc`: the first free descriptor of `p`, now naming `f`. -/
def fdalloc (p : Fin NPROC) (f : Fin NFILE) : FsM (Option (Fin NOFILE)) := do
  let s ← get
  match (List.finRange NOFILE).find? (fun fd => ((s.proc p).ofile fd).isNone) with
  | none => return none
  | some fd =>
    modifyProc p fun pr => { pr with ofile := Function.update pr.ofile fd (some f) }
    return some fd

/-- `argfd`: the descriptor `fd` of `p` and its file, if open. -/
def argfd (p : Fin NPROC) (fd : ℕ) : FsM (Option (Fin NOFILE × Fin NFILE)) := do
  if h : fd < NOFILE then
    return (((← get).proc p).ofile ⟨fd, h⟩).map fun f => (⟨fd, h⟩, f)
  return none

/-- The write loop of `filewrite` on an inode file: chunks of at most `max` bytes, each in
a transaction of its own, stopping at the first short `writei`. Returns the bytes
written. -/
def filewriteLoop (f : Fin NFILE) (max : ℕ) : ℕ → List (Option UInt8) → ℕ → FsM ℕ
  | 0, _, i => return i
  | fuel + 1, src, i =>
    if src = [] then return i
    else do
      let n1 := min src.length max
      beginOp
      let ip := ((← get).ftable f).ip
      ilock ip
      let r ← writei ip (src.take n1) ((← get).ftable f).off
      if 0 < r then modifyFile f fun g => { g with off := g.off + r.toNat }
      iunlock ip
      endOp
      if r ≠ n1 then return i
      filewriteLoop f max fuel (src.drop n1) (i + n1)

/-- `filewrite`; the pipe and device branches hand the bytes to `pipewrite` and the
drivers, which are not this model's (`none`). -/
def filewrite (f : Fin NFILE) (src : List (Option UInt8)) : FsM (Option ℤ) := do
  let ff := (← get).ftable f
  if ff.writable = false then return some (-1)
  match ff.type with
  | .pipe | .device => return none
  | .none => throw "filewrite"
  | .inode =>
    let max := (MAXOPBLOCKS - 1 - 1 - 2) / 2 * BSIZE
    let i ← filewriteLoop f max src.length src 0
    return some (if i = src.length then src.length else -1)

/-- `fileread` into a user destination whose bytes `dst` says can be written; the pipe
and device branches are the drivers' (`none`), as in `filewrite`. Unlike a write, a
read takes no transaction. -/
def fileread (f : Fin NFILE) (dst : List Bool) : FsM (Option ℤ) := do
  let ff := (← get).ftable f
  if ff.readable = false then return some (-1)
  match ff.type with
  | .pipe | .device => return none
  | .none => throw "fileread"
  | .inode =>
    ilock ff.ip
    let r : ℤ := match ← readiUser ff.ip dst ((← get).ftable f).off with
      | some bytes => bytes.length
      | none => -1
    if 0 < r then modifyFile f fun g => { g with off := g.off + r.toNat }
    iunlock ff.ip
    return some r

/-! ## System calls -/

/-- `sys_close`. -/
def sys_close (p : Fin NPROC) (fd : ℕ) : FsM ℤ := do
  match ← argfd p fd with
  | none => return -1
  | some (fd, f) =>
    modifyProc p fun pr => { pr with ofile := Function.update pr.ofile fd none }
    fileclose f
    return 0

/-- `sys_dup`. -/
def sys_dup (p : Fin NPROC) (fd : ℕ) : FsM ℤ := do
  match ← argfd p fd with
  | none => return -1
  | some (_, f) =>
    match ← fdalloc p f with
    | none => return -1
    | some fd =>
      filedup f
      return fd.val

/-- `sys_pipe`: `page` is what `kalloc` gives `pipealloc`, and `ok0`, `ok1` whether the
two `copyout`s of the descriptors succeed. -/
def sys_pipe (p : Fin NPROC) (page : Option ℕ) (ok0 ok1 : Bool) : FsM ℤ := do
  match ← pipealloc page with
  | none => return -1
  | some (rf, wf) =>
    -- `(fd0 = fdalloc(rf)) < 0 || (fd1 = fdalloc(wf)) < 0`
    match ← fdalloc p rf with
    | none =>
      fileclose rf
      fileclose wf
      return -1
    | some fd0 =>
      match ← fdalloc p wf with
      | none =>
        modifyProc p fun pr => { pr with ofile := Function.update pr.ofile fd0 none }
        fileclose rf
        fileclose wf
        return -1
      | some fd1 =>
        if ok0 ∧ ok1 then return 0
        modifyProc p fun pr => { pr with ofile := Function.update pr.ofile fd0 none }
        modifyProc p fun pr => { pr with ofile := Function.update pr.ofile fd1 none }
        fileclose rf
        fileclose wf
        return -1

/-- `sys_write`; `none` for a pipe or device file. -/
def sys_write (p : Fin NPROC) (fd : ℕ) (src : List (Option UInt8)) : FsM (Option ℤ) := do
  match ← argfd p fd with
  | none => return some (-1)
  | some (_, f) => filewrite f src

/-- `sys_read`; `none` for a pipe or device file. -/
def sys_read (p : Fin NPROC) (fd : ℕ) (dst : List Bool) : FsM (Option ℤ) := do
  match ← argfd p fd with
  | none => return some (-1)
  | some (_, f) => fileread f dst

/-- The `bad:` exit of `sys_link`: take the new link back. -/
def linkBad (ip : Fin NINODE) : FsM ℤ := do
  ilock ip
  modifyDi ip fun d => { d with nlink := d.nlink - 1 }
  iupdate ip
  iunlockput ip
  endOp
  return -1

/-- `sys_link`. -/
def sys_link (p : Fin NPROC) (old new : List UInt8) : FsM ℤ := do
  beginOp
  match ← namei p old with
  | none =>
    endOp
    return -1
  | some ip =>
    ilock ip
    if ((← get).itable ip).di.type = .dir then
      iunlockput ip
      endOp
      return -1
    modifyDi ip fun d => { d with nlink := d.nlink + 1 }
    iupdate ip
    iunlock ip
    match ← nameiparent p new with
    | none => linkBad ip
    | some (dp, name) =>
      ilock dp
      if ((← get).itable dp).dev ≠ ((← get).itable ip).dev then
        iunlockput dp
        linkBad ip
      else if !(← dirlink dp name ((← get).itable ip).inum) then
        iunlockput dp
        linkBad ip
      else
        iunlockput dp
        iput ip
        endOp
        return 0

/-- `isdirempty`: no entry past `.` and `..` is in use. -/
def isdirempty (dp : Fin NINODE) : FsM Bool := do
  let rec loop : List ℕ → FsM Bool
    | [] => return true
    | off :: offs => do
      let bs ← readi dp off 16
      if bs.length ≠ 16 then throw "isdirempty: readi"
      if (Dirent.decode bs).inum ≠ 0 then return false
      loop offs
  loop ((direntOffsets ((← get).itable dp).di.size).drop 2)

/-- The byte strings `.` and `..`. -/
def dot : List UInt8 := [46]
def dotdot : List UInt8 := [46, 46]

/-- The `bad:` exit of `sys_unlink`. -/
def unlinkBad (dp : Fin NINODE) : FsM ℤ := do
  iunlockput dp
  endOp
  return -1

/-- `sys_unlink`. -/
def sys_unlink (p : Fin NPROC) (path : List UInt8) : FsM ℤ := do
  beginOp
  match ← nameiparent p path with
  | none =>
    endOp
    return -1
  | some (dp, name) =>
    ilock dp
    -- cannot unlink "." or ".."
    if nameEq name dot ∨ nameEq name dotdot then unlinkBad dp
    else
      match ← dirlookup dp name with
      | none => unlinkBad dp
      | some (ip, off) =>
        ilock ip
        if ((← get).itable ip).di.nlink < 1 then throw "unlink: nlink < 1"
        -- `&&` runs `isdirempty` on a directory only
        let busy ← if ((← get).itable ip).di.type = .dir then (! ·) <$> isdirempty ip
          else pure false
        if busy then
          iunlockput ip
          unlinkBad dp
        else
          let r ← writei dp (List.replicate 16 (some 0)) off
          if r ≠ 16 then throw "unlink: writei"
          if ((← get).itable ip).di.type = .dir then
            modifyDi dp fun d => { d with nlink := d.nlink - 1 }
            iupdate dp
          iunlockput dp
          modifyDi ip fun d => { d with nlink := d.nlink - 1 }
          iupdate ip
          iunlockput ip
          endOp
          return 0

/-- `create`: the new (or, for a plain file, existing) inode, locked and referenced. -/
def create (p : Fin NPROC) (path : List UInt8) (type : IType) (major minor : ℤ) :
    FsM (Option (Fin NINODE)) := do
  match ← nameiparent p path with
  | none => return none
  | some (dp, name) =>
    ilock dp
    match ← dirlookup dp name with
    | some (ip, _) =>
      iunlockput dp
      ilock ip
      let t := ((← get).itable ip).di.type
      if type = .file ∧ (t = .file ∨ t = .device) then return some ip
      iunlockput ip
      return none
    | none =>
      let ip ← ialloc ((← get).itable dp).dev type
      ilock ip
      modifyDi ip fun d => { d with major, minor, nlink := 1 }
      iupdate ip
      if type = .dir then
        -- create . and ..; no `ip->nlink++` for ".", to avoid a cyclic count
        modifyDi dp fun d => { d with nlink := d.nlink + 1 }
        iupdate dp
        if !(← dirlink ip dot ((← get).itable ip).inum) then throw "create dots"
        if !(← dirlink ip dotdot ((← get).itable dp).inum) then throw "create dots"
      if !(← dirlink dp name ((← get).itable ip).inum) then throw "create: dirlink"
      iunlockput dp
      return some ip

/-- The bits of `fcntl.h`. -/
def O_RDONLY : ℕ := 0
def O_WRONLY : ℕ := 1
def O_RDWR : ℕ := 2
def O_CREATE : ℕ := 512
def O_TRUNC : ℕ := 1024

/-- The part of `sys_open` after it holds the locked inode `ip`. -/
def openInode (p : Fin NPROC) (ip : Fin NINODE) (omode : ℕ) : FsM ℤ := do
  let di := ((← get).itable ip).di
  if di.type = .device ∧ (di.major < 0 ∨ NDEV ≤ di.major) then
    iunlockput ip
    endOp
    return -1
  match ← filealloc with
  | none =>
    iunlockput ip
    endOp
    return -1
  | some f =>
    match ← fdalloc p f with
    | none =>
      fileclose f
      iunlockput ip
      endOp
      return -1
    | some fd =>
      if di.type = .device then modifyFile f fun g => { g with type := .device, major := di.major }
      else modifyFile f fun g => { g with type := .inode, off := 0 }
      modifyFile f fun g => { g with
        ip := ip
        readable := omode &&& O_WRONLY == 0
        writable := omode &&& O_WRONLY != 0 || omode &&& O_RDWR != 0 }
      if omode &&& O_TRUNC ≠ 0 ∧ di.type = .file then itrunc ip
      iunlock ip
      endOp
      return fd.val

/-- `sys_open`. -/
def sys_open (p : Fin NPROC) (path : List UInt8) (omode : ℕ) : FsM ℤ := do
  beginOp
  if omode &&& O_CREATE ≠ 0 then
    match ← create p path .file 0 0 with
    | none =>
      endOp
      return -1
    | some ip => openInode p ip omode
  else
    match ← namei p path with
    | none =>
      endOp
      return -1
    | some ip =>
      ilock ip
      if ((← get).itable ip).di.type = .dir ∧ omode ≠ O_RDONLY then
        iunlockput ip
        endOp
        return -1
      openInode p ip omode

/-- `sys_mkdir`. -/
def sys_mkdir (p : Fin NPROC) (path : List UInt8) : FsM ℤ := do
  beginOp
  match ← create p path .dir 0 0 with
  | none =>
    endOp
    return -1
  | some ip =>
    iunlockput ip
    endOp
    return 0

/-- `sys_mknod`. -/
def sys_mknod (p : Fin NPROC) (path : List UInt8) (major minor : ℤ) : FsM ℤ := do
  beginOp
  match ← create p path .device major minor with
  | none =>
    endOp
    return -1
  | some ip =>
    iunlockput ip
    endOp
    return 0

/-- `sys_chdir`. -/
def sys_chdir (p : Fin NPROC) (path : List UInt8) : FsM ℤ := do
  beginOp
  match ← namei p path with
  | none =>
    endOp
    return -1
  | some ip =>
    ilock ip
    if ((← get).itable ip).di.type ≠ .dir then
      iunlockput ip
      endOp
      return -1
    iunlock ip
    iput ((← get).proc p).cwd
    endOp
    modifyProc p fun pr => { pr with cwd := ip }
    return 0

/-- The file references of `fork`: the child, the first free process slot, shares the
parent's open files and current directory. -/
def fork (p : Fin NPROC) : FsM ℤ := do
  let s ← get
  match (List.finRange NPROC).find? (fun q => !(s.proc q).alive) with
  | none => return -1
  | some np =>
    let pr := s.proc p
    (List.finRange NOFILE).forM fun fd => do
      if let some f := pr.ofile fd then filedup f
    idup pr.cwd
    modifyProc np fun _ => { alive := true, cwd := pr.cwd, ofile := pr.ofile }
    return np.val

/-- The file references of `exit`: close every open file, then release the current
directory in a transaction. -/
def exit (p : Fin NPROC) : FsM Unit := do
  if p.val = 0 then throw "init exiting"
  (List.finRange NOFILE).forM fun fd => do
    if let some f := ((← get).proc p).ofile fd then
      fileclose f
      modifyProc p fun pr => { pr with ofile := Function.update pr.ofile fd none }
  beginOp
  iput ((← get).proc p).cwd
  endOp
  modifyProc p fun pr => { pr with alive := false }

end Xv6.Fs
