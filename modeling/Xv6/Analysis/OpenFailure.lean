import Xv6.Analysis.Namespace

/-!
# `open` with `O_CREATE` can fail after it has linked the file

`sys_open` with `O_CREATE` calls `create` first. `create` allocates the inode and links it
into the parent directory. Only then does `sys_open` look for a file-table entry and a free
descriptor. If either is missing, the error path closes the file, puts the inode and
returns -1. The inode stays allocated with one link, and the parent keeps its new entry:
the call fails, but the directory is not as it was.

From `mkfs`, `init` opens `/` and `dup`s the descriptor until all `NOFILE` slots are in
use. `open("x", O_CREATE|O_RDWR)` then returns -1, and the root now names `x`
(`open_create_fails_after_linking`).
Source: kernel/sysfile.c:286-340, kernel/sysfile.c:241-284
-/

set_option autoImplicit false

namespace Xv6

open TransitionSystem Fs

/-- Whether the directory `dir` on the disk has an entry, in use, named `name`. -/
def Disk.names (d : Disk) (dir : DInode) (name : List UInt8) : Bool :=
  (d.dirents dir).any fun e => e.1 != 0 && e.2 == name

/-- `open(path, omode)` by process 0 returns -1 from a state whose descriptor table is full
and whose root does not name `name`, and leaves the root naming it. -/
def failsAfterLinking (path name : List UInt8) (omode : ℕ) (s : FsState) : Bool :=
  match (sys_open 0 path omode).run s with
  | .ok (r, s') =>
    r == -1 && (List.finRange NOFILE).all (fun fd => ((s.proc 0).ofile fd).isSome) &&
      !s.disk.names (s.disk.dinode ROOTINO) name && s'.disk.names (s'.disk.dinode ROOTINO) name
  | .error _ => false

/-- With every descriptor of `init` in use, `open("x", O_CREATE|O_RDWR)` returns -1 after
`create` has linked `x` into the root. -/
theorem open_create_fails_after_linking :
    ∃ s, Reachable step (boot (mkfs FSSIZE)) s ∧ ∃ s',
      (sys_open 0 (path ['x']) (O_CREATE ||| O_RDWR)).run s = .ok (-1, s') ∧
      (∀ fd, ((s.proc 0).ofile fd).isSome) ∧
      s.disk.names (s.disk.dinode ROOTINO) (path ['x']) = false ∧
      s'.disk.names (s'.disk.dinode ROOTINO) (path ['x']) = true := by
  have hrun : (run step (boot (mkfs FSSIZE))
      (.openFile 0 (path ['/']) O_RDONLY :: List.replicate 15 (.dup 0 0))).nextSat
      (failsAfterLinking (path ['x']) (path ['x']) (O_CREATE ||| O_RDWR)) = true := by
    decide +kernel
  obtain ⟨s, hs, hfail⟩ := Reachable.of_run_nextSat .init hrun
  refine ⟨s, hs, ?_⟩
  unfold failsAfterLinking at hfail
  split at hfail
  · next r s' hopen =>
    simp only [Bool.and_eq_true, beq_iff_eq, List.all_eq_true, List.mem_finRange, true_implies,
      Bool.not_eq_true'] at hfail
    obtain ⟨⟨⟨hr, hfull⟩, hbefore⟩, hafter⟩ := hfail
    subst hr
    exact ⟨s', hopen, hfull, hbefore, hafter⟩
  · cases hfail

end Xv6
