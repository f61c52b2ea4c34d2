import Xv6.Model.Pipe

/-!
# Pipe FIFO delivery

The ring of a pipe refines a queue: its contents are the `nwrite - nread` bytes from
`nread` on, in `uint` arithmetic, and the two tests of the code read that count off the
wrapped counters (`full` is a count of `PIPESIZE`, `empty` a count of zero) because
`PIPESIZE` divides `2^32`. Writing a byte appends it to the queue and taking one pops
the head.

Over every interleaving of writes, reads, closes and kills, with any `copyin` or
`copyout` failing and the counters wrapping, `FifoInv` holds: the ring holds at most
`PIPESIZE` bytes, the bytes accepted from writers are the bytes consumed followed by the
ring's contents, and the bytes delivered to readers are a subsequence of those consumed.
They need not be all of them: `piperead` advances `nread` before its `copyout`, so a
failed `copyout` consumes a byte that no reader receives.
Source: kernel/pipe.c:76-130
-/

set_option autoImplicit false

namespace Xv6

open TransitionSystem

namespace Pipe

variable {α : Type}

/-- How many bytes the ring holds: `nwrite - nread` in `uint` arithmetic. -/
def count (pi : Pipe α) : ℕ := (pi.nwrite - pi.nread).toNat

/-- The bytes the ring holds, oldest first. -/
def contents (pi : Pipe α) : List α := Ring.window pi.data pi.nread.toNat pi.count

theorem count_eq (pi : Pipe α) :
    pi.count = (2 ^ 32 - pi.nread.toNat + pi.nwrite.toNat) % 2 ^ 32 :=
  UInt32.toNat_sub _ _

@[simp] theorem count_alloc (junk : Fin PIPESIZE → α) : (alloc junk).count = 0 := by
  simp [count_eq, alloc]

@[simp] theorem contents_alloc (junk : Fin PIPESIZE → α) : (alloc junk).contents = [] := by
  rw [contents, count_alloc, Ring.window_zero]

@[simp] theorem length_contents (pi : Pipe α) : pi.contents.length = pi.count :=
  Ring.length_window _ _ _

/-- `pi->nwrite == pi->nread + PIPESIZE` tests for a ring of `PIPESIZE` bytes. -/
theorem full_iff (pi : Pipe α) : pi.full = true ↔ pi.count = PIPESIZE := by
  have hr := UInt32.toNat_lt pi.nread
  have hw := UInt32.toNat_lt pi.nwrite
  rw [full, beq_iff_eq, UInt32.ext_iff, UInt32.toNat_add, count_eq]
  show pi.nwrite.toNat = (pi.nread.toNat + 512) % 2 ^ 32 ↔ _ = 512
  omega

/-- `pi->nread == pi->nwrite` tests for an empty ring. -/
theorem empty_iff (pi : Pipe α) : pi.empty = true ↔ pi.count = 0 := by
  have hr := UInt32.toNat_lt pi.nread
  have hw := UInt32.toNat_lt pi.nwrite
  rw [empty, beq_iff_eq, UInt32.ext_iff, count_eq]
  omega

/-- The writer's cell is the one just past the ring's contents. -/
theorem slot_nwrite (pi : Pipe α) :
    Ring.slot PIPESIZE pi.nwrite.toNat = Ring.slot PIPESIZE (pi.nread.toNat + pi.count) := by
  have hr := UInt32.toNat_lt pi.nread
  have hw := UInt32.toNat_lt pi.nwrite
  rw [Ring.slot_eq_iff, count_eq, PIPESIZE_eq]
  omega

theorem count_put (pi : Pipe α) (ch : α) (h : pi.count < PIPESIZE) :
    (pi.put ch).count = pi.count + 1 := by
  have hr := UInt32.toNat_lt pi.nread
  have hw := UInt32.toNat_lt pi.nwrite
  rw [count_eq, count_eq] at *
  simp only [put, UInt32.toNat_add, UInt32.toNat_one]
  rw [PIPESIZE_eq] at h
  omega

/-- A byte written into a ring that is not full joins the back of the queue. -/
theorem contents_put (pi : Pipe α) (ch : α) (h : pi.count < PIPESIZE) :
    (pi.put ch).contents = pi.contents ++ [ch] := by
  rw [contents, count_put pi ch h, contents]
  show Ring.window (Function.update pi.data (Ring.slot PIPESIZE pi.nwrite.toNat) ch) _ _ = _
  rw [slot_nwrite]
  exact Ring.window_push _ _ _ _ h

theorem count_get (pi : Pipe α) (h : pi.count ≠ 0) : pi.get.2.count = pi.count - 1 := by
  have hr := UInt32.toNat_lt pi.nread
  have hw := UInt32.toNat_lt pi.nwrite
  rw [count_eq, count_eq] at *
  simp only [get, UInt32.toNat_add, UInt32.toNat_one]
  omega

/-- Taking a byte from a ring that is not empty pops the head of the queue. -/
theorem contents_get (pi : Pipe α) (h : pi.count ≠ 0) :
    pi.contents = pi.get.1 :: pi.get.2.contents := by
  obtain ⟨n, hn⟩ := Nat.exists_eq_succ_of_ne_zero h
  have hstart : (pi.nread + 1).toNat % PIPESIZE = (pi.nread.toNat + 1) % PIPESIZE := by
    rw [UInt32.toNat_add, UInt32.toNat_one, PIPESIZE_eq]
    omega
  rw [contents, contents, count_get pi h, hn, Ring.window_succ_start]
  show _ :: _ = _ :: Ring.window pi.data (pi.nread + 1).toNat n
  rw [Ring.window_congr_start pi.data hstart]
  rfl

/-- The count and the contents depend only on the cells and the counters. -/
theorem contents_congr {pi pi' : Pipe α} (hd : pi'.data = pi.data) (hr : pi'.nread = pi.nread)
    (hw : pi'.nwrite = pi.nwrite) : pi'.count = pi.count ∧ pi'.contents = pi.contents := by
  simp only [contents, count, hd, hr, hw, and_self]

end Pipe

namespace PipeSys

variable {ι α : Type} [DecidableEq ι]

/-- The invariant of the pipe: the ring is within its capacity, what writers put in is
what readers took out followed by what is still in the ring, and what readers received
is a subsequence of what they took out. -/
structure FifoInv (s : PipeSys ι α) : Prop where
  bounded : s.pipe.count ≤ PIPESIZE
  fifo : s.accepted = s.consumed ++ s.pipe.contents
  delivered_sublist : s.delivered.Sublist s.consumed

omit [DecidableEq ι] in
theorem fifoInv_init (junk : Fin PIPESIZE → α) : FifoInv (init (ι := ι) junk) where
  bounded := by simp [init]
  fifo := by simp [init]
  delivered_sublist := List.Sublist.slnil

/-- Each step keeps the invariant, by what it does to the ring. -/
theorem fifoInv_step {s s' : PipeSys ι α} {a : PipeAct ι α} (h : FifoInv s)
    (hs : s.step a = .next s') : FifoInv s' := by
  cases step_effect hs with
  | keep hd hr hw ha hc hdl =>
    obtain ⟨hcount, hcontents⟩ := Pipe.contents_congr hd hr hw
    exact ⟨hcount ▸ h.bounded, by rw [ha, hc, hcontents, h.fifo], hdl ▸ hc ▸ h.delivered_sublist⟩
  | put ch hfull hpipe ha hc hdl =>
    -- the writer found the ring below capacity
    have hlt : s.pipe.count < PIPESIZE :=
      Nat.lt_of_le_of_ne h.bounded fun heq => by simp [(Pipe.full_iff _).2 heq] at hfull
    refine ⟨?_, ?_, hdl ▸ hc ▸ h.delivered_sublist⟩
    · rw [hpipe, Pipe.count_put _ _ hlt]
      exact hlt
    · rw [ha, hc, hpipe, Pipe.contents_put _ _ hlt, h.fifo, List.append_assoc]
  | get q ok oks i _ hempty hpipe ha hc hdl =>
    -- the reader found the ring not empty
    have hne : s.pipe.count ≠ 0 := fun heq => by simp [(Pipe.empty_iff _).2 heq] at hempty
    refine ⟨?_, ?_, ?_⟩
    · rw [hpipe, Pipe.count_get _ hne]
      exact Nat.le_trans (Nat.sub_le _ _) h.bounded
    · rw [ha, hc, hpipe, h.fifo, Pipe.contents_get _ hne, List.append_assoc, List.singleton_append]
    · rw [hdl, hc]
      cases ok
      · exact h.delivered_sublist.trans (List.sublist_append_left _ _)
      · exact h.delivered_sublist.append_right _ |>.trans (by simp)

/-- The invariant holds in every state reached from a new pipe. -/
theorem fifoInv_of_reachable {junk : Fin PIPESIZE → α} {s : PipeSys ι α}
    (hs : Reachable step (init junk) s) : FifoInv s :=
  hs.inv FifoInv (fifoInv_init junk) fun _ _ _ _ h hstep => fifoInv_step h hstep

/-- After a writer has put "ab" into a new pipe and a reader has taken 'a', the ring holds
"b" and the invariant holds. -/
theorem fifoInv_after_write_and_read :
    ∃ s : PipeSys (Fin 2) Char, s.pipe.contents = ['b'] ∧ FifoInv s := by
  have hs := Reachable.of_run .init (show run step (init fun _ => ' ')
    [.write (0 : Fin 2) [some 'a', some 'b'], .run 0, .run 0, .run 0, .read 1 [true], .run 1,
      .run 1] = .next _ from rfl)
  exact ⟨_, by decide, fifoInv_of_reachable hs⟩

/-- `piperead` takes a byte out of the ring before it tries `copyout`, so a read into a
buffer that faults consumes a byte and returns 0, and the byte reaches no reader. A
writer puts "ab" into a new pipe; a read whose buffer faults takes 'a'; a second read
receives 'b'. Every byte written was consumed and the ring is empty, but only 'b' was
delivered. -/
theorem piperead_drops_byte_on_copyout_fault :
    ∃ s : PipeSys (Fin 2) Char, Reachable step (init fun _ => ' ') s ∧
      s.accepted = ['a', 'b'] ∧ s.consumed = ['a', 'b'] ∧ s.delivered = ['b'] ∧
      s.pipe.contents = [] :=
  ⟨_, Reachable.of_run .init (show run _ _ [.write 0 [some 'a', some 'b'], .run 0, .run 0, .run 0,
    .read 1 [false], .run 1, .run 1, .read 1 [true], .run 1, .run 1, .run 1] = .next _ from rfl),
    rfl, rfl, rfl, by decide⟩

end PipeSys

end Xv6
