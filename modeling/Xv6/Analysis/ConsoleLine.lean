import Xv6.Model.Console

/-!
# The console's line discipline

The ring of the console refines a pair of lists: the committed bytes that no read has taken
yet (the `w - r` bytes from `r` on) and the line being edited (the `e - w` bytes from `w`
on), in `uint` arithmetic, with `INPUT_BUF` dividing `2^32`. `LineState.type` says what
typing a byte does to that pair: the cooked input of a terminal, where editing touches
only the line and a newline, a `^D` or a full ring commits it. From every reachable state,
`consoleintr` acts on the ring as `LineState.type` acts on its lists.

Over every interleaving of typed bytes, reads, and kills, with any `copyout` failing, the
indices keep `r ≤ w ≤ e ≤ r + INPUT_BUF` as unsigned differences, the committed bytes are
those consumed followed by those still in the ring, and the bytes delivered are a
subsequence of those consumed. They need not be all of them: `consoleread` advances `r`
before its `copyout`, so a failed `copyout` consumes a byte that no reader receives.
Source: kernel/console.c:79-179
-/

set_option autoImplicit false

namespace Xv6

open TransitionSystem

/-- The console input as a line discipline describes it: the committed bytes that no read
has taken yet, and the line being edited. -/
structure LineState where
  ready : List UInt8
  line : List UInt8

namespace LineState

/-- The byte `c` joins the line; a newline, a `^D` or a full ring commits it. -/
def add (ls : LineState) (c : UInt8) : LineState :=
  if c = '\n'.toUInt8 ∨ c = C 'D' ∨ ls.ready.length + (ls.line.length + 1) = INPUT_BUF then
    ⟨ls.ready ++ (ls.line ++ [c]), []⟩
  else { ls with line := ls.line ++ [c] }

/-- Typing the byte `c`. `^U` empties the line and a backspace drops its last byte; any
other byte but NUL joins the line, `'\r'` as `'\n'`, unless the ring is full. `^P` is not
input. -/
def type (ls : LineState) (c : UInt8) : LineState :=
  if c = C 'P' then ls
  else if c = C 'U' then { ls with line := [] }
  else if c = C 'H' ∨ c = '\x7f'.toUInt8 then { ls with line := ls.line.dropLast }
  else if c ≠ 0 ∧ ls.ready.length + ls.line.length < INPUT_BUF then
    ls.add (if c = '\r'.toUInt8 then '\n'.toUInt8 else c)
  else ls

/-- What a ring can hold: at most `INPUT_BUF` bytes, and no newline in the line, since a
newline commits it. -/
structure Ok (ls : LineState) : Prop where
  bounded : ls.ready.length + ls.line.length ≤ INPUT_BUF
  no_newline : '\n'.toUInt8 ∉ ls.line

/-- Adding a byte to a ring with room keeps what it can hold. -/
theorem Ok.add {ls : LineState} (h : ls.Ok) (hroom : ls.ready.length + ls.line.length < INPUT_BUF)
    (c : UInt8) : (ls.add c).Ok := by
  unfold LineState.add
  split_ifs with hcommit
  · refine ⟨?_, List.not_mem_nil⟩
    simp only [List.length_append, List.length_cons, List.length_nil]
    omega
  · -- the byte joins the line without committing it, so it is not a newline
    refine ⟨?_, ?_⟩
    · simp only [List.length_append, List.length_cons, List.length_nil]
      omega
    · simp only [List.mem_append, List.mem_singleton, not_or]
      exact ⟨h.no_newline, fun heq => hcommit (.inl heq.symm)⟩

/-- Typing keeps what a ring can hold. -/
theorem Ok.type {ls : LineState} (h : ls.Ok) (c : UInt8) : (ls.type c).Ok := by
  have hb := h.bounded
  unfold LineState.type
  split_ifs with hP hU hH hroom
  · exact h
  · exact ⟨by simpa using Nat.le_trans (Nat.le_add_right _ _) hb, List.not_mem_nil⟩
  · refine ⟨?_, fun hm => h.no_newline (List.dropLast_sublist _ |>.subset hm)⟩
    simp only [List.length_dropLast]
    omega
  · exact h.add hroom.2 _
  · exact h.add hroom.2 _
  · exact h

end LineState

namespace Cons

/-- How many committed bytes wait for a read: `w - r` in `uint` arithmetic. -/
def ready (cs : Cons) : ℕ := (cs.w - cs.r).toNat

/-- How long the line being edited is: `e - w` in `uint` arithmetic. -/
def editing (cs : Cons) : ℕ := (cs.e - cs.w).toNat

/-- The committed bytes that wait for a read, oldest first. -/
def input (cs : Cons) : List UInt8 := Ring.window cs.buf cs.r.toNat cs.ready

/-- The line being edited. -/
def line (cs : Cons) : List UInt8 := Ring.window cs.buf cs.w.toNat cs.editing

/-- The ring read as a line discipline's state. -/
def view (cs : Cons) : LineState := ⟨cs.input, cs.line⟩

/-- The ring's invariant: it holds what a line discipline's state can hold. -/
def Inv (cs : Cons) : Prop := cs.view.Ok

@[simp] theorem length_input (cs : Cons) : cs.input.length = cs.ready := Ring.length_window _ _ _

@[simp] theorem length_line (cs : Cons) : cs.line.length = cs.editing := Ring.length_window _ _ _

theorem ready_eq (cs : Cons) : cs.ready = (2 ^ 32 - cs.r.toNat + cs.w.toNat) % 2 ^ 32 :=
  UInt32.toNat_sub _ _

theorem editing_eq (cs : Cons) : cs.editing = (2 ^ 32 - cs.w.toNat + cs.e.toNat) % 2 ^ 32 :=
  UInt32.toNat_sub _ _

theorem Inv.bounded {cs : Cons} (h : cs.Inv) : cs.ready + cs.editing ≤ INPUT_BUF := by
  simpa [view] using LineState.Ok.bounded h

/-! ### The indices -/

section Indices

variable (cs : Cons)

/-- Counted from `r`, the edit index is past the committed bytes and the line. -/
theorem sub_r_toNat (hb : cs.ready + cs.editing ≤ INPUT_BUF) :
    (cs.e - cs.r).toNat = cs.ready + cs.editing := by
  have hr := UInt32.toNat_lt cs.r
  have hw := UInt32.toNat_lt cs.w
  have he := UInt32.toNat_lt cs.e
  rw [UInt32.toNat_sub, ready_eq, editing_eq]
  rw [ready_eq, editing_eq, INPUT_BUF] at hb
  omega

/-- The test `cons.e-cons.r < INPUT_BUF` asks whether the ring has room. -/
theorem sub_r_lt_iff (hb : cs.ready + cs.editing ≤ INPUT_BUF) :
    cs.e - cs.r < INPUT_BUF.toUInt32 ↔ cs.ready + cs.editing < INPUT_BUF := by
  rw [UInt32.lt_iff_toNat_lt, sub_r_toNat cs hb]
  rfl

/-- The test `cons.e == cons.w` asks whether the line is empty. -/
theorem e_eq_w_iff : cs.e = cs.w ↔ cs.editing = 0 := by
  have hw := UInt32.toNat_lt cs.w
  have he := UInt32.toNat_lt cs.e
  rw [← UInt32.toNat_inj, editing_eq]
  omega

/-- The test `cons.r == cons.w` asks whether no committed byte waits. -/
theorem r_eq_w_iff : cs.r = cs.w ↔ cs.ready = 0 := by
  have hr := UInt32.toNat_lt cs.r
  have hw := UInt32.toNat_lt cs.w
  rw [← UInt32.toNat_inj, ready_eq]
  omega

/-- `w` names the cell just past the committed bytes. -/
theorem w_mod : (cs.r.toNat + cs.ready) % INPUT_BUF = cs.w.toNat % INPUT_BUF := by
  have hr := UInt32.toNat_lt cs.r
  have hw := UInt32.toNat_lt cs.w
  rw [ready_eq, INPUT_BUF]
  omega

/-- `e` names the cell just past the line. -/
theorem slot_e : slot cs.e = Ring.slot INPUT_BUF (cs.w.toNat + cs.editing) := by
  have hw := UInt32.toNat_lt cs.w
  have he := UInt32.toNat_lt cs.e
  rw [slot, Ring.slot_eq_iff, editing_eq, INPUT_BUF]
  omega

/-- Counted from `r`, `e` names the cell past the committed bytes and the line. -/
theorem slot_e_of_r : slot cs.e = Ring.slot INPUT_BUF (cs.r.toNat + (cs.ready + cs.editing)) := by
  have hr := UInt32.toNat_lt cs.r
  have hw := UInt32.toNat_lt cs.w
  have he := UInt32.toNat_lt cs.e
  rw [slot, Ring.slot_eq_iff, ready_eq, editing_eq, INPUT_BUF]
  omega

end Indices

/-! ### The operations on the ring -/

section Ops

variable {cs : Cons}

theorem editing_put (c : UInt8) (hb : cs.ready + cs.editing < INPUT_BUF) :
    (cs.put c).editing = cs.editing + 1 := by
  have hw := UInt32.toNat_lt cs.w
  have he := UInt32.toNat_lt cs.e
  rw [editing_eq cs] at hb ⊢
  rw [editing_eq (cs.put c)]
  simp only [put, UInt32.toNat_add, UInt32.toNat_one]
  rw [INPUT_BUF] at hb
  omega

/-- Putting a byte into a ring with room adds it to the line and leaves the committed bytes. -/
theorem view_put (c : UInt8) (hb : cs.ready + cs.editing < INPUT_BUF) :
    (cs.put c).view = ⟨cs.input, cs.line ++ [c]⟩ := by
  have hroom : cs.editing < INPUT_BUF := by omega
  simp only [view, LineState.mk.injEq]
  constructor
  · show Ring.window (Function.update cs.buf (slot cs.e) c) _ cs.ready = _
    rw [slot_e_of_r]
    exact Ring.window_update_beyond _ _ _ _ _ (Nat.le_add_right _ _) hb
  · show Ring.window (Function.update cs.buf (slot cs.e) c) _ (cs.put c).editing = _
    rw [editing_put c hb, slot_e]
    exact Ring.window_push _ _ _ _ hroom

/-- A put is the only test `cons.e == cons.r+INPUT_BUF` can find true: the ring is full. -/
theorem put_e_eq_iff (c : UInt8) (hb : cs.ready + cs.editing < INPUT_BUF) :
    (cs.put c).e = (cs.put c).r + INPUT_BUF.toUInt32 ↔
      cs.ready + (cs.editing + 1) = INPUT_BUF := by
  have hr := UInt32.toNat_lt cs.r
  have hw := UInt32.toNat_lt cs.w
  have he := UInt32.toNat_lt cs.e
  rw [← UInt32.toNat_inj]
  simp only [put, UInt32.toNat_add, UInt32.toNat_one]
  rw [ready_eq, editing_eq] at hb ⊢
  show _ = (_ + 128 % 2 ^ 32) % 2 ^ 32 ↔ _ = 128
  rw [INPUT_BUF] at hb
  omega

/-- Committing moves the line behind the committed bytes. -/
theorem view_commit (hb : cs.ready + cs.editing ≤ INPUT_BUF) :
    cs.commit.view = ⟨cs.input ++ cs.line, []⟩ := by
  have hready : cs.commit.ready = cs.ready + cs.editing := sub_r_toNat cs hb
  have hedit : cs.commit.editing = 0 := by simp [editing, commit]
  simp only [view, LineState.mk.injEq]
  constructor
  · show Ring.window cs.buf cs.r.toNat cs.commit.ready = _
    rw [hready, Ring.window_add, input, line, Ring.window_congr_start cs.buf (w_mod cs)]
  · show Ring.window cs.buf cs.e.toNat cs.commit.editing = []
    rw [hedit, Ring.window_zero]

/-- Erasing the last byte of a line that has one. -/
theorem view_erase (he : cs.e ≠ cs.w) : cs.erase.view = ⟨cs.input, cs.line.dropLast⟩ := by
  obtain ⟨n, hn⟩ := Nat.exists_eq_succ_of_ne_zero ((e_eq_w_iff cs).not.1 he)
  have hedit : cs.erase.editing = n := by
    have hw := UInt32.toNat_lt cs.w
    have he := UInt32.toNat_lt cs.e
    rw [editing_eq] at hn ⊢
    simp only [erase, UInt32.toNat_sub, UInt32.toNat_one]
    omega
  simp only [view, LineState.mk.injEq]
  refine ⟨rfl, ?_⟩
  show Ring.window cs.buf cs.w.toNat cs.erase.editing = (Ring.window _ _ cs.editing).dropLast
  rw [hedit, hn, Ring.dropLast_window]

/-- The byte `cons.buf[(cons.e-1) % INPUT_BUF]` is the last of a line of `n + 1` bytes. -/
theorem line_eq_concat {n : ℕ} (hn : cs.editing = n + 1) :
    cs.line = Ring.window cs.buf cs.w.toNat n ++ [cs.buf (slot (cs.e - 1))] := by
  have hslot : slot (cs.e - 1) = Ring.slot INPUT_BUF (cs.w.toNat + n) := by
    have hw := UInt32.toNat_lt cs.w
    have he := UInt32.toNat_lt cs.e
    rw [editing_eq] at hn
    rw [slot, Ring.slot_eq_iff, UInt32.toNat_sub, UInt32.toNat_one, INPUT_BUF]
    omega
  rw [line, hn, Ring.window, hslot]

/-- `^U` erases the whole line: it holds no newline to stop at. -/
theorem view_killLine (n : ℕ) (hn : cs.editing = n) (hnl : '\n'.toUInt8 ∉ cs.line) :
    (cs.killLine n).view = ⟨cs.input, []⟩ := by
  induction n generalizing cs with
  | zero =>
    simp only [killLine, view, LineState.mk.injEq, true_and]
    rw [line, hn, Ring.window_zero]
  | succ n ih =>
    -- the loop goes on: the line is not empty and its last byte is not a newline
    have he : cs.e ≠ cs.w := (e_eq_w_iff cs).not.2 (by omega)
    have hlast : cs.buf (slot (cs.e - 1)) ≠ '\n'.toUInt8 := fun heq =>
      hnl (by rw [line_eq_concat hn, heq]; exact List.mem_concat_self)
    have herase := view_erase he
    simp only [view, LineState.mk.injEq] at herase
    rw [killLine, if_pos ⟨he, hlast⟩, ih]
    · rw [herase.1]
    · have := congrArg List.length herase.2
      simp only [length_line, List.length_dropLast] at this
      omega
    · rw [herase.2]
      exact fun hm => hnl (List.dropLast_sublist _ |>.subset hm)

/-- `cons.r++` on a ring with a committed byte takes the oldest one. -/
theorem input_take (hr : cs.r ≠ cs.w) :
    cs.input = cs.buf (slot cs.r) :: ({ cs with r := cs.r + 1 } : Cons).input := by
  obtain ⟨n, hn⟩ := Nat.exists_eq_succ_of_ne_zero ((r_eq_w_iff cs).not.1 hr)
  have hr' := UInt32.toNat_lt cs.r
  have hw := UInt32.toNat_lt cs.w
  have hready : ({ cs with r := cs.r + 1 } : Cons).ready = n := by
    rw [ready_eq] at hn ⊢
    simp only [UInt32.toNat_add, UInt32.toNat_one]
    omega
  have hstart : (cs.r + 1).toNat % INPUT_BUF = (cs.r.toNat + 1) % INPUT_BUF := by
    rw [UInt32.toNat_add, UInt32.toNat_one, INPUT_BUF]
    omega
  rw [input, hn, Ring.window_succ_start, input, hready]
  show _ = _ :: Ring.window cs.buf (cs.r + 1).toNat n
  rw [Ring.window_congr_start cs.buf hstart]
  rfl

/-- Taking a committed byte keeps the invariant. -/
theorem Inv.take (h : cs.Inv) (hr : cs.r ≠ cs.w) : ({ cs with r := cs.r + 1 } : Cons).Inv := by
  have hlen := congrArg List.length (input_take hr)
  have hedit : ({ cs with r := cs.r + 1 } : Cons).editing = cs.editing := rfl
  refine ⟨?_, h.no_newline⟩
  have hb := h.bounded
  simp only [view, length_input, length_line, List.length_cons] at hlen ⊢
  omega

end Ops

/-- A byte put into a ring with room, then committed if it ends a line or fills the ring,
is added to the line. -/
theorem view_put_commit {cs : Cons} (c : UInt8) (hb : cs.ready + cs.editing < INPUT_BUF) :
    (if c = '\n'.toUInt8 ∨ c = C 'D' ∨ (cs.put c).e = (cs.put c).r + INPUT_BUF.toUInt32 then
      (cs.put c).commit else cs.put c).view = cs.view.add c := by
  have hput := view_put c hb
  simp only [view, LineState.mk.injEq] at hput
  have hlen : (cs.put c).ready + (cs.put c).editing ≤ INPUT_BUF := by
    rw [show (cs.put c).ready = cs.ready from rfl, editing_put c hb]
    omega
  -- the test of a full ring is the one `LineState.add` makes on the lengths
  have hcond : (c = '\n'.toUInt8 ∨ c = C 'D' ∨ (cs.put c).e = (cs.put c).r + INPUT_BUF.toUInt32) ↔
      (c = '\n'.toUInt8 ∨ c = C 'D' ∨
        cs.view.ready.length + (cs.view.line.length + 1) = INPUT_BUF) := by
    rw [put_e_eq_iff c hb]
    simp [view]
  by_cases hcommit : c = '\n'.toUInt8 ∨ c = C 'D' ∨
      cs.view.ready.length + (cs.view.line.length + 1) = INPUT_BUF
  · rw [if_pos (hcond.2 hcommit), LineState.add, if_pos hcommit, view_commit hlen, hput.1,
      hput.2]
    rfl
  · rw [if_neg (hcond.not.2 hcommit), LineState.add, if_neg hcommit, view_put c hb]
    rfl

/-! ### `consoleintr` refines typing -/

/-- From a ring that keeps the invariant, `consoleintr` does to the committed bytes and the
line what typing the byte does. -/
theorem view_intr {cs : Cons} (h : cs.Inv) (c : UInt8) : (cs.intr c).view = cs.view.type c := by
  have hb := h.bounded
  by_cases hP : c = C 'P'
  · simp only [intr, LineState.type, if_pos hP]
  by_cases hU : c = C 'U'
  · simp only [intr, LineState.type, if_neg hP, if_pos hU]
    exact view_killLine _ rfl h.no_newline
  by_cases hH : c = C 'H' ∨ c = '\x7f'.toUInt8
  · simp only [intr, LineState.type, if_neg hP, if_neg hU, if_pos hH]
    split_ifs with he
    · exact view_erase he
    · -- an empty line stays empty
      have hnil : cs.line = [] := by
        rw [← List.length_eq_zero_iff, length_line, ← e_eq_w_iff]
        exact not_not.1 he
      simp [view, hnil]
  by_cases hroom : c ≠ 0 ∧ cs.ready + cs.editing < INPUT_BUF
  · have hguard : c ≠ 0 ∧ cs.e - cs.r < INPUT_BUF.toUInt32 :=
      ⟨hroom.1, (sub_r_lt_iff cs hb).2 hroom.2⟩
    have hroom' : c ≠ 0 ∧ cs.view.ready.length + cs.view.line.length < INPUT_BUF := by
      simpa [view] using hroom
    simp only [intr, LineState.type, if_neg hP, if_neg hU, if_neg hH, if_pos hguard,
      if_pos hroom']
    exact view_put_commit _ hroom.2
  · have hroom' : ¬(c ≠ 0 ∧ cs.e - cs.r < INPUT_BUF.toUInt32) := by
      rwa [sub_r_lt_iff cs hb]
    have hroom'' : ¬(c ≠ 0 ∧ cs.view.ready.length + cs.view.line.length < INPUT_BUF) := by
      simpa [view] using hroom
    simp only [intr, LineState.type, if_neg hP, if_neg hU, if_neg hH, if_neg hroom',
      if_neg hroom'']

/-- `consoleintr` keeps the ring's invariant. -/
theorem Inv.intr {cs : Cons} (h : cs.Inv) (c : UInt8) : (cs.intr c).Inv := by
  show (cs.intr c).view.Ok
  rw [view_intr h c]
  exact LineState.Ok.type h c

/-- `^U`'s loop only moves `e`. -/
theorem killLine_eq (cs : Cons) (n : ℕ) : ∃ e, cs.killLine n = { cs with e } := by
  induction n generalizing cs with
  | zero => exact ⟨cs.e, rfl⟩
  | succ n ih =>
    rw [killLine]
    split_ifs
    · exact ih cs.erase
    · exact ⟨cs.e, rfl⟩

/-- `consoleintr` either leaves `w` and the committed bytes where they are, or commits a line
that a byte joined in a ring with room. -/
theorem intr_cases {cs : Cons} (h : cs.Inv) (c : UInt8) :
    ((cs.intr c).w = cs.w ∧ (cs.intr c).input = cs.input) ∨
      ∃ c', cs.ready + cs.editing < INPUT_BUF ∧ cs.intr c = (cs.put c').commit := by
  by_cases hP : c = C 'P'
  · rw [intr, if_pos hP]
    exact .inl ⟨rfl, rfl⟩
  by_cases hU : c = C 'U'
  · rw [intr, if_neg hP, if_pos hU]
    obtain ⟨e, he⟩ := killLine_eq cs (cs.e - cs.w).toNat
    rw [he]
    exact .inl ⟨rfl, rfl⟩
  by_cases hH : c = C 'H' ∨ c = '\x7f'.toUInt8
  · rw [intr, if_neg hP, if_neg hU, if_pos hH]
    split_ifs
    · exact .inl ⟨rfl, rfl⟩
    · exact .inl ⟨rfl, rfl⟩
  by_cases hroom : c ≠ 0 ∧ cs.e - cs.r < INPUT_BUF.toUInt32
  · have hroom' := (sub_r_lt_iff cs h.bounded).1 hroom.2
    rw [intr, if_neg hP, if_neg hU, if_neg hH, if_pos hroom]
    dsimp only
    generalize (if c = '\r'.toUInt8 then '\n'.toUInt8 else c) = c'
    split_ifs
    · exact .inr ⟨c', hroom', rfl⟩
    · -- the byte joins the line without committing it
      have hput := view_put c' hroom'
      simp only [view, LineState.mk.injEq] at hput
      exact .inl ⟨rfl, hput.1⟩
  · rw [intr, if_neg hP, if_neg hU, if_neg hH, if_neg hroom]
    exact .inl ⟨rfl, rfl⟩

/-- The bytes `consoleintr` moves `w` past join the committed bytes. -/
theorem input_intr {cs : Cons} (h : cs.Inv) (c : UInt8) :
    (cs.intr c).input =
      cs.input ++ Ring.window (cs.intr c).buf cs.w.toNat ((cs.intr c).w - cs.w).toNat := by
  rcases intr_cases h c with ⟨hw, hin⟩ | ⟨c', hroom, heq⟩
  · rw [hin, hw, UInt32.sub_self, UInt32.toNat_zero, Ring.window_zero, List.append_nil]
  · have hput := view_put c' hroom
    simp only [view, LineState.mk.injEq] at hput
    have hlen : (cs.put c').ready + (cs.put c').editing ≤ INPUT_BUF := by
      rw [show (cs.put c').ready = cs.ready from rfl, editing_put c' hroom]
      omega
    have hcommit := view_commit hlen
    simp only [view, LineState.mk.injEq] at hcommit
    -- the window `w` moved past is the line just committed
    rw [heq, hcommit.1, hput.1]
    rfl

end Cons

namespace ConsSys

variable {ι : Type} [DecidableEq ι]

/-- The invariant of the console: the ring keeps its invariant, the bytes `w` moved past are
the bytes `r` moved past followed by the committed bytes still in the ring, and the bytes
readers received are a subsequence of the bytes `r` moved past. -/
structure LineInv (s : ConsSys ι) : Prop where
  ring : s.cons.Inv
  fifo : s.committed = s.consumed ++ s.cons.input
  delivered_sublist : s.delivered.Sublist s.consumed

omit [DecidableEq ι] in
theorem lineInv_init : LineInv (init : ConsSys ι) := by
  have hready : (init : ConsSys ι).cons.ready = 0 := by simp [init, Cons.ready]
  have hedit : (init : ConsSys ι).cons.editing = 0 := by simp [init, Cons.editing]
  have hview : (init : ConsSys ι).cons.view = ⟨[], []⟩ := by
    simp only [Cons.view, Cons.input, Cons.line, hready, hedit, Ring.window_zero]
  refine ⟨?_, ?_, List.Sublist.slnil⟩
  · show (init : ConsSys ι).cons.view.Ok
    rw [hview]
    exact ⟨by simp, List.not_mem_nil⟩
  · show [] = [] ++ (init : ConsSys ι).cons.view.ready
    rw [hview]
    rfl

section Step

variable {s s' : ConsSys ι}

omit [DecidableEq ι] in
/-- A step that leaves the ring and the records keeps the invariant. -/
theorem LineInv.congr (h : LineInv s) (hc : s'.cons = s.cons) (hm : s'.committed = s.committed)
    (hu : s'.consumed = s.consumed) (hd : s'.delivered = s.delivered) : LineInv s' where
  ring := hc ▸ h.ring
  fifo := by rw [hc, hm, hu, h.fifo]
  delivered_sublist := hd ▸ hu ▸ h.delivered_sublist

omit [DecidableEq ι] in
/-- Taking the oldest committed byte, delivered or not, keeps the invariant. -/
theorem LineInv.take (h : LineInv s) (hr : s.cons.r ≠ s.cons.w)
    (hc : s'.cons = { s.cons with r := s.cons.r + 1 }) (hm : s'.committed = s.committed)
    (hu : s'.consumed = s.consumed ++ [s.cons.buf (Cons.slot s.cons.r)])
    (hd : s'.delivered = s.delivered ∨
      s'.delivered = s.delivered ++ [s.cons.buf (Cons.slot s.cons.r)]) : LineInv s' where
  ring := hc ▸ h.ring.take hr
  fifo := by
    rw [hc, hm, hu, h.fifo, Cons.input_take hr, List.append_assoc, List.singleton_append]
  delivered_sublist := by
    rcases hd with hd | hd
    · rw [hd, hu]
      exact h.delivered_sublist.trans (List.sublist_append_left _ _)
    · rw [hd, hu]
      exact h.delivered_sublist.append_right _

omit [DecidableEq ι] in
/-- `consoleintr` keeps the invariant: what it commits joins both sides of `fifo`. -/
theorem LineInv.intr (h : LineInv s) (c : UInt8) :
    LineInv { s with cons := s.cons.intr c,
                     committed := s.committed ++
                       Ring.window (s.cons.intr c).buf s.cons.w.toNat
                         ((s.cons.intr c).w - s.cons.w).toNat } where
  ring := h.ring.intr c
  fifo := by
    show _ = _ ++ (s.cons.intr c).input
    rw [Cons.input_intr h.ring c, h.fifo, List.append_assoc]
  delivered_sublist := h.delivered_sublist

/-- One iteration of `consoleread` keeps the invariant. -/
theorem lineInv_readStep {p : ι} {oks : List Bool} {i : ℕ} (h : LineInv s)
    (hs : s.readStep p oks i = .next s') : LineInv s' := by
  cases oks with
  | nil =>
    cases hs
    exact h.congr rfl rfl rfl rfl
  | cons ok oks =>
    simp only [readStep] at hs
    split_ifs at hs with hr hk hD hi hok hnl
    · cases hs
      exact h.congr rfl rfl rfl rfl
    · -- a `^D` after some bytes is put back
      cases hs
      exact h.congr (by simp) rfl rfl rfl
    · cases hs
      exact h.take hr rfl rfl rfl (.inl rfl)
    · cases hs
      exact h.take hr rfl rfl rfl (.inr rfl)
    · cases hs
      exact h.take hr rfl rfl rfl (.inr rfl)
    · cases hs
      exact h.take hr rfl rfl rfl (.inl rfl)

/-- Each step keeps the invariant. -/
theorem lineInv_step {a : ConsAct ι} (h : LineInv s) (hs : s.step a = .next s') : LineInv s' := by
  cases a with
  | intr c =>
    cases hs
    exact h.intr c
  | read p oks =>
    simp only [step] at hs
    split at hs
    · cases hs
      exact h.congr rfl rfl rfl rfl
    · cases hs
  | run p =>
    simp only [step] at hs
    split at hs
    · cases hs
    · exact lineInv_readStep h hs
  | kill p =>
    cases hs
    exact h.congr rfl rfl rfl rfl

/-- The invariant holds in every state the console reaches from boot. -/
theorem lineInv_of_reachable (hs : Reachable step init s) : LineInv s :=
  hs.inv LineInv lineInv_init fun _ _ _ _ h hstep => lineInv_step h hstep

end Step

/-- In every state the console reaches from boot, `r ≤ w ≤ e ≤ r + INPUT_BUF` as unsigned
differences, the bytes `w` moved past are those `r` moved past followed by the committed
bytes still in the ring, the bytes readers received are a subsequence of those `r` moved
past, and a byte from the UART acts on the committed bytes and the line as typing it does. -/
theorem console_line_discipline {s : ConsSys ι} (hs : Reachable step init s) (c : UInt8) :
    (s.cons.w - s.cons.r).toNat ≤ (s.cons.e - s.cons.r).toNat ∧
      (s.cons.e - s.cons.r).toNat ≤ INPUT_BUF ∧
      s.committed = s.consumed ++ s.cons.input ∧ s.delivered.Sublist s.consumed ∧
      (s.cons.intr c).view = s.cons.view.type c := by
  have h := lineInv_of_reachable hs
  have hb := h.ring.bounded
  have hsub := Cons.sub_r_toNat s.cons hb
  refine ⟨?_, ?_, h.fifo, h.delivered_sublist, Cons.view_intr h.ring c⟩
  · rw [hsub]
    exact Nat.le_add_right _ _
  · rw [hsub]
    exact hb

/-- After "h", Return and "i" are typed, the line "h\n" is committed and a backspace erases
the 'i' of the line being edited. -/
theorem console_line_discipline_after_line :
    ∃ s : ConsSys (Fin 1), Reachable step init s ∧
      s.committed = ['h'.toUInt8, '\n'.toUInt8] ∧
      (s.cons.intr (C 'H')).view = s.cons.view.type (C 'H') := by
  have hs := Reachable.of_run .init (show run step (init : ConsSys (Fin 1))
    [.intr 'h'.toUInt8, .intr '\r'.toUInt8, .intr 'i'.toUInt8] = .next _ from rfl)
  exact ⟨_, hs, rfl, (console_line_discipline hs (C 'H')).2.2.2.2⟩

/-- `consoleread` takes a byte out of the ring before it tries `copyout`, so a read whose
buffer faults consumes a byte and returns 0, and the byte reaches no reader. The user types
"a" and Return; process 0 reads into a buffer that faults and takes the 'a'; process 1
reads the newline. Both bytes were committed and consumed and the ring is empty, but only
the newline was delivered. -/
theorem consoleread_drops_byte_on_copyout_fault :
    ∃ s : ConsSys (Fin 2), Reachable step init s ∧
      s.committed = ['a'.toUInt8, '\n'.toUInt8] ∧ s.consumed = ['a'.toUInt8, '\n'.toUInt8] ∧
      s.delivered = ['\n'.toUInt8] ∧ s.cons.input = [] ∧ s.ret 0 = 0 ∧ s.ret 1 = 1 :=
  ⟨_, Reachable.of_run .init (show run step (init : ConsSys (Fin 2))
    [.intr 'a'.toUInt8, .intr '\r'.toUInt8, .read 0 [false], .run 0, .read 1 [true, true],
      .run 1] = .next _ from rfl), rfl, rfl, rfl, rfl, rfl, rfl⟩

end ConsSys

end Xv6
