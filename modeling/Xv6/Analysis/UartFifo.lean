import Xv6.Model.Uart

/-!
# The UART transmit buffer is a FIFO

The counters `uart_tx_w` and `uart_tx_r` are the numbers of bytes stored and sent, reduced
modulo `2^64` (`TxInv.w_eq`, `TxInv.r_eq`). The sent bytes are never more than the stored
ones nor more than 32 behind them, and the bytes written to THR followed by the buffer's
contents are the bytes `uartputc` stored (`TxInv.fifo`). Because the two counts are at most
32 apart, the code's tests `uart_tx_w == uart_tx_r` and `uart_tx_w == uart_tx_r + 32` read
them right even after the counters wrap, and since 32 divides `2^64` the wrapped counter
names the right cell.

So in every reachable state `uart_tx_w - uart_tx_r` is at most 32 in `uint64` arithmetic,
THR has received exactly the bytes stored before the buffer's contents, none lost, none
twice, and `uart_tx_r <= uart_tx_w <= uart_tx_r + 32` holds as long as fewer than `2^64`
bytes have been stored (`uart_tx_fifo`). After `2^64 - 1` bytes sent, one more byte
wraps `uart_tx_w` to 0 while `uart_tx_r` is `2^64 - 1` (`uart_tx_w_wraps_below_r`).
Source: kernel/uart.c:86-109, kernel/uart.c:137-168
-/

set_option autoImplicit false

namespace Xv6.Uart

open TransitionSystem

/-- The bytes the buffer holds, oldest first: `uart_tx_w - uart_tx_r` of them from
`uart_tx_r` on. -/
def UartTx.queue (u : UartTx) : List UInt8 := Ring.window u.buf u.r.toNat (u.w - u.r).toNat

/-- The counters count the records, and the records stand in FIFO order. -/
structure TxInv (u : UartTx) : Prop where
  w_eq : u.w = UInt64.ofNat u.stored.length
  r_eq : u.r = UInt64.ofNat u.thr.length
  sent_le : u.thr.length ≤ u.stored.length
  le_size : u.stored.length ≤ u.thr.length + UART_TX_BUF_SIZE
  fifo : u.thr ++ Ring.window u.buf u.thr.length (u.stored.length - u.thr.length) = u.stored

/-! ## Counters -/

theorem toNat_ofNat (a : ℕ) : (UInt64.ofNat a).toNat = a % 2 ^ 64 := UInt64.toNat_ofNat'

/-- Two counts at most 32 apart are equal when their `uint64` values are. -/
theorem ofNat_eq_ofNat_add {a b k : ℕ} (hba : b ≤ a) (hab : a ≤ b + UART_TX_BUF_SIZE)
    (hk : k ≤ UART_TX_BUF_SIZE) :
    UInt64.ofNat a = UInt64.ofNat b + k.toUInt64 ↔ a = b + k := by
  rw [← UInt64.toNat_inj, UInt64.toNat_add, toNat_ofNat, toNat_ofNat, Nat.toUInt64_eq,
    toNat_ofNat]
  simp only [UART_TX_BUF_SIZE] at hab hk
  omega

variable {u : UartTx}

theorem TxInv.empty_iff (h : TxInv u) : u.w = u.r ↔ u.stored.length = u.thr.length := by
  rw [h.w_eq, h.r_eq]
  have := ofNat_eq_ofNat_add h.sent_le h.le_size (Nat.zero_le _)
  simpa using this

theorem TxInv.full_iff (h : TxInv u) :
    u.w = u.r + UART_TX_BUF_SIZE.toUInt64 ↔ u.stored.length = u.thr.length + UART_TX_BUF_SIZE := by
  rw [h.w_eq, h.r_eq]
  exact ofNat_eq_ofNat_add h.sent_le h.le_size le_rfl

/-- `uart_tx_w - uart_tx_r` is the number of bytes stored and not sent. -/
theorem TxInv.count_eq (h : TxInv u) : (u.w - u.r).toNat = u.stored.length - u.thr.length := by
  have hle := h.le_size
  rw [h.w_eq, h.r_eq, UInt64.toNat_sub, toNat_ofNat, toNat_ofNat]
  simp only [UART_TX_BUF_SIZE] at hle
  have := h.sent_le
  omega

/-- A counter names the cell of its count. -/
theorem slot_toNat (a : ℕ) :
    Ring.slot UART_TX_BUF_SIZE (UInt64.ofNat a).toNat = Ring.slot UART_TX_BUF_SIZE a := by
  rw [toNat_ofNat]
  exact Ring.slot_mod_of_dvd (by decide) a

theorem TxInv.queue_eq (h : TxInv u) :
    u.queue = Ring.window u.buf u.thr.length (u.stored.length - u.thr.length) := by
  rw [UartTx.queue, h.count_eq]
  apply Ring.window_congr_start
  rw [h.r_eq, toNat_ofNat]
  exact Nat.mod_mod_of_dvd _ (by decide)

/-! ## Steps -/

theorem TxInv.init : TxInv UartTx.init := ⟨rfl, rfl, le_rfl, Nat.zero_le _, rfl⟩

/-- One byte sent: the oldest byte of the buffer goes to THR. -/
theorem TxInv.send (h : TxInv u) (hne : u.w ≠ u.r) :
    TxInv { u with r := u.r + 1, thr := u.thr ++ [u.buf (Ring.slot UART_TX_BUF_SIZE u.r.toNat)] } := by
  have hlt : u.thr.length < u.stored.length := by
    have := h.sent_le
    have := mt h.empty_iff.2 hne
    omega
  obtain ⟨len, hlen⟩ : ∃ len, u.stored.length - u.thr.length = len + 1 := ⟨_, (Nat.succ_pred_eq_of_pos (by omega)).symm⟩
  refine ⟨h.w_eq, ?_, ?_, ?_, ?_⟩
  · simp only [List.length_append, List.length_singleton, h.r_eq, UInt64.ofNat_add, UInt64.ofNat_one]
  · simp only [List.length_append, List.length_singleton]
    omega
  · simp only [List.length_append, List.length_singleton]
    have := h.le_size
    omega
  · have hf := h.fifo
    rw [hlen, Ring.window_succ_start] at hf
    have hslot : Ring.slot UART_TX_BUF_SIZE u.r.toNat = Ring.slot UART_TX_BUF_SIZE u.thr.length := by
      rw [h.r_eq, slot_toNat]
    simp only [List.length_append, List.length_singleton, List.append_assoc, List.singleton_append]
    rw [hslot, show u.stored.length - (u.thr.length + 1) = len by omega]
    exact hf

/-- `uartstart` keeps the invariant, one byte sent per round. -/
theorem uartstart_inv : ∀ (lsr : List Bool) (u : UartTx), TxInv u → TxInv (uartstart lsr u) := by
  intro lsr
  induction lsr with
  | nil => intro u h; exact h
  | cons idle lsr ih =>
    intro u h
    rw [uartstart]
    by_cases hempty : u.w = u.r
    · rw [if_pos hempty]
      exact h
    · rw [if_neg hempty]
      cases idle
      · exact h
      · -- THR is idle: one byte goes out and the loop goes on
        exact ih _ (h.send hempty)

/-- One byte stored at the cell past the buffer's contents. -/
theorem TxInv.store (h : TxInv u) (c : UInt8)
    (hfull : u.stored.length ≠ u.thr.length + UART_TX_BUF_SIZE) :
    TxInv { u with buf := Function.update u.buf (Ring.slot UART_TX_BUF_SIZE u.w.toNat) c,
                   w := u.w + 1, stored := u.stored ++ [c] } := by
  have hlt : u.stored.length - u.thr.length < UART_TX_BUF_SIZE := by
    have := h.le_size
    have := h.sent_le
    omega
  refine ⟨?_, h.r_eq, ?_, ?_, ?_⟩
  · simp only [List.length_append, List.length_singleton, h.w_eq, UInt64.ofNat_add, UInt64.ofNat_one]
  · simp only [List.length_append, List.length_singleton]
    have := h.sent_le
    omega
  · simp only [List.length_append, List.length_singleton]
    omega
  · have hslot : Ring.slot UART_TX_BUF_SIZE u.w.toNat =
        Ring.slot UART_TX_BUF_SIZE (u.thr.length + (u.stored.length - u.thr.length)) := by
      rw [h.w_eq, slot_toNat, Nat.add_sub_cancel' h.sent_le]
    simp only [List.length_append, List.length_singleton]
    rw [hslot, show u.stored.length + 1 - u.thr.length = u.stored.length - u.thr.length + 1 by
      have := h.sent_le
      omega, Ring.window_push _ _ _ _ hlt, ← List.append_assoc, h.fifo]

theorem uartputc_inv {c : UInt8} {lsr : List Bool} {u' : UartTx} (h : TxInv u)
    (hput : uartputc c lsr u = some u') : TxInv u' := by
  unfold uartputc at hput
  split at hput
  · cases hput
  · split at hput
    · cases hput
    · next hfull =>
      cases hput
      exact uartstart_inv lsr _ (h.store c fun heq => hfull (h.full_iff.2 heq))

theorem step_inv {a : UartAct} {u' : UartTx} (h : TxInv u) (hs : step u a = .next u') :
    TxInv u' := by
  cases a with
  | putc c lsr =>
    cases hput : uartputc c lsr u with
    | none => simp [step, hput] at hs
    | some u'' =>
      simp only [step, hput, Outcome.next.injEq] at hs
      subst hs
      exact uartputc_inv h hput
  | intr lsr =>
    simp only [step, Outcome.next.injEq] at hs
    subst hs
    exact uartstart_inv lsr u h
  | panic =>
    simp only [step, Outcome.next.injEq] at hs
    subst hs
    exact ⟨h.w_eq, h.r_eq, h.sent_le, h.le_size, h.fifo⟩

theorem txInv_of_reachable (hu : Reachable step UartTx.init u) : TxInv u :=
  hu.inv TxInv TxInv.init fun _ _ _ _ h hs => step_inv h hs

/-- Over every interleaving of `uartputc`, `uartintr` and the transmitter's answers,
`uart_tx_w - uart_tx_r` stays within the buffer, the bytes written to THR followed by the
buffer's contents are the bytes stored, and the two counters stand in order while fewer
than `2^64` bytes have been stored. -/
theorem uart_tx_fifo (hu : Reachable step UartTx.init u) :
    (u.w - u.r).toNat ≤ UART_TX_BUF_SIZE ∧ u.thr ++ u.queue = u.stored ∧
      (u.stored.length < 2 ^ 64 → u.r ≤ u.w ∧ u.w.toNat ≤ u.r.toNat + UART_TX_BUF_SIZE) := by
  have h := txInv_of_reachable hu
  refine ⟨?_, by rw [h.queue_eq, h.fifo], fun hlen => ?_⟩
  · rw [h.count_eq]
    have := h.le_size
    omega
  · have hw : u.w.toNat = u.stored.length := by
      rw [h.w_eq, toNat_ofNat, Nat.mod_eq_of_lt hlen]
    have hr : u.r.toNat = u.thr.length := by
      rw [h.r_eq, toNat_ofNat, Nat.mod_eq_of_lt (by have := h.sent_le; omega)]
    rw [UInt64.le_iff_toNat_le, hw, hr]
    exact ⟨h.sent_le, h.le_size⟩

/-- `A` and `B` are stored while THR is busy, and an interrupt sends `A` before THR is busy
again: THR has had `A`, and the buffer holds `B`. -/
theorem uart_tx_fifo_after_interrupt :
    ∃ u, Reachable step UartTx.init u ∧ u.thr = [65] ∧ u.queue = [66] ∧
      ((u.w - u.r).toNat ≤ UART_TX_BUF_SIZE ∧ u.thr ++ u.queue = u.stored ∧
        (u.stored.length < 2 ^ 64 → u.r ≤ u.w ∧ u.w.toNat ≤ u.r.toNat + UART_TX_BUF_SIZE)) := by
  obtain ⟨u, hu, htest⟩ := Reachable.of_run_nextSat .init
    (show (run step UartTx.init [.putc 65 [false], .putc 66 [false], .intr [true, false]]).nextSat
      (fun u => u.thr == [65] && u.queue == [66]) = true by decide)
  simp only [Bool.and_eq_true, beq_iff_eq] at htest
  exact ⟨u, hu, htest.1, htest.2, uart_tx_fifo hu⟩

/-! ## The counters wrap -/

/-- A byte stored while THR is idle goes straight out. -/
theorem step_putc_idle {u : UartTx} {n : ℕ} (hw : u.w = UInt64.ofNat n) (hr : u.r = UInt64.ofNat n)
    (hp : u.panicked = false) (c : UInt8) :
    ∃ u', step u (.putc c [true]) = .next u' ∧ u'.w = UInt64.ofNat (n + 1) ∧
      u'.r = UInt64.ofNat (n + 1) ∧ u'.panicked = false := by
  have hnf : ¬ u.w = u.r + UART_TX_BUF_SIZE.toUInt64 := by
    rw [hw, hr]
    intro h
    have := congrArg UInt64.toNat h
    rw [UInt64.toNat_add, toNat_ofNat] at this
    simp [UART_TX_BUF_SIZE] at this
    omega
  have hne : ¬ UInt64.ofNat n + 1 = UInt64.ofNat n := by
    intro h
    have := congrArg UInt64.toNat h
    rw [UInt64.toNat_add, toNat_ofNat] at this
    simp at this
    omega
  simp only [step, uartputc, hp, hnf, if_false, Bool.false_eq_true]
  refine ⟨_, rfl, ?_⟩
  simp only [uartstart, hw, hr, hne, if_false, Bool.not_true, Bool.false_eq_true]
  simp [UInt64.ofNat_add]

/-- Every count of bytes sent one at a time is reached, both counters at that count. -/
theorem reach_count : ∀ n : ℕ, ∃ u, Reachable step UartTx.init u ∧ u.w = UInt64.ofNat n ∧
    u.r = UInt64.ofNat n ∧ u.panicked = false := by
  intro n
  induction n with
  | zero => exact ⟨_, .init, rfl, rfl, rfl⟩
  | succ n ih =>
    obtain ⟨u, hu, hw, hr, hp⟩ := ih
    obtain ⟨u', hs, hw', hr', hp'⟩ := step_putc_idle hw hr hp 0
    exact ⟨u', hu.step _ hs, hw', hr', hp'⟩

/-- After `2^64 - 1` bytes have gone out, one more byte stored while THR is busy wraps
`uart_tx_w` to 0, below `uart_tx_r`. -/
theorem uart_tx_w_wraps_below_r : ∃ u, Reachable step UartTx.init u ∧ ¬ u.r ≤ u.w := by
  obtain ⟨u, hu, hw, hr, hp⟩ := reach_count (2 ^ 64 - 1)
  have hnf : ¬ u.w = u.r + UART_TX_BUF_SIZE.toUInt64 := by
    rw [hw, hr]
    decide
  have hs : step u (.putc 0 []) = .next { u with
      buf := Function.update u.buf (Ring.slot UART_TX_BUF_SIZE u.w.toNat) 0
      w := u.w + 1
      stored := u.stored ++ [0] } := by
    simp only [step, uartputc, hp, hnf, if_false, Bool.false_eq_true, uartstart]
  refine ⟨_, hu.step _ hs, ?_⟩
  show ¬ u.r ≤ u.w + 1
  rw [hw, hr]
  decide

end Xv6.Uart
