import Xv6.Lib.Ring
import Xv6.Lib.Reach

/-!
# The UART's transmit buffer (`kernel/uart.c`)

`uartputc(c)` stores `c` at `uart_tx_buf[uart_tx_w % UART_TX_BUF_SIZE]`, advances
`uart_tx_w` and calls `uartstart()`, unless the buffer is full (`uart_tx_w == uart_tx_r +
UART_TX_BUF_SIZE`), where it sleeps and tests again when woken, or the kernel has panicked,
where it spins. `uartstart()` sends bytes from `uart_tx_r` on to the transmit holding
register THR while the buffer is not empty and the line status register says THR is idle;
`uartintr()` calls it, after reading the input. The counters are `uint64` and wrap as in C.

Everything here runs under `uart_tx_lock`, so each call is one step. The answers the
device gives to `ReadReg(LSR) & LSR_TX_IDLE`, one per round of `uartstart`'s loop, are
given with the step; when they run out, THR stays busy. `consolewrite` hands `uartputc` a
`char`, so the argument is a byte. `thr` and `stored` are not kernel state: they record the
bytes written to THR and the bytes `uartputc` stored, in order.
Source: kernel/uart.c:40-48, kernel/uart.c:86-109, kernel/uart.c:137-194
-/

set_option autoImplicit false

namespace Xv6.Uart

open TransitionSystem

/-- `UART_TX_BUF_SIZE`. -/
def UART_TX_BUF_SIZE : ℕ := 32

instance : NeZero UART_TX_BUF_SIZE := ⟨by decide⟩

/-- The transmit side of the driver, with the records described above. -/
structure UartTx where
  buf : Fin UART_TX_BUF_SIZE → UInt8
  w : UInt64
  r : UInt64
  panicked : Bool
  thr : List UInt8
  stored : List UInt8

/-- The state after boot: the buffer and counters are zeroed globals. -/
def UartTx.init : UartTx := ⟨fun _ => 0, 0, 0, false, [], []⟩

/-- The loop of `uartstart()`, `lsr` holding the successive answers to "is THR idle?". -/
def uartstart : List Bool → UartTx → UartTx
  | [], u => u
  | idle :: lsr, u =>
    if u.w = u.r then u
    else if !idle then u
    else
      uartstart lsr { u with r := u.r + 1,
                             thr := u.thr ++ [u.buf (Ring.slot UART_TX_BUF_SIZE u.r.toNat)] }

/-- `uartputc(c)`: `none` where the call cannot finish now. -/
def uartputc (c : UInt8) (lsr : List Bool) (u : UartTx) : Option UartTx :=
  if u.panicked then none
  else if u.w = u.r + UART_TX_BUF_SIZE.toUInt64 then none
  else
    some (uartstart lsr { u with
      buf := Function.update u.buf (Ring.slot UART_TX_BUF_SIZE u.w.toNat) c
      w := u.w + 1
      stored := u.stored ++ [c] })

/-- The steps: a call of `uartputc`, a transmit interrupt, or a `panic` elsewhere in the
kernel, which sets `panicked`. -/
inductive UartAct where
  | putc (c : UInt8) (lsr : List Bool)
  | intr (lsr : List Bool)
  | panic

/-- One step of the driver. -/
def step (u : UartTx) : UartAct → Outcome UartTx
  | .putc c lsr =>
    match uartputc c lsr u with
    | some u' => .next u'
    | none => .blocked
  | .intr lsr => .next (uartstart lsr u)
  | .panic => .next { u with panicked := true }

end Xv6.Uart
