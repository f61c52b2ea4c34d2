import Mathlib

/-!
# `printf` of the user library (`user/printf.c`)

`vprintf` walks the format with a state that is 0 or `'%'` and writes one byte per
`putc`; the model returns the bytes written to `fd`, in order. A byte is a `Char` below
256, so `fmt[i] & 0xff` is the character itself, and the format is the list of its bytes
before the NUL.

A variadic argument is the 64-bit slot the RISC-V calling convention passes it in, or,
for `%s`, the string it points to (`none` for a null pointer). `va_arg(ap, int)` and
`va_arg(ap, uint)` read the low 32 bits of the slot, `va_arg(ap, uint64)` all of it.
`printint` takes its number as an `int`: the `uint64` that `%l` reads is converted to
`int` on the way in, and `-xx` negates in `int`, so that `INT_MIN` stays `INT_MIN`.
Source: user/printf.c:1-95
-/

set_option autoImplicit false

namespace Xv6.User

/-- `digits[]`. -/
def digits : List Char :=
  ['0', '1', '2', '3', '4', '5', '6', '7', '8', '9', 'A', 'B', 'C', 'D', 'E', 'F']

/-- A variadic argument: a slot, or the string a `char*` slot points to. -/
inductive Arg where
  | word (w : UInt64)
  | str (s : Option (List Char))
  deriving DecidableEq, Repr

/-- `va_arg(ap, uint64)`. A string where a number is read gives 0: the model does not
keep the address of a string, so what such a mismatched call prints is left out. -/
def Arg.toUInt64 : Arg → UInt64
  | .word w => w
  | .str _ => 0

/-- `va_arg(ap, int)`: the low 32 bits of the slot. -/
def Arg.toInt (a : Arg) : Int32 := a.toUInt64.toUInt32.toInt32

/-- `va_arg(ap, char*)`; a number where a string is read is taken as a null pointer. -/
def Arg.toStr : Arg → Option (List Char)
  | .str s => s
  | .word _ => none

/-- `va_arg` of the next argument; past the end of the list the slot reads as 0. -/
def nextArg : List Arg → Arg × List Arg
  | [] => (.word 0, [])
  | a :: rest => (a, rest)

/-- The `do`-`while` loop of `printint`: the digits of `x` in `base`, least significant
first, as `buf[0..i)` holds them. `fuel` only bounds the recursion; `printint` gives it
`x + 1`, more than the loop can run. -/
def printintLoop (base : ℕ) : ℕ → ℕ → List Char
  | 0, _ => []
  | fuel + 1, x =>
    digits.getD (x % base) '0' :: if x / base ≠ 0 then printintLoop base fuel (x / base) else []

/-- `printint(fd, xx, base, sgn)`: the digits, a `-` where `sgn` and `xx < 0`, printed
from `buf[i-1]` down. -/
def printint (xx : Int32) (base : ℕ) (sgn : Bool) : List Char :=
  let neg := sgn && decide (xx < 0)
  let x : UInt32 := if neg then (-xx).toUInt32 else xx.toUInt32
  (printintLoop base (x.toNat + 1) x.toNat ++ if neg then ['-'] else []).reverse

/-- The loop of `printptr`: the top nibble of `x`, then `x <<= 4`, `n` times. -/
def printptrLoop : ℕ → UInt64 → List Char
  | 0, _ => []
  | n + 1, x => digits.getD (x >>> 60).toNat '0' :: printptrLoop n (x <<< 4)

/-- `printptr`: `0x` and the `sizeof(uint64) * 2` hex digits of `x`. -/
def printptr (x : UInt64) : List Char := ['0', 'x'] ++ printptrLoop 16 x

/-- `%s`: the bytes of the string, or of `"(null)"` for a null pointer. -/
def printstr (s : Option (List Char)) : List Char := s.getD ['(', 'n', 'u', 'l', 'l', ')']

/-- One conversion `%c` with the argument list `args`: the bytes written and the
arguments left. -/
def conversion (c : Char) (args : List Arg) : List Char × List Arg :=
  let (a, rest) := nextArg args
  if c = 'd' then (printint a.toInt 10 true, rest)
  else if c = 'l' then (printint a.toUInt64.toUInt32.toInt32 10 false, rest)
  else if c = 'x' then (printint a.toInt 16 false, rest)
  else if c = 'p' then (printptr a.toUInt64, rest)
  else if c = 's' then (printstr a.toStr, rest)
  else if c = 'c' then ([Char.ofNat (a.toUInt64.toNat % 256)], rest)
  else if c = '%' then (['%'], args)
  -- an unknown `%` sequence is printed as it stands
  else (['%', c], args)

/-- The loop of `vprintf` from `fmt[i]` on; `pct` is `state == '%'`. -/
def vprintfLoop : List Char → Bool → List Arg → List Char
  | [], _, _ => []
  | c :: fmt, false, args =>
    if c = '%' then vprintfLoop fmt true args else c :: vprintfLoop fmt false args
  | c :: fmt, true, args =>
    let (out, rest) := conversion c args
    out ++ vprintfLoop fmt false rest

/-- `vprintf(fd, fmt, ap)`: the bytes written to `fd`. -/
def vprintf (fmt : List Char) (args : List Arg) : List Char := vprintfLoop fmt false args

end Xv6.User
