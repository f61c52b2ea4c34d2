import Xv6.Lib.Move

/-!
# `memmove` and `strchr` of the user library (`user/ulib.c`)

The user `memmove(vdst, vsrc, n)` takes an `int n` and tests only `src > dst`: above the
destination it copies upward, and otherwise downward from `dst + n` and `src + n`, the
`int` added to the pointers sign-extended. Both loops are `while(n-- > 0)`, which copies
nothing for `n <= 0`.

`strchr(s, c)` walks the string `s` up to its NUL and returns the first position holding
`c`, or 0; a NUL `c` is never found, since the loop stops before comparing it.
Source: user/ulib.c:46-53, user/ulib.c:98-116
-/

set_option autoImplicit false

namespace Xv6.User

/-- The number of rounds of `while(n-- > 0)` for an `int n`. -/
def rounds (n : Int32) : ℕ := n.toInt.toNat

/-- `memmove(vdst, vsrc, n)`: the memory after it, and the `vdst` it returns. -/
def memmove (m : Mem) (vdst vsrc : UInt64) (n : Int32) : Mem × UInt64 :=
  if vsrc > vdst then (Mem.copyUp (rounds n) m vdst vsrc, vdst)
  else
    (Mem.copyDown (rounds n) m (vdst + UInt64.ofInt n.toInt) (vsrc + UInt64.ofInt n.toInt), vdst)

/-- `strchr(s, c)` on the bytes `s` before the string's NUL: the offset of the first `c`,
or `none` for the null pointer. -/
def strchr : List Char → Char → Option ℕ
  | [], _ => none
  | x :: s, c => if x = c then some 0 else (strchr s c).map (· + 1)

end Xv6.User
