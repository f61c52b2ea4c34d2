import Xv6.Lib.Move

/-!
# `memmove` and `safestrcpy` of the kernel (`kernel/string.c`)

The kernel's `memmove(dst, src, n)` with `uint n`: nothing for `n == 0`; otherwise, when
the source starts below the destination and reaches past its start (`s < d && s + n > d`,
in 64-bit pointer arithmetic), it copies downward from the ends of the ranges, and in every
other case upward. Both `while(n-- > 0)` loops are `Mem.copyDown` and `Mem.copyUp`, which
read the memory as the loop's earlier writes left it.

`safestrcpy(s, t, n)` copies between fixed arrays of the kernel's structures, such as the
16 bytes of `struct proc`'s `name`: an array of `N` bytes is a map from `Fin N`.
Source: kernel/string.c:30-51, kernel/string.c:84-96
-/

set_option autoImplicit false

namespace Xv6

/-- `memmove(dst, src, n)`: the memory after it, and the `dst` it returns. -/
def memmove (m : Mem) (dst src : UInt64) (n : UInt32) : Mem × UInt64 :=
  if n = 0 then (m, dst)
  else if src < dst ∧ src + n.toUInt64 > dst then
    (Mem.copyDown n.toNat m (dst + n.toUInt64) (src + n.toUInt64), dst)
  else (Mem.copyUp n.toNat m dst src, dst)

/-- `a[k]` of an array of `N` bytes; `safestrcpy` reads only below `N`. -/
def getAt {N : ℕ} (a : Fin N → UInt8) (k : ℕ) : UInt8 :=
  if h : k < N then a ⟨k, h⟩ else 0

/-- The array after `a[k] = v`. -/
def setAt {N : ℕ} (a : Fin N → UInt8) (k : ℕ) (v : UInt8) : Fin N → UInt8 :=
  fun i => if i.val = k then v else a i

/-- The loop of `safestrcpy(s, t, n)` at index `k`, with `n` as it is before the next
`--n`: while `--n > 0`, `*s++ = *t++`, stopping after the byte copied is a NUL; then
`*s = 0`. -/
def safestrcpyLoop {N : ℕ} (t : Fin N → UInt8) : ℕ → ℕ → (Fin N → UInt8) → (Fin N → UInt8)
  | 0, _, s => s
  | 1, k, s => setAt s k 0
  | n + 2, k, s =>
    let s := setAt s k (getAt t k)
    if getAt t k = 0 then setAt s (k + 1) 0 else safestrcpyLoop t (n + 1) (k + 1) s

/-- `safestrcpy(s, t, n)`: the array `s` after it; for `n = 0` it writes nothing. -/
def safestrcpy {N : ℕ} (s t : Fin N → UInt8) (n : ℕ) : Fin N → UInt8 :=
  safestrcpyLoop t n 0 s

end Xv6
