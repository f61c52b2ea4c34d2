import Xv6.Model.User.Ulib

/-!
# `wc` (`user/wc.c`)

`wc(fd, name)` reads `fd` into a 512-byte buffer until `read` returns 0 or less and counts,
over each chunk it reads, every byte (`c`), every newline (`l`), and every byte outside
`" \r\t\n\v"` read while `inword` is 0 (`w`), which it then sets; a byte that `strchr`
finds in the separators resets `inword`. The counters are `int`s. A negative `read` ends
the loop with `wc: read error` and `exit(1)`; otherwise `wc` prints the three counts.

What `read` returns is a list: the bytes of a chunk, or `none` for -1; after the list it
returns 0, the end of the file.
Source: user/wc.c:7-33, user/ulib.c:46-53
-/

set_option autoImplicit false

namespace Xv6.User

/-- The separators `" \r\t\n\v"` that `wc` passes to `strchr`. -/
def wcSeparators : List Char := [' ', '\r', '\t', '\n', '\x0B']

/-- The variables `l`, `w`, `c` and `inword` of `wc`. -/
structure WcCount where
  l : Int32
  w : Int32
  c : Int32
  inword : Bool
  deriving DecidableEq, Repr

/-- `l = w = c = 0; inword = 0;` -/
def WcCount.init : WcCount := ⟨0, 0, 0, false⟩

/-- One round of the `for` loop, on the byte `b`. -/
def wcByte (st : WcCount) (b : Char) : WcCount :=
  let c := st.c + 1
  let l := if b = '\n' then st.l + 1 else st.l
  if (strchr wcSeparators b).isSome then { st with l, c, inword := false }
  else if !st.inword then { l, c, w := st.w + 1, inword := true }
  else { st with l, c }

/-- The `while((n = read(fd, buf, sizeof(buf))) > 0)` loop over the results of `read`; the
error is the message of a negative `n`. -/
def wcLoop : List (Option (List Char)) → WcCount → Except String WcCount
  | [], st => .ok st
  | none :: _, _ => .error "wc: read error\n"
  | some [] :: _, st => .ok st
  | some (b :: bs) :: reads, st => wcLoop reads ((b :: bs).foldl wcByte st)

/-- `wc(fd, name)`: the `l`, `w` and `c` it prints, or the message it exits with. -/
def wc (reads : List (Option (List Char))) : Except String (Int32 × Int32 × Int32) := do
  let st ← wcLoop reads WcCount.init
  return (st.l, st.w, st.c)

end Xv6.User
