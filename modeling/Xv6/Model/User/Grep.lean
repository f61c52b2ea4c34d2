import Mathlib

/-!
# `grep` (`user/grep.c`)

The regular-expression matcher of Kernighan and Pike and the loop that feeds it lines. A
C string is the list of its bytes before the NUL, a byte a `Char` below 256; `re[1]` of a
pattern of one byte is its NUL, which the patterns below read as the end of the list.
`matchstar` is given the call `matchhere(re, ·)` it makes, so that `matchhere` recurses on
the pattern alone and each definition is structural.

`grep` reads into a buffer of 1024 bytes: each `read` asks for the room left but one, at
`buf + m`, and the lines up to the last newline are matched and the rest moved to the
front. The stream and the way `read` cuts it are parameters: the `k`-th call returns
`chunk k + 1` bytes, or fewer where it asks for fewer or the stream ends. The model
returns the bytes written to fd 1.
Source: user/grep.c:1-104, user/ulib.c:46-53
-/

set_option autoImplicit false

namespace Xv6.User

/-- `matchstar(c, re, text)`: try `matchhere(re, ·)` at `text` and after each leading
character that matches `c`. -/
def matchstar (matchhere : List Char → Bool) (c : Char) : List Char → Bool
  | [] => matchhere []
  | t :: text => matchhere (t :: text) || ((t == c || c == '.') && matchstar matchhere c text)

/-- `matchhere(re, text)`: does `re` match a prefix of `text`. -/
def matchhere : List Char → List Char → Bool
  | [], _ => true
  | c :: '*' :: re, text => matchstar (matchhere re) c text
  | ['$'], text => text.isEmpty
  | c :: re, t :: text => (c == '.' || c == t) && matchhere re text
  | _ :: _, [] => false

/-- The `do`-`while` loop of `match`: `matchhere(re, text)` at every suffix of `text`, the
empty one included. -/
def matchLoop (re : List Char) : List Char → Bool
  | [] => matchhere re []
  | t :: text => matchhere re (t :: text) || matchLoop re text

/-- `match(re, text)`. -/
def reMatch (re text : List Char) : Bool :=
  match re with
  | '^' :: re => matchhere re text
  | _ => matchLoop re text

/-- The inner loop of `grep` over the buffer from `p` on, with `line` the bytes since `p`
in reverse: `strchr(p, '\n')` stops at a newline or at the NUL that ends the data. Each
line found is passed to `match` and written with its newline if it matches; what follows
the last newline is left for `memmove`. -/
def grepLines (pattern : List Char) : List Char → List Char → List Char × List Char
  | line, [] => ([], line.reverse)
  | line, c :: buf =>
    if c = '\n' then
      let r := grepLines pattern [] buf
      ((if reMatch pattern line.reverse then line.reverse ++ ['\n'] else []) ++ r.1, r.2)
    else if c = '\x00' then ([], line.reverse ++ c :: buf)
    else grepLines pattern (c :: line) buf

/-- The outer loop of `grep`: `buf` holds the `m` bytes carried over, `inp` what the stream
has left, `k` the number of `read`s made. A `read` that returns 0 bytes ends the loop; it
asks for `sizeof(buf) - m - 1` bytes. -/
def grepLoop (pattern : List Char) (chunk : ℕ → ℕ) : ℕ → ℕ → List Char → List Char → List Char
  | 0, _, _, _ => []
  | fuel + 1, k, buf, inp =>
    let got := inp.take (min (chunk k + 1) (1024 - buf.length - 1))
    if got = [] then []
    else
      let r := grepLines pattern [] (buf ++ got)
      r.1 ++ grepLoop pattern chunk fuel (k + 1) r.2 (inp.drop got.length)

/-- `grep(pattern, fd)` on the stream `inp`: the bytes written to fd 1. Each round reads at
least one byte, so `inp.length + 1` rounds are all the loop can make. -/
def grep (pattern : List Char) (chunk : ℕ → ℕ) (inp : List Char) : List Char :=
  grepLoop pattern chunk (inp.length + 1) 0 [] inp

end Xv6.User
