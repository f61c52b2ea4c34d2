import Xv6.Param

/-!
# `xargs` (`user/xargs.c`) and `gets` (`user/ulib.c`)

`main` copies `argv[1..argc)` to the front of `new_argv`, then reads fd 0 a line at a
time with `gets(buf, sizeof(buf))`, chops the last byte of the line, splits what is left
in place and runs the command on it: the `for` loop over `buf` writes a NUL over each run
of spaces it meets at the top of an iteration and stores a pointer at each first non-space
byte after it, and `new_argv[argv_len]` then gets the literal `"\0"`. The parent forks and
waits; the child calls `exec(new_argv[0], new_argv)`.

The buffer is a function from offsets to bytes, all NUL at the start as `{'\0'}` makes
them; the stream on fd 0 is the list of its bytes, `read` taking one at a time. An entry of
`new_argv` is a `Ptr` or `none` for NULL. `new_argv` is not initialised: the entries
`main` never writes hold `junk`, a parameter. The model takes `fork` and `exec` to succeed,
and records for each child the entries it hands to `exec`, read as the strings they point
to in the child's copy of `buf`.
Source: user/xargs.c:7-72, user/ulib.c:55-71
-/

set_option autoImplicit false

namespace Xv6.User

/-- `sizeof(buf)` in `main`. -/
def sizeofBuf : ℕ := 128

/-- A `char *` that `main` stores in `new_argv`: `argv[i]`, `buf + i`, or a pointer to a
string elsewhere with the bytes `s` before its NUL (the literal `"\0"` is `str []`). -/
inductive Ptr where
  | arg (i : ℕ)
  | buf (i : ℕ)
  | str (s : List Char)
  deriving DecidableEq, Repr

/-! ## `gets` and `strlen` -/

/-- The loop of `gets` from `buf[i]` on, with `n` bytes of room left (`i + 1 < max`): one
`read` of one byte per iteration, stopping after a newline or a carriage return. Returns
the buffer, `i` and what the stream has left. -/
def getsLoop : ℕ → (ℕ → Char) → ℕ → List Char → (ℕ → Char) × ℕ × List Char
  | 0, buf, i, inp => (buf, i, inp)
  | _ + 1, buf, i, [] => (buf, i, [])
  | n + 1, buf, i, c :: inp =>
    if c = '\n' ∨ c = '\r' then (Function.update buf i c, i + 1, inp)
    else getsLoop n (Function.update buf i c) (i + 1) inp

/-- `gets(buf, max)` on the stream `inp`: the buffer, with a NUL after the bytes read, and
what the stream has left. -/
def gets (buf : ℕ → Char) (max : ℕ) (inp : List Char) : (ℕ → Char) × List Char :=
  let r := getsLoop (max - 1) buf 0 inp
  (Function.update r.1 r.2.1 '\x00', r.2.2)

/-- The bytes of the string at `buf + i`, up to its NUL, reading at most `n` bytes. -/
def strAt (buf : ℕ → Char) : ℕ → ℕ → List Char
  | 0, _ => []
  | n + 1, i => if buf i = '\x00' then [] else buf i :: strAt buf n (i + 1)

/-- `strlen(buf)`. -/
def strlen (buf : ℕ → Char) : ℕ := (strAt buf sizeofBuf 0).length

/-! ## Splitting the line -/

/-- `while (*p && (*p == ' ')) *p++ = '\0';` from `p`, at most `n` times: the buffer and
`p` afterwards. -/
def zeroSpaces : ℕ → (ℕ → Char) → ℕ → (ℕ → Char) × ℕ
  | 0, buf, p => (buf, p)
  | n + 1, buf, p =>
    if buf p ≠ '\x00' ∧ buf p = ' ' then zeroSpaces n (Function.update buf p '\x00') (p + 1)
    else (buf, p)

/-- `while (*p && (*p != ' ')) p++;` from `p`, at most `n` times. -/
def skipWord (buf : ℕ → Char) : ℕ → ℕ → ℕ
  | 0, p => p
  | n + 1, p => if buf p ≠ '\x00' ∧ buf p ≠ ' ' then skipWord buf n (p + 1) else p

/-- The `for (char *p = buf; *p; p++)` loop from `p`, at most `n` iterations, with
`argv_len = len`: the buffer, `argv_len` and `new_argv` afterwards, or `none` where
`Too many arguments` ends the program. The increment `p++` steps over the byte
`skipWord` stopped at. -/
def splitLoop : ℕ → (ℕ → Char) → ℕ → ℕ → (ℕ → Option Ptr) →
    Option ((ℕ → Char) × ℕ × (ℕ → Option Ptr))
  | 0, buf, _, len, newArgv => some (buf, len, newArgv)
  | n + 1, buf, p, len, newArgv =>
    if buf p = '\x00' then some (buf, len, newArgv)
    else
      let z := zeroSpaces sizeofBuf buf p
      if z.1 z.2 ≠ '\x00' then
        if MAXARG - 1 ≤ len then none
        else
          splitLoop n z.1 (skipWord z.1 sizeofBuf z.2 + 1) (len + 1)
            (Function.update newArgv len (some (.buf z.2)))
      else splitLoop n z.1 (skipWord z.1 sizeofBuf z.2 + 1) len newArgv

/-! ## `main` -/

/-- What a run of `main` does: for each child, the entries of `new_argv` that its
`exec` is given, as strings (`none` for NULL), in the order the children run; what `main`
printed; and its exit status. -/
structure Run where
  execs : List (ℕ → Option (List Char))
  out : List Char
  status : ℕ

/-- The message of both `Too many arguments` exits. -/
def tooManyArguments : List Char := "Too many arguments\n".toList

/-- The string an entry points to in a child whose `buf` is `buf`. -/
def Ptr.deref (argv : List (List Char)) (buf : ℕ → Char) : Ptr → List Char
  | .arg i => argv.getD i []
  | .buf i => strAt buf sizeofBuf i
  | .str s => s

/-- The `while (gets(buf, sizeof(buf)))` loop, at most `fuel` rounds. `gets` returns
`buf`, never 0: only a line of length 0, which `gets` gives at the end of the stream,
ends the loop. `new_argv` is carried from line to line. -/
def xargsLoop (argv : List (List Char)) :
    ℕ → (ℕ → Char) → (ℕ → Option Ptr) → List Char → Run
  | 0, _, _, _ => ⟨[], [], 0⟩
  | fuel + 1, buf, newArgv, inp =>
    let g := gets buf sizeofBuf inp
    -- `buf_len < 1` ends the loop; otherwise `buf[buf_len - 1] = '\0'`
    match strlen g.1 with
    | 0 => ⟨[], [], 0⟩
    | len + 1 =>
      match splitLoop sizeofBuf (Function.update g.1 len '\x00') 0 (argv.length - 1) newArgv with
      | none => ⟨[], tooManyArguments, 1⟩
      | some (buf', argvLen, newArgv') =>
        let newArgv'' := Function.update newArgv' argvLen (some (.str []))
        let r := xargsLoop argv fuel buf' newArgv'' g.2
        ⟨(fun j => (newArgv'' j).map (Ptr.deref argv buf')) :: r.execs, r.out, r.status⟩

/-- `main(argc, argv)` with `new_argv` holding `junk` before it is written and the stream
`inp` on fd 0. Each round reads at least one byte, so `inp.length + 1` rounds are all the
loop can make. -/
def xargs (argv : List (List Char)) (junk : ℕ → Option Ptr) (inp : List Char) : Run :=
  if MAXARG < argv.length then ⟨[], tooManyArguments, 1⟩
  else
    -- the copy loop `new_argv[i - 1] = argv[i]` for `1 ≤ i < argc`
    let newArgv := fun j => if j + 1 < argv.length then some (.arg (j + 1)) else junk j
    xargsLoop argv (inp.length + 1) (fun _ => '\x00') newArgv inp

end Xv6.User
