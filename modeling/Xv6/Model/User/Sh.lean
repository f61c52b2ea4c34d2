import Xv6.Model.Fs.Syscall

/-!
# The shell's parser (`user/sh.c`)

`parsecmd` reads a command line through two functions. `peek(ps, es, toks)` skips
whitespace and tests the next byte against `toks`; `gettoken(ps, es, q, eq)` skips
whitespace, consumes one token and returns its code (`'a'` for a word, `'+'` for `>>`, the
byte itself for the other symbols, 0 at the end), with `q`, `eq` the bounds of the token
and `*ps` past the whitespace after it. The recursive-descent functions `parseline`,
`parsepipe`, `parseexec`, `parseblock` and `parseredirs` see the line only through these
two, so they are written here over any `Lexer`: a type of cursors with a `peek` and a
`gettoken`. The shell's own lexer is `lexer buf es`, whose cursor is the offset of `*ps`
in `buf` and whose words are the pairs `(q, eq)`.

Each `while` loop of the C code is a function of its own, and every function takes a fuel
argument, one unit per call or iteration; `parsecmd` gives `parseline` the fuel
`5 * strlen(s) + 5`. A `panic` is an `Except.error` with the text it prints. The nodes
that `execcmd()`, `redircmd()`, … allocate are values of `Cmd`. `parseexec` keeps two
pointers to what it builds: `ret`, which the redirections wrap, and `cmd`, the `execcmd`
under them, which takes the words; `Cmd.pushArg` is the write through `cmd`.
Source: user/sh.c:13-50, 195-254, 262-493
-/

set_option autoImplicit false

namespace Xv6.Sh

/-- `MAXARGS` of `sh.c`. -/
def MAXARGS : ℕ := 10

/-- `whitespace[]`. -/
def whitespace : List Char := [' ', '\t', '\r', '\n', '\x0B']

/-- `symbols[]`. -/
def symbols : List Char := ['<', '|', '>', '&', ';', '(', ')']

/-- `struct cmd` and its five kinds, with a word (`argv[i]` and `eargv[i]`, or `file` and
`efile`) held as a `W`. -/
inductive Cmd (W : Type) where
  | exec (argv : List W)
  | redir (cmd : Cmd W) (file : W) (mode fd : ℕ)
  | pipe (left right : Cmd W)
  | list (left right : Cmd W)
  | back (cmd : Cmd W)
  deriving DecidableEq, Repr

/-- `cmd->argv[argc] = q`, written through the `execcmd` pointer of `parseexec`: the word
goes to the `execcmd` under the redirections wrapped around it. -/
def Cmd.pushArg {W : Type} (w : W) : Cmd W → Cmd W
  | .exec argv => .exec (argv ++ [w])
  | .redir c file mode fd => .redir (c.pushArg w) file mode fd
  | c => c

/-- The input as the parsing functions read it: cursors `σ` (`*ps`), `peek`, and
`gettoken`, which returns the token's code, its bounds `q`, `eq` as a `W`, and the cursor
after it. -/
structure Lexer (σ W : Type) where
  peek : σ → List Char → Bool × σ
  gettoken : σ → Char × W × σ

/-- What a parsing function returns when its fuel is used up. -/
def outOfFuel : String := "out of fuel"

/-- The `switch(tok)` of `parseredirs`: a `redircmd` around `cmd` for `<`, `>` and `>>`. -/
def redirect {W : Type} (tok : Char) (cmd : Cmd W) (file : W) : Cmd W :=
  if tok = '<' then .redir cmd file Fs.O_RDONLY 0
  else if tok = '>' then .redir cmd file (Fs.O_WRONLY ||| Fs.O_CREATE ||| Fs.O_TRUNC) 1
  else if tok = '+' then .redir cmd file (Fs.O_WRONLY ||| Fs.O_CREATE) 1
  else cmd

section Parser

variable {σ W : Type} (L : Lexer σ W)

/-- `parseredirs(cmd, ps, es)`: its `while` loop, at most `fuel` rounds. -/
def parseredirs : ℕ → Cmd W → σ → Except String (Cmd W × σ)
  | 0, _, _ => throw outOfFuel
  | fuel + 1, cmd, ps =>
    let pk := L.peek ps ['<', '>']
    if pk.1 then
      let op := L.gettoken pk.2
      let file := L.gettoken op.2.2
      if file.1 ≠ 'a' then throw "missing file for redirection"
      else parseredirs fuel (redirect op.1 cmd file.2.1) file.2.2
    else return (cmd, pk.2)

/-- The `while` loop of `parseexec`, with `argc` words read so far and `ret` built. -/
def parseexecLoop : ℕ → ℕ → Cmd W → σ → Except String (Cmd W × σ)
  | 0, _, _, _ => throw outOfFuel
  | fuel + 1, argc, ret, ps =>
    let pk := L.peek ps ['|', ')', '&', ';']
    if pk.1 then return (ret, pk.2)
    else
      let tok := L.gettoken pk.2
      if tok.1 = '\x00' then return (ret, tok.2.2)
      else if tok.1 ≠ 'a' then throw "syntax"
      else if MAXARGS ≤ argc + 1 then throw "too many args"
      else do
        let r ← parseredirs L fuel (ret.pushArg tok.2.1) tok.2.2
        parseexecLoop fuel (argc + 1) r.1 r.2

/-- The `while(peek(ps, es, "&"))` loop of `parseline`. -/
def parseBacks : ℕ → Cmd W → σ → Except String (Cmd W × σ)
  | 0, _, _ => throw outOfFuel
  | fuel + 1, cmd, ps =>
    let pk := L.peek ps ['&']
    if pk.1 then parseBacks fuel (.back cmd) (L.gettoken pk.2).2.2
    else return (cmd, pk.2)

mutual

/-- `parseline(ps, es)`. -/
def parseline : ℕ → σ → Except String (Cmd W × σ)
  | 0, _ => throw outOfFuel
  | fuel + 1, ps => do
    let r ← parsepipe fuel ps
    let r ← parseBacks L fuel r.1 r.2
    let pk := L.peek r.2 [';']
    if pk.1 then
      let r' ← parseline fuel (L.gettoken pk.2).2.2
      return (.list r.1 r'.1, r'.2)
    else return (r.1, pk.2)

/-- `parsepipe(ps, es)`. -/
def parsepipe : ℕ → σ → Except String (Cmd W × σ)
  | 0, _ => throw outOfFuel
  | fuel + 1, ps => do
    let r ← parseexec fuel ps
    let pk := L.peek r.2 ['|']
    if pk.1 then
      let r' ← parsepipe fuel (L.gettoken pk.2).2.2
      return (.pipe r.1 r'.1, r'.2)
    else return (r.1, pk.2)

/-- `parseblock(ps, es)`. -/
def parseblock : ℕ → σ → Except String (Cmd W × σ)
  | 0, _ => throw outOfFuel
  | fuel + 1, ps =>
    let pk := L.peek ps ['(']
    if !pk.1 then throw "parseblock"
    else do
      let r ← parseline fuel (L.gettoken pk.2).2.2
      let pk' := L.peek r.2 [')']
      if !pk'.1 then throw "syntax - missing )"
      else parseredirs L fuel r.1 (L.gettoken pk'.2).2.2

/-- `parseexec(ps, es)`. -/
def parseexec : ℕ → σ → Except String (Cmd W × σ)
  | 0, _ => throw outOfFuel
  | fuel + 1, ps =>
    let pk := L.peek ps ['(']
    if pk.1 then parseblock fuel pk.2
    else do
      let r ← parseredirs L fuel (.exec []) pk.2
      parseexecLoop L fuel 0 r.1 r.2

end

end Parser

/-! ## The shell's lexer -/

/-- `*s` at offset `k` of the buffer, the terminating NUL past its end. -/
def charAt (buf : List Char) (k : ℕ) : Char := buf.getD k '\x00'

/-- `strlen(s)`. -/
def strlen (s : List Char) : ℕ := (s.takeWhile (· ≠ '\x00')).length

/-- `while(s < es && strchr(whitespace, *s)) s++;` from `s = k`. -/
def skipWs (buf : List Char) (es k : ℕ) : ℕ :=
  if k < es ∧ charAt buf k ∈ whitespace then skipWs buf es (k + 1) else k
termination_by es - k

/-- The word loop of `gettoken`: `while(s < es && !strchr(whitespace, *s) &&
!strchr(symbols, *s)) s++;` from `s = k`. -/
def skipWord (buf : List Char) (es k : ℕ) : ℕ :=
  if k < es ∧ charAt buf k ∉ whitespace ∧ charAt buf k ∉ symbols then skipWord buf es (k + 1)
  else k
termination_by es - k

/-- `gettoken(ps, es, q, eq)` with `*ps = k`: the token's code, `(q, eq)` and the new
`*ps`. -/
def gettoken (buf : List Char) (es k : ℕ) : Char × (ℕ × ℕ) × ℕ :=
  let s := skipWs buf es k
  let c := charAt buf s
  -- the `switch(*s)`: the code and `s` after the token
  let t : Char × ℕ :=
    if c = '\x00' then (c, s)
    else if c ∈ ['|', '(', ')', ';', '&', '<'] then (c, s + 1)
    else if c = '>' then (if charAt buf (s + 1) = '>' then ('+', s + 2) else ('>', s + 1))
    else ('a', skipWord buf es s)
  (t.1, (s, t.2), skipWs buf es t.2)

/-- `peek(ps, es, toks)` with `*ps = k`: the test and the new `*ps`. -/
def peek (buf : List Char) (es k : ℕ) (toks : List Char) : Bool × ℕ :=
  let s := skipWs buf es k
  (decide (charAt buf s ≠ '\x00' ∧ charAt buf s ∈ toks), s)

/-- The lexer of `parsecmd` on the buffer `buf` with `es` its end. -/
def lexer (buf : List Char) (es : ℕ) : Lexer ℕ (ℕ × ℕ) where
  peek := peek buf es
  gettoken := gettoken buf es

/-! ## `nulterminate` and `parsecmd` -/

/-- `nulterminate(cmd)`: a NUL written at the end of every word, `*eargv[i] = 0` and
`*efile = 0`, into the buffer. -/
def nulterminate : Cmd (ℕ × ℕ) → List Char → List Char
  | .exec argv, buf => argv.foldl (fun b w => b.set w.2 '\x00') buf
  | .redir c file _ _, buf => (nulterminate c buf).set file.2 '\x00'
  | .pipe l r, buf => nulterminate r (nulterminate l buf)
  | .list l r, buf => nulterminate r (nulterminate l buf)
  | .back c, buf => nulterminate c buf

/-- The fuel `parsecmd` gives `parseline`. -/
def parseFuel (es : ℕ) : ℕ := 5 * es + 5

/-- `parsecmd(s)`: the command and the buffer after `nulterminate`, or what the shell
prints before `exit(1)`: the `leftovers` line and `panic("syntax")`, or the text of the
panic of a parsing function. -/
def parsecmd (s : List Char) : Except String (Cmd (ℕ × ℕ) × List Char) := do
  let es := strlen s
  let r ← parseline (lexer s es) (parseFuel es) 0
  let pk := peek s es r.2 []
  if pk.2 ≠ es then throw ("leftovers: " ++ String.ofList ((s.take es).drop pk.2) ++ "\nsyntax")
  else return (r.1, nulterminate r.1 s)

end Xv6.Sh
