import Xv6.Model.User.Sh

/-!
# Tokens, and the parser read through a map of lexers

The parsing functions of `sh.c` never look at the bytes of the line: they call `peek` and
`gettoken`. So a parse over one lexer is determined by a parse over any other lexer that
answers the same: `Lexer.Hom` is a map of cursors and words under which `peek` gives the
same test and `gettoken` the same code (and the same word where the code is `'a'`), and
`Lexer.Hom.parseline` shows that each parsing function then returns the same error, or the
mapped command at the mapped cursor. One induction on the fuel covers the four mutually
recursive functions.

The lexer this is used with is `tokLexer`, whose cursor is the list of tokens still to
read. A token is typed: a word with its `W`, a redirection operator, or one of the five
other symbols.
-/

set_option autoImplicit false

namespace Xv6.Sh

/-- The redirection operators `<`, `>` and `>>`. -/
inductive Op where
  | lt
  | gt
  | gtgt
  deriving DecidableEq, Repr

/-- A token of a command line. -/
inductive Token (W : Type) where
  | word (w : W)
  | redir (o : Op)
  | bar
  | lparen
  | rparen
  | semi
  | amp
  deriving DecidableEq, Repr

/-- The code `gettoken` returns for an operator. -/
def Op.code : Op → Char
  | .lt => '<'
  | .gt => '>'
  | .gtgt => '+'

/-- The byte an operator starts with. -/
def Op.first : Op → Char
  | .lt => '<'
  | .gt => '>'
  | .gtgt => '>'

variable {W W' : Type}

/-- The code `gettoken` returns for a token. -/
def Token.code : Token W → Char
  | .word _ => 'a'
  | .redir o => o.code
  | .bar => '|'
  | .lparen => '('
  | .rparen => ')'
  | .semi => ';'
  | .amp => '&'

/-- The byte `peek` tests: a symbol's own, and for a word `'a'`, which like every first
byte of a word is not in `symbols`. -/
def Token.first : Token W → Char
  | .word _ => 'a'
  | .redir o => o.first
  | .bar => '|'
  | .lparen => '('
  | .rparen => ')'
  | .semi => ';'
  | .amp => '&'

/-- The word of a word token. -/
def Token.wordOr [Inhabited W] : Token W → W
  | .word w => w
  | _ => default

/-- A token with its word mapped. -/
def Token.map (f : W → W') : Token W → Token W'
  | .word w => .word (f w)
  | .redir o => .redir o
  | .bar => .bar
  | .lparen => .lparen
  | .rparen => .rparen
  | .semi => .semi
  | .amp => .amp

/-- Reading a list of tokens: `peek` tests the first byte of the next one, `gettoken`
takes it, and at the end returns the code 0. -/
def tokLexer (W : Type) [Inhabited W] : Lexer (List (Token W)) W where
  peek ts toks := (match ts with
    | [] => false
    | t :: _ => decide (t.first ∈ toks), ts)
  gettoken
    | [] => ('\x00', default, [])
    | t :: ts => (t.code, t.wordOr, ts)

theorem Token.code_eq_a {t : Token W} : t.code = 'a' ↔ ∃ w, t = .word w := by
  constructor
  · intro h
    cases t with
    | word w => exact ⟨w, rfl⟩
    | redir o => cases o <;> simp [Token.code, Op.code] at h
    | _ => simp [Token.code] at h
  · rintro ⟨w, rfl⟩
    rfl

@[simp] theorem Token.first_map (f : W → W') (t : Token W) : (t.map f).first = t.first := by
  cases t <;> rfl

@[simp] theorem Token.code_map (f : W → W') (t : Token W) : (t.map f).code = t.code := by
  cases t <;> rfl

/-- A first byte in `symbols` is a symbol's. -/
theorem Token.first_not_symbol {t : Token W} (h : t.first ∉ symbols) : ∃ w, t = .word w := by
  cases t with
  | word w => exact ⟨w, rfl⟩
  | redir o => cases o <;> simp [Token.first, Op.first, symbols] at h
  | _ => simp [Token.first, symbols] at h

theorem Token.code_ne_nul (t : Token W) : t.code ≠ '\x00' := by
  cases t with
  | redir o => cases o <;> simp [Token.code, Op.code]
  | _ => simp [Token.code]

theorem Token.eq_bar {t : Token W} (h : t.first ∈ ['|']) : t = .bar := by
  cases t with
  | redir o => cases o <;> simp [Token.first, Op.first] at h
  | _ => simp_all [Token.first]

theorem Token.eq_lparen {t : Token W} (h : t.first ∈ ['(']) : t = .lparen := by
  cases t with
  | redir o => cases o <;> simp [Token.first, Op.first] at h
  | _ => simp_all [Token.first]

theorem Token.eq_rparen {t : Token W} (h : t.first ∈ [')']) : t = .rparen := by
  cases t with
  | redir o => cases o <;> simp [Token.first, Op.first] at h
  | _ => simp_all [Token.first]

theorem Token.eq_semi {t : Token W} (h : t.first ∈ [';']) : t = .semi := by
  cases t with
  | redir o => cases o <;> simp [Token.first, Op.first] at h
  | _ => simp_all [Token.first]

theorem Token.eq_amp {t : Token W} (h : t.first ∈ ['&']) : t = .amp := by
  cases t with
  | redir o => cases o <;> simp [Token.first, Op.first] at h
  | _ => simp_all [Token.first]

theorem Token.eq_redir {t : Token W} (h : t.first ∈ ['<', '>']) : ∃ o, t = .redir o := by
  cases t with
  | redir o => exact ⟨o, rfl⟩
  | _ => simp_all [Token.first]

/-! ## Commands with their words mapped -/

/-- A command with its words mapped. -/
def Cmd.map (f : W → W') : Cmd W → Cmd W'
  | .exec argv => .exec (argv.map f)
  | .redir c file mode fd => .redir (c.map f) (f file) mode fd
  | .pipe l r => .pipe (l.map f) (r.map f)
  | .list l r => .list (l.map f) (r.map f)
  | .back c => .back (c.map f)

/-- The words of a command, in order. -/
def Cmd.words : Cmd W → List W
  | .exec argv => argv
  | .redir c file _ _ => c.words ++ [file]
  | .pipe l r => l.words ++ r.words
  | .list l r => l.words ++ r.words
  | .back c => c.words

@[simp] theorem Cmd.map_pushArg (f : W → W') (w : W) (c : Cmd W) :
    (c.pushArg w).map f = (c.map f).pushArg (f w) := by
  induction c with
  | exec argv => simp [Cmd.pushArg, Cmd.map]
  | redir c file mode fd ih => simp [Cmd.pushArg, Cmd.map, ih]
  | pipe l r => rfl
  | list l r => rfl
  | back c => rfl

@[simp] theorem Cmd.map_redirect (f : W → W') (tok : Char) (c : Cmd W) (file : W) :
    (redirect tok c file).map f = redirect tok (c.map f) (f file) := by
  unfold redirect
  split_ifs <;> rfl

@[simp] theorem Cmd.map_id (c : Cmd W) : c.map id = c := by
  induction c with
  | exec argv => simp [Cmd.map]
  | redir c file mode fd ih => simp [Cmd.map, ih]
  | pipe l r ihl ihr => simp [Cmd.map, ihl, ihr]
  | list l r ihl ihr => simp [Cmd.map, ihl, ihr]
  | back c ih => simp [Cmd.map, ih]

/-! ## Maps of lexers -/

variable {σ σ' : Type}

/-- A map of cursors and words from `L` to `L'` under which `L'` answers as `L` does, on
the cursors where `inv` holds, which `peek` and `gettoken` keep. `peek` is asked only
about symbols; the words must agree only where `gettoken` read a word. -/
structure Lexer.Hom (L : Lexer σ W) (L' : Lexer σ' W') where
  cur : σ → σ'
  word : W → W'
  inv : σ → Prop
  peek_inv : ∀ k toks, inv k → inv (L.peek k toks).2
  gettoken_inv : ∀ k, inv k → inv (L.gettoken k).2.2
  peek_eq : ∀ k toks, inv k → (∀ c ∈ toks, c ∈ symbols) →
    L'.peek (cur k) toks = ((L.peek k toks).1, cur (L.peek k toks).2)
  code_eq : ∀ k, inv k → (L'.gettoken (cur k)).1 = (L.gettoken k).1
  cur_eq : ∀ k, inv k → (L'.gettoken (cur k)).2.2 = cur (L.gettoken k).2.2
  word_eq : ∀ k, inv k → (L.gettoken k).1 = 'a' →
    (L'.gettoken (cur k)).2.1 = word (L.gettoken k).2.1

variable {L : Lexer σ W} {L' : Lexer σ' W'}

namespace Lexer.Hom

/-- `y` is what `x` reads as through `h`: the same error, or the mapped command at the
mapped cursor, a cursor where `inv` holds. -/
def Reads (h : L.Hom L') (x : Except String (Cmd W × σ)) (y : Except String (Cmd W' × σ')) :
    Prop :=
  y = x.map (fun r => (r.1.map h.word, h.cur r.2)) ∧ ∀ r, x = .ok r → h.inv r.2

variable (h : L.Hom L')

theorem reads_throw (e : String) :
    h.Reads (throw e : Except String (Cmd W × σ)) (throw e) :=
  ⟨rfl, fun _ hr => by cases hr⟩

theorem reads_pure {c : Cmd W} {k : σ} (hk : h.inv k) :
    h.Reads (pure (c, k)) (pure (c.map h.word, h.cur k)) :=
  ⟨rfl, fun r hr => by cases hr; exact hk⟩

theorem reads_bind {x : Except String (Cmd W × σ)} {y : Except String (Cmd W' × σ')}
    {g : Cmd W × σ → Except String (Cmd W × σ)} {g' : Cmd W' × σ' → Except String (Cmd W' × σ')}
    (hxy : h.Reads x y) (hg : ∀ r, x = .ok r → h.Reads (g r) (g' (r.1.map h.word, h.cur r.2))) :
    h.Reads (x >>= g) (y >>= g') := by
  obtain ⟨rfl, hinv⟩ := hxy
  cases x with
  | error e => exact ⟨rfl, fun _ hr => by cases hr⟩
  | ok r => exact hg r rfl

/-- The loop of `parseredirs` reads the same through `h`, by induction on its rounds. -/
theorem parseredirs : ∀ fuel c k, h.inv k →
    h.Reads (Sh.parseredirs L fuel c k) (Sh.parseredirs L' fuel (c.map h.word) (h.cur k)) := by
  intro fuel
  induction fuel with
  | zero => intro c k _; exact h.reads_throw _
  | succ fuel ih =>
    intro c k hk
    have hk1 := h.peek_inv k ['<', '>'] hk
    have hk2 := h.gettoken_inv _ hk1
    simp only [Sh.parseredirs, h.peek_eq k ['<', '>'] hk (by simp [symbols]), h.code_eq _ hk1,
      h.cur_eq _ hk1, h.code_eq _ hk2, h.cur_eq _ hk2]
    split
    · split
      · exact h.reads_throw _
      · next ha =>
        rw [h.word_eq _ hk2 (not_not.1 ha), ← Cmd.map_redirect]
        exact ih _ _ (h.gettoken_inv _ hk2)
    · exact h.reads_pure hk1

/-- The loop of `parseexec` reads the same through `h`. -/
theorem parseexecLoop : ∀ fuel argc c k, h.inv k →
    h.Reads (Sh.parseexecLoop L fuel argc c k)
      (Sh.parseexecLoop L' fuel argc (c.map h.word) (h.cur k)) := by
  intro fuel
  induction fuel with
  | zero => intro _ _ _ _; exact h.reads_throw _
  | succ fuel ih =>
    intro argc c k hk
    have hk1 := h.peek_inv k ['|', ')', '&', ';'] hk
    simp only [Sh.parseexecLoop, h.peek_eq k ['|', ')', '&', ';'] hk (by simp [symbols]), h.code_eq _ hk1, h.cur_eq _ hk1]
    split
    · exact h.reads_pure hk1
    · split
      · exact h.reads_pure (h.gettoken_inv _ hk1)
      · split
        · exact h.reads_throw _
        · split
          · exact h.reads_throw _
          · next ha _ =>
            rw [h.word_eq _ hk1 (not_not.1 ha), ← Cmd.map_pushArg]
            exact h.reads_bind (h.parseredirs fuel _ _ (h.gettoken_inv _ hk1))
              fun r hr => ih _ _ _ ((h.parseredirs fuel _ _ (h.gettoken_inv _ hk1)).2 r hr)

/-- The `&` loop of `parseline` reads the same through `h`. -/
theorem parseBacks : ∀ fuel c k, h.inv k →
    h.Reads (Sh.parseBacks L fuel c k) (Sh.parseBacks L' fuel (c.map h.word) (h.cur k)) := by
  intro fuel
  induction fuel with
  | zero => intro _ _ _; exact h.reads_throw _
  | succ fuel ih =>
    intro c k hk
    have hk1 := h.peek_inv k ['&'] hk
    simp only [Sh.parseBacks, h.peek_eq k ['&'] hk (by simp [symbols]), h.cur_eq _ hk1]
    split
    · exact ih (.back c) _ (h.gettoken_inv _ hk1)
    · exact h.reads_pure hk1

/-- The four mutually recursive functions read the same through `h`, by one induction on
the fuel. -/
theorem parse : ∀ fuel,
    (∀ k, h.inv k → h.Reads (Sh.parseline L fuel k) (Sh.parseline L' fuel (h.cur k))) ∧
    (∀ k, h.inv k → h.Reads (Sh.parsepipe L fuel k) (Sh.parsepipe L' fuel (h.cur k))) ∧
    (∀ k, h.inv k → h.Reads (Sh.parseblock L fuel k) (Sh.parseblock L' fuel (h.cur k))) ∧
    (∀ k, h.inv k → h.Reads (Sh.parseexec L fuel k) (Sh.parseexec L' fuel (h.cur k))) := by
  intro fuel
  induction fuel with
  | zero => exact ⟨fun _ _ => h.reads_throw _, fun _ _ => h.reads_throw _,
      fun _ _ => h.reads_throw _, fun _ _ => h.reads_throw _⟩
  | succ fuel ih =>
    obtain ⟨hline, hpipe, hblock, hexec⟩ := ih
    refine ⟨fun k hk => ?_, fun k hk => ?_, fun k hk => ?_, fun k hk => ?_⟩
    · -- `parseline`: the pipeline, the `&`s, then `;` and the rest of the line
      rw [Sh.parseline, Sh.parseline]
      refine h.reads_bind (hpipe k hk) fun r hr => ?_
      have hr2 := (hpipe k hk).2 r hr
      refine h.reads_bind (h.parseBacks fuel r.1 r.2 hr2) fun r' hr' => ?_
      have hr'2 := (h.parseBacks fuel r.1 r.2 hr2).2 r' hr'
      have hk1 := h.peek_inv _ [';'] hr'2
      simp only [h.peek_eq _ [';'] hr'2 (by simp [symbols]), h.cur_eq _ hk1]
      split
      · refine h.reads_bind (hline _ (h.gettoken_inv _ hk1)) fun r'' hr'' => ?_
        exact h.reads_pure ((hline _ (h.gettoken_inv _ hk1)).2 r'' hr'')
      · exact h.reads_pure hk1
    · -- `parsepipe`: the command, then `|` and the rest of the pipeline
      rw [Sh.parsepipe, Sh.parsepipe]
      refine h.reads_bind (hexec k hk) fun r hr => ?_
      have hr2 := (hexec k hk).2 r hr
      have hk1 := h.peek_inv _ ['|'] hr2
      simp only [h.peek_eq _ ['|'] hr2 (by simp [symbols]), h.cur_eq _ hk1]
      split
      · refine h.reads_bind (hpipe _ (h.gettoken_inv _ hk1)) fun r' hr' => ?_
        exact h.reads_pure ((hpipe _ (h.gettoken_inv _ hk1)).2 r' hr')
      · exact h.reads_pure hk1
    · -- `parseblock`: `(`, the line, `)`, then the redirections
      rw [Sh.parseblock, Sh.parseblock]
      have hk1 := h.peek_inv k ['('] hk
      simp only [h.peek_eq k ['('] hk (by simp [symbols]), h.cur_eq _ hk1]
      split
      · exact h.reads_throw _
      · refine h.reads_bind (hline _ (h.gettoken_inv _ hk1)) fun r hr => ?_
        have hr2 := (hline _ (h.gettoken_inv _ hk1)).2 r hr
        have hk2 := h.peek_inv _ [')'] hr2
        simp only [h.peek_eq _ [')'] hr2 (by simp [symbols]), h.cur_eq _ hk2]
        split
        · exact h.reads_throw _
        · exact h.parseredirs fuel r.1 _ (h.gettoken_inv _ hk2)
    · -- `parseexec`: a block, or the redirections and then the loop over the words
      rw [Sh.parseexec, Sh.parseexec]
      have hk1 := h.peek_inv k ['('] hk
      simp only [h.peek_eq k ['('] hk (by simp [symbols])]
      split
      · exact hblock _ hk1
      · refine h.reads_bind (h.parseredirs fuel (.exec []) _ hk1) fun r hr => ?_
        exact h.parseexecLoop fuel 0 r.1 r.2 ((h.parseredirs fuel _ _ hk1).2 r hr)

end Lexer.Hom

end Xv6.Sh
