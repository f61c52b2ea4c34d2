import Xv6.Analysis.User.ShTokens

/-!
# The grammar of the shell

The commands `parsecmd` accepts, as a grammar over tokens:

    line ::= pipe '&'* [';' line]
    pipe ::= exec ['|' pipe]
    exec ::= '(' line ')' redir*  |  redir* (word redir*)*   (at most MAXARGS - 1 words)
    redir ::= ('<' | '>' | '>>') word

`Derives N xs c` says that the tokens `xs` derive the nonterminal `N` with the tree `c`:
`PIPE` and `LIST` nest to the right, a `BACK` stands around the pipeline for each `&`, and
each redirection wraps the command before it. The parsing functions, run on the list of
tokens (`tokLexer`), are sound for this grammar (`parse_sound`): what they return is
derived by the tokens they consume. They are complete (`Derives.gives`): on a derivation
followed by a token that may follow its nonterminal they return its tree, unless the fuel
runs out first. And with `5 * n + 5` fuel for `n` tokens the fuel never runs out
(`parse_enough_fuel`).
-/

set_option autoImplicit false

namespace Xv6.Sh

variable {W : Type}

/-! ## Trees -/

/-- The mode a redirection opens its file with. -/
def Op.mode : Op → ℕ
  | .lt => Fs.O_RDONLY
  | .gt => Fs.O_WRONLY ||| Fs.O_CREATE ||| Fs.O_TRUNC
  | .gtgt => Fs.O_WRONLY ||| Fs.O_CREATE

/-- The descriptor a redirection replaces. -/
def Op.fd : Op → ℕ
  | .lt => 0
  | .gt => 1
  | .gtgt => 1

/-- `cmd` under `n` `backcmd`s. -/
def backs : ℕ → Cmd W → Cmd W
  | 0, c => c
  | n + 1, c => backs n (.back c)

/-- `cmd` wrapped by the redirections `rs`, the first innermost. -/
def wrap : List (Op × W) → Cmd W → Cmd W
  | [], c => c
  | r :: rs, c => wrap rs (.redir c r.2 r.1.mode r.1.fd)

/-- The tokens of the redirections `rs`. -/
def redirTokens : List (Op × W) → List (Token W)
  | [] => []
  | r :: rs => .redir r.1 :: .word r.2 :: redirTokens rs

/-- A word or a redirection of a simple command. -/
inductive Item (W : Type) where
  | word (w : W)
  | redir (o : Op) (file : W)

/-- The tokens of an item. -/
def Item.tokens : Item W → List (Token W)
  | .word w => [.word w]
  | .redir o file => [.redir o, .word file]

/-- The words among items. -/
def Item.words : List (Item W) → List W
  | [] => []
  | .word w :: its => w :: Item.words its
  | .redir _ _ :: its => Item.words its

/-- The redirections among items. -/
def Item.redirs : List (Item W) → List (Op × W)
  | [] => []
  | .word _ :: its => Item.redirs its
  | .redir o file :: its => (o, file) :: Item.redirs its

/-- The tree of a simple command: the `execcmd` of its words, wrapped by its redirections
in order. -/
def simpleCmd (its : List (Item W)) : Cmd W :=
  wrap (Item.redirs its) (.exec (Item.words its))

theorem redirect_code (o : Op) (c : Cmd W) (file : W) :
    redirect o.code c file = .redir c file o.mode o.fd := by
  cases o <;> simp [redirect, Op.code, Op.mode, Op.fd]

theorem wrap_append (rs rs' : List (Op × W)) (c : Cmd W) :
    wrap (rs ++ rs') c = wrap rs' (wrap rs c) := by
  induction rs generalizing c with
  | nil => rfl
  | cons r rs ih => exact ih _

theorem pushArg_wrap (rs : List (Op × W)) (c : Cmd W) (w : W) :
    (wrap rs c).pushArg w = wrap rs (c.pushArg w) := by
  induction rs generalizing c with
  | nil => rfl
  | cons r rs ih => exact ih _

/-- Items that start with a word, if any. -/
def StartsWord (its : List (Item W)) : Prop :=
  ∀ i ∈ its.head?, ∃ w, i = .word w

/-- Items are redirections followed by items that start with a word. -/
theorem Item.split (its : List (Item W)) :
    ∃ (rs : List (Op × W)) (its' : List (Item W)),
      its = rs.map (fun r => Item.redir r.1 r.2) ++ its' ∧ StartsWord its' := by
  induction its with
  | nil => exact ⟨[], [], rfl, fun i hi => by cases hi⟩
  | cons i its ih =>
    cases i with
    | word w => exact ⟨[], .word w :: its, rfl, fun i hi => ⟨w, (Option.some.inj hi).symm⟩⟩
    | redir o file =>
      obtain ⟨rs, its', h, hs⟩ := ih
      exact ⟨(o, file) :: rs, its', by rw [h]; rfl, hs⟩

@[simp] theorem Item.words_append (its its' : List (Item W)) :
    Item.words (its ++ its') = Item.words its ++ Item.words its' := by
  induction its with
  | nil => rfl
  | cons i its ih => cases i <;> simp [Item.words, ih]

@[simp] theorem Item.redirs_append (its its' : List (Item W)) :
    Item.redirs (its ++ its') = Item.redirs its ++ Item.redirs its' := by
  induction its with
  | nil => rfl
  | cons i its ih => cases i <;> simp [Item.redirs, ih]

@[simp] theorem Item.words_redirs (rs : List (Op × W)) :
    Item.words (rs.map fun r => Item.redir r.1 r.2) = [] := by
  induction rs with
  | nil => rfl
  | cons r rs ih => exact ih

@[simp] theorem Item.redirs_redirs (rs : List (Op × W)) :
    Item.redirs (rs.map fun r => Item.redir r.1 r.2) = rs := by
  induction rs with
  | nil => rfl
  | cons r rs ih => simp [Item.redirs, ih]

@[simp] theorem Item.tokens_redirs (rs : List (Op × W)) :
    (rs.map fun r => Item.redir r.1 r.2).flatMap Item.tokens = redirTokens rs := by
  induction rs with
  | nil => rfl
  | cons r rs ih => simp [Item.tokens, redirTokens, ih]

/-! ## Derivations -/

/-- The nonterminals `line`, `pipe` and `exec`. -/
inductive Nonterminal where
  | line
  | pipe
  | exec

/-- The tokens `xs` derive the nonterminal `N` with the tree `c`. -/
inductive Derives : Nonterminal → List (Token W) → Cmd W → Prop
  /-- `line ::= pipe '&'*` -/
  | backs {xs c} (n : ℕ) : Derives .pipe xs c →
      Derives .line (xs ++ List.replicate n .amp) (backs n c)
  /-- `line ::= pipe '&'* ';' line` -/
  | list {xs ys c d} (n : ℕ) : Derives .pipe xs c → Derives .line ys d →
      Derives .line (xs ++ List.replicate n .amp ++ .semi :: ys) (.list (backs n c) d)
  /-- `pipe ::= exec` -/
  | exec {xs c} : Derives .exec xs c → Derives .pipe xs c
  /-- `pipe ::= exec '|' pipe` -/
  | pipe {xs ys c d} : Derives .exec xs c → Derives .pipe ys d →
      Derives .pipe (xs ++ .bar :: ys) (.pipe c d)
  /-- `exec ::= '(' line ')' redir*` -/
  | block {xs c} (rs : List (Op × W)) : Derives .line xs c →
      Derives .exec (.lparen :: xs ++ .rparen :: redirTokens rs) (wrap rs c)
  /-- `exec ::= redir* (word redir*)*`, with fewer than `MAXARGS` words -/
  | simple (its : List (Item W)) : (Item.words its).length < MAXARGS →
      Derives .exec (its.flatMap Item.tokens) (simpleCmd its)

/-- The first bytes of the tokens that may follow a nonterminal. -/
def stops : Nonterminal → List Char
  | .line => [')']
  | .pipe => [')', '&', ';']
  | .exec => [')', '&', ';', '|']

/-- `rest` may follow `N`: it is empty or starts with a token of `stops N`. -/
def Follows (N : Nonterminal) (rest : List (Token W)) : Prop :=
  ∀ t ∈ rest.head?, t.first ∈ stops N

/-- What follows a simple command's items starts with no `(`: a word, a redirection, or a
token that may follow `exec`. -/
theorem first_items_ne_lparen (its : List (Item W)) {rest : List (Token W)}
    (hf : Follows .exec rest) : ∀ t ∈ (its.flatMap Item.tokens ++ rest).head?, t.first ∉ ['('] := by
  cases its with
  | nil =>
    intro t ht
    have := hf t ht
    simp only [stops, List.mem_cons, List.not_mem_nil, or_false] at this
    rcases this with h | h | h | h <;> simp [h]
  | cons i its =>
    intro t ht
    cases i with
    | word w => cases ht; simp [Token.first]
    | redir o file => cases ht; cases o <;> simp [Token.first, Op.first]

/-- What follows the redirections of a simple command starts with no redirection. -/
theorem first_startsWord {its : List (Item W)} (hs : StartsWord its) {rest : List (Token W)}
    (hf : Follows .exec rest) :
    ∀ t ∈ (its.flatMap Item.tokens ++ rest).head?, t.first ∉ ['<', '>'] := by
  cases its with
  | nil =>
    intro t ht
    have := hf t ht
    simp only [stops, List.mem_cons, List.not_mem_nil, or_false] at this
    rcases this with h | h | h | h <;> simp [h]
  | cons i its =>
    obtain ⟨w, rfl⟩ := hs i rfl
    intro t ht
    cases ht
    simp [Token.first]

theorem Follows.mono {N N' : Nonterminal} (hsub : ∀ c ∈ stops N, c ∈ stops N')
    {rest : List (Token W)} (hf : Follows N rest) : Follows N' rest :=
  fun t ht => hsub _ (hf t ht)

theorem follows_cons {N : Nonterminal} {t : Token W} (ts : List (Token W))
    (h : t.first ∈ stops N) : Follows N (t :: ts) := by
  intro t' ht'
  cases ht'
  exact h

/-- `&`s may follow a pipeline, and so may what follows them. -/
theorem follows_amps (n : ℕ) {rest : List (Token W)} (hf : Follows .pipe rest) :
    Follows .pipe (List.replicate n .amp ++ rest) := by
  cases n with
  | zero => exact hf
  | succ n => exact follows_cons _ (by simp [Token.first, stops])

theorem bind_eq_ok {α β : Type} {x : Except String α} {g : α → Except String β} {r : β}
    (h : x >>= g = .ok r) : ∃ a, x = .ok a ∧ g a = .ok r := by
  cases x with
  | error e => cases h
  | ok a => exact ⟨a, rfl, h⟩

theorem length_le_of_eq_append {xs rest ts : List (Token W)} (h : ts = xs ++ rest) :
    rest.length ≤ ts.length := by
  rw [h, List.length_append]
  omega

/-! ## The parsing functions on tokens -/

variable [Inhabited W]

@[simp] theorem tokLexer_peek_nil (toks : List Char) : (tokLexer W).peek [] toks = (false, []) :=
  rfl

@[simp] theorem tokLexer_peek_cons (t : Token W) (ts : List (Token W)) (toks : List Char) :
    (tokLexer W).peek (t :: ts) toks = (decide (t.first ∈ toks), t :: ts) := rfl

@[simp] theorem tokLexer_peek_snd (ts : List (Token W)) (toks : List Char) :
    ((tokLexer W).peek ts toks).2 = ts := by
  cases ts <;> rfl

@[simp] theorem tokLexer_gettoken_snd_snd (ts : List (Token W)) :
    ((tokLexer W).gettoken ts).2.2 = ts.tail := by
  cases ts <;> rfl

@[simp] theorem tokLexer_gettoken_nil : (tokLexer W).gettoken [] = ('\x00', default, []) := rfl

@[simp] theorem tokLexer_gettoken_cons (t : Token W) (ts : List (Token W)) :
    (tokLexer W).gettoken (t :: ts) = (t.code, t.wordOr, ts) := rfl

/-- The parsing function of a nonterminal. -/
def parseOf : Nonterminal → ℕ → List (Token W) → Except String (Cmd W × List (Token W))
  | .line => parseline (tokLexer W)
  | .pipe => parsepipe (tokLexer W)
  | .exec => parseexec (tokLexer W)

theorem peek_eq_false {ts : List (Token W)} {toks : List Char}
    (h : ∀ t ∈ ts.head?, t.first ∉ toks) : ((tokLexer W).peek ts toks).1 = false := by
  cases ts with
  | nil => rfl
  | cons t ts =>
    simp only [tokLexer_peek_cons, decide_eq_false_iff_not]
    exact h t rfl

theorem peek_follows {N : Nonterminal} {rest : List (Token W)} (hf : Follows N rest)
    {toks : List Char} (hdis : ∀ c ∈ stops N, c ∉ toks) : ((tokLexer W).peek rest toks).1 = false :=
  peek_eq_false fun t ht => hdis _ (hf t ht)

/-! ## Completeness -/

/-- `x` returns `r`, unless it runs out of fuel. -/
def Gives {α : Type} (r : α) (x : Except String α) : Prop :=
  x = .ok r ∨ x = .error outOfFuel

theorem gives_bind {α β : Type} {r : α} {r' : β} {x : Except String α}
    {g : α → Except String β} (hx : Gives r x) (hg : Gives r' (g r)) : Gives r' (x >>= g) := by
  rcases hx with rfl | rfl
  · exact hg
  · exact .inr rfl

theorem gives_pure {α : Type} (r : α) : Gives r (pure r) := .inl rfl

theorem gives_throw {α : Type} (r : α) : Gives r (throw outOfFuel) := .inr rfl

/-- The redirection loop reads the redirections up to a token that is not one. -/
theorem parseredirs_gives (rs : List (Op × W)) :
    ∀ (c : Cmd W) (rest : List (Token W)), (∀ t ∈ rest.head?, t.first ∉ ['<', '>']) →
      ∀ fuel, Gives (wrap rs c, rest) (parseredirs (tokLexer W) fuel c (redirTokens rs ++ rest)) := by
  induction rs with
  | nil =>
    intro c rest hrest fuel
    cases fuel with
    | zero => exact gives_throw _
    | succ fuel =>
      cases rest with
      | nil => exact gives_pure _
      | cons t ts =>
        simp only [redirTokens, List.nil_append, parseredirs, tokLexer_peek_cons,
          decide_eq_true_eq, hrest t rfl, if_false]
        exact gives_pure _
  | cons r rs ih =>
    intro c rest hrest fuel
    cases fuel with
    | zero => exact gives_throw _
    | succ fuel =>
      have hop : r.1.first ∈ ['<', '>'] := by cases r.1 <;> simp [Op.first]
      simp only [redirTokens, List.cons_append, parseredirs, tokLexer_peek_cons, Token.first,
        hop, decide_true, if_true, tokLexer_gettoken_cons, Token.code, ne_eq, not_true_eq_false,
        if_false, Token.wordOr, redirect_code]
      exact ih _ rest hrest fuel

/-- The `&` loop reads the `&`s up to a token that is not one. -/
theorem parseBacks_gives (n : ℕ) :
    ∀ (c : Cmd W) (rest : List (Token W)), (∀ t ∈ rest.head?, t.first ≠ '&') →
      ∀ fuel, Gives (backs n c, rest)
        (parseBacks (tokLexer W) fuel c (List.replicate n .amp ++ rest)) := by
  induction n with
  | zero =>
    intro c rest hrest fuel
    cases fuel with
    | zero => exact gives_throw _
    | succ fuel =>
      cases rest with
      | nil => exact gives_pure _
      | cons t ts =>
        simp only [List.replicate_zero, List.nil_append, parseBacks, tokLexer_peek_cons,
          List.mem_singleton, hrest t rfl, decide_false, Bool.false_eq_true, if_false]
        exact gives_pure _
  | succ n ih =>
    intro c rest hrest fuel
    cases fuel with
    | zero => exact gives_throw _
    | succ fuel =>
      simp only [List.replicate_succ, List.cons_append, parseBacks, tokLexer_peek_cons,
        Token.first, List.mem_singleton, decide_true, if_true, tokLexer_gettoken_cons]
      exact ih _ rest hrest fuel

/-- The loop of `parseexec` reads a word and the redirections after it, round by round,
up to a token that may follow `exec`; the words go under the redirections read so far. -/
theorem parseexecLoop_gives : ∀ fuel (its : List (Item W)) (argc : ℕ) (rs : List (Op × W))
    (ws : List W) (rest : List (Token W)), StartsWord its → Follows .exec rest →
    argc + (Item.words its).length < MAXARGS →
    Gives (wrap (rs ++ Item.redirs its) (.exec (ws ++ Item.words its)), rest)
      (parseexecLoop (tokLexer W) fuel argc (wrap rs (.exec ws)) (its.flatMap Item.tokens ++ rest)) := by
  intro fuel
  induction fuel with
  | zero => intro _ _ _ _ _ _ _ _; exact gives_throw _
  | succ fuel ih =>
    intro its argc rs ws rest hs hf hlen
    cases its with
    | nil =>
      -- no word left: the loop stops at `rest`
      simp only [Item.redirs, Item.words, List.append_nil, List.flatMap_nil, List.nil_append]
      cases rest with
      | nil => exact gives_pure _
      | cons t ts =>
        have ht : t.first ∈ ['|', ')', '&', ';'] := by
          have := hf t rfl
          simp only [stops, List.mem_cons, List.not_mem_nil, or_false] at this ⊢
          rcases this with h | h | h | h <;> simp [h]
        simp only [parseexecLoop, tokLexer_peek_cons, ht, decide_true, if_true]
        exact gives_pure _
    | cons i its =>
      obtain ⟨w, rfl⟩ := hs i rfl
      obtain ⟨rs', its', rfl, hs'⟩ := Item.split its
      have hw : Item.words (Item.word w :: ((rs'.map fun r => Item.redir r.1 r.2) ++ its')) =
          w :: Item.words its' := by simp [Item.words]
      have hr : Item.redirs (Item.word w :: ((rs'.map fun r => Item.redir r.1 r.2) ++ its')) =
          rs' ++ Item.redirs its' := by simp [Item.redirs]
      rw [hw, List.length_cons] at hlen
      have hmax : ¬ MAXARGS ≤ argc + 1 := by omega
      -- one round: the word, then the redirections `rs'` after it
      simp only [List.flatMap_cons, Item.tokens, List.flatMap_append, Item.tokens_redirs,
        List.cons_append, List.append_assoc, parseexecLoop,
        tokLexer_peek_cons, Token.first, tokLexer_gettoken_cons, Token.code, Token.wordOr]
      simp only [show ('a' : Char) ∉ ['|', ')', '&', ';'] by simp, decide_false,
        Bool.false_eq_true, if_false, show ('a' : Char) ≠ '\x00' by simp, ne_eq,
        not_true_eq_false, hmax]
      refine gives_bind (parseredirs_gives rs' _ _ (first_startsWord hs' hf) fuel) ?_
      rw [pushArg_wrap, Cmd.pushArg, ← wrap_append, hw, hr, ← List.append_assoc rs,
        List.append_cons ws w]
      exact ih its' (argc + 1) (rs ++ rs') (ws ++ [w]) rest hs' hf (by omega)

/-- Completeness: the parsing function of `N`, on the tokens of a derivation of `N`
followed by tokens that may follow `N`, returns the derivation's tree and those tokens,
unless it runs out of fuel. The induction is on the derivation. -/
theorem Derives.gives {N : Nonterminal} {xs : List (Token W)} {c : Cmd W}
    (hd : Derives N xs c) :
    ∀ rest, Follows N rest → ∀ fuel, Gives (c, rest) (parseOf N fuel (xs ++ rest)) := by
  induction hd with
  | @backs xs c n hp ih =>
    intro rest hf fuel
    cases fuel with
    | zero => exact gives_throw _
    | succ fuel =>
      simp only [parseOf, parseline, List.append_assoc]
      refine gives_bind (ih _ (follows_amps n (hf.mono (by simp [stops]))) fuel) ?_
      refine gives_bind (parseBacks_gives n c rest (fun t ht => ?_) fuel) ?_
      · have := hf t ht
        simp only [stops, List.mem_singleton] at this
        simp [this]
      · dsimp only
        rw [peek_follows hf (by simp [stops])]
        exact gives_pure _
  | @list xs ys c d n hp hl ihp ihl =>
    intro rest hf fuel
    cases fuel with
    | zero => exact gives_throw _
    | succ fuel =>
      simp only [parseOf, parseline, List.append_assoc, List.cons_append]
      refine gives_bind (ihp _ (follows_amps n (follows_cons _ (by simp [Token.first, stops])))
        fuel) ?_
      refine gives_bind (parseBacks_gives n c (.semi :: (ys ++ rest))
        (fun t ht => by cases ht; simp [Token.first]) fuel) ?_
      simp only [tokLexer_peek_cons, Token.first, List.mem_singleton, decide_true, if_true,
        tokLexer_gettoken_cons]
      refine gives_bind (ihl rest hf fuel) ?_
      exact gives_pure _
  | @exec xs c he ih =>
    intro rest hf fuel
    cases fuel with
    | zero => exact gives_throw _
    | succ fuel =>
      simp only [parseOf, parsepipe]
      refine gives_bind (ih rest (hf.mono (by simp [stops])) fuel) ?_
      dsimp only
      rw [peek_follows hf (by simp [stops])]
      exact gives_pure _
  | @pipe xs ys c d he hp ihe ihp =>
    intro rest hf fuel
    cases fuel with
    | zero => exact gives_throw _
    | succ fuel =>
      simp only [parseOf, parsepipe, List.append_assoc, List.cons_append]
      refine gives_bind (ihe _ (follows_cons _ (by simp [Token.first, stops])) fuel) ?_
      simp only [tokLexer_peek_cons, Token.first, List.mem_singleton, decide_true, if_true,
        tokLexer_gettoken_cons]
      refine gives_bind (ihp rest hf fuel) ?_
      exact gives_pure _
  | @block xs c rs hl ih =>
    intro rest hf fuel
    cases fuel with
    | zero => exact gives_throw _
    | succ fuel =>
      simp only [parseOf, parseexec, List.cons_append, List.append_assoc, tokLexer_peek_cons,
        Token.first, List.mem_singleton, decide_true, if_true]
      cases fuel with
      | zero => exact gives_throw _
      | succ fuel =>
        -- `parseblock`: `(`, the line up to `)`, then the redirections
        simp only [parseblock, tokLexer_peek_cons, Token.first, List.mem_singleton, decide_true,
          Bool.not_true, Bool.false_eq_true, if_false, tokLexer_gettoken_cons]
        refine gives_bind (ih _ (follows_cons _ (by simp [Token.first, stops])) fuel) ?_
        simp only [tokLexer_peek_cons, Token.first, List.mem_singleton, decide_true,
          Bool.not_true, Bool.false_eq_true, if_false, tokLexer_gettoken_cons]
        exact parseredirs_gives rs c rest (fun t ht => by
          have := hf t ht
          simp only [stops, List.mem_cons, List.not_mem_nil, or_false] at this
          rcases this with h | h | h | h <;> simp [h]) fuel
  | simple its hlen =>
    intro rest hf fuel
    cases fuel with
    | zero => exact gives_throw _
    | succ fuel =>
      simp only [parseOf, parseexec]
      rw [peek_eq_false (first_items_ne_lparen its hf)]
      simp only [Bool.false_eq_true, if_false]
      obtain ⟨rs, its', rfl, hs'⟩ := Item.split its
      simp only [List.flatMap_append, Item.tokens_redirs, List.append_assoc]
      refine gives_bind (parseredirs_gives rs _ _ (first_startsWord hs' hf) fuel) ?_
      have hw : Item.words ((rs.map fun r => Item.redir r.1 r.2) ++ its') = Item.words its' := by
        simp
      have hr : Item.redirs ((rs.map fun r => Item.redir r.1 r.2) ++ its') =
          rs ++ Item.redirs its' := by simp
      rw [simpleCmd, hw, hr]
      exact parseexecLoop_gives fuel its' 0 rs [] rest hs' hf (by rw [← hw]; omega)

/-! ## Soundness -/

/-- `peek` says yes only before a token whose first byte it asked for. -/
theorem peek_eq_true {ts : List (Token W)} {toks : List Char}
    (h : ((tokLexer W).peek ts toks).1 = true) : ∃ t ts', ts = t :: ts' ∧ t.first ∈ toks := by
  cases ts with
  | nil => cases h
  | cons t ts =>
    simp only [tokLexer_peek_cons, decide_eq_true_eq] at h
    exact ⟨t, ts, rfl, h⟩

/-- The redirection loop returns the command wrapped by the redirections it read. -/
theorem parseredirs_sound : ∀ fuel (c : Cmd W) ts c' rest,
    parseredirs (tokLexer W) fuel c ts = .ok (c', rest) →
      ∃ rs, ts = redirTokens rs ++ rest ∧ c' = wrap rs c := by
  intro fuel
  induction fuel with
  | zero => intro _ _ _ _ h; cases h
  | succ fuel ih =>
    intro c ts c' rest h
    rw [parseredirs] at h
    split at h
    · next hpk =>
      -- an operator, which must be followed by a word
      obtain ⟨t, ts, rfl, hop⟩ := peek_eq_true hpk
      obtain ⟨o, rfl⟩ := Token.eq_redir hop
      cases ts with
      | nil => cases h
      | cons t' ts =>
        simp only [tokLexer_peek_cons, tokLexer_gettoken_cons] at h
        by_cases ha : t'.code = 'a'
        · obtain ⟨w, rfl⟩ := Token.code_eq_a.1 ha
          simp only [Token.code, ne_eq, not_true_eq_false, if_false, Token.wordOr,
            redirect_code] at h
          obtain ⟨rs, hts, hc⟩ := ih _ _ _ _ h
          exact ⟨(o, w) :: rs, by rw [hts]; rfl, hc⟩
        · simp only [ha, ne_eq, not_false_eq_true, if_true] at h
          cases h
    · cases h
      exact ⟨[], rfl, rfl⟩

/-- The `&` loop returns the command under one `backcmd` for each `&` it read. -/
theorem parseBacks_sound : ∀ fuel (c : Cmd W) ts c' rest,
    parseBacks (tokLexer W) fuel c ts = .ok (c', rest) →
      ∃ n, ts = List.replicate n .amp ++ rest ∧ c' = backs n c := by
  intro fuel
  induction fuel with
  | zero => intro _ _ _ _ h; cases h
  | succ fuel ih =>
    intro c ts c' rest h
    rw [parseBacks] at h
    split at h
    · next hpk =>
      obtain ⟨t, ts, rfl, hamp⟩ := peek_eq_true hpk
      obtain rfl := Token.eq_amp hamp
      simp only [tokLexer_peek_cons, tokLexer_gettoken_cons] at h
      obtain ⟨n, hts, hc⟩ := ih _ _ _ _ h
      exact ⟨n + 1, by rw [hts]; rfl, hc⟩
    · cases h
      exact ⟨0, rfl, rfl⟩

/-- The loop of `parseexec` returns its words under the redirections read, and stops with
fewer than `MAXARGS` words. -/
theorem parseexecLoop_sound : ∀ fuel argc (rs : List (Op × W)) (ws : List W) ts c' rest,
    argc < MAXARGS →
    parseexecLoop (tokLexer W) fuel argc (wrap rs (.exec ws)) ts = .ok (c', rest) →
      ∃ its, ts = its.flatMap Item.tokens ++ rest ∧
        c' = wrap (rs ++ Item.redirs its) (.exec (ws ++ Item.words its)) ∧
        argc + (Item.words its).length < MAXARGS := by
  intro fuel
  induction fuel with
  | zero => intro _ _ _ _ _ _ _ h; cases h
  | succ fuel ih =>
    intro argc rs ws ts c' rest hargc h
    have hnil : argc + (Item.words ([] : List (Item W))).length < MAXARGS := by
      simpa [Item.words] using hargc
    have hend : c' = wrap rs (.exec ws) → c' = wrap (rs ++ Item.redirs ([] : List (Item W)))
        (.exec (ws ++ Item.words ([] : List (Item W)))) := by
      intro hc
      simpa [Item.redirs, Item.words] using hc
    cases ts with
    | nil =>
      -- the end of the line
      simp only [parseexecLoop, tokLexer_peek_nil, Bool.false_eq_true, if_false,
        tokLexer_gettoken_nil, if_true] at h
      cases h
      exact ⟨[], rfl, hend rfl, hnil⟩
    | cons t ts =>
      simp only [parseexecLoop, tokLexer_peek_cons, tokLexer_gettoken_cons,
        Token.code_ne_nul, if_false] at h
      by_cases hstop : t.first ∈ ['|', ')', '&', ';']
      · -- a token that ends the command
        simp only [hstop, decide_true, if_true] at h
        cases h
        exact ⟨[], rfl, hend rfl, hnil⟩
      · simp only [hstop, decide_false, Bool.false_eq_true, if_false] at h
        by_cases ha : t.code = 'a'
        · obtain ⟨w, rfl⟩ := Token.code_eq_a.1 ha
          by_cases hmax : MAXARGS ≤ argc + 1
          · simp only [Token.code, ne_eq, not_true_eq_false, if_false, hmax, if_true] at h
            cases h
          · simp only [Token.code, ne_eq, not_true_eq_false, if_false, hmax, Token.wordOr] at h
            -- the word, then the redirections `rs'` after it
            obtain ⟨r, hr, hloop⟩ := bind_eq_ok h
            obtain ⟨rs', hts, hc⟩ := parseredirs_sound _ _ _ _ _ hr
            rw [hc, pushArg_wrap, Cmd.pushArg, ← wrap_append] at hloop
            obtain ⟨its, hts', hc', hlen⟩ := ih _ _ _ _ _ _ (by omega) hloop
            refine ⟨.word w :: ((rs'.map fun r => Item.redir r.1 r.2) ++ its), ?_, ?_, ?_⟩
            · rw [hts, hts']
              simp [Item.tokens]
            · rw [hc']
              simp [Item.redirs, Item.words]
            · simp only [Item.words, Item.words_append, Item.words_redirs, List.nil_append,
                List.length_cons]
              omega
        · simp only [ha, ne_eq, not_false_eq_true, if_true] at h
          cases h

/-- Soundness: what the parsing functions return is derived by the tokens they consumed.
One induction on the fuel covers the four mutually recursive functions. -/
theorem parse_sound : ∀ fuel,
    (∀ ts c rest, parseline (tokLexer W) fuel ts = .ok (c, rest) →
      ∃ xs, ts = xs ++ rest ∧ Derives .line xs c) ∧
    (∀ ts c rest, parsepipe (tokLexer W) fuel ts = .ok (c, rest) →
      ∃ xs, ts = xs ++ rest ∧ Derives .pipe xs c) ∧
    (∀ ts c rest, parseblock (tokLexer W) fuel ts = .ok (c, rest) →
      ∃ xs, ts = xs ++ rest ∧ Derives .exec xs c) ∧
    (∀ ts c rest, parseexec (tokLexer W) fuel ts = .ok (c, rest) →
      ∃ xs, ts = xs ++ rest ∧ Derives .exec xs c) := by
  intro fuel
  induction fuel with
  | zero => exact ⟨fun _ _ _ h => (by cases h), fun _ _ _ h => (by cases h),
      fun _ _ _ h => (by cases h), fun _ _ _ h => (by cases h)⟩
  | succ fuel ih =>
    obtain ⟨hline, hpipe, hblock, hexec⟩ := ih
    refine ⟨fun ts c rest h => ?_, fun ts c rest h => ?_, fun ts c rest h => ?_,
      fun ts c rest h => ?_⟩
    · -- `parseline`: a pipeline, `&`s, and perhaps `;` and a line
      rw [parseline] at h
      obtain ⟨⟨c₁, rest₁⟩, h₁, hk₁⟩ := bind_eq_ok h
      obtain ⟨xs, rfl, hd⟩ := hpipe _ _ _ h₁
      obtain ⟨⟨c₂, rest₂⟩, h₂, hk₂⟩ := bind_eq_ok hk₁
      obtain ⟨n, rfl, rfl⟩ := parseBacks_sound _ _ _ _ _ h₂
      dsimp only at hk₂
      split at hk₂
      · next hpk =>
        obtain ⟨t, ts', rfl, hsemi⟩ := peek_eq_true hpk
        obtain rfl := Token.eq_semi hsemi
        simp only [tokLexer_peek_cons, tokLexer_gettoken_cons] at hk₂
        obtain ⟨⟨c₃, rest₃⟩, h₃, hk₃⟩ := bind_eq_ok hk₂
        obtain ⟨ys, rfl, hd₃⟩ := hline _ _ _ h₃
        cases hk₃
        exact ⟨xs ++ List.replicate n .amp ++ .semi :: ys, by simp, Derives.list n hd hd₃⟩
      · cases hk₂
        exact ⟨xs ++ List.replicate n .amp, by simp, Derives.backs n hd⟩
    · -- `parsepipe`: a command, and perhaps `|` and a pipeline
      rw [parsepipe] at h
      obtain ⟨⟨c₁, rest₁⟩, h₁, hk₁⟩ := bind_eq_ok h
      obtain ⟨xs, rfl, hd⟩ := hexec _ _ _ h₁
      dsimp only at hk₁
      split at hk₁
      · next hpk =>
        obtain ⟨t, ts', rfl, hbar⟩ := peek_eq_true hpk
        obtain rfl := Token.eq_bar hbar
        simp only [tokLexer_peek_cons, tokLexer_gettoken_cons] at hk₁
        obtain ⟨⟨c₂, rest₂⟩, h₂, hk₂⟩ := bind_eq_ok hk₁
        obtain ⟨ys, rfl, hd₂⟩ := hpipe _ _ _ h₂
        cases hk₂
        exact ⟨xs ++ .bar :: ys, by simp, Derives.pipe hd hd₂⟩
      · cases hk₁
        exact ⟨xs, by simp, Derives.exec hd⟩
    · -- `parseblock`: `(`, a line, `)` and redirections
      rw [parseblock] at h
      split at h
      · cases h
      · next hpk =>
        obtain ⟨t, ts', rfl, hl⟩ := peek_eq_true (by simpa using hpk)
        obtain rfl := Token.eq_lparen hl
        simp only [tokLexer_peek_cons, tokLexer_gettoken_cons] at h
        obtain ⟨⟨c₁, rest₁⟩, h₁, hk₁⟩ := bind_eq_ok h
        obtain ⟨xs, rfl, hd⟩ := hline _ _ _ h₁
        dsimp only at hk₁
        split at hk₁
        · cases hk₁
        · next hpk' =>
          obtain ⟨t, ts'', rfl, hr⟩ := peek_eq_true (by simpa using hpk')
          obtain rfl := Token.eq_rparen hr
          simp only [tokLexer_peek_cons, tokLexer_gettoken_cons] at hk₁
          obtain ⟨rs, rfl, rfl⟩ := parseredirs_sound _ _ _ _ _ hk₁
          exact ⟨.lparen :: xs ++ .rparen :: redirTokens rs, by simp, Derives.block rs hd⟩
    · -- `parseexec`: a block, or redirections and the words of a simple command
      rw [parseexec] at h
      split at h
      · exact hblock _ _ _ h
      · obtain ⟨⟨c₁, rest₁⟩, h₁, hk₁⟩ := bind_eq_ok h
        obtain ⟨rs, hts, rfl⟩ := parseredirs_sound _ _ _ _ _ h₁
        obtain ⟨its, rfl, rfl, hlen⟩ := parseexecLoop_sound fuel 0 rs [] _ _ _ (by decide) hk₁
        rw [tokLexer_peek_snd] at hts
        have hd := Derives.simple ((rs.map fun r => Item.redir r.1 r.2) ++ its)
          (by simpa using hlen)
        refine ⟨((rs.map fun r => Item.redir r.1 r.2) ++ its).flatMap Item.tokens, ?_, ?_⟩
        · rw [hts]
          simp
        · simpa [simpleCmd] using hd

/-! ## Enough fuel -/

theorem bind_ne_outOfFuel {α β : Type} {x : Except String α} {g : α → Except String β}
    (hx : x ≠ .error outOfFuel) (hg : ∀ a, x = .ok a → g a ≠ .error outOfFuel) :
    x >>= g ≠ .error outOfFuel := by
  cases x with
  | error e =>
    intro h
    apply hx
    have he : e = outOfFuel := Except.error.inj h
    rw [he]
  | ok a => exact hg a rfl

theorem pure_ne_outOfFuel {α : Type} (a : α) : (pure a : Except String α) ≠ .error outOfFuel := by
  intro h
  cases h

theorem throw_ne_outOfFuel {α : Type} {e : String} (h : e ≠ outOfFuel) :
    (throw e : Except String α) ≠ .error outOfFuel :=
  fun h' => h (Except.error.inj h')

/-- The redirection loop needs one round per token and one more. -/
theorem parseredirs_fuel : ∀ fuel (c : Cmd W) (ts : List (Token W)), ts.length + 1 ≤ fuel →
    parseredirs (tokLexer W) fuel c ts ≠ .error outOfFuel := by
  intro fuel
  induction fuel with
  | zero => intro _ _ h; omega
  | succ fuel ih =>
    intro c ts hlen
    rw [parseredirs]
    dsimp only
    split
    · next hpk =>
      obtain ⟨t, ts', rfl, -⟩ := peek_eq_true hpk
      split
      · exact throw_ne_outOfFuel (by simp [outOfFuel])
      · apply ih
        simp only [tokLexer_peek_snd, tokLexer_gettoken_snd_snd, List.tail_cons,
          List.length_tail, List.length_cons] at hlen ⊢
        omega
    · exact pure_ne_outOfFuel _

/-- The `&` loop needs one round per token and one more. -/
theorem parseBacks_fuel : ∀ fuel (c : Cmd W) (ts : List (Token W)), ts.length + 1 ≤ fuel →
    parseBacks (tokLexer W) fuel c ts ≠ .error outOfFuel := by
  intro fuel
  induction fuel with
  | zero => intro _ _ h; omega
  | succ fuel ih =>
    intro c ts hlen
    rw [parseBacks]
    split
    · next hpk =>
      obtain ⟨t, ts', rfl, -⟩ := peek_eq_true hpk
      apply ih
      simp only [tokLexer_peek_snd, tokLexer_gettoken_snd_snd, List.tail_cons,
        List.length_cons] at hlen ⊢
      omega
    · exact pure_ne_outOfFuel _

/-- The loop of `parseexec` needs one round per token and one more. -/
theorem parseexecLoop_fuel : ∀ fuel argc (c : Cmd W) (ts : List (Token W)),
    ts.length + 1 ≤ fuel → parseexecLoop (tokLexer W) fuel argc c ts ≠ .error outOfFuel := by
  intro fuel
  induction fuel with
  | zero => intro _ _ _ h; omega
  | succ fuel ih =>
    intro argc c ts hlen
    rw [parseexecLoop]
    dsimp only
    split
    · exact pure_ne_outOfFuel _
    · split
      · exact pure_ne_outOfFuel _
      · next hnul =>
        cases ts with
        | nil => exact absurd rfl hnul
        | cons t ts =>
          split
          · exact throw_ne_outOfFuel (by simp [outOfFuel])
          · split
            · exact throw_ne_outOfFuel (by simp [outOfFuel])
            · simp only [tokLexer_peek_snd, tokLexer_gettoken_snd_snd, List.tail_cons,
                List.length_cons] at hlen ⊢
              refine bind_ne_outOfFuel (parseredirs_fuel fuel _ ts (by omega)) fun r hr => ?_
              obtain ⟨rs, hts, -⟩ := parseredirs_sound _ _ _ _ _ hr
              exact ih _ _ _ (by have := length_le_of_eq_append hts; omega)

/-- Fuel `5 * n + 5` is more than the parsing functions use on `n` tokens: each call
consumes a token or descends one of the four levels `parseline`, `parsepipe`,
`parseexec`, `parseblock`. -/
theorem parse_enough_fuel : ∀ fuel,
    (∀ ts : List (Token W), 5 * ts.length + 4 ≤ fuel →
      parseline (tokLexer W) fuel ts ≠ .error outOfFuel) ∧
    (∀ ts : List (Token W), 5 * ts.length + 3 ≤ fuel →
      parsepipe (tokLexer W) fuel ts ≠ .error outOfFuel) ∧
    (∀ ts : List (Token W), 5 * ts.length + 1 ≤ fuel →
      parseblock (tokLexer W) fuel ts ≠ .error outOfFuel) ∧
    (∀ ts : List (Token W), 5 * ts.length + 2 ≤ fuel →
      parseexec (tokLexer W) fuel ts ≠ .error outOfFuel) := by
  intro fuel
  induction fuel with
  | zero => exact ⟨fun _ h => (by omega), fun _ h => (by omega), fun _ h => (by omega),
      fun _ h => (by omega)⟩
  | succ fuel ih =>
    obtain ⟨hline, hpipe, hblock, hexec⟩ := ih
    refine ⟨fun ts hlen => ?_, fun ts hlen => ?_, fun ts hlen => ?_, fun ts hlen => ?_⟩
    · rw [parseline]
      refine bind_ne_outOfFuel (hpipe ts (by omega)) fun r hr => ?_
      have h₁ := length_le_of_eq_append ((parse_sound fuel).2.1 _ _ _ hr).choose_spec.1
      refine bind_ne_outOfFuel (parseBacks_fuel fuel r.1 r.2 (by omega)) fun r' hr' => ?_
      obtain ⟨n, hts, -⟩ := parseBacks_sound _ _ _ _ _ hr'
      have h₂ := length_le_of_eq_append hts
      dsimp only
      split
      · next hpk =>
        obtain ⟨t, ts', hr2, -⟩ := peek_eq_true hpk
        simp only [tokLexer_peek_snd, tokLexer_gettoken_snd_snd, hr2, List.tail_cons]
        rw [hr2, List.length_cons] at h₂
        exact bind_ne_outOfFuel (hline ts' (by omega)) fun _ _ => pure_ne_outOfFuel _
      · exact pure_ne_outOfFuel _
    · rw [parsepipe]
      refine bind_ne_outOfFuel (hexec ts (by omega)) fun r hr => ?_
      have h₁ := length_le_of_eq_append ((parse_sound fuel).2.2.2 _ _ _ hr).choose_spec.1
      dsimp only
      split
      · next hpk =>
        obtain ⟨t, ts', hr2, -⟩ := peek_eq_true hpk
        simp only [tokLexer_peek_snd, tokLexer_gettoken_snd_snd, hr2, List.tail_cons]
        rw [hr2, List.length_cons] at h₁
        exact bind_ne_outOfFuel (hpipe ts' (by omega)) fun _ _ => pure_ne_outOfFuel _
      · exact pure_ne_outOfFuel _
    · rw [parseblock]
      split
      · exact throw_ne_outOfFuel (by simp [outOfFuel])
      · next hpk =>
        obtain ⟨t, ts', rfl, -⟩ := peek_eq_true (by simpa using hpk)
        simp only [tokLexer_peek_snd, tokLexer_gettoken_snd_snd, List.tail_cons,
          List.length_cons] at hlen ⊢
        refine bind_ne_outOfFuel (hline ts' (by omega)) fun r hr => ?_
        have h₁ := length_le_of_eq_append ((parse_sound fuel).1 _ _ _ hr).choose_spec.1
        split
        · exact throw_ne_outOfFuel (by simp [outOfFuel])
        · exact parseredirs_fuel fuel _ _ (by rw [List.length_tail]; omega)
    · rw [parseexec]
      split
      · exact hblock _ (by simpa using hlen)
      · refine bind_ne_outOfFuel (parseredirs_fuel fuel _ _ (by simp; omega)) fun r hr => ?_
        obtain ⟨rs, hts, -⟩ := parseredirs_sound _ _ _ _ _ hr
        have h₁ := length_le_of_eq_append hts
        rw [tokLexer_peek_snd] at h₁
        exact parseexecLoop_fuel fuel 0 r.1 r.2 (by omega)

/-- On the tokens of a derivation of `line` and nothing after them, `parseline` with fuel
`5 * n + 4` or more returns the derivation's tree. -/
theorem Derives.parseline {xs : List (Token W)} {c : Cmd W} (hd : Derives .line xs c) {fuel : ℕ}
    (hfuel : 5 * xs.length + 4 ≤ fuel) : parseline (tokLexer W) fuel xs = .ok (c, []) := by
  have hg := hd.gives [] (fun t ht => by cases ht) fuel
  rw [List.append_nil] at hg
  exact hg.resolve_right ((parse_enough_fuel fuel).1 xs hfuel)

end Xv6.Sh
