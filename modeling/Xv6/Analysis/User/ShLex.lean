import Xv6.Analysis.User.ShGrammar

/-!
# The shell's lexer, and what `parsecmd` accepts

`lexFrom` tokenises a list of bytes: whitespace `" \t\r\n\v"` is skipped, `|`, `(`, `)`,
`;`, `&`, `<`, `>` and `>>` are tokens, and a word is a maximal run of the other bytes,
held as its bounds in the line. `lex` is the same with each word read as its bytes.

The shell's `peek` and `gettoken` read from `*ps = k` exactly the tokens `lexFrom` gives
for the bytes from `k` to the end `es = strlen(s)` (`gettoken_lexAt`, `peek_lexAt`), so
`lexAt` is a map of lexers from `lexer s es` to the token list, and by
`Lexer.Hom.parse` the parsing functions of `sh.c` return what they return on the tokens.
With the grammar's soundness, completeness and the fuel bound this gives
`parsecmd_accepts_grammar`: `parsecmd(s)` returns without a panic exactly when the tokens
of `s` derive `line`, and then returns the derivation's tree.
Source: user/sh.c:262-330, 448-493
-/

set_option autoImplicit false

namespace Xv6.Sh

/-! ## Tokenising a list of bytes -/

/-- A byte that is neither whitespace nor a symbol. -/
def isWordChar (c : Char) : Bool := decide (c ∉ whitespace ∧ c ∉ symbols)

/-- The one-byte tokens. -/
def single : Char → Option (Token (ℕ × ℕ))
  | '|' => some .bar
  | '(' => some .lparen
  | ')' => some .rparen
  | ';' => some .semi
  | '&' => some .amp
  | '<' => some (.redir .lt)
  | _ => none

/-- The tokens of the bytes `cs`, which start at offset `i` of the line: whitespace is
skipped, `>>` is one token, and a word is a maximal run of other bytes, with its bounds. -/
def lexFrom (i : ℕ) : List Char → List (Token (ℕ × ℕ))
  | [] => []
  | c :: cs =>
    if c ∈ whitespace then lexFrom (i + 1) cs
    else
      match single c with
      | some t => t :: lexFrom (i + 1) cs
      | none =>
        if c = '>' then
          if cs.head? = some '>' then .redir .gtgt :: lexFrom (i + 2) cs.tail
          else .redir .gt :: lexFrom (i + 1) cs
        else
          let n := (cs.takeWhile isWordChar).length
          .word (i, i + n + 1) :: lexFrom (i + n + 1) (cs.drop n)
termination_by cs => cs.length
decreasing_by
  all_goals simp only [List.length_cons, List.length_tail, List.length_drop]
  all_goals omega

/-- The bytes of a word, from its bounds in `cs`. -/
def text (cs : List Char) (w : ℕ × ℕ) : List Char := (cs.drop w.1).take (w.2 - w.1)

/-- The tokens of `cs`, each word as its bytes. -/
def lex (cs : List Char) : List (Token (List Char)) := (lexFrom 0 cs).map (Token.map (text cs))

/-- The C string of a buffer: its bytes before the first NUL. -/
def cstr (s : List Char) : List Char := s.takeWhile (· ≠ '\x00')

/-- The NUL-terminated string at offset `q` of a buffer. -/
def cstrAt (buf : List Char) (q : ℕ) : List Char := cstr (buf.drop q)

/-! ## The buffer up to `es` -/

/-- The bytes at offsets `k .. es - 1`. -/
def slice (s : List Char) (k es : ℕ) : List Char := (s.take es).drop k

/-- The tokens `gettoken` reads from `*ps = k` on. -/
def lexAt (s : List Char) (es k : ℕ) : List (Token (ℕ × ℕ)) := lexFrom k (slice s k es)

/-- `es` is the end of the string in `s`: the bytes before it are not NUL and the byte at
it is. -/
structure Terminated (s : List Char) (es : ℕ) : Prop where
  le_length : es ≤ s.length
  nul_at : charAt s es = '\x00'
  not_nul : ∀ j < es, charAt s j ≠ '\x00'

/-! ## Bytes -/

theorem single_eq_some {c : Char} {t : Token (ℕ × ℕ)} (h : single c = some t) :
    c ∈ ['|', '(', ')', ';', '&', '<'] ∧ t.code = c ∧ t.first = c := by
  unfold single at h
  split at h <;> cases h <;> simp [Token.code, Token.first, Op.code, Op.first]

theorem single_eq_none {c : Char} (h : single c = none) : c ∉ ['|', '(', ')', ';', '&', '<'] := by
  unfold single at h
  split at h <;> simp_all

theorem isWordChar_of_single {c : Char} (h : single c = none) (hgt : c ≠ '>')
    (hws : c ∉ whitespace) : isWordChar c = true := by
  have := single_eq_none h
  simp only [isWordChar, symbols]
  simp_all

theorem terminated_strlen (s : List Char) : Terminated s (strlen s) := by
  induction s with
  | nil => exact ⟨le_rfl, rfl, fun j hj => absurd hj (Nat.not_lt_zero j)⟩
  | cons c s ih =>
    by_cases hc : c = '\x00'
    · have h0 : strlen (c :: s) = 0 := by simp [strlen, hc]
      rw [h0]
      exact ⟨Nat.zero_le _, hc, fun j hj => absurd hj (Nat.not_lt_zero j)⟩
    · have h1 : strlen (c :: s) = strlen s + 1 := by simp [strlen, hc]
      rw [h1]
      refine ⟨by simpa using ih.le_length, ih.nul_at, fun j hj => ?_⟩
      cases j with
      | zero => exact hc
      | succ j => exact ih.not_nul j (by omega)

variable {s : List Char} {es : ℕ}

theorem slice_cons (hes : es ≤ s.length) {k : ℕ} (hk : k < es) :
    slice s k es = charAt s k :: slice s (k + 1) es := by
  unfold slice
  rw [List.drop_eq_getElem_cons (by simp; omega)]
  simp [charAt, List.getElem_take, List.getElem?_eq_getElem (show k < s.length by omega)]

theorem slice_of_le {k : ℕ} (h : es ≤ k) : slice s k es = [] := by
  unfold slice
  exact List.drop_eq_nil_of_le (by simp; omega)

theorem slice_add (k n : ℕ) : slice s (k + n) es = (slice s k es).drop n := by
  unfold slice
  rw [List.drop_drop]

theorem lexAt_of_le {k : ℕ} (h : es ≤ k) : lexAt s es k = [] := by
  rw [lexAt, slice_of_le h, lexFrom]

/-! ## The loops of `peek` and `gettoken` -/

/-- The whitespace loop stops at `es` or at a byte that is not whitespace, and skips no
token. -/
theorem skipWs_spec (ht : Terminated s es) : ∀ k, k ≤ es →
    k ≤ skipWs s es k ∧ skipWs s es k ≤ es ∧ lexAt s es (skipWs s es k) = lexAt s es k ∧
      (skipWs s es k < es → charAt s (skipWs s es k) ∉ whitespace) := by
  intro k
  fun_induction skipWs s es k with
  | case1 k h ih =>
    intro _
    obtain ⟨h1, h2, h3, h4⟩ := ih (by omega)
    refine ⟨by omega, h2, ?_, h4⟩
    rw [h3, lexAt, lexAt, slice_cons ht.le_length h.1, lexFrom, if_pos h.2]
  | case2 k h =>
    intro hk
    exact ⟨le_rfl, hk, rfl, fun hlt hws => h ⟨hlt, hws⟩⟩

/-- The word loop of `gettoken` stops after the longest run of word bytes. -/
theorem skipWord_spec (ht : Terminated s es) : ∀ k, k ≤ es →
    skipWord s es k = k + ((slice s k es).takeWhile isWordChar).length := by
  intro k
  fun_induction skipWord s es k with
  | case1 k h ih =>
    intro _
    have hw : isWordChar (charAt s k) = true := by
      simp only [isWordChar, decide_eq_true_eq]
      exact h.2
    rw [ih (by omega), slice_cons ht.le_length h.1, List.takeWhile_cons_of_pos hw,
      List.length_cons]
    omega
  | case2 k h =>
    intro hk
    rcases Nat.lt_or_ge k es with hlt | hge
    · have hw : ¬ isWordChar (charAt s k) = true := by
        simp only [isWordChar, decide_eq_true_eq]
        exact fun hw => h ⟨hlt, hw⟩
      rw [slice_cons ht.le_length hlt, List.takeWhile_cons_of_neg hw]
      rfl
    · rw [slice_of_le hge]
      rfl

/-! ## The first token -/

theorem lexFrom_single {i : ℕ} {c : Char} {cs : List Char} {t : Token (ℕ × ℕ)}
    (hws : c ∉ whitespace) (h : single c = some t) : lexFrom i (c :: cs) = t :: lexFrom (i + 1) cs := by
  rw [lexFrom, if_neg hws, h]

theorem single_gt : single '>' = none := rfl

theorem lexFrom_gtgt {i : ℕ} {cs : List Char} (h : cs.head? = some '>') :
    lexFrom i ('>' :: cs) = .redir .gtgt :: lexFrom (i + 2) cs.tail := by
  rw [lexFrom, if_neg (by simp [whitespace]), single_gt]
  simp only [h, if_true]

theorem lexFrom_gt {i : ℕ} {cs : List Char} (h : cs.head? ≠ some '>') :
    lexFrom i ('>' :: cs) = .redir .gt :: lexFrom (i + 1) cs := by
  rw [lexFrom, if_neg (by simp [whitespace]), single_gt]
  simp only [h, if_true, if_false]

theorem lexFrom_word {i : ℕ} {c : Char} {cs : List Char} (hws : c ∉ whitespace)
    (hs : single c = none) (hgt : c ≠ '>') :
    lexFrom i (c :: cs) = .word (i, i + (cs.takeWhile isWordChar).length + 1) ::
      lexFrom (i + (cs.takeWhile isWordChar).length + 1) (cs.drop (cs.takeWhile isWordChar).length) := by
  rw [lexFrom, if_neg hws, hs]
  simp only [hgt, if_false]

theorem gettoken_of_end {k q : ℕ} (hq : skipWs s es k = q) (h0 : charAt s q = '\x00') :
    gettoken s es k = ('\x00', (q, q), skipWs s es q) := by
  simp [gettoken, hq, h0]

theorem gettoken_of_single {k q : ℕ} (hq : skipWs s es k = q) {t : Token (ℕ × ℕ)}
    (h : single (charAt s q) = some t) :
    gettoken s es k = (charAt s q, (q, q + 1), skipWs s es (q + 1)) := by
  obtain ⟨h6, -, -⟩ := single_eq_some h
  have hc0 : charAt s q ≠ '\x00' := by
    intro h0
    rw [h0] at h6
    simp at h6
  simp only [gettoken, hq, hc0, h6, if_false, if_true]

theorem gettoken_of_gtgt {k q : ℕ} (hq : skipWs s es k = q) (h1 : charAt s q = '>')
    (h2 : charAt s (q + 1) = '>') : gettoken s es k = ('+', (q, q + 2), skipWs s es (q + 2)) := by
  simp [gettoken, hq, h1, h2]

theorem gettoken_of_gt {k q : ℕ} (hq : skipWs s es k = q) (h1 : charAt s q = '>')
    (h2 : charAt s (q + 1) ≠ '>') : gettoken s es k = ('>', (q, q + 1), skipWs s es (q + 1)) := by
  simp [gettoken, hq, h1, h2]

theorem gettoken_of_word {k q : ℕ} (hq : skipWs s es k = q) (h0 : charAt s q ≠ '\x00')
    (hs : single (charAt s q) = none) (hgt : charAt s q ≠ '>') :
    gettoken s es k = ('a', (q, skipWord s es q), skipWs s es (skipWord s es q)) := by
  have h6 := single_eq_none hs
  simp only [gettoken, hq, h0, h6, hgt, if_false]

theorem skipWs_of_le {k : ℕ} (h : es ≤ k) : skipWs s es k = k := by
  rw [skipWs, if_neg (by omega)]

theorem length_slice (hes : es ≤ s.length) (k : ℕ) : (slice s k es).length = es - k := by
  simp only [slice, List.length_drop, List.length_take]
  omega

theorem head?_slice (hes : es ≤ s.length) (k : ℕ) {c : Char} :
    (slice s k es).head? = some c ↔ k < es ∧ charAt s k = c := by
  rcases Nat.lt_or_ge k es with hlt | hge
  · simp [slice_cons hes hlt, hlt]
  · simp only [slice_of_le hge, List.head?_nil, reduceCtorEq, false_iff, not_and]
    omega

/-- What `gettoken` returns at a cursor whose tokens are `ts`: the first token's code, its
bounds where it is a word, and a cursor whose tokens are the rest; or 0 at the end. -/
def Next (s : List Char) (es : ℕ) (ts : List (Token (ℕ × ℕ))) (g : Char × (ℕ × ℕ) × ℕ) :
    Prop :=
  (ts = [] ∧ g.1 = '\x00' ∧ lexAt s es g.2.2 = []) ∨
    ∃ t, ts = t :: lexAt s es g.2.2 ∧ t.code = g.1 ∧ (g.1 = 'a' → t = .word g.2.1)

/-- The token lexer answers as `g` says. -/
theorem Next.tokLexer {ts : List (Token (ℕ × ℕ))} {g : Char × (ℕ × ℕ) × ℕ} (h : Next s es ts g) :
    ((tokLexer (ℕ × ℕ)).gettoken ts).1 = g.1 ∧
      ((tokLexer (ℕ × ℕ)).gettoken ts).2.2 = lexAt s es g.2.2 ∧
      (g.1 = 'a' → ((tokLexer (ℕ × ℕ)).gettoken ts).2.1 = g.2.1) := by
  rcases h with ⟨rfl, h1, h2⟩ | ⟨t, rfl, h1, h2⟩
  · refine ⟨h1.symm, h2.symm, fun ha => ?_⟩
    rw [h1] at ha
    cases ha
  · refine ⟨h1, rfl, fun ha => ?_⟩
    rw [h2 ha]
    rfl

/-- `gettoken` from `*ps = k` reads the first token that `lexFrom` gives from `k` on, and
leaves `*ps` where the rest starts. -/
theorem gettoken_lexAt (ht : Terminated s es) {k : ℕ} (hk : k ≤ es) :
    (gettoken s es k).2.2 ≤ es ∧ Next s es (lexAt s es k) (gettoken s es k) := by
  obtain ⟨-, hq, hlex, hws⟩ := skipWs_spec ht k hk
  generalize hqk : skipWs s es k = q at hq hlex hws
  rw [← hlex]
  rcases Nat.lt_or_ge q es with hlt | hge
  · have hc : lexAt s es q = lexFrom q (charAt s q :: slice s (q + 1) es) := by
      rw [lexAt, slice_cons ht.le_length hlt]
    have hws := hws hlt
    have hskip := skipWs_spec ht (q + 1) (by omega)
    cases hs : single (charAt s q) with
    | some t =>
      -- a one-byte token
      obtain ⟨h6, hcode, -⟩ := single_eq_some hs
      rw [gettoken_of_single hqk hs]
      refine ⟨hskip.2.1, .inr ⟨t, ?_, hcode, fun ha => ?_⟩⟩
      · rw [hc, lexFrom_single hws hs, hskip.2.2.1, lexAt]
      · change charAt s q = 'a' at ha
        rw [ha] at h6
        simp at h6
    | none =>
      by_cases hgt : charAt s q = '>'
      · by_cases h2 : charAt s (q + 1) = '>'
        · -- `>>`: the second `>` lies before `es`, where the NUL is
          have hlt2 : q + 1 < es := by
            by_contra hle
            have hqe : q + 1 = es := by omega
            rw [hqe, ht.nul_at] at h2
            cases h2
          have hskip2 := skipWs_spec ht (q + 2) (by omega)
          rw [gettoken_of_gtgt hqk hgt h2]
          refine ⟨hskip2.2.1, .inr ⟨.redir .gtgt, ?_, rfl, fun ha => by cases ha⟩⟩
          have hhead : (slice s (q + 1) es).head? = some '>' :=
            (head?_slice ht.le_length (q + 1)).2 ⟨hlt2, h2⟩
          rw [hc, hgt, lexFrom_gtgt hhead, hskip2.2.2.1, lexAt, ← List.drop_one, ← slice_add]
        · -- `>`
          rw [gettoken_of_gt hqk hgt h2]
          refine ⟨hskip.2.1, .inr ⟨.redir .gt, ?_, rfl, fun ha => by cases ha⟩⟩
          have hhead : (slice s (q + 1) es).head? ≠ some '>' :=
            fun hh => h2 ((head?_slice ht.le_length (q + 1)).1 hh).2
          rw [hc, hgt, lexFrom_gt hhead, hskip.2.2.1, lexAt]
      · -- a word: `skipWord` stops where `lexFrom`'s run of word bytes does
        set n := ((slice s (q + 1) es).takeWhile isWordChar).length with hn
        have hword : skipWord s es q = q + n + 1 := by
          rw [skipWord_spec ht q hq, slice_cons ht.le_length hlt,
            List.takeWhile_cons_of_pos (isWordChar_of_single hs hgt hws), List.length_cons]
          omega
        have hnle : n ≤ es - (q + 1) := by
          rw [← length_slice ht.le_length]
          exact (List.takeWhile_prefix _).length_le
        have hskip' := skipWs_spec ht (q + n + 1) (by omega)
        rw [gettoken_of_word hqk (ht.not_nul q hlt) hs hgt, hword]
        refine ⟨hskip'.2.1, .inr ⟨.word (q, q + n + 1), ?_, rfl, fun _ => rfl⟩⟩
        rw [hc, lexFrom_word hws hs hgt, hskip'.2.2.1, lexAt, ← hn, ← slice_add,
          show q + 1 + n = q + n + 1 by omega]
  · -- the end of the string: `gettoken` returns 0 and stays at `es`
    have hqe : q = es := by omega
    subst hqe
    rw [gettoken_of_end hqk ht.nul_at, skipWs_of_le le_rfl]
    exact ⟨le_rfl, .inl ⟨lexAt_of_le le_rfl, rfl, lexAt_of_le le_rfl⟩⟩

/-- The first token of a byte that is not whitespace starts with that byte, or is a word
that the byte starts. -/
theorem lexFrom_head (i : ℕ) {c : Char} (cs : List Char) (hws : c ∉ whitespace) :
    ∃ t ts, lexFrom i (c :: cs) = t :: ts ∧ (t.first = c ∨ isWordChar c ∧ t.first = 'a') := by
  cases hs : single c with
  | some t => exact ⟨t, _, lexFrom_single hws hs, .inl (single_eq_some hs).2.2⟩
  | none =>
    by_cases hgt : c = '>'
    · subst hgt
      by_cases hh : cs.head? = some '>'
      · exact ⟨_, _, lexFrom_gtgt hh, .inl rfl⟩
      · exact ⟨_, _, lexFrom_gt hh, .inl rfl⟩
    · exact ⟨_, _, lexFrom_word hws hs hgt, .inr ⟨isWordChar_of_single hs hgt hws, rfl⟩⟩

/-- `peek` from `*ps = k`, asked about symbols, tests the first token of `lexAt s es k`
and moves only over whitespace. -/
theorem peek_lexAt (ht : Terminated s es) {k : ℕ} (hk : k ≤ es) {toks : List Char}
    (htoks : ∀ c ∈ toks, c ∈ symbols) :
    (tokLexer (ℕ × ℕ)).peek (lexAt s es k) toks =
      ((peek s es k toks).1, lexAt s es (peek s es k toks).2) := by
  obtain ⟨-, hq, hlex, hws⟩ := skipWs_spec ht k hk
  rw [← hlex]
  change _ = (decide (charAt s (skipWs s es k) ≠ '\x00' ∧ charAt s (skipWs s es k) ∈ toks),
    lexAt s es (skipWs s es k))
  generalize skipWs s es k = q at hq hlex hws ⊢
  rcases Nat.lt_or_ge q es with hlt | hge
  · obtain ⟨t, ts, hts, hfirst⟩ := lexFrom_head q (slice s (q + 1) es) (hws hlt)
    rw [lexAt, slice_cons ht.le_length hlt, hts, tokLexer_peek_cons, Prod.mk.injEq]
    refine ⟨?_, rfl⟩
    rcases hfirst with hfirst | ⟨hw, hfirst⟩
    · -- a symbol, or the first byte of a word tested as itself
      rw [hfirst]
      simp [ht.not_nul q hlt]
    · -- a word: neither its first byte nor `'a'` is a symbol
      simp only [isWordChar, decide_eq_true_eq] at hw
      have hc : charAt s q ∉ toks := fun h => hw.2 (htoks _ h)
      have ha : 'a' ∉ toks := fun h => by simpa [symbols] using htoks _ h
      simp [hfirst, hc, ha]
  · have hqe : q = es := by omega
    subst hqe
    rw [lexAt_of_le le_rfl, tokLexer_peek_nil]
    simp [ht.nul_at]

/-! ## `parsecmd` -/

/-- There are no more tokens than bytes. -/
theorem length_lexFrom_le (i : ℕ) (cs : List Char) : (lexFrom i cs).length ≤ cs.length := by
  fun_induction lexFrom i cs with
  | case1 => exact le_rfl
  | case2 i c cs _ ih =>
    rw [List.length_cons]
    omega
  | case3 i c cs _ t _ ih =>
    rw [List.length_cons, List.length_cons]
    omega
  | case4 i cs _ _ _ ih =>
    rw [List.length_tail] at ih
    rw [List.length_cons, List.length_cons]
    omega
  | case5 i cs _ _ _ ih =>
    rw [List.length_cons, List.length_cons]
    omega
  | case6 i c cs _ _ _ n ih =>
    rw [List.length_drop] at ih
    rw [List.length_cons, List.length_cons]
    omega

theorem length_lexAt_le (hes : es ≤ s.length) (k : ℕ) : (lexAt s es k).length ≤ es := by
  have h := length_lexFrom_le k (slice s k es)
  rw [length_slice hes] at h
  rw [lexAt]
  omega

/-- No token is left from `*ps = k` exactly when the whitespace loop reaches the end. -/
theorem lexAt_eq_nil_iff (ht : Terminated s es) {k : ℕ} (hk : k ≤ es) :
    lexAt s es k = [] ↔ skipWs s es k = es := by
  obtain ⟨-, hq, hlex, hws⟩ := skipWs_spec ht k hk
  rw [← hlex]
  generalize skipWs s es k = q at hq hws ⊢
  constructor
  · intro hnil
    by_contra hne
    have hlt : q < es := by omega
    obtain ⟨t, ts, hts, -⟩ := lexFrom_head q (slice s (q + 1) es) (hws hlt)
    rw [lexAt, slice_cons ht.le_length hlt, hts] at hnil
    cases hnil
  · rintro rfl
    exact lexAt_of_le le_rfl

/-- `lexAt` as a map of lexers from the shell's lexer on `s` to its list of tokens, on the
cursors up to the end of the string. -/
def lexHom (s : List Char) : (lexer s (strlen s)).Hom (tokLexer (ℕ × ℕ)) where
  cur := lexAt s (strlen s)
  word := id
  inv k := k ≤ strlen s
  peek_inv k _ hk := (skipWs_spec (terminated_strlen s) k hk).2.1
  gettoken_inv _ hk := (gettoken_lexAt (terminated_strlen s) hk).1
  peek_eq _ _ hk htoks := peek_lexAt (terminated_strlen s) hk htoks
  code_eq _ hk := ((gettoken_lexAt (terminated_strlen s) hk).2.tokLexer).1
  cur_eq _ hk := ((gettoken_lexAt (terminated_strlen s) hk).2.tokLexer).2.1
  word_eq _ hk ha := ((gettoken_lexAt (terminated_strlen s) hk).2.tokLexer).2.2 ha

/-- Soundness: what `parsecmd` returns is derived by the tokens of the whole line. -/
theorem parsecmd_sound {c : Cmd (ℕ × ℕ)} {buf : List Char} (h : parsecmd s = .ok (c, buf)) :
    Derives .line (lexAt s (strlen s) 0) c := by
  unfold parsecmd at h
  obtain ⟨r, hr, hk⟩ := bind_eq_ok h
  dsimp only at hk
  split at hk
  · -- `leftovers`: a token is left after the line
    cases hk
  · next hpk =>
    cases hk
    obtain ⟨hread, hinv⟩ := ((lexHom s).parse (parseFuel (strlen s))).1 0 (Nat.zero_le _)
    -- only whitespace is left, so no token is
    have hnil : lexAt s (strlen s) r.2 = [] :=
      (lexAt_eq_nil_iff (terminated_strlen s) (hinv r hr)).2 (not_not.1 hpk)
    rw [hr] at hread
    have htok : parseline (tokLexer (ℕ × ℕ)) (parseFuel (strlen s)) (lexAt s (strlen s) 0) =
        .ok (r.1, []) := by
      rw [← hnil]
      simpa [lexHom, Except.map] using hread
    obtain ⟨xs, hxs, hd⟩ := (parse_sound _).1 _ _ _ htok
    rw [hxs, List.append_nil]
    exact hd

/-- Completeness: on a line whose tokens derive `line`, `parsecmd` returns the derivation's
tree and the buffer after `nulterminate`. -/
theorem parsecmd_complete {c : Cmd (ℕ × ℕ)} (hd : Derives .line (lexAt s (strlen s) 0) c) :
    parsecmd s = .ok (c, nulterminate c s) := by
  have ht := terminated_strlen s
  -- on the tokens, `parseline` returns the tree with no token left: `parsecmd`'s fuel is
  -- enough, since there are no more tokens than bytes
  have hfuel : 5 * (lexAt s (strlen s) 0).length + 4 ≤ parseFuel (strlen s) := by
    have := length_lexAt_le ht.le_length 0
    unfold parseFuel
    omega
  have htok := hd.parseline hfuel
  obtain ⟨hread, hinv⟩ := ((lexHom s).parse (parseFuel (strlen s))).1 0 (Nat.zero_le _)
  change parseline (tokLexer _) _ (lexAt s (strlen s) 0) = _ at hread
  rw [htok] at hread
  cases hx : parseline (lexer s (strlen s)) (parseFuel (strlen s)) 0 with
  | error e =>
    rw [hx] at hread
    cases hread
  | ok r =>
    rw [hx] at hread
    simp only [Except.map, lexHom, Except.ok.injEq, Prod.mk.injEq, Cmd.map_id] at hread
    obtain ⟨rfl, hnil⟩ := hread
    have hend := (lexAt_eq_nil_iff ht (hinv r hx)).1 hnil.symm
    unfold parsecmd
    dsimp only
    rw [hx]
    exact if_neg (not_not.2 hend)

/-- The tokens `gettoken` reads from the start are those of the C string. -/
theorem lexAt_strlen (s : List Char) : lexAt s (strlen s) 0 = lexFrom 0 (cstr s) := by
  rw [lexAt, slice, List.drop_zero, strlen, cstr,
    ← List.prefix_iff_eq_take.1 (List.takeWhile_prefix _)]

/-- `parsecmd(s)` returns without a panic exactly when the tokens of the C string `s` derive
`line`, and then it returns the derivation's tree. -/
theorem parsecmd_accepts_grammar (s : List Char) (c : Cmd (ℕ × ℕ)) :
    (∃ buf, parsecmd s = .ok (c, buf)) ↔ Derives .line (lexFrom 0 (cstr s)) c := by
  rw [← lexAt_strlen]
  constructor
  · rintro ⟨buf, h⟩
    exact parsecmd_sound h
  · intro hd
    exact ⟨_, parsecmd_complete hd⟩

end Xv6.Sh
