import Xv6.Analysis.User.ShLex
import Xv6.Lib.Runs

/-!
# The words `parsecmd` hands to `runcmd`

The tree `parsecmd` returns holds each word as its bounds `(q, eq)` in the line, and
`nulterminate` writes a NUL at every `eq`, so that `runcmd` can pass `argv[i] = q` to `exec`
and `file` to `open` as C strings. A word token of `lexFrom` is a maximal run of word bytes
(`lexFrom_word_mem`), so the byte at one word's end is never inside another word, and the
NUL written there cuts no word short. With the words of a derivation among its tokens
(`Derives.words_mem`) and `nulterminate` writing NULs at the words' ends and nowhere else
(`nulAt_nulterminate`), `parsecmd_words` reads each word of the tree back from the buffer as
exactly its text in the line.
Source: user/sh.c:56-91, 327-343, 448-493
-/

set_option autoImplicit false

namespace Xv6.Sh

/-! ## Where a word token lies -/

/-- `[q, e)` is a word of the bytes `cs`, which start at offset `i` of the line: it lies in
them, its bytes are word bytes, and the byte after it, if there is one, is not. -/
structure WordIn (cs : List Char) (i q e : ℕ) : Prop where
  start : i ≤ q
  nonempty : q < e
  inside : e ≤ i + cs.length
  bytes : ∀ j, q ≤ j → j < e → ∃ c, cs[j - i]? = some c ∧ isWordChar c = true
  after : ∀ c, cs[e - i]? = some c → isWordChar c = false

/-- A word of the bytes after the first `n + 1` is a word of them all. -/
theorem WordIn.cons_drop {cs : List Char} {c : Char} {i n q e : ℕ}
    (h : WordIn (cs.drop n) (i + n + 1) q e) : WordIn (c :: cs) i q e where
  start := by
    have := h.start
    omega
  nonempty := h.nonempty
  inside := by
    have h1 := h.inside
    have h2 := h.start
    have h3 := h.nonempty
    rw [List.length_drop] at h1
    rw [List.length_cons]
    omega
  bytes j hq he := by
    obtain ⟨c', hc', hw⟩ := h.bytes j hq he
    have := h.start
    rw [List.getElem?_drop] at hc'
    refine ⟨c', ?_, hw⟩
    rw [show j - i = n + (j - (i + n + 1)) + 1 by omega, List.getElem?_cons_succ]
    exact hc'
  after c' hc' := by
    have := h.start
    have := h.nonempty
    apply h.after c'
    rw [show e - i = n + (e - (i + n + 1)) + 1 by omega, List.getElem?_cons_succ] at hc'
    rw [List.getElem?_drop]
    exact hc'

/-- Every word token of `lexFrom` is a maximal run of word bytes where it says. -/
theorem lexFrom_word_mem {i q e : ℕ} {cs : List Char} (h : Token.word (q, e) ∈ lexFrom i cs) :
    WordIn cs i q e := by
  fun_induction lexFrom i cs with
  | case1 => cases h
  | case2 i c cs _ ih => exact WordIn.cons_drop (n := 0) (by simpa using ih h)
  | case3 i c cs _ t hs ih =>
    rcases List.mem_cons.1 h with ht | ht
    · -- a one-byte token is no word
      obtain ⟨h6, hcode, -⟩ := single_eq_some hs
      rw [← ht] at hcode
      change 'a' = c at hcode
      subst hcode
      simp at h6
    · exact WordIn.cons_drop (n := 0) (by simpa using ih ht)
  | case4 i cs _ _ _ ih =>
    rcases List.mem_cons.1 h with ht | ht
    · cases ht
    · exact WordIn.cons_drop (n := 1) (by simpa using ih ht)
  | case5 i cs _ _ _ ih =>
    rcases List.mem_cons.1 h with ht | ht
    · cases ht
    · exact WordIn.cons_drop (n := 0) (by simpa using ih ht)
  | case6 i c cs hws hs hgt n ih =>
    rcases List.mem_cons.1 h with ht | ht
    · -- the word that starts here: `c` and the run of word bytes after it
      obtain ⟨rfl, rfl⟩ := Prod.mk.inj (Token.word.inj ht).symm
      have hn : n ≤ cs.length := (List.takeWhile_sublist _).length_le
      refine ⟨le_rfl, by omega, by rw [List.length_cons]; omega, fun j hq he => ?_, fun c' hc' => ?_⟩
      · rcases Nat.eq_zero_or_pos (j - i) with hj | hj
        · exact ⟨c, by rw [hj]; rfl, isWordChar_of_single hs hgt hws⟩
        · obtain ⟨k, hk⟩ : ∃ k, j - i = k + 1 := ⟨j - i - 1, by omega⟩
          have hkn : k < n := by omega
          rw [hk, List.getElem?_cons_succ]
          exact ⟨cs[k], List.getElem?_eq_getElem (by omega),
            Runs.takeWhile_getElem?_of_lt hkn (List.getElem?_eq_getElem (by omega))⟩
      · rw [show i + n + 1 - i = n + 1 by omega, List.getElem?_cons_succ] at hc'
        exact Runs.takeWhile_getElem?_length hc'
    · exact WordIn.cons_drop (ih ht)

/-! ## The words of a tree are word tokens -/

section Words

variable {W : Type}

@[simp] theorem Cmd.words_backs (n : ℕ) (c : Cmd W) : (backs n c).words = c.words := by
  induction n generalizing c with
  | zero => rfl
  | succ n ih => exact ih (.back c)

@[simp] theorem Cmd.words_wrap (rs : List (Op × W)) (c : Cmd W) :
    (wrap rs c).words = c.words ++ rs.map Prod.snd := by
  induction rs generalizing c with
  | nil => simp [wrap]
  | cons r rs ih => simp [wrap, ih, Cmd.words]

theorem word_mem_redirTokens {rs : List (Op × W)} {w : W} (h : w ∈ rs.map Prod.snd) :
    Token.word w ∈ redirTokens rs := by
  induction rs with
  | nil => cases h
  | cons r rs ih =>
    rcases List.mem_cons.1 h with rfl | h
    · exact List.mem_cons_of_mem _ List.mem_cons_self
    · exact List.mem_cons_of_mem _ (List.mem_cons_of_mem _ (ih h))

theorem word_mem_items {its : List (Item W)} {w : W}
    (h : w ∈ Item.words its ∨ w ∈ (Item.redirs its).map Prod.snd) :
    Token.word w ∈ its.flatMap Item.tokens := by
  induction its with
  | nil => simp [Item.words, Item.redirs] at h
  | cons i its ih =>
    cases i with
    | word w' =>
      simp only [Item.words, Item.redirs, List.mem_cons] at h
      rcases h with (rfl | h) | h
      · simp [Item.tokens]
      · exact List.mem_append_right _ (ih (.inl h))
      · exact List.mem_append_right _ (ih (.inr h))
    | redir o file =>
      simp only [Item.words, Item.redirs, List.map_cons, List.mem_cons] at h
      rcases h with h | (rfl | h)
      · exact List.mem_append_right _ (ih (.inl h))
      · simp [Item.tokens]
      · exact List.mem_append_right _ (ih (.inr h))

/-- Every word of a derivation's tree is one of its word tokens. The induction is on the
derivation. -/
theorem Derives.words_mem {N : Nonterminal} {xs : List (Token W)} {c : Cmd W}
    (hd : Derives N xs c) : ∀ w ∈ c.words, Token.word w ∈ xs := by
  induction hd with
  | backs n _ ih =>
    intro w hw
    rw [Cmd.words_backs] at hw
    exact List.mem_append_left _ (ih w hw)
  | list n _ _ ihp ihl =>
    intro w hw
    simp only [Cmd.words, Cmd.words_backs, List.mem_append] at hw
    rcases hw with hw | hw
    · simp [ihp w hw]
    · simp [ihl w hw]
  | exec _ ih => exact ih
  | pipe _ _ ihc ihd =>
    intro w hw
    simp only [Cmd.words, List.mem_append] at hw
    rcases hw with hw | hw
    · simp [ihc w hw]
    · simp [ihd w hw]
  | block rs _ ih =>
    intro w hw
    simp only [Cmd.words_wrap, List.mem_append] at hw
    rcases hw with hw | hw
    · simp [ih w hw]
    · simp [word_mem_redirTokens hw]
  | simple its _ =>
    intro w hw
    simp only [simpleCmd, Cmd.words_wrap, Cmd.words, List.mem_append] at hw
    exact word_mem_items hw

end Words

/-! ## `nulterminate` -/

/-- `buf'` is `buf` with a NUL written at each offset of `E` that lies in it. -/
def NulAt (E : List ℕ) (buf buf' : List Char) : Prop :=
  ∀ j, buf'[j]? = if j ∈ E then buf[j]?.map (fun _ => '\x00') else buf[j]?

theorem nulAt_set (buf : List Char) (e : ℕ) : NulAt [e] buf (buf.set e '\x00') := by
  intro j
  rw [List.getElem?_set']
  by_cases h : e = j
  · subst h
    simp only [List.mem_singleton, if_true]
    rfl
  · simp [h, Ne.symm h]

theorem NulAt.trans {E E' : List ℕ} {b b₁ b₂ : List Char} (h₁ : NulAt E b b₁)
    (h₂ : NulAt E' b₁ b₂) : NulAt (E ++ E') b b₂ := by
  intro j
  rw [h₂ j, h₁ j]
  by_cases hE : j ∈ E <;> by_cases hE' : j ∈ E' <;> simp [hE, hE', Option.map_map, Function.comp_def]

theorem nulAt_foldl (argv : List (ℕ × ℕ)) (buf : List Char) :
    NulAt (argv.map Prod.snd) buf (argv.foldl (fun b w => b.set w.2 '\x00') buf) := by
  induction argv generalizing buf with
  | nil =>
    intro j
    simp
  | cons w argv ih => exact (nulAt_set buf w.2).trans (ih _)

/-- `nulterminate` writes a NUL at the end of each word of the tree, and nothing else. -/
theorem nulAt_nulterminate (c : Cmd (ℕ × ℕ)) (buf : List Char) :
    NulAt (c.words.map Prod.snd) buf (nulterminate c buf) := by
  induction c generalizing buf with
  | exec argv => exact nulAt_foldl argv buf
  | redir c file mode fd ih =>
    rw [Cmd.words, List.map_append]
    exact (ih buf).trans (nulAt_set _ _)
  | pipe l r ihl ihr =>
    rw [Cmd.words, List.map_append]
    exact (ihl buf).trans (ihr _)
  | list l r ihl ihr =>
    rw [Cmd.words, List.map_append]
    exact (ihl buf).trans (ihr _)
  | back c ih => exact ih buf

/-- The bytes of the C string are those of the buffer, and none is NUL. -/
theorem getElem?_cstr {s : List Char} {j : ℕ} {c : Char} (h : (cstr s)[j]? = some c) :
    s[j]? = some c ∧ c ≠ '\x00' := by
  have hpre : cstr s = s.take (cstr s).length :=
    List.prefix_iff_eq_take.1 (List.takeWhile_prefix _)
  have hlt : j < (cstr s).length := (List.getElem?_eq_some_iff.1 h).1
  rw [hpre, List.getElem?_take, if_pos hlt] at h
  refine ⟨h, ?_⟩
  simpa using Runs.takeWhile_getElem?_of_lt hlt h

/-- After `parsecmd`, each word of the tree read from the buffer as the NUL-terminated string
at its start, as `runcmd` reads `argv[i]` and `file`, is the word's text in the line. -/
theorem parsecmd_words {s : List Char} {c : Cmd (ℕ × ℕ)} {buf : List Char}
    (h : parsecmd s = .ok (c, buf)) : ∀ w ∈ c.words, cstrAt buf w.1 = text s w := by
  intro w hw
  have hd := parsecmd_sound h
  have hbuf : buf = nulterminate c s :=
    (Prod.mk.inj (Except.ok.inj ((parsecmd_complete hd).symm.trans h))).2.symm
  -- every word of the tree is a run of word bytes of the C string
  have hword : ∀ w' ∈ c.words, WordIn (cstr s) 0 w'.1 w'.2 := fun w' hw' =>
    lexFrom_word_mem (by rw [← lexAt_strlen]; exact hd.words_mem w' hw')
  obtain ⟨q, e⟩ := w
  have hw0 := hword (q, e) hw
  -- the bytes in `[q, e)` are word bytes of the C string, so none is NUL
  have hbytes : ∀ j, q ≤ j → j < e → ∃ c', s[j]? = some c' ∧ c' ≠ '\x00' := by
    intro j hq he
    obtain ⟨c1, hc1, -⟩ := hw0.bytes j hq he
    rw [Nat.sub_zero] at hc1
    exact ⟨c1, getElem?_cstr hc1⟩
  -- and no word ends among them, since the byte at a word's end is no word byte
  have hkeep : ∀ j, q ≤ j → j < e → buf[j]? = s[j]? := by
    intro j hq he
    rw [hbuf, nulAt_nulterminate c s j, if_neg]
    intro hj
    obtain ⟨w', hw', rfl⟩ := List.mem_map.1 hj
    obtain ⟨c1, hc1, hw1⟩ := hw0.bytes _ hq he
    have := (hword w' hw').after c1 hc1
    rw [hw1] at this
    cases this
  -- at `e` the buffer ends, or holds the NUL that `nulterminate` wrote
  have hend : ∀ c', (buf.drop q)[e - q]? = some c' → decide (c' ≠ '\x00') = false := by
    intro c' hc'
    rw [List.getElem?_drop, show q + (e - q) = e by have := hw0.nonempty; omega, hbuf,
      nulAt_nulterminate c s e, if_pos (List.mem_map.2 ⟨(q, e), hw, rfl⟩)] at hc'
    obtain ⟨_, _, rfl⟩ := Option.map_eq_some_iff.1 hc'
    decide
  unfold cstrAt cstr text
  rw [Runs.takeWhile_eq_take (fun k hk => ?_) hend]
  · -- the bytes up to `e` are those of `s`
    apply List.ext_getElem?
    intro k
    rw [List.getElem?_take, List.getElem?_take]
    split_ifs with hk
    · rw [List.getElem?_drop, List.getElem?_drop]
      exact hkeep (q + k) (by omega) (by omega)
    · rfl
  · obtain ⟨c', hc', hne⟩ := hbytes (q + k) (by omega) (by omega)
    refine ⟨c', ?_, by simpa using hne⟩
    rw [List.getElem?_drop, hkeep (q + k) (by omega) (by omega)]
    exact hc'

/-- `echo hi > f`: the buffer after `nulterminate` holds `echo` and `hi` as C strings, and `f`
runs to the end of the line. -/
theorem parsecmd_words_echo :
    parsecmd ['e', 'c', 'h', 'o', ' ', 'h', 'i', ' ', '>', ' ', 'f'] =
        .ok (.redir (.exec [(0, 4), (5, 7)]) (10, 11) Op.gt.mode Op.gt.fd,
          ['e', 'c', 'h', 'o', '\x00', 'h', 'i', '\x00', '>', ' ', 'f']) ∧
      ∀ w ∈ (Cmd.redir (.exec [(0, 4), (5, 7)]) (10, 11) Op.gt.mode Op.gt.fd : Cmd (ℕ × ℕ)).words,
        cstrAt ['e', 'c', 'h', 'o', '\x00', 'h', 'i', '\x00', '>', ' ', 'f'] w.1 =
          text ['e', 'c', 'h', 'o', ' ', 'h', 'i', ' ', '>', ' ', 'f'] w := by
  have hlex : lexAt ['e', 'c', 'h', 'o', ' ', 'h', 'i', ' ', '>', ' ', 'f']
      (strlen ['e', 'c', 'h', 'o', ' ', 'h', 'i', ' ', '>', ' ', 'f']) 0 =
      [.word (0, 4), .word (5, 7), .redir .gt, .word (10, 11)] := by
    rw [lexAt_strlen]
    simp [cstr, lexFrom, whitespace, single, isWordChar, symbols]
  have hd : Derives .line (lexAt ['e', 'c', 'h', 'o', ' ', 'h', 'i', ' ', '>', ' ', 'f']
      (strlen ['e', 'c', 'h', 'o', ' ', 'h', 'i', ' ', '>', ' ', 'f']) 0)
      (.redir (.exec [(0, 4), (5, 7)]) (10, 11) Op.gt.mode Op.gt.fd) := by
    rw [hlex]
    exact Derives.backs 0 (.exec (Derives.simple [.word (0, 4), .word (5, 7), .redir .gt (10, 11)]
      (by decide)))
  have h := parsecmd_complete hd
  exact ⟨h, parsecmd_words h⟩

end Xv6.Sh
