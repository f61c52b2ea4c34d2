import Xv6.Model.User.Grep

/-!
# What `grep` matches and what it prints

The pattern language: after an optional leading `^`, a character followed by `*` is a
starred atom, a `$` that ends the pattern anchors at the end, and every other character is
an atom, `.` for any character (`parseItems`). `Matches` is the language of the items.
`matchhere(re, text)` holds exactly when some prefix of `text` is in the language of `re`,
all of `text` if `$` anchors (`matchhere_iff`), and `match` tries every suffix unless `^`
anchors, so it decides the language of the pattern on the substrings of the text
(`grep_match_decides_pattern`). The three functions are structural recursions, so they
end on every input.

`grep`'s buffer holds 1023 bytes of data. While no newline has come it only grows; once it
holds 1023 bytes, the next `read` asks for 0 bytes, and its 0 ends the loop as the end of
the stream would. A first line of 1023 bytes or more is never printed, and nothing after
it is (`grep_drops_long_line`).
Source: user/grep.c:10-34, user/grep.c:70-104
-/

set_option autoImplicit false

namespace Xv6.User

/-! ## The pattern language -/

/-- An atom: a character, or `.` for any character. -/
inductive Atom where
  | lit (c : Char)
  | any
  deriving DecidableEq, Repr

/-- The atom a pattern character stands for. -/
def Atom.ofChar (c : Char) : Atom := if c = '.' then .any else .lit c

/-- The characters an atom matches. -/
def Atom.accepts : Atom → Char → Prop
  | .lit c, t => t = c
  | .any, _ => True

/-- An atom, once or starred. -/
inductive Item where
  | one (a : Atom)
  | star (a : Atom)
  deriving DecidableEq, Repr

/-- The items of a pattern after its `^`, and whether a final `$` anchors it. -/
def parseItems : List Char → List Item × Bool
  | [] => ([], false)
  | c :: '*' :: re => ((.star (Atom.ofChar c)) :: (parseItems re).1, (parseItems re).2)
  | ['$'] => ([], true)
  | c :: re => ((.one (Atom.ofChar c)) :: (parseItems re).1, (parseItems re).2)

/-- The words of the language of a list of items. -/
inductive Matches : List Item → List Char → Prop
  | nil : Matches [] []
  | one {a : Atom} {c : Char} {items : List Item} {w : List Char} :
      a.accepts c → Matches items w → Matches (.one a :: items) (c :: w)
  | star_nil {a : Atom} {items : List Item} {w : List Char} :
      Matches items w → Matches (.star a :: items) w
  | star_cons {a : Atom} {c : Char} {items : List Item} {w : List Char} :
      a.accepts c → Matches (.star a :: items) w → Matches (.star a :: items) (c :: w)

/-- What `match(re, text)` is to decide: some substring of `text` is in the language of
the pattern, one that starts at the beginning of `text` if `^` anchors it and ends at its
end if `$` does. -/
def PatternMatches (re text : List Char) : Prop :=
  let anchored := re.head? = some '^'
  let r := parseItems (if anchored then re.tail else re)
  ∃ u v w, text = u ++ v ++ w ∧ (anchored → u = []) ∧ (r.2 = true → w = []) ∧ Matches r.1 v

section Language

theorem matches_nil_iff {w : List Char} : Matches [] w ↔ w = [] := by
  constructor
  · intro h
    cases h
    rfl
  · rintro rfl
    exact .nil

theorem matches_one_iff {a : Atom} {items : List Item} {w : List Char} :
    Matches (.one a :: items) w ↔ ∃ c w', w = c :: w' ∧ a.accepts c ∧ Matches items w' := by
  constructor
  · intro h
    cases h with
    | one hc hw => exact ⟨_, _, rfl, hc, hw⟩
  · rintro ⟨c, w', rfl, hc, hw⟩
    exact .one hc hw

/-- A starred atom takes a run of characters it accepts, then the rest of the items. -/
theorem matches_star_iff {a : Atom} {items : List Item} {w : List Char} :
    Matches (.star a :: items) w ↔ ∃ u v, w = u ++ v ∧ (∀ x ∈ u, a.accepts x) ∧ Matches items v := by
  constructor
  · intro h
    generalize hs : (Item.star a :: items) = is at h
    induction h with
    | nil => cases hs
    | one _ _ _ => cases hs
    | star_nil hw _ =>
      cases hs
      exact ⟨[], _, rfl, by simp, hw⟩
    | star_cons hc _ ih =>
      cases hs
      obtain ⟨u, v, rfl, hu, hv⟩ := ih rfl
      refine ⟨_ :: u, v, rfl, ?_, hv⟩
      intro x hx
      rcases List.mem_cons.1 hx with rfl | hx
      · exact hc
      · exact hu x hx
  · rintro ⟨u, v, rfl, hu, hv⟩
    induction u with
    | nil => exact .star_nil hv
    | cons c u ih =>
      exact .star_cons (hu c List.mem_cons_self) (ih fun x hx => hu x (List.mem_cons_of_mem c hx))

end Language

/-! ## The matcher decides the language -/

section Matcher

theorem ofChar_accepts (c t : Char) : (t == c || c == '.') = true ↔ (Atom.ofChar c).accepts t := by
  unfold Atom.ofChar
  by_cases hc : c = '.'
  · simp [hc, Atom.accepts]
  · simp [hc, Atom.accepts]

/-- The test of `matchhere` on one character, the other way round. -/
theorem ofChar_accepts_here (c t : Char) :
    (c == '.' || c == t) = true ↔ (Atom.ofChar c).accepts t := by
  unfold Atom.ofChar
  by_cases hc : c = '.'
  · simp [hc, Atom.accepts]
  · simp only [hc, Bool.or_eq_true, beq_iff_eq, false_or, if_false, Atom.accepts]
    exact eq_comm

/-- A pattern character that is neither starred nor a final `$` is an atom of its own. -/
theorem parseItems_plain {c : Char} {re : List Char} (hstar : ∀ re', re = '*' :: re' → False)
    (hdollar : c = '$' → re = [] → False) :
    parseItems (c :: re) = (.one (Atom.ofChar c) :: (parseItems re).1, (parseItems re).2) := by
  rw [parseItems.eq_4 c re hstar hdollar]

/-- `matchstar` with a `matchhere` that decides `P` decides whether `P` holds after some
run of characters the atom accepts. -/
theorem matchstar_iff {here : List Char → Bool} {P : List Char → Prop} (c : Char)
    (h : ∀ t, here t = true ↔ P t) :
    ∀ text, matchstar here c text = true ↔
      ∃ u v, text = u ++ v ∧ (∀ x ∈ u, (Atom.ofChar c).accepts x) ∧ P v := by
  intro text
  induction text with
  | nil =>
    rw [matchstar, h]
    constructor
    · intro hp
      exact ⟨[], [], rfl, by simp, hp⟩
    · rintro ⟨u, v, huv, -, hp⟩
      obtain ⟨rfl, rfl⟩ := List.append_eq_nil_iff.1 huv.symm
      exact hp
  | cons t text ih =>
    rw [matchstar, Bool.or_eq_true, Bool.and_eq_true, h, ih, ofChar_accepts]
    constructor
    · rintro (hp | ⟨ht, u, v, rfl, hu, hp⟩)
      · exact ⟨[], _, rfl, by simp, hp⟩
      · refine ⟨t :: u, v, rfl, ?_, hp⟩
        intro x hx
        rcases List.mem_cons.1 hx with rfl | hx
        · exact ht
        · exact hu x hx
    · rintro ⟨u, v, huv, hu, hp⟩
      rcases List.cons_eq_append_iff.1 huv with ⟨rfl, rfl⟩ | ⟨u', rfl, rfl⟩
      · exact .inl hp
      · exact .inr ⟨hu t List.mem_cons_self, u', v, rfl, fun x hx => hu x (List.mem_cons_of_mem t hx), hp⟩

/-- `matchhere(re, text)` holds exactly when a prefix of `text` is in the language of `re`,
all of `text` when `re` ends in the anchor `$`. The induction follows the items of `re`: a
starred atom's case calls `matchhere` on the rest of the pattern through `matchstar`, at
every suffix of the text. -/
theorem matchhere_iff (re : List Char) : ∀ text, matchhere re text = true ↔
    ∃ v w, text = v ++ w ∧ Matches (parseItems re).1 v ∧ ((parseItems re).2 = true → w = []) := by
  induction re using parseItems.induct with
  | case1 =>
    intro text
    simp only [matchhere, parseItems, true_iff]
    exact ⟨[], text, rfl, .nil, fun h => absurd h (by decide)⟩
  | case2 c re ih =>
    intro text
    rw [matchhere, matchstar_iff c ih]
    simp only [parseItems, matches_star_iff]
    constructor
    · rintro ⟨u, v', rfl, hu, v, w, rfl, hv, hw⟩
      exact ⟨u ++ v, w, by rw [List.append_assoc], ⟨u, v, rfl, hu, hv⟩, hw⟩
    · rintro ⟨_, w, rfl, ⟨u, v, rfl, hu, hv⟩, hw⟩
      exact ⟨u, v ++ w, by rw [List.append_assoc], hu, v, w, rfl, hv, hw⟩
  | case3 =>
    intro text
    simp only [matchhere, parseItems, List.isEmpty_iff, forall_const, matches_nil_iff]
    constructor
    · rintro rfl
      exact ⟨[], [], rfl, rfl, rfl⟩
    · rintro ⟨v, w, rfl, rfl, rfl⟩
      rfl
  | case4 c re hstar hdollar ih =>
    intro text
    rw [parseItems_plain hstar hdollar]
    simp only [matches_one_iff]
    cases text with
    | nil =>
      -- an atom needs a character, and the text has none left
      rw [matchhere.eq_5 c re hstar hdollar, Bool.false_eq_true, false_iff]
      rintro ⟨v, w, hvw, ⟨c', v', rfl, -⟩, -⟩
      exact List.cons_ne_nil _ _ (List.append_eq_nil_iff.1 hvw.symm).1
    | cons t text =>
      rw [matchhere.eq_4 c re t text hstar hdollar, Bool.and_eq_true, ofChar_accepts_here, ih]
      constructor
      · rintro ⟨ht, v, w, rfl, hv, hw⟩
        exact ⟨t :: v, w, rfl, ⟨t, v, rfl, ht, hv⟩, hw⟩
      · rintro ⟨_, w, htext, ⟨c', v, rfl, hc, hv⟩, hw⟩
        obtain ⟨rfl, rfl⟩ := List.cons_eq_cons.1 htext
        exact ⟨hc, v, w, rfl, hv, hw⟩

/-- The loop of `match` tries `matchhere` at every suffix, so it finds a match that starts
anywhere in the text. -/
theorem matchLoop_iff (re : List Char) : ∀ text, matchLoop re text = true ↔
    ∃ u v w, text = u ++ v ++ w ∧ Matches (parseItems re).1 v ∧
      ((parseItems re).2 = true → w = []) := by
  intro text
  induction text with
  | nil =>
    rw [matchLoop, matchhere_iff]
    constructor
    · rintro ⟨v, w, hvw, hv, hw⟩
      exact ⟨[], v, w, hvw, hv, hw⟩
    · rintro ⟨u, v, w, huvw, hv, hw⟩
      obtain ⟨hu, -⟩ := List.append_eq_nil_iff.1 (List.append_assoc u v w ▸ huvw.symm)
      subst hu
      exact ⟨v, w, huvw, hv, hw⟩
  | cons t text ih =>
    rw [matchLoop, Bool.or_eq_true, matchhere_iff, ih]
    constructor
    · rintro (⟨v, w, hvw, hv, hw⟩ | ⟨u, v, w, rfl, hv, hw⟩)
      · exact ⟨[], v, w, hvw, hv, hw⟩
      · exact ⟨t :: u, v, w, rfl, hv, hw⟩
    · rintro ⟨u, v, w, huvw, hv, hw⟩
      rw [List.append_assoc] at huvw
      rcases List.cons_eq_append_iff.1 huvw with ⟨rfl, hvw⟩ | ⟨u', rfl, htext⟩
      · exact .inl ⟨v, w, hvw.symm, hv, hw⟩
      · exact .inr ⟨u', v, w, by rw [htext, List.append_assoc], hv, hw⟩

/-- `match(re, text)` decides the language of the pattern on the substrings of the text:
prefixes under `^`, suffixes under a final `$`. -/
theorem grep_match_decides_pattern (re text : List Char) :
    reMatch re text = true ↔ PatternMatches re text := by
  unfold reMatch PatternMatches
  split
  · -- `^` anchors: `matchhere` at the text itself
    next re =>
    simp only [List.head?_cons, List.tail_cons, if_true, forall_const, matchhere_iff]
    constructor
    · rintro ⟨v, w, hvw, hv, hw⟩
      exact ⟨[], v, w, hvw, rfl, hw, hv⟩
    · rintro ⟨u, v, w, huvw, rfl, hw, hv⟩
      exact ⟨v, w, huvw, hv, hw⟩
  · next hre =>
    have hhead : ¬ re.head? = some '^' := by
      intro h
      obtain ⟨re', rfl⟩ : ∃ re', re = '^' :: re' := by
        cases re with
        | nil => cases h
        | cons c re' => exact ⟨re', by rw [Option.some_inj.1 h]⟩
      exact hre re' rfl
    simp only [hhead, if_false, IsEmpty.forall_iff, true_and, matchLoop_iff]
    constructor
    · rintro ⟨u, v, w, huvw, hv, hw⟩
      exact ⟨u, v, w, huvw, hw, hv⟩
    · rintro ⟨u, v, w, huvw, hw, hv⟩
      exact ⟨u, v, w, huvw, hv, hw⟩

end Matcher

/-! ## The buffer of `grep` -/

section Buffer

variable (pattern : List Char) (chunk : ℕ → ℕ)

/-- Data with no newline holds no line: `strchr` finds none, nothing is printed, and all of
it is left for the next round. -/
theorem grepLines_no_newline :
    ∀ line xs, '\n' ∉ xs → grepLines pattern line xs = ([], line.reverse ++ xs) := by
  intro line xs
  induction xs generalizing line with
  | nil => intro _; simp [grepLines]
  | cons c xs ih =>
    intro hxs
    have hc : c ≠ '\n' := fun h => hxs (h ▸ List.mem_cons_self)
    rw [grepLines, if_neg hc]
    split
    · rfl
    · rw [ih (c :: line) (fun h => hxs (List.mem_cons_of_mem c h))]
      simp

/-- While the first 1023 bytes of what is buffered and still to come hold no newline, every
round only adds to the buffer, and the rounds end printing nothing: by the time the buffer is
full, the next `read` asks for `1024 - 1023 - 1 = 0` bytes. The induction is on the rounds;
the buffer stays a prefix of the data of at most 1023 bytes. -/
theorem grepLoop_no_newline :
    ∀ fuel k buf rest, buf.length ≤ 1023 → '\n' ∉ (buf ++ rest).take 1023 →
      grepLoop pattern chunk fuel k buf rest = [] := by
  intro fuel
  induction fuel with
  | zero => intro k buf rest _ _; rfl
  | succ fuel ih =>
    intro k buf rest hlen hnl
    set got := rest.take (min (chunk k + 1) (1024 - buf.length - 1)) with hgot
    have hgotlen : buf.length + got.length ≤ 1023 := by
      rw [hgot, List.length_take]
      omega
    have hpre : buf ++ got <+: (buf ++ rest).take 1023 :=
      List.prefix_take_iff.2
        ⟨(List.prefix_append_right_inj buf).2 (List.take_prefix _ rest), by simpa using hgotlen⟩
    have hgotnl : '\n' ∉ buf ++ got := fun h => hnl (hpre.subset h)
    rw [grepLoop]
    split
    · rfl
    · rw [grepLines_no_newline pattern [] _ hgotnl]
      have hrest : buf ++ got ++ rest.drop got.length = buf ++ rest := by
        rw [List.append_assoc, List.prefix_iff_eq_append.1 (List.take_prefix _ rest)]
      simp only [List.reverse_nil, List.nil_append]
      apply ih (k + 1) (buf ++ got) (rest.drop got.length)
      · simpa using hgotlen
      · rw [hrest]
        exact hnl

/-- `grep` prints nothing from a stream whose first 1023 bytes hold no newline, whatever
`read` returns. -/
theorem grep_silent_without_newline (inp : List Char) (h : '\n' ∉ inp.take 1023) :
    grep pattern chunk inp = [] :=
  grepLoop_no_newline pattern chunk _ 0 [] inp (by simp) (by simpa using h)

end Buffer

/-- A line of 1023 bytes and its newline, which the pattern `a` matches, is not printed,
however `read` splits the stream: the buffer fills before the newline comes in. -/
theorem grep_drops_long_line :
    reMatch ['a'] (List.replicate 1023 'a') = true ∧
      ∀ chunk, grep ['a'] chunk (List.replicate 1023 'a' ++ ['\n']) = [] := by
  refine ⟨rfl, fun chunk => grep_silent_without_newline ['a'] chunk _ ?_⟩
  rw [List.take_append_of_le_length (by rw [List.length_replicate]), List.take_replicate]
  intro h
  exact absurd (List.mem_replicate.1 h).2 (by decide)

end Xv6.User
