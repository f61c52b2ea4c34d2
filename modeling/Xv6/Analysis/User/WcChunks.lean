import Xv6.Model.User.Wc
import Xv6.Lib.Runs

/-!
# `wc` does not depend on how `read` splits the stream

`inword` survives from one chunk to the next, so the `for` loops over the chunks make one
fold over the whole stream (`wcLoop_chunks`). Over any list of bytes the fold adds the
bytes to `c`, the newlines to `l`, and to `w` the runs of non-separators that the run
counter of `Xv6.Lib.Runs` starts (`foldl_wcByte_c`, `foldl_wcByte_l`, `foldl_wcByte_w`).
Started outside a word, that is every maximal run. So for every stream and every way of
cutting it into nonempty chunks, `wc` reports the three counts of the whole stream, each
reduced to a 32-bit `int` (`wc_counts_any_chunking`).

The reduction is real: a stream of `2^31` bytes, read 512 at a time, leaves `c` at
`-2^31` (`wc_bytes_wrap_at_two_gib`).
Source: user/wc.c:7-33
-/

set_option autoImplicit false

namespace Xv6.User

/-- The bytes `wc` treats as separators: those `strchr` finds in `" \r\t\n\v"`. -/
def isSeparator (b : Char) : Bool := (strchr wcSeparators b).isSome

theorem strchr_isSome_iff (s : List Char) (c : Char) : (strchr s c).isSome = true ↔ c ∈ s := by
  induction s with
  | nil => simp [strchr]
  | cons x s ih =>
    by_cases hx : x = c
    · simp [strchr, hx]
    · simp [strchr, hx, ih, Ne.symm hx]

theorem isSeparator_eq : isSeparator = fun b => decide (b ∈ wcSeparators) := by
  funext b
  rw [Bool.eq_iff_iff, isSeparator, strchr_isSome_iff, decide_eq_true_eq]

/-! ## One byte -/

@[simp] theorem wcByte_c (st : WcCount) (b : Char) : (wcByte st b).c = st.c + 1 := by
  unfold wcByte
  dsimp only
  split_ifs <;> rfl

@[simp] theorem wcByte_l (st : WcCount) (b : Char) :
    (wcByte st b).l = st.l + (if b = '\n' then 1 else 0) := by
  unfold wcByte
  dsimp only
  split_ifs <;> simp

@[simp] theorem wcByte_w (st : WcCount) (b : Char) :
    (wcByte st b).w = st.w + (if isSeparator b then 0 else if st.inword then 0 else 1) := by
  unfold wcByte isSeparator
  dsimp only
  split_ifs <;> simp_all

@[simp] theorem wcByte_inword (st : WcCount) (b : Char) :
    (wcByte st b).inword = !isSeparator b := by
  unfold wcByte isSeparator
  dsimp only
  split_ifs <;> simp_all

/-! ## A list of bytes -/

theorem ofNat_succ (n : ℕ) : Int32.ofNat (n + 1) = Int32.ofNat n + 1 := Int32.ofNat_add n 1

theorem ofNat_ite_add (c : Bool) (k : ℕ) :
    (if c then 0 else 1 : Int32) + Int32.ofNat k = Int32.ofNat ((if c then 0 else 1) + k) := by
  cases c
  · rw [if_neg (by simp), if_neg (by simp), Nat.add_comm, ofNat_succ, Int32.add_comm]
  · rw [if_pos rfl, if_pos rfl, Int32.zero_add, Nat.zero_add]

theorem foldl_wcByte_c (xs : List Char) :
    ∀ st, (xs.foldl wcByte st).c = st.c + Int32.ofNat xs.length := by
  induction xs with
  | nil => intro st; exact (Int32.add_zero _).symm
  | cons b xs ih =>
    intro st
    rw [List.foldl_cons, ih, wcByte_c, List.length_cons, Int32.add_assoc, ofNat_succ,
      Int32.add_comm (Int32.ofNat _) 1]

theorem foldl_wcByte_l (xs : List Char) :
    ∀ st, (xs.foldl wcByte st).l = st.l + Int32.ofNat (xs.count '\n') := by
  induction xs with
  | nil => intro st; exact (Int32.add_zero _).symm
  | cons b xs ih =>
    intro st
    rw [List.foldl_cons, ih, wcByte_l, List.count_cons, Int32.add_assoc]
    by_cases hb : b = '\n'
    · rw [if_pos hb, if_pos (by simp [hb]), ofNat_succ, Int32.add_comm (Int32.ofNat _) 1]
    · rw [if_neg hb, if_neg (by simp [hb]), Int32.zero_add, Nat.add_zero]

/-- The words the fold adds are the runs the run counter starts from `inword`. -/
theorem foldl_wcByte_w (xs : List Char) :
    ∀ st, (xs.foldl wcByte st).w = st.w + Int32.ofNat (Runs.started isSeparator st.inword xs) := by
  induction xs with
  | nil => intro st; exact (Int32.add_zero _).symm
  | cons b xs ih =>
    intro st
    rw [List.foldl_cons, ih, wcByte_w, wcByte_inword, Runs.started, Int32.add_assoc]
    cases hs : isSeparator b
    · -- `b` is in a word, which it starts when `inword` was 0
      simp only [Bool.false_eq_true, ↓reduceIte, Bool.not_false]
      rw [ofNat_ite_add]
    · rw [if_pos rfl, if_pos rfl, Int32.zero_add]
      rfl

/-! ## The read loop -/

/-- The loop over nonempty chunks is one fold over their concatenation. -/
theorem wcLoop_chunks (chunks : List (List Char)) (h : ∀ ch ∈ chunks, ch ≠ []) :
    ∀ st, wcLoop (chunks.map some) st = .ok (chunks.flatten.foldl wcByte st) := by
  induction chunks with
  | nil => intro st; rfl
  | cons ch chunks ih =>
    intro st
    obtain ⟨b, bs, rfl⟩ := List.exists_cons_of_ne_nil (h ch (List.mem_cons_self ..))
    rw [List.map_cons, wcLoop, ih (fun c hc => h c (List.mem_cons_of_mem _ hc)), List.flatten_cons,
      List.foldl_append]

/-- The three counts `wc` prints for the stream `s`. -/
theorem wc_chunks (chunks : List (List Char)) (h : ∀ ch ∈ chunks, ch ≠ []) :
    wc (chunks.map some) = .ok (Int32.ofNat (chunks.flatten.count '\n'),
      Int32.ofNat (Runs.started isSeparator false chunks.flatten),
      Int32.ofNat chunks.flatten.length) := by
  rw [wc, wcLoop_chunks chunks h]
  show Except.ok (_, _, _) = _
  rw [foldl_wcByte_l, foldl_wcByte_w, foldl_wcByte_c]
  simp only [WcCount.init, Int32.zero_add]

/-- For every stream and every way `read` cuts it into nonempty chunks, `wc` reports its
newlines, its maximal runs of bytes outside `" \r\t\n\v"` and its bytes, each as an `int`. -/
theorem wc_counts_any_chunking (chunks : List (List Char)) (h : ∀ ch ∈ chunks, ch ≠ []) :
    wc (chunks.map some) = .ok (Int32.ofNat (chunks.flatten.count '\n'),
      Int32.ofNat (Runs.runs (fun b => decide (b ∈ wcSeparators)) chunks.flatten).length,
      Int32.ofNat chunks.flatten.length) := by
  rw [wc_chunks chunks h, Runs.started_false, isSeparator_eq]

/-- A word split across two reads is one word. -/
theorem wc_counts_any_chunking_split_word :
    (∀ ch ∈ [['a', 'b'], ['c', ' ', 'd', '\n']], ch ≠ []) ∧
      wc ([['a', 'b'], ['c', ' ', 'd', '\n']].map some) =
        .ok (Int32.ofNat ([['a', 'b'], ['c', ' ', 'd', '\n']].flatten.count '\n'),
          Int32.ofNat (Runs.runs (fun b => decide (b ∈ wcSeparators))
            [['a', 'b'], ['c', ' ', 'd', '\n']].flatten).length,
          Int32.ofNat [['a', 'b'], ['c', ' ', 'd', '\n']].flatten.length) :=
  ⟨by simp, wc_counts_any_chunking _ (by simp)⟩

/-- `2^31` bytes read 512 at a time: `c++` wraps and `wc` prints `-2147483648`. -/
theorem wc_bytes_wrap_at_two_gib :
    ∃ l w c, wc ((List.replicate (2 ^ 22) (List.replicate 512 'a')).map some) = .ok (l, w, c) ∧
      c.toInt = -2 ^ 31 := by
  have hne : ∀ ch ∈ List.replicate (2 ^ 22) (List.replicate 512 'a'), ch ≠ [] := by
    intro ch hch
    rw [List.eq_of_mem_replicate hch]
    exact List.ne_nil_of_length_pos (by rw [List.length_replicate]; omega)
  have hlen : (List.replicate (2 ^ 22) (List.replicate 512 'a')).flatten.length = 2 ^ 31 := by
    rw [List.length_flatten, List.map_replicate, List.length_replicate, List.sum_replicate,
      smul_eq_mul]
    norm_num
  refine ⟨_, _, _, wc_chunks _ hne, ?_⟩
  rw [hlen]
  decide

end Xv6.User
