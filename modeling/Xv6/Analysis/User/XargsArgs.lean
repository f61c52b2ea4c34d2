import Xv6.Model.User.Xargs

/-!
# What `xargs` hands to `exec`

The splitting loop writes `new_argv` only from `argv_len = argc - 1` on, and only non-NULL
pointers (`splitLoop_entries`); `main` then stores the literal `"\0"` at the final
`argv_len`, a pointer to an empty string and not NULL. So every command `xargs` runs is
given `argv[1..argc)`, the pointers of the line, and then an empty argument, never the NULL
that would end its argument list there (`xargs_passes_empty_argument`). The split itself
leaves a word that is followed by one space unterminated: the `p++` of the `for` loop steps
over that space, which is never overwritten, so the word's string runs on to the next NUL.
Source: user/xargs.c:32-68
-/

set_option autoImplicit false

namespace Xv6.User

/-- The entries `exec` is given start with `argv[1..argc)`, and after some entries none of
which is NULL comes an empty string. -/
def EndsInEmpty (argv : List (List Char)) (e : ℕ → Option (List Char)) : Prop :=
  (∀ j, j + 1 < argv.length → e j = some (argv.getD (j + 1) [])) ∧
    ∃ k, argv.length - 1 ≤ k ∧ (∀ j < k, e j ≠ none) ∧ e k = some []

/-- `new_argv` still holds `argv[1..argc)` at its front. -/
def ArgsKept (argv : List (List Char)) (newArgv : ℕ → Option Ptr) : Prop :=
  ∀ j, j + 1 < argv.length → newArgv j = some (.arg (j + 1))

/-- The splitting loop only adds entries: it keeps those below `argv_len`, and every
entry from there to its final `argv_len` is a pointer into `buf`. The induction is on the
iterations of the `for` loop. -/
theorem splitLoop_entries :
    ∀ n buf p len newArgv buf' len' newArgv',
      splitLoop n buf p len newArgv = some (buf', len', newArgv') →
        len ≤ len' ∧ (∀ j < len, newArgv' j = newArgv j) ∧
          (∀ j, len ≤ j → j < len' → newArgv' j ≠ none) := by
  intro n
  induction n with
  | zero =>
    intro buf p len newArgv buf' len' newArgv' h
    simp only [splitLoop, Option.some.injEq, Prod.mk.injEq] at h
    obtain ⟨-, rfl, rfl⟩ := h
    exact ⟨le_rfl, fun _ _ => rfl, fun j h1 h2 => absurd h2 (by omega)⟩
  | succ n ih =>
    intro buf p len newArgv buf' len' newArgv' h
    rw [splitLoop] at h
    split at h
    · simp only [Option.some.injEq, Prod.mk.injEq] at h
      obtain ⟨-, rfl, rfl⟩ := h
      exact ⟨le_rfl, fun _ _ => rfl, fun j h1 h2 => absurd h2 (by omega)⟩
    · dsimp only at h
      split at h
      · split at h
        · cases h
        · -- a word starts here: its pointer goes to `new_argv[len]`
          obtain ⟨hle, hkeep, hset⟩ := ih _ _ _ _ _ _ _ h
          refine ⟨by omega, fun j hj => ?_, fun j h1 h2 => ?_⟩
          · rw [hkeep j (by omega), Function.update_of_ne (by omega)]
          · rcases Nat.eq_or_lt_of_le h1 with hj | h1
            · rw [← hj, hkeep len (by omega), Function.update_self]
              exact Option.some_ne_none _
            · exact hset j h1 h2
      · exact ih _ _ _ _ _ _ _ h

/-- One round of the loop keeps `argv[1..argc)` in `new_argv`, and the child it runs is
given entries that end in an empty string. -/
theorem xargsLoop_round {argv : List (List Char)} {newArgv newArgv' : ℕ → Option Ptr}
    {buf buf' : ℕ → Char} {len : ℕ} (hkept : ArgsKept argv newArgv)
    (h : splitLoop sizeofBuf buf 0 (argv.length - 1) newArgv = some (buf', len, newArgv')) :
    ArgsKept argv (Function.update newArgv' len (some (.str []))) ∧
      EndsInEmpty argv
        (fun j => (Function.update newArgv' len (some (.str [])) j).map (Ptr.deref argv buf')) := by
  obtain ⟨hle, hkeep, hset⟩ := splitLoop_entries _ _ _ _ _ _ _ _ h
  have hkept' : ArgsKept argv (Function.update newArgv' len (some (.str []))) := by
    intro j hj
    rw [Function.update_of_ne (by omega), hkeep j (by omega), hkept j hj]
  refine ⟨hkept', fun j hj => ?_, len, hle, fun j hj => ?_, ?_⟩ <;> dsimp only
  · rw [hkept' j hj]
    rfl
  · rw [Function.update_of_ne (by omega)]
    by_cases hj' : j < argv.length - 1
    · rw [hkeep j hj', hkept j (by omega)]
      exact Option.some_ne_none _
    · intro hnone
      exact hset j (by omega) hj (Option.map_eq_none_iff.1 hnone)
  · rw [Function.update_self]
    rfl

/-- Every child of the loop is given entries that end in an empty string, whatever the
lines: the induction is on the rounds, with `ArgsKept` carried from one to the next. -/
theorem xargsLoop_execs (argv : List (List Char)) :
    ∀ fuel buf newArgv inp, ArgsKept argv newArgv →
      ∀ e ∈ (xargsLoop argv fuel buf newArgv inp).execs, EndsInEmpty argv e := by
  intro fuel
  induction fuel with
  | zero => intro _ _ _ _ e he; cases he
  | succ fuel ih =>
    intro buf newArgv inp hkept e he
    rw [xargsLoop] at he
    split at he
    · cases he
    · split at he
      · cases he
      · next buf' len newArgv' h =>
        obtain ⟨hkept', hends⟩ := xargsLoop_round hkept h
        rcases List.mem_cons.1 he with rfl | he
        · exact hends
        · exact ih _ _ _ hkept' e he

/-- `xargs` never ends a command's argument list with NULL: after `argv[1..argc)` and the
line's pointers, none of them NULL, each command is given an empty string. And the words
of a line are not cut apart: on `a b` the first word's entry is the string `a b`. -/
theorem xargs_passes_empty_argument (argv : List (List Char)) (junk : ℕ → Option Ptr)
    (inp : List Char) :
    (∀ e ∈ (xargs argv junk inp).execs, EndsInEmpty argv e) ∧
      (xargs ["xargs".toList, "echo".toList] junk "a b\n".toList).execs.map
          (fun e => (List.range 4).map e) =
        [[some "echo".toList, some "a b".toList, some "b".toList, some []]] := by
  refine ⟨?_, rfl⟩
  unfold xargs
  split
  · intro e he
    cases he
  · apply xargsLoop_execs
    intro j hj
    simp only [hj, if_true]

end Xv6.User
