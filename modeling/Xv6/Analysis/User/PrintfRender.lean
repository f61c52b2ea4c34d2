import Xv6.Model.User.Printf

/-!
# What `printint` prints

The digit loop of `printint` is the loop of `Nat.toDigits` run backwards: both take
`x % base` and go on with `x / base` until it is 0, and the digit table agrees with
`Nat.digitChar` below 10. So `printint(fd, xx, 10, 0)` prints the decimal of the `uint`
that `xx` converts to. For `%l` that number is the `int` the `uint64` argument was
converted to: `%l` prints the low 32 bits of its argument, in decimal.
Source: user/printf.c:15-37, user/printf.c:66-67
-/

set_option autoImplicit false

namespace Xv6.User

theorem digits_getD_of_lt_ten : ∀ d, d < 10 → digits[d]?.getD '0' = Nat.digitChar d := by
  decide

/-- The loop of `printint` and the loop of `Nat.toDigits`, on the same fuel, build the same
digits in opposite orders. -/
theorem toDigitsCore_eq_printintLoop {base : ℕ} (hbase : base ≤ 10) (hpos : 0 < base) :
    ∀ fuel x ds, Nat.toDigitsCore base fuel x ds = (printintLoop base fuel x).reverse ++ ds := by
  intro fuel
  induction fuel with
  | zero => intro x ds; rfl
  | succ fuel ih =>
    intro x ds
    have hd : digits[x % base]?.getD '0' = Nat.digitChar (x % base) :=
      digits_getD_of_lt_ten _ (Nat.lt_of_lt_of_le (Nat.mod_lt x hpos) hbase)
    by_cases hx : x / base = 0
    · simp [Nat.toDigitsCore, printintLoop, hx, hd]
    · simp [Nat.toDigitsCore, printintLoop, hx, hd, ih]

/-- Unsigned, `printint` prints the decimal of the `uint` that `xx` converts to. -/
theorem printint_unsigned_decimal (xx : Int32) :
    printint xx 10 false = Nat.toDigits 10 xx.toUInt32.toNat := by
  simp [printint, Nat.toDigits, toDigitsCore_eq_printintLoop (Nat.le_refl 10) (by decide)]

/-- `x = -xx` of a negative `int`, in `uint`, is its absolute value, also for `INT_MIN`,
whose negation wraps to itself. -/
theorem neg_toUInt32_toNat {xx : Int32} (h : xx < 0) : (-xx).toUInt32.toNat = xx.toInt.natAbs := by
  have h1 : xx.toInt < 0 := Int32.lt_iff_toInt_lt.1 h
  rw [← Int32.toNat_toBitVec, Int32.toBitVec_neg, BitVec.toNat_neg]
  have h2 : xx.toInt = xx.toBitVec.toInt := rfl
  rw [h2, BitVec.toInt_eq_toNat_cond] at h1 ⊢
  have := xx.toBitVec.isLt
  split_ifs at h1 ⊢ with hc <;> omega

theorem toUInt32_toNat_of_nonneg {xx : Int32} (h : ¬ xx < 0) : xx.toUInt32.toNat = xx.toInt.toNat := by
  have h1 : ¬ xx.toInt < 0 := fun h' => h (Int32.lt_iff_toInt_lt.2 h')
  rw [← Int32.toNat_toBitVec]
  have h2 : xx.toInt = xx.toBitVec.toInt := rfl
  rw [h2, BitVec.toInt_eq_toNat_cond] at h1 ⊢
  split_ifs at h1 ⊢ with hc <;> omega

/-- The signed decimal of an integer. -/
def decimal (n : Int) : List Char :=
  if n < 0 then '-' :: Nat.toDigits 10 n.natAbs else Nat.toDigits 10 n.toNat

/-- Signed, as `%d` calls it, `printint` prints the signed decimal of `xx`, `INT_MIN`
included. -/
theorem printint_signed_decimal (xx : Int32) : printint xx 10 true = decimal xx.toInt := by
  have hdig := toDigitsCore_eq_printintLoop (Nat.le_refl 10) (by decide)
  by_cases h : xx < 0
  · have h' : xx.toInt < 0 := Int32.lt_iff_toInt_lt.1 h
    have hneg : (true && decide (xx < 0)) = true := by simp [h]
    simp only [printint, hneg, if_true, neg_toUInt32_toNat h, decimal, if_pos h', Nat.toDigits, hdig]
    simp
  · have h' : ¬ xx.toInt < 0 := fun h'' => h (Int32.lt_iff_toInt_lt.2 h'')
    have hneg : (true && decide (xx < 0)) = false := by simp [h]
    simp only [printint, hneg, Bool.false_eq_true, if_false, toUInt32_toNat_of_nonneg h, decimal,
      if_neg h', Nat.toDigits, hdig]
    simp

/-- `%l` prints its `uint64` argument reduced to 32 bits: `printint` takes an `int`. At
`2^32` it prints `0`, where the decimal of the argument is `4294967296`. -/
theorem printf_long_prints_low_word :
    (∀ w : UInt64, vprintf ['%', 'l'] [.word w] = Nat.toDigits 10 (w.toNat % 2 ^ 32)) ∧
      vprintf ['%', 'l'] [.word (2 ^ 32)] = ['0'] ∧
      Nat.toDigits 10 (2 ^ 32) = ['4', '2', '9', '4', '9', '6', '7', '2', '9', '6'] := by
  refine ⟨fun w => ?_, by decide, by decide⟩
  have h : vprintf ['%', 'l'] [.word w] = printint w.toUInt32.toInt32 10 false := by
    simp [vprintf, vprintfLoop, conversion, nextArg, Arg.toUInt64]
  rw [h, printint_unsigned_decimal, UInt32.toUInt32_toInt32, UInt64.toNat_toUInt32]

end Xv6.User
