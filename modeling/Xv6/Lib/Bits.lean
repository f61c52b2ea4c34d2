import Mathlib

/-!
# One bit of a byte

A byte is a map from the bit indices `0 .. 7` to booleans, read with `Nat.testBit` of its
value. The mask `1 << k` of a bit index below 8 has bit `k` only, so or-ing it in sets
bit `k`, and-ing with its complement clears it, both leave every other bit alone, and
and-ing with it is zero exactly when bit `k` is clear.
-/

set_option autoImplicit false

namespace ByteBits

theorem testBit_toNat (x : UInt8) (i : ℕ) : x.toNat.testBit i = x.toBitVec.getLsbD i := by
  rw [← UInt8.toNat_toBitVec, BitVec.testBit_toNat]

/-- The mask `1 << k` has bit `k` only. -/
theorem getLsbD_mask {k : ℕ} (hk : k < 8) (i : ℕ) :
    ((1 : UInt8) <<< k.toUInt8).toBitVec.getLsbD i = decide (i = k) := by
  have hsmall : ∀ k < 8, ∀ i < 8, ((1 : UInt8) <<< k.toUInt8).toBitVec.getLsbD i = decide (i = k) := by
    decide
  by_cases hi : i < 8
  · exact hsmall k hk i hi
  · rw [BitVec.getLsbD_of_ge _ _ (by omega)]
    simp only [Bool.false_eq, decide_eq_false_iff_not]
    omega

@[simp] theorem testBit_or_mask (x : UInt8) {k : ℕ} (hk : k < 8) (i : ℕ) :
    (x ||| (1 : UInt8) <<< k.toUInt8).toNat.testBit i = (x.toNat.testBit i || decide (i = k)) := by
  rw [testBit_toNat, testBit_toNat, UInt8.toBitVec_or, BitVec.getLsbD_or, getLsbD_mask hk]

@[simp] theorem testBit_and_not_mask (x : UInt8) {k : ℕ} (hk : k < 8) (i : ℕ) :
    (x &&& ~~~((1 : UInt8) <<< k.toUInt8)).toNat.testBit i =
      (x.toNat.testBit i && !decide (i = k)) := by
  rw [testBit_toNat, testBit_toNat, UInt8.toBitVec_and, BitVec.getLsbD_and, UInt8.toBitVec_not]
  by_cases hi : i < 8
  · rw [BitVec.getLsbD_not, getLsbD_mask hk]
    simp [hi]
  · rw [BitVec.getLsbD_of_ge _ _ (by omega)]
    simp

@[simp] theorem testBit_zero (i : ℕ) : (0 : UInt8).toNat.testBit i = false := by
  simp

/-- The test `(x & (1 << k)) == 0` of the code reads bit `k`. -/
theorem and_mask_eq_zero_iff (x : UInt8) {k : ℕ} (hk : k < 8) :
    x &&& (1 : UInt8) <<< k.toUInt8 = 0 ↔ x.toNat.testBit k = false := by
  rw [← UInt8.toBitVec_inj, UInt8.toBitVec_and, testBit_toNat]
  constructor
  · intro h
    have hk' := congrArg (fun v => v.getLsbD k) h
    simp only [BitVec.getLsbD_and, getLsbD_mask hk, decide_true, Bool.and_true,
      UInt8.toBitVec_zero, BitVec.getLsbD_zero] at hk'
    exact hk'
  · intro h
    apply BitVec.eq_of_getLsbD_eq
    intro i hi
    rw [BitVec.getLsbD_and, getLsbD_mask hk]
    by_cases hik : i = k
    · subst hik
      simp [h]
    · simp [hik]

end ByteBits
