import Xv6.Model.String
import Xv6.Model.User.Ulib

/-!
# `memmove` copies its range

Each `memmove` chooses a direction by its own test. The kernel copies downward only when
the source starts below the destination and reaches into it, and the user library copies
downward whenever the source does not start above the destination. Both choices are safe
on the ranges a C object occupies, which lie below `2^64` (no caller, kernel or user, can
pass a range that runs past the top of the address space): the result is the copy of the
original source bytes into the destination, with every other byte unchanged, whatever the
overlap, and the user library's `n <= 0` writes nothing at all (`memmove_copies_range`).
Source: kernel/string.c:30-51, user/ulib.c:98-116
-/

set_option autoImplicit false

namespace Xv6

theorem toUInt64_eq_ofNat (n : UInt32) : n.toUInt64 = UInt64.ofNat n.toNat := by
  apply UInt64.toNat_inj.mp
  rw [UInt32.toNat_toUInt64, UInt64.toNat_ofNat', Nat.mod_eq_of_lt (by have := n.toNat_lt; omega)]

/-- The kernel's `memmove` on ranges below `2^64` copies the source. -/
theorem memmove_spec (m : Mem) (dst src : UInt64) (n : UInt32) (hs : src.toNat + n.toNat ≤ 2 ^ 64)
    (hd : dst.toNat + n.toNat ≤ 2 ^ 64) : memmove m dst src n = (m.copy dst m src n.toUInt64, dst) := by
  have hn := n.toNat_lt
  rw [toUInt64_eq_ofNat]
  unfold memmove
  by_cases h0 : n = 0
  · subst h0
    rw [if_pos rfl, UInt32.toNat_zero, Mem.ofNat_zero, Mem.copy_zero]
  rw [if_neg h0, toUInt64_eq_ofNat]
  by_cases hdown : src < dst ∧ src + UInt64.ofNat n.toNat > dst
  · -- downward: the source starts below the destination, so `s + n` does not wrap
    rw [if_pos hdown]
    have hsd : src.toNat ≤ dst.toNat := le_of_lt (UInt64.lt_iff_toNat_lt.1 hdown.1)
    rw [Mem.copyDown_eq_copy _ m dst src (by omega) (Mem.downSafe_of_le hsd hd)]
  · rw [if_neg hdown]
    by_cases hlt : src < dst
    · -- upward past a destination that lies above the whole source
      have hsd : src.toNat < dst.toNat := UInt64.lt_iff_toNat_lt.1 hlt
      have hend : ¬ dst < src + UInt64.ofNat n.toNat := fun h => hdown ⟨hlt, h⟩
      rw [UInt64.lt_iff_toNat_lt, Mem.toNat_add_ofNat (by omega)] at hend
      rw [Mem.copyUp_eq_copy _ m dst src (by omega) (Mem.upSafe_of_disjoint (by omega) hd)]
    · -- upward from a destination that does not start above the source
      have hds : dst.toNat ≤ src.toNat := by
        rw [UInt64.lt_iff_toNat_lt] at hlt
        omega
      rw [Mem.copyUp_eq_copy _ m dst src (by omega) (Mem.upSafe_of_le hds hs)]

namespace User

theorem rounds_lt (n : Int32) : rounds n < 2 ^ 31 := by
  have := n.toInt_lt
  unfold rounds
  omega

/-- `while(n-- > 0)` does not run for `n <= 0`. -/
theorem rounds_of_nonpos {n : Int32} (h : n.toInt ≤ 0) : rounds n = 0 := by
  unfold rounds
  omega

/-- The sign-extended `int` added to a pointer, for a positive count. -/
theorem ofInt_eq_rounds {n : Int32} (h : 0 < n.toInt) : UInt64.ofInt n.toInt = UInt64.ofNat (rounds n) := by
  have := n.toInt_lt
  rw [UInt64.ofInt, Int.emod_eq_of_lt (by omega) (by omega)]
  rfl

/-- The user library's `memmove` on ranges below `2^64` copies the source. -/
theorem memmove_spec (m : Mem) (vdst vsrc : UInt64) (n : Int32)
    (hs : vsrc.toNat + rounds n ≤ 2 ^ 64) (hd : vdst.toNat + rounds n ≤ 2 ^ 64) :
    memmove m vdst vsrc n = (m.copy vdst m vsrc (UInt64.ofNat (rounds n)), vdst) := by
  have hn := rounds_lt n
  unfold memmove
  by_cases hup : vsrc > vdst
  · -- upward from a destination below the source
    rw [if_pos hup]
    have hds : vdst.toNat ≤ vsrc.toNat := le_of_lt (UInt64.lt_iff_toNat_lt.1 hup)
    rw [Mem.copyUp_eq_copy _ m vdst vsrc (by omega) (Mem.upSafe_of_le hds hs)]
  · rw [if_neg hup]
    by_cases hpos : 0 < n.toInt
    · -- downward from the ends of the ranges
      have hsd : vsrc.toNat ≤ vdst.toNat := by
        have : ¬ vdst.toNat < vsrc.toNat := fun h => hup (UInt64.lt_iff_toNat_lt.2 h)
        omega
      rw [ofInt_eq_rounds hpos,
        Mem.copyDown_eq_copy _ m vdst vsrc (by omega) (Mem.downSafe_of_le hsd hd)]
    · -- no round at all
      rw [rounds_of_nonpos (by omega), Mem.copyDown, Mem.ofNat_zero, Mem.copy_zero]

/-- For `n <= 0` the user library's `memmove` writes nothing, wherever its pointers are. -/
theorem memmove_of_nonpos (m : Mem) (vdst vsrc : UInt64) {n : Int32} (h : n.toInt ≤ 0) :
    (memmove m vdst vsrc n).1 = m := by
  unfold memmove
  split <;> rw [rounds_of_nonpos h] <;> rfl

end User

/-- For ranges below `2^64`, both `memmove`s leave the destination holding the original
source bytes and every other byte as it was, however the ranges overlap; the user
library's `memmove` with `n <= 0` writes nothing, wherever its pointers are. -/
theorem memmove_copies_range :
    (∀ (m : Mem) (dst src : UInt64) (n : UInt32), src.toNat + n.toNat ≤ 2 ^ 64 →
      dst.toNat + n.toNat ≤ 2 ^ 64 → memmove m dst src n = (m.copy dst m src n.toUInt64, dst)) ∧
    (∀ (m : Mem) (vdst vsrc : UInt64) (n : Int32), vsrc.toNat + User.rounds n ≤ 2 ^ 64 →
      vdst.toNat + User.rounds n ≤ 2 ^ 64 →
      User.memmove m vdst vsrc n = (m.copy vdst m vsrc (UInt64.ofNat (User.rounds n)), vdst)) ∧
    (∀ (m : Mem) (vdst vsrc : UInt64) (n : Int32), n.toInt ≤ 0 → (User.memmove m vdst vsrc n).1 = m) :=
  ⟨memmove_spec, User.memmove_spec, fun m vdst vsrc _ h => User.memmove_of_nonpos m vdst vsrc h⟩

/-- An overlapping move of 8 bytes one byte up, within the first page. -/
theorem memmove_copies_range_one_up :
    (0 : UInt64).toNat + (8 : UInt32).toNat ≤ 2 ^ 64 ∧ (1 : UInt64).toNat + (8 : UInt32).toNat ≤ 2 ^ 64 ∧
      memmove (fun _ => 0) 1 0 8 = (Mem.copy (fun _ => 0) 1 (fun _ => 0) 0 (8 : UInt32).toUInt64, 1) :=
  ⟨by decide, by decide, memmove_copies_range.1 _ 1 0 8 (by decide) (by decide)⟩

end Xv6
