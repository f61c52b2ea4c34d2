import Xv6.Model.Vm
import Mathlib.Data.Nat.Bitwise

/-!
# The arithmetic of the Sv39 macros

What `PGROUNDDOWN`, `PGROUNDUP`, `PX`, `PA2PTE`, `PTE2PA` and `PTE_FLAGS` compute, as
numbers. A virtual address below `MAXVA` has 38 significant bits: its page number
`va / 4096` is written by the three 9-bit indices `PX 2`, `PX 1`, `PX 0`, so two
addresses below `MAXVA` share their three indices exactly when they lie in one page
(`px_eq_iff`). A PTE built as `mappages` builds it gives back the page it was built from
and the permission bits with `PTE_V`, provided the page is aligned and the permission
fits the ten flag bits.
-/

set_option autoImplicit false

namespace Xv6.Vm

@[simp] theorem PGSIZE_toNat : PGSIZE.toNat = 4096 := rfl
@[simp] theorem MAXVA_toNat : MAXVA.toNat = 2 ^ 38 := rfl
theorem PTE_V_eq : PTE_V = 1 := rfl
theorem PTE_U_eq : PTE_U = 16 := rfl

/-! ## Pages -/

/-- Masking off the low twelve bits of a number below `2^64` rounds it down to a page. -/
theorem land_page_mask (x : ℕ) (hx : x < 2 ^ 64) : x &&& (2 ^ 64 - 1 - 4095) = x / 4096 * 4096 := by
  apply Nat.eq_of_testBit_eq
  intro i
  have h1 : (2 ^ 64 - 1 - 4095 : ℕ) = (2 ^ 52 - 1) * 2 ^ 12 := rfl
  have h2 : x / 4096 * 4096 = x / 2 ^ 12 * 2 ^ 12 := rfl
  rw [Nat.testBit_and, h1, h2, Nat.testBit_mul_two_pow, Nat.testBit_mul_two_pow,
    Nat.testBit_two_pow_sub_one, Nat.testBit_div_two_pow]
  by_cases hi : 12 ≤ i
  · rw [Nat.sub_add_cancel hi]
    by_cases hi' : i < 64
    · simp [hi, show i - 12 < 52 by omega]
    · -- above bit 63 both sides are zero
      have : x.testBit i = false :=
        Nat.testBit_lt_two_pow (lt_of_lt_of_le hx (Nat.pow_le_pow_right (by omega) (by omega)))
      simp [this]
  · simp [hi]

theorem PGROUNDDOWN_toNat (a : UInt64) : (PGROUNDDOWN a).toNat = a.toNat / 4096 * 4096 := by
  rw [PGROUNDDOWN, UInt64.toNat_and, UInt64.toNat_not]
  exact land_page_mask a.toNat a.toNat_lt

theorem PGROUNDUP_toNat (sz : UInt64) (h : sz.toNat + 4095 < 2 ^ 64) :
    (PGROUNDUP sz).toNat = (sz.toNat + 4095) / 4096 * 4096 := by
  have hsum : (sz + PGSIZE - 1).toNat = sz.toNat + 4095 := by
    rw [UInt64.toNat_sub, UInt64.toNat_add]
    simp only [PGSIZE_toNat, UInt64.reduceToNat]
    omega
  rw [PGROUNDUP, UInt64.toNat_and, UInt64.toNat_not, hsum]
  exact land_page_mask _ h

/-! ## Indices -/

theorem PX_toNat (l va : UInt64) (hl : l.toNat ≤ 2) :
    (PX l va).toNat = va.toNat / 2 ^ (12 + 9 * l.toNat) % 512 := by
  have hs : (PXSHIFT l).toNat = 12 + 9 * l.toNat := by
    simp only [PXSHIFT, PGSHIFT, UInt64.toNat_add, UInt64.toNat_mul, UInt64.reduceToNat]
    omega
  simp only [PX, PXMASK, UInt64.toNat_and, UInt64.toNat_shiftRight, hs]
  have h511 : (0x1FF : UInt64).toNat = 2 ^ 9 - 1 := rfl
  rw [h511, Nat.and_two_pow_sub_one_eq_mod, Nat.shiftRight_eq_div_pow,
    Nat.mod_eq_of_lt (show 12 + 9 * l.toNat < 64 by omega)]

theorem PX0_toNat (va : UInt64) : (PX 0 va).toNat = va.toNat / 4096 % 512 :=
  PX_toNat 0 va (by decide)

theorem PX1_toNat (va : UInt64) : (PX 1 va).toNat = va.toNat / 2097152 % 512 :=
  PX_toNat 1 va (by decide)

theorem PX2_toNat (va : UInt64) : (PX 2 va).toNat = va.toNat / 1073741824 % 512 :=
  PX_toNat 2 va (by decide)

theorem PX_lt (l va : UInt64) : PX l va < 512 := by
  rw [UInt64.lt_iff_toNat_lt, PX, PXMASK, UInt64.toNat_and]
  exact lt_of_le_of_lt Nat.and_le_right (by decide)

/-- Below `MAXVA`, the three indices of an address name its page. -/
theorem px_eq_iff {va va' : UInt64} (h : va < MAXVA) (h' : va' < MAXVA) :
    (PX 0 va = PX 0 va' ∧ PX 1 va = PX 1 va' ∧ PX 2 va = PX 2 va') ↔
      va.toNat / 4096 = va'.toNat / 4096 := by
  rw [UInt64.lt_iff_toNat_lt, MAXVA_toNat] at h h'
  simp only [← UInt64.toNat_inj, PX0_toNat, PX1_toNat, PX2_toNat]
  omega

/-- The address of entry `i` of a page-table page at an aligned `q`. -/
theorem entry_toNat {q i : UInt64} (hq : q.toNat % 4096 = 0) (hi : i < 512) :
    (q + 8 * i).toNat = q.toNat + 8 * i.toNat := by
  rw [UInt64.lt_iff_toNat_lt] at hi
  rw [UInt64.toNat_add, UInt64.toNat_mul]
  have := q.toNat_lt
  simp only [UInt64.reduceToNat] at *
  omega

/-! ## Page-table entries -/

theorem PTE2PA_toNat (e : UInt64) : (PTE2PA e).toNat = e.toNat / 1024 * 4096 % 2 ^ 64 := by
  simp only [PTE2PA, UInt64.toNat_shiftLeft, UInt64.toNat_shiftRight, Nat.shiftLeft_eq,
    Nat.shiftRight_eq_div_pow, UInt64.reduceToNat, Nat.reduceMod, Nat.reducePow]

/-- Every page a PTE names is aligned. -/
theorem PTE2PA_aligned (e : UInt64) : (PTE2PA e).toNat % 4096 = 0 := by
  rw [PTE2PA_toNat]
  omega

/-- The number a PTE built by `mappages` stands for. -/
theorem mkPte_toNat (pa perm : UInt64) (hperm : perm < 1024) :
    (PA2PTE pa ||| perm ||| PTE_V).toNat = pa.toNat / 4096 * 1024 + (perm.toNat ||| 1) := by
  have hp : perm.toNat < 2 ^ 10 := by simpa [UInt64.lt_iff_toNat_lt] using hperm
  have hpa : (PA2PTE pa).toNat = pa.toNat / 4096 * 1024 := by
    simp only [PA2PTE, UInt64.toNat_shiftLeft, UInt64.toNat_shiftRight, Nat.shiftLeft_eq,
      Nat.shiftRight_eq_div_pow, UInt64.reduceToNat, Nat.reduceMod, Nat.reducePow]
    have := pa.toNat_lt
    omega
  -- the flag bits lie below bit 10, where `PA2PTE` has none, so `|||` adds them
  have hor := Nat.two_pow_add_eq_or_of_lt (i := 10) (b := perm.toNat ||| 1)
    (Nat.or_lt_two_pow hp (Nat.one_lt_two_pow (by omega))) (pa.toNat / 4096)
  simp only [Nat.reducePow] at hor
  have h1 : (1 : UInt64).toNat = 1 := rfl
  rw [UInt64.toNat_or, UInt64.toNat_or, hpa, PTE_V_eq, Nat.or_assoc, h1, Nat.mul_comm, ← hor]

theorem PTE2PA_mkPte (pa perm : UInt64) (hpa : pa.toNat % 4096 = 0) (hperm : perm < 1024) :
    PTE2PA (PA2PTE pa ||| perm ||| PTE_V) = pa := by
  apply UInt64.toNat_inj.mp
  have hp : perm.toNat < 2 ^ 10 := by simpa [UInt64.lt_iff_toNat_lt] using hperm
  have hor : perm.toNat ||| 1 < 1024 := Nat.or_lt_two_pow hp (Nat.one_lt_two_pow (by omega))
  rw [PTE2PA_toNat, mkPte_toNat pa perm hperm]
  have := pa.toNat_lt
  omega

theorem PTE_FLAGS_mkPte (pa perm : UInt64) (hperm : perm < 1024) :
    PTE_FLAGS (PA2PTE pa ||| perm ||| PTE_V) = perm ||| PTE_V := by
  apply UInt64.toNat_inj.mp
  have hp : perm.toNat < 2 ^ 10 := by simpa [UInt64.lt_iff_toNat_lt] using hperm
  have hor : perm.toNat ||| 1 < 1024 := Nat.or_lt_two_pow hp (Nat.one_lt_two_pow (by omega))
  have h : (0x3FF : UInt64).toNat = 2 ^ 10 - 1 := rfl
  have h1 : (1 : UInt64).toNat = 1 := rfl
  rw [PTE_FLAGS, UInt64.toNat_and, mkPte_toNat pa perm hperm, h, Nat.and_two_pow_sub_one_eq_mod,
    UInt64.toNat_or, PTE_V_eq, h1]
  omega

/-- Setting bit 0 sets bit 0. -/
theorem or_one_and_one (x : UInt64) : (x ||| 1) &&& 1 = 1 := by
  apply UInt64.toNat_inj.mp
  have h1 : (1 : UInt64).toNat = 1 := rfl
  rw [UInt64.toNat_and, UInt64.toNat_or, h1, Nat.and_one_is_mod]
  simp

theorem valid_mkPte (pa perm : UInt64) : (PA2PTE pa ||| perm ||| PTE_V) &&& PTE_V ≠ 0 := by
  rw [PTE_V_eq, or_one_and_one]
  decide

/-- The PTE `walk` puts in a page-table page names the page it allocated. -/
theorem PTE2PA_dirPte {p : UInt64} (hp : p.toNat % 4096 = 0) : PTE2PA (PA2PTE p ||| PTE_V) = p := by
  have h := PTE2PA_mkPte p 0 hp (by decide)
  rwa [UInt64.or_zero] at h

theorem valid_dirPte (p : UInt64) : (PA2PTE p ||| PTE_V) &&& PTE_V ≠ 0 := by
  have h := valid_mkPte p 0
  rwa [UInt64.or_zero] at h

theorem zero_not_valid : (0 : UInt64) &&& PTE_V = 0 := rfl

/-- `PTE_U` is one of the flag bits. -/
theorem PTE_FLAGS_and_U (e : UInt64) : PTE_FLAGS e &&& PTE_U = e &&& PTE_U := by
  rw [PTE_FLAGS, UInt64.and_assoc]
  rfl

end Xv6.Vm
