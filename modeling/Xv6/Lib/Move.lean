import Xv6.Lib.Mem

/-!
# Copying a range one byte at a time

`copyUp` copies `n` bytes from `s` to `d` upward, one byte at a time, and `copyDown` copies
them downward, starting just below the ends `d` and `s` it is given. Each reads the memory
as its earlier writes left it, so the result is the copy of the original bytes,
`Mem.copy m d m s n`, only when no write lands on a source byte still to be read: `UpSafe`
and `DownSafe` say so, and `copyUp_eq_copy`, `copyDown_eq_copy` give the copy under them.

For ranges that do not wrap past `2^64`, copying upward is safe when the destination does
not start above the source or lies wholly above it, and copying downward is safe when the
source does not start above the destination.
-/

set_option autoImplicit false

namespace Mem

/-- `n` bytes copied from `s` to `d`, lowest first. -/
def copyUp : ℕ → Mem → UInt64 → UInt64 → Mem
  | 0, m, _, _ => m
  | n + 1, m, d, s => copyUp n (Function.update m d (m s)) (d + 1) (s + 1)

/-- `n` bytes copied from below `s` to below `d`, highest first. -/
def copyDown : ℕ → Mem → UInt64 → UInt64 → Mem
  | 0, m, _, _ => m
  | n + 1, m, d, s => copyDown n (Function.update m (d - 1) (m (s - 1))) (d - 1) (s - 1)

/-- Copying upward, the write of byte `i` never lands on source byte `j > i`. -/
def UpSafe (d s : UInt64) (n : ℕ) : Prop :=
  ∀ i j, i < j → j < n → d + UInt64.ofNat i ≠ s + UInt64.ofNat j

/-- Copying downward, the write of byte `i` never lands on source byte `j < i`. -/
def DownSafe (d s : UInt64) (n : ℕ) : Prop :=
  ∀ i j, j < i → i < n → d + UInt64.ofNat i ≠ s + UInt64.ofNat j

variable {m : Mem}

theorem ofNat_zero : UInt64.ofNat 0 = 0 := rfl

theorem toNat_add_ofNat {a : UInt64} {i : ℕ} (h : a.toNat + i < 2 ^ 64) :
    (a + UInt64.ofNat i).toNat = a.toNat + i := by
  rw [UInt64.toNat_add, UInt64.toNat_ofNat', Nat.mod_eq_of_lt (by omega : i < 2 ^ 64)]
  exact Nat.mod_eq_of_lt h

/-- A copy reads its source only in the range it copies. -/
theorem copy_congr_src {d s : UInt64} {src src' : Mem} {c : UInt64}
    (h : ∀ k : UInt64, k < c → src (s + k) = src' (s + k)) :
    m.copy d src s c = m.copy d src' s c := by
  funext b
  unfold copy
  split
  · next hb => exact h _ hb
  · rfl

/-- A copy of `c + 1` bytes is the copy of its first `c` over the memory with the last byte
already stored. -/
theorem copy_succ_last {d s c : UInt64} {src : Mem} (hc : c.toNat + 1 < 2 ^ 64) :
    Mem.copy (Function.update m (d + c) (src (s + c))) d src s c = m.copy d src s (c + 1) := by
  funext b
  have hc1 : (c + 1).toNat = c.toNat + 1 := by
    rw [UInt64.toNat_add]
    simp only [UInt64.reduceToNat]
    omega
  have hlt : b - d < c + 1 ↔ b - d < c ∨ b - d = c := by
    rw [UInt64.lt_iff_toNat_lt, UInt64.lt_iff_toNat_lt, hc1, ← UInt64.toNat_inj]
    omega
  unfold copy
  by_cases h : b - d < c
  · rw [if_pos h, if_pos (hlt.2 (.inl h))]
  · rw [if_neg h]
    by_cases hb : b = d + c
    · -- the last byte, which the update wrote
      subst hb
      rw [Function.update_self, if_pos (hlt.2 (.inr (by grind))), show d + c - d = c by grind]
    · have hne : b - d ≠ c := fun he => hb (by grind)
      rw [Function.update_of_ne hb, if_neg (fun h' => (hlt.1 h').elim h hne)]

/-- Copying upward under `UpSafe` copies the original bytes. -/
theorem copyUp_eq_copy : ∀ (n : ℕ) (m : Mem) (d s : UInt64), n < 2 ^ 64 → UpSafe d s n →
    copyUp n m d s = m.copy d m s (UInt64.ofNat n) := by
  intro n
  induction n with
  | zero =>
    intro m d s _ _
    rw [copyUp, ofNat_zero, copy_zero]
  | succ n ih =>
    intro m d s hn hsafe
    -- the rest of the copy starts one byte up, where `UpSafe` still holds
    have hsafe' : UpSafe (d + 1) (s + 1) n := by
      intro i j hij hj he
      apply hsafe (i + 1) (j + 1) (by omega) (by omega)
      rw [UInt64.ofNat_add, UInt64.ofNat_add, UInt64.ofNat_one]
      grind
    -- the first write is not to a byte the rest reads
    have hread : ∀ k : UInt64, k < UInt64.ofNat n →
        Function.update m d (m s) (s + 1 + k) = m (s + 1 + k) := by
      intro k hk
      apply Function.update_of_ne
      intro he
      have hk' : k.toNat < n := by
        rw [UInt64.lt_iff_toNat_lt, UInt64.toNat_ofNat', Nat.mod_eq_of_lt (by omega)] at hk
        exact hk
      apply hsafe 0 (k.toNat + 1) (by omega) (by omega)
      rw [ofNat_zero, UInt64.add_zero, ← he, UInt64.ofNat_add, UInt64.ofNat_toNat,
        UInt64.ofNat_one]
      grind
    have hn1 : (UInt64.ofNat n).toNat + 1 < 2 ^ 64 := by
      rw [UInt64.toNat_ofNat', Nat.mod_eq_of_lt (by omega)]
      omega
    rw [copyUp, ih _ _ _ (by omega) hsafe', copy_congr_src hread, copy_succ hn1,
      UInt64.ofNat_add, UInt64.ofNat_one]

/-- Copying downward from the ends of the ranges under `DownSafe` copies the original
bytes. -/
theorem copyDown_eq_copy : ∀ (n : ℕ) (m : Mem) (d s : UInt64), n < 2 ^ 64 → DownSafe d s n →
    copyDown n m (d + UInt64.ofNat n) (s + UInt64.ofNat n) = m.copy d m s (UInt64.ofNat n) := by
  intro n
  induction n with
  | zero =>
    intro m d s _ _
    rw [copyDown, ofNat_zero, copy_zero]
  | succ n ih =>
    intro m d s hn hsafe
    have hsafe' : DownSafe d s n := fun i j hji hi => hsafe i j hji (by omega)
    -- the first write, of the last byte, is not to a byte the rest reads
    have hread : ∀ k : UInt64, k < UInt64.ofNat n →
        Function.update m (d + UInt64.ofNat n) (m (s + UInt64.ofNat n)) (s + k) = m (s + k) := by
      intro k hk
      apply Function.update_of_ne
      intro he
      have hk' : k.toNat < n := by
        rw [UInt64.lt_iff_toNat_lt, UInt64.toNat_ofNat', Nat.mod_eq_of_lt (by omega)] at hk
        exact hk
      apply hsafe n k.toNat hk' (by omega)
      rw [← he, UInt64.ofNat_toNat]
    have hn1 : (UInt64.ofNat n).toNat + 1 < 2 ^ 64 := by
      rw [UInt64.toNat_ofNat', Nat.mod_eq_of_lt (by omega)]
      omega
    have hd : d + UInt64.ofNat (n + 1) - 1 = d + UInt64.ofNat n := by
      rw [UInt64.ofNat_add, UInt64.ofNat_one]
      grind
    have hs : s + UInt64.ofNat (n + 1) - 1 = s + UInt64.ofNat n := by
      rw [UInt64.ofNat_add, UInt64.ofNat_one]
      grind
    rw [copyDown, hd, hs, ih _ _ _ (by omega) hsafe', copy_congr_src hread, copy_succ_last hn1,
      UInt64.ofNat_add, UInt64.ofNat_one]

/-- Upward is safe when the destination does not start above the source. -/
theorem upSafe_of_le {d s : UInt64} {n : ℕ} (hds : d.toNat ≤ s.toNat)
    (hs : s.toNat + n ≤ 2 ^ 64) : UpSafe d s n := by
  intro i j hij hj he
  have h := congrArg UInt64.toNat he
  rw [toNat_add_ofNat (by omega), toNat_add_ofNat (by omega)] at h
  omega

/-- Upward is safe when the destination lies wholly above the source. -/
theorem upSafe_of_disjoint {d s : UInt64} {n : ℕ} (hsd : s.toNat + n ≤ d.toNat)
    (hd : d.toNat + n ≤ 2 ^ 64) : UpSafe d s n := by
  intro i j hij hj he
  have h := congrArg UInt64.toNat he
  rw [toNat_add_ofNat (by omega), toNat_add_ofNat (by omega)] at h
  omega

/-- Downward is safe when the source does not start above the destination. -/
theorem downSafe_of_le {d s : UInt64} {n : ℕ} (hsd : s.toNat ≤ d.toNat)
    (hd : d.toNat + n ≤ 2 ^ 64) : DownSafe d s n := by
  intro i j hji hi he
  have h := congrArg UInt64.toNat he
  rw [toNat_add_ofNat (by omega), toNat_add_ofNat (by omega)] at h
  omega

end Mem
