import Mathlib

/-!
# Byte-addressed memory

Memory is a map from 64-bit addresses to bytes. On it stand the 64-bit little-endian
words that a RISC-V `ld` and `sd` read and write, `memset`'s fill of a range with one
byte, and `memmove`'s copy of a range out of another memory. A range `[p, p + n)` is
taken modulo `2^64`, as the machine's addresses are: `b` lies in it when `b - p < n`.

The lemmas say what a read sees after each kind of write: the value written, inside the
range, and the old memory outside it. A word load depends only on its eight bytes
(`load64_congr`), so every frame argument is a statement about which bytes a write
touches. Two words, or two 4096-byte pages, at distinct aligned addresses share no byte.
-/

set_option autoImplicit false

/-- Memory, byte by byte. -/
abbrev Mem := UInt64 → UInt8

namespace Mem

/-- The number the `n` bytes from `a` on stand for, least significant first. -/
def combine (m : Mem) (a : UInt64) : ℕ → ℕ
  | 0 => 0
  | n + 1 => (m a).toNat + 256 * combine m (a + 1) n

/-- The 64-bit little-endian word at `a`. -/
def load64 (m : Mem) (a : UInt64) : UInt64 := UInt64.ofNat (m.combine a 8)

/-- `m` with the 64-bit little-endian word `v` stored at `a`. -/
def store64 (m : Mem) (a v : UInt64) : Mem := fun b =>
  if b - a < 8 then UInt8.ofNat (v.toNat / 256 ^ (b - a).toNat) else m b

/-- `m` with the `n` bytes from `p` on set to `c` (`memset`). -/
def fill (m : Mem) (p : UInt64) (c : UInt8) (n : UInt64) : Mem := fun b =>
  if b - p < n then c else m b

/-- `m` with the `n` bytes from `d` on copied from the `n` bytes from `s` on in `src`
(`memmove` between two memories). -/
def copy (m : Mem) (d : UInt64) (src : Mem) (s n : UInt64) : Mem := fun b =>
  if b - d < n then src (s + (b - d)) else m b

variable {m m' : Mem}

/-- The successor of an offset below a bound is below the next bound. -/
theorem toNat_sub_succ {a b : UInt64} {n : ℕ} (hn : n + 1 < 2 ^ 64)
    (h : (b - (a + 1)).toNat < n) : (b - a).toNat = (b - (a + 1)).toNat + 1 := by
  have e : b - a = (b - (a + 1)) + 1 := by grind
  rw [e, UInt64.toNat_add]
  simp only [UInt64.reduceToNat]
  omega

/-- A number read from memory depends only on the bytes it is read from. -/
theorem combine_congr {a : UInt64} {n : ℕ} (hn : n < 2 ^ 64)
    (h : ∀ b, (b - a).toNat < n → m' b = m b) : m'.combine a n = m.combine a n := by
  induction n generalizing a with
  | zero => rfl
  | succ n ih =>
    have hhead : m' a = m a := h a (by simp)
    have htail : m'.combine (a + 1) n = m.combine (a + 1) n := by
      apply ih (by omega)
      intro b hb
      apply h b
      rw [toNat_sub_succ hn hb]
      omega
    simp only [combine, hhead, htail]

theorem load64_congr {a : UInt64} (h : ∀ b, b - a < 8 → m' b = m b) :
    m'.load64 a = m.load64 a := by
  unfold load64
  rw [combine_congr (n := 8) (by omega) fun b hb => h b (UInt64.lt_iff_toNat_lt.2 (by simpa using hb))]

/-- The bytes from offset `k` of a stored word stand for the word's digits from `k` on. -/
theorem combine_store64 (a v : UInt64) (k n : ℕ) (hkn : k + n ≤ 8) :
    (m.store64 a v).combine (a + UInt64.ofNat k) n = v.toNat / 256 ^ k % 256 ^ n := by
  induction n generalizing k with
  | zero => simp [combine, Nat.mod_one]
  | succ n ih =>
    have hk : (UInt64.ofNat k).toNat = k := UInt64.toNat_ofNat_of_lt' (by
      simp only [UInt64.size]
      omega)
    have hlt : UInt64.ofNat k < 8 := by
      rw [UInt64.lt_iff_toNat_lt, hk]
      simp only [UInt64.reduceToNat]
      omega
    have hoff : a + UInt64.ofNat k - a = UInt64.ofNat k := by
      rw [UInt64.add_comm, UInt64.add_sub_cancel]
    have hbyte : m.store64 a v (a + UInt64.ofNat k) = UInt8.ofNat (v.toNat / 256 ^ k) := by
      simp only [store64, hoff, hlt, if_true, hk]
    have hnext : a + UInt64.ofNat k + 1 = a + UInt64.ofNat (k + 1) := by
      rw [UInt64.add_assoc, UInt64.ofNat_add, UInt64.ofNat_one]
    rw [combine, hbyte, hnext, ih (k + 1) (by omega), UInt8.toNat_ofNat', Nat.pow_succ 256 k,
      ← Nat.div_div_eq_div_mul, @Nat.pow_succ' 256 n, Nat.mod_mul]

@[simp] theorem load64_store64_self (a v : UInt64) : (m.store64 a v).load64 a = v := by
  have h := combine_store64 (m := m) a v 0 8 (by omega)
  rw [show a + UInt64.ofNat 0 = a from UInt64.add_zero a, Nat.pow_zero, Nat.div_one] at h
  rw [load64, h, Nat.mod_eq_of_lt (by simpa using v.toNat_lt), UInt64.ofNat_toNat]

theorem store64_of_not_lt {a v b : UInt64} (h : ¬ b - a < 8) : m.store64 a v b = m b := by
  simp only [store64, h, if_false]

/-- A store leaves a word that shares no byte with it. -/
theorem load64_store64_of_disjoint {a c v : UInt64} (h : ∀ b, b - c < 8 → ¬ b - a < 8) :
    (m.store64 a v).load64 c = m.load64 c :=
  load64_congr fun b hb => store64_of_not_lt (h b hb)

theorem fill_of_not_lt {p b n : UInt64} {x : UInt8} (h : ¬ b - p < n) : m.fill p x n b = m b := by
  simp only [fill, h, if_false]

theorem fill_of_lt {p b n : UInt64} {x : UInt8} (h : b - p < n) : m.fill p x n b = x := by
  simp only [fill, h, if_true]

/-- A second fill of the same range hides the first. -/
theorem fill_fill (p n : UInt64) (x y : UInt8) : (m.fill p x n).fill p y n = m.fill p y n := by
  funext b
  simp only [fill]
  split_ifs <;> rfl

/-- A fill leaves a word that shares no byte with it. -/
theorem load64_fill_of_disjoint {p c n : UInt64} {x : UInt8}
    (h : ∀ b, b - c < 8 → ¬ b - p < n) : (m.fill p x n).load64 c = m.load64 c :=
  load64_congr fun b hb => fill_of_not_lt (h b hb)

theorem combine_zero (a : UInt64) (n : ℕ) : Mem.combine (fun _ => 0) a n = 0 := by
  induction n generalizing a with
  | zero => rfl
  | succ n ih => simp [combine, ih]

theorem load64_zero (a : UInt64) : Mem.load64 (fun _ => 0) a = 0 := by
  rw [load64, combine_zero]
  rfl

/-- Bytes that are all zero stand for zero. -/
theorem combine_eq_zero {a : UInt64} {n : ℕ} (hn : n < 2 ^ 64)
    (h : ∀ b, (b - a).toNat < n → m b = 0) : m.combine a n = 0 := by
  rw [← combine_zero a n]
  exact combine_congr hn h

/-- A word inside a range filled with zero bytes is zero. -/
theorem load64_fill_zero {p c n : UInt64} (h : ∀ b, b - c < 8 → b - p < n) :
    (m.fill p 0 n).load64 c = 0 := by
  unfold load64
  rw [combine_eq_zero (n := 8) (by omega)
    fun b hb => fill_of_lt (h b (UInt64.lt_iff_toNat_lt.2 (by simpa using hb)))]
  rfl

theorem copy_of_not_lt {d b n s : UInt64} {src : Mem} (h : ¬ b - d < n) :
    m.copy d src s n b = m b := by
  simp only [copy, h, if_false]

theorem copy_of_lt {d b n s : UInt64} {src : Mem} (h : b - d < n) :
    m.copy d src s n b = src (s + (b - d)) := by
  simp only [copy, h, if_true]

theorem copy_zero (d : UInt64) (src : Mem) (s : UInt64) : m.copy d src s 0 = m := by
  funext b
  apply copy_of_not_lt
  rw [UInt64.lt_iff_toNat_lt]
  simp

/-- A copy of `c + 1` bytes is its first byte stored at `d` and the other `c` copied from
`d + 1` on. -/
theorem copy_succ {d s c : UInt64} {src : Mem} (hc : c.toNat + 1 < 2 ^ 64) :
    Mem.copy (Function.update m d (src s)) (d + 1) src (s + 1) c = m.copy d src s (c + 1) := by
  funext b
  have hc1 : (c + 1).toNat = c.toNat + 1 := by
    rw [UInt64.toNat_add]
    simp only [UInt64.reduceToNat]
    omega
  unfold copy
  by_cases hb : b = d
  · -- the first byte: below `d + 1` the difference wraps
    subst hb
    have h1 : ¬ b - (b + 1) < c := by
      rw [show b - (b + 1) = 0 - 1 by grind, UInt64.lt_iff_toNat_lt]
      simp only [UInt64.reduceToNat, UInt64.reduceSub]
      omega
    have h2 : b - b < c + 1 := by
      rw [UInt64.sub_self, UInt64.lt_iff_toNat_lt, hc1]
      simp
    rw [if_neg h1, if_pos h2, Function.update_self, UInt64.sub_self, UInt64.add_zero]
  · have hbd : (b - d).toNat ≠ 0 := by
      intro h
      apply hb
      have : b - d = 0 := UInt64.toNat_inj.mp h
      grind
    have hiff : b - (d + 1) < c ↔ b - d < c + 1 := by
      rw [show b - (d + 1) = b - d - 1 by grind, UInt64.lt_iff_toNat_lt, UInt64.lt_iff_toNat_lt,
        hc1, UInt64.toNat_sub_of_le _ _ (UInt64.le_iff_toNat_le.2 (by simp; omega))]
      simp only [UInt64.reduceToNat]
      omega
    by_cases h : b - d < c + 1
    · rw [if_pos (hiff.2 h), if_pos h, show s + 1 + (b - (d + 1)) = s + (b - d) by grind]
    · rw [if_neg (fun h' => h (hiff.1 h')), if_neg h, Function.update_of_ne hb]

theorem copy_one (d : UInt64) (src : Mem) (s : UInt64) :
    m.copy d src s 1 = Function.update m d (src s) := by
  have h := @copy_succ m d s 0 src (by simp)
  rw [copy_zero, UInt64.zero_add] at h
  exact h.symm

/-- Two words at distinct addresses that are multiples of 8 share no byte. -/
theorem word_disjoint {a c : UInt64} (ha : a.toNat % 8 = 0) (hc : c.toNat % 8 = 0)
    (hne : c ≠ a) (b : UInt64) (hb : b - c < 8) : ¬ b - a < 8 := by
  have hne' : c.toNat ≠ a.toNat := fun h => hne (UInt64.toNat_inj.mp h)
  rw [UInt64.lt_iff_toNat_lt] at hb ⊢
  rw [UInt64.toNat_sub] at hb ⊢
  have := a.toNat_lt
  have := b.toNat_lt
  have := c.toNat_lt
  simp only [UInt64.reduceToNat] at *
  omega

/-- Two 4096-byte pages at distinct addresses that are multiples of 4096 share no byte. -/
theorem page_disjoint {p q : UInt64} (hp : p.toNat % 4096 = 0) (hq : q.toNat % 4096 = 0)
    (hne : q ≠ p) (b : UInt64) (hb : b - q < 4096) : ¬ b - p < 4096 := by
  have hne' : q.toNat ≠ p.toNat := fun h => hne (UInt64.toNat_inj.mp h)
  rw [UInt64.lt_iff_toNat_lt] at hb ⊢
  rw [UInt64.toNat_sub] at hb ⊢
  have := p.toNat_lt
  have := q.toNat_lt
  have := b.toNat_lt
  simp only [UInt64.reduceToNat] at *
  omega

/-- A copy into the window `[p + off, p + off + n)` of a page, read at `p + o` in the page. -/
theorem copy_page_self {p off o n s : UInt64} {src : Mem} (ho : o.toNat < 4096)
    (hn : off.toNat + n.toNat ≤ 4096) :
    m.copy (p + off) src s n (p + o) =
      if off.toNat ≤ o.toNat ∧ o.toNat < off.toNat + n.toNat then src (s + (o - off))
      else m (p + o) := by
  have hsub : p + o - (p + off) = o - off := by grind
  -- below `off` the difference wraps past every window of a page
  have hlt : o - off < n ↔ off.toNat ≤ o.toNat ∧ o.toNat < off.toNat + n.toNat := by
    rw [UInt64.lt_iff_toNat_lt, UInt64.toNat_sub]
    omega
  unfold copy
  rw [hsub]
  by_cases h : off.toNat ≤ o.toNat ∧ o.toNat < off.toNat + n.toNat
  · rw [if_pos (hlt.2 h), if_pos h]
  · rw [if_neg (fun h' => h (hlt.1 h')), if_neg h]

/-- A copy into a window of one aligned page leaves every other aligned page alone. -/
theorem copy_other_page {p q off o n s : UInt64} {src : Mem} (hp : p.toNat % 4096 = 0)
    (hq : q.toNat % 4096 = 0) (hne : q ≠ p) (ho : o.toNat < 4096)
    (hn : off.toNat + n.toNat ≤ 4096) : m.copy (p + off) src s n (q + o) = m (q + o) := by
  apply copy_of_not_lt
  intro h
  have hqo : q + o - q < 4096 := by
    rw [show q + o - q = o by grind, UInt64.lt_iff_toNat_lt]
    exact ho
  apply page_disjoint hp hq hne (q + o) hqo
  rw [show q + o - p = (q + o - (p + off)) + off by grind, UInt64.lt_iff_toNat_lt,
    UInt64.toNat_add]
  rw [UInt64.lt_iff_toNat_lt] at h
  simp only [UInt64.reduceToNat]
  omega

end Mem
