import Xv6.Model.Umalloc
import Xv6.Lib.StateExcept

/-!
# What `malloc` asks `sbrk` for

`malloc(nbytes)` counts `nunits` headers without overflow, since the sum is an
`unsigned long`: the block covers the request and its header for every `uint` request.
What goes wrong is the request to the kernel. `morecore` passes `nu * sizeof(Header)` to
`sbrk(int)`, and the conversion to `int` keeps the amount only below `2^31` bytes, that is
for `nu < 2^27`. So `malloc` asks for the memory it then hands out exactly when
`nbytes < 2^31 - 31`. Beyond that, `sbrk` gets a negative or a small amount: for
`nbytes = 2^32 - 1` it is asked for 16 bytes, and `malloc` returns the new break as the
start of a region of `2^32 - 1` bytes that the process does not have.
Source: user/umalloc.c:46-90
-/

set_option autoImplicit false

namespace Xv6

/-- The unit count never wraps in its `uint`: it is at most `2^28 + 1`. -/
theorem nunits_toNat (nbytes : UInt32) :
    (nunits nbytes).toNat = (nbytes.toNat + HDR - 1) / HDR + 1 := by
  have hlt := UInt32.toNat_lt nbytes
  have hval : (nbytes.toNat + HDR - 1) / HDR + 1 < 2 ^ 32 := by
    rw [HDR]
    omega
  rw [nunits, Nat.toUInt32_eq, UInt32.toNat_ofNat', Nat.mod_eq_of_lt hval]

/-- The block `malloc` looks for covers the request and its header. -/
theorem nunits_covers (nbytes : UInt32) : nbytes.toNat + HDR ≤ (nunits nbytes).toNat * HDR := by
  rw [nunits_toNat, HDR]
  omega

/-- The conversion to `int` keeps a value below `2^32` exactly when it is below `2^31`. -/
theorem toCInt_eq_iff {x : ℕ} (hx : x < 2 ^ 32) : toCInt x = x ↔ x < 2 ^ 31 := by
  rw [toCInt, Nat.mod_eq_of_lt hx]
  by_cases h : x < 2 ^ 31
  · rw [if_pos h]
    exact ⟨fun _ => h, fun _ => rfl⟩
  · rw [if_neg h]
    exact ⟨fun heq => by omega, fun h' => absurd h' h⟩

/-- `morecore(nu)` asks `sbrk` for its `nu` headers exactly when `nu < 2^27`. -/
theorem morecore_request_eq_iff (nu : UInt32) :
    toCInt (nu.toNat * HDR) = ((nu.toNat * HDR : ℕ) : ℤ) ↔ nu.toNat < 2 ^ 27 := by
  have hlt := UInt32.toNat_lt nu
  by_cases hsmall : nu.toNat * HDR < 2 ^ 32
  · rw [toCInt_eq_iff hsmall, HDR]
    omega
  · -- the low 32 bits of a product of at least `2^32` are smaller than it
    have hne : toCInt (nu.toNat * HDR) ≠ ((nu.toNat * HDR : ℕ) : ℤ) := by
      rw [toCInt]
      split <;> omega
    rw [HDR] at hsmall
    exact ⟨fun h => absurd h hne, fun h => by omega⟩

/-- `malloc(nbytes)` hands `morecore` a count whose request reaches `sbrk` intact exactly when
`nbytes < 2^31 - 31`. -/
theorem malloc_request_eq_iff (nbytes : UInt32) :
    let nu := if nunits nbytes < 4096 then 4096 else nunits nbytes
    toCInt (nu.toNat * HDR) = ((nu.toNat * HDR : ℕ) : ℤ) ↔ nbytes.toNat < 2 ^ 31 - 31 := by
  intro nu
  rw [morecore_request_eq_iff]
  have hn := nunits_toNat nbytes
  have hlt := UInt32.toNat_lt nbytes
  show (if nunits nbytes < 4096 then (4096 : UInt32) else nunits nbytes).toNat < 2 ^ 27 ↔ _
  split
  · next h =>
    rw [UInt32.lt_iff_toNat_lt, hn] at h
    simp only [UInt32.reduceToNat, HDR] at h ⊢
    omega
  · next h =>
    rw [UInt32.lt_iff_toNat_lt, hn] at h
    rw [hn]
    simp only [UInt32.reduceToNat, HDR] at h ⊢
    omega

/-- `malloc(0xffffffff)` as the first call of a process whose break is at `0x4000`, with
`base` at `0x1000` and pages to spare. `nunits` is `2^28 + 1`, and `morecore` asks `sbrk`
for `(2^28 + 1) * 16 = 2^32 + 16` bytes, which reach the kernel as 16. The break moves to
`0x4010`, `morecore` puts a block of `2^28 + 1` headers at `0x4000`, and `malloc` returns
`0x4010` for `2^32 - 1` bytes: the region starts at the break, outside the process's
memory. -/
theorem malloc_returns_region_beyond_break :
    ∃ s : Heap, (malloc 4 0xffffffff).run (Heap.init 0x1000 0x4000 100) = .ok (0x4010, s) ∧
      s.sz = 0x4010 ∧ s.sz < 0x4010 + (0xffffffff : UInt32).toNat := by
  obtain ⟨⟨q, s⟩, hrun, htest⟩ := StateExcept.exists_of_okSat
    (p := fun r : ℕ × Heap => r.1 == 0x4010 && r.2.sz == 0x4010)
    (e := (malloc 4 0xffffffff).run (Heap.init 0x1000 0x4000 100)) (by decide +kernel)
  simp only [Bool.and_eq_true, beq_iff_eq] at htest
  obtain ⟨rfl, hsz⟩ := htest
  exact ⟨s, hrun, hsz, by rw [hsz]; decide⟩

end Xv6
