import Xv6.Lib.Bits
import Xv6.Lib.StateExcept
import Xv6.Model.Fs.Bitmap
import Xv6.Model.Fs.Inode
import Xv6.Model.Fs.System

/-!
# `balloc` takes the first free block, and `bfree` gives it back

`bit sb data x` is the bit `balloc` tests and `bfree` clears for block `x`: both compute
bit `x % BPB % 8` of byte `x % BPB / 8` of `BBLOCK(x, sb)`, `balloc` as `bi` within the
stride `b` (`position_of_stride`). On any geometry, `balloc` returns the smallest block
whose bit is clear and sets that bit, and `bfree` of a block whose bit is set clears
exactly that bit (`bfree_clears_bit`).

`balloc` also zeroes the block it returns, and the bitmap blocks are blocks of the disk. If
a bitmap block's own bit is clear it is the one taken when it comes first, and `bzero`
then wipes its bits, the new one included (`balloc_wipes_own_bitmap_block`). The bitmap
changes in exactly the new bit when the bitmap blocks below `sb.size` are marked in use,
as `mkfs` marks them (`balloc_takes_first_free`).
Source: kernel/fs.c:49-103
-/

set_option autoImplicit false

namespace Xv6.Bitmap

theorem BPB_eq : BPB = 8192 := rfl

variable (sb : Superblock)

/-- The bit of block `x` in the bitmap. -/
def bit (data : ℕ → ℕ → UInt8) (x : ℕ) : Bool :=
  (data (BBLOCK x sb) (x % BPB / 8)).toNat.testBit (x % BPB % 8)

/-- The bitmap blocks that hold bits of `[0, sb.size)` and lie below it are marked in use. -/
def BitmapMarked (data : ℕ → ℕ → UInt8) : Prop :=
  ∀ y < sb.size, BBLOCK y sb < sb.size → bit sb data (BBLOCK y sb) = true

/-! ## Positions of bits -/

/-- Within the stride `b` of the outer loop, `bi` names the bit of block `b + bi`. -/
theorem position_of_stride {b bi : ℕ} (hb : b % BPB = 0) (hbi : bi < BPB) :
    BBLOCK (b + bi) sb = BBLOCK b sb ∧ (b + bi) % BPB / 8 = bi / 8 ∧ (b + bi) % BPB % 8 = bi % 8 := by
  simp only [BBLOCK, BPB_eq] at *
  omega

/-- Two blocks with the same bitmap block, byte and bit are the same block. -/
theorem eq_of_position {x y : ℕ} (hblk : BBLOCK y sb = BBLOCK x sb)
    (hbyte : y % BPB / 8 = x % BPB / 8) (hbit : y % BPB % 8 = x % BPB % 8) : y = x := by
  simp only [BBLOCK, BPB_eq] at *
  omega

theorem bit_updateByte (data : ℕ → ℕ → UInt8) (blk i : ℕ) (f : UInt8 → UInt8) (y : ℕ) :
    bit sb (updateByte data blk i f) y =
      if BBLOCK y sb = blk ∧ y % BPB / 8 = i then (f (data blk i)).toNat.testBit (y % BPB % 8)
      else bit sb data y := by
  unfold bit updateByte
  by_cases hblk : BBLOCK y sb = blk
  · by_cases hi : y % BPB / 8 = i
    · simp [hblk, hi]
    · simp [hblk, hi]
  · simp [hblk]

/-- `bzero` of a block that holds no bit of `y` leaves bit `y`. -/
theorem bit_bzero (data : ℕ → ℕ → UInt8) {x y : ℕ} (h : BBLOCK y sb ≠ x) :
    bit sb (Function.update data x fun _ => 0) y = bit sb data y := by
  unfold bit
  rw [Function.update_of_ne h]

theorem mask_lt (x : ℕ) : x % BPB % 8 < 8 := Nat.mod_lt _ (by decide)

/-- Setting the bit of `x` sets it and leaves the others. -/
theorem bit_set (data : ℕ → ℕ → UInt8) (x y : ℕ) :
    bit sb (updateByte data (BBLOCK x sb) (x % BPB / 8) (· ||| 1 <<< (x % BPB % 8).toUInt8)) y =
      (bit sb data y || decide (y = x)) := by
  rw [bit_updateByte]
  split
  · next h =>
    rw [ByteBits.testBit_or_mask _ (mask_lt x)]
    have hpos : y % BPB % 8 = x % BPB % 8 ↔ y = x :=
      ⟨eq_of_position sb h.1 h.2, fun hyx => hyx ▸ rfl⟩
    simp only [bit, h.1, h.2, hpos]
  · next h =>
    have hyx : y ≠ x := fun hyx => h ⟨hyx ▸ rfl, hyx ▸ rfl⟩
    simp [hyx]

/-- Clearing the bit of `x` clears it and leaves the others. -/
theorem bit_clear (data : ℕ → ℕ → UInt8) (x y : ℕ) :
    bit sb (updateByte data (BBLOCK x sb) (x % BPB / 8) (· &&& ~~~(1 <<< (x % BPB % 8).toUInt8))) y =
      (bit sb data y && !decide (y = x)) := by
  rw [bit_updateByte]
  split
  · next h =>
    rw [ByteBits.testBit_and_not_mask _ (mask_lt x)]
    have hpos : y % BPB % 8 = x % BPB % 8 ↔ y = x :=
      ⟨eq_of_position sb h.1 h.2, fun hyx => hyx ▸ rfl⟩
    simp only [bit, h.1, h.2, hpos]
  · next h =>
    have hyx : y ≠ x := fun hyx => h ⟨hyx ▸ rfl, hyx ▸ rfl⟩
    simp [hyx]

/-! ## One run of each function -/

/-- The blocks after `balloc` has taken `x`: its bit set, then its block zeroed. -/
def taken (s : Blocks) (x : ℕ) : Blocks where
  data := Function.update
    (updateByte s.data (BBLOCK x sb) (x % BPB / 8) (· ||| 1 <<< (x % BPB % 8).toUInt8)) x
    fun _ => 0
  logged := s.logged ++ [BBLOCK x sb, x]

/-- The blocks after `bfree(x)`. -/
def freed (s : Blocks) (x : ℕ) : Blocks where
  data := updateByte s.data (BBLOCK x sb) (x % BPB / 8) (· &&& ~~~(1 <<< (x % BPB % 8).toUInt8))
  logged := s.logged ++ [BBLOCK x sb]

variable (dev : ℕ) (s : Blocks)

theorem ballocInner_run_zero (b bi : ℕ) : (ballocInner sb dev b 0 bi).run s = .ok (none, s) := rfl

/-- One iteration of the inner loop at a block of the disk: it takes the block if its bit
is clear and goes on otherwise. -/
theorem ballocInner_run_succ {b : ℕ} (hb : b % BPB = 0) (n : ℕ) {bi : ℕ} (hbi : bi < BPB)
    (hsize : b + bi < sb.size) :
    (ballocInner sb dev b (n + 1) bi).run s =
      if bit sb s.data (b + bi) = false then .ok (some (b + bi), taken sb s (b + bi))
      else (ballocInner sb dev b n (bi + 1)).run s := by
  obtain ⟨hblk, hbyte, hmask⟩ := position_of_stride sb hb hbi
  have htest : s.data (BBLOCK b sb) (bi / 8) &&& 1 <<< (bi % 8).toUInt8 = 0 ↔
      bit sb s.data (b + bi) = false := by
    rw [bit, hblk, hbyte, hmask]
    exact ByteBits.and_mask_eq_zero_iff _ (Nat.mod_lt _ (by decide))
  by_cases hclear : bit sb s.data (b + bi) = false
  · simp [ballocInner, hbi, hsize, htest.2 hclear, hclear, modifyByte, logWrite, bzero, taken,
      hblk, hbyte, hmask]
    rfl
  · simp [ballocInner, hbi, hsize, mt htest.1 hclear, hclear]

theorem ballocInner_run_end (b n bi : ℕ) (h : ¬ (bi < BPB ∧ b + bi < sb.size)) :
    (ballocInner sb dev b (n + 1) bi).run s = .ok (none, s) := by
  simp [ballocInner, h]
  rfl

theorem bfree_run (x : ℕ) :
    (bfree sb dev x).run s =
      if bit sb s.data x = true then .ok ((), freed sb s x) else .error "freeing free block" := by
  have htest : s.data (BBLOCK x sb) (x % BPB / 8) &&& 1 <<< (x % BPB % 8).toUInt8 = 0 ↔
      bit sb s.data x = false :=
    ByteBits.and_mask_eq_zero_iff _ (mask_lt x)
  by_cases hset : bit sb s.data x = true
  · have hne : ¬ (s.data (BBLOCK x sb) (x % BPB / 8) &&& 1 <<< (x % BPB % 8).toUInt8 = 0) := by
      rw [htest, hset]
      decide
    simp [bfree, hne, hset, modifyByte, logWrite, freed]
    rfl
  · have heq : s.data (BBLOCK x sb) (x % BPB / 8) &&& 1 <<< (x % BPB % 8).toUInt8 = 0 := by
      rw [htest]
      simpa using hset
    simp [bfree, heq, hset]
    rfl

/-! ## The loops of `balloc` -/

/-- The inner loop over the stride `b`, entered at `bi` with every bit below `b + bi` set,
either finds no clear bit in the stride (below `sb.size`) and changes nothing, or takes
the first clear bit. The induction is on the iterations left, `BPB - bi`. -/
theorem ballocInner_spec {b : ℕ} (hb : b % BPB = 0) :
    ∀ n bi, n + bi = BPB → (∀ y < b + bi, bit sb s.data y = true) →
      ((ballocInner sb dev b n bi).run s = .ok (none, s) ∧
          ∀ y < min (b + BPB) sb.size, bit sb s.data y = true) ∨
        ∃ x, (ballocInner sb dev b n bi).run s = .ok (some x, taken sb s x) ∧ x < sb.size ∧
          bit sb s.data x = false ∧ ∀ y < x, bit sb s.data y = true := by
  intro n
  induction n with
  | zero =>
    intro bi hbi hset
    exact .inl ⟨ballocInner_run_zero sb dev s b bi, fun y hy => hset y (by omega)⟩
  | succ n ih =>
    intro bi hbi hset
    by_cases hsize : b + bi < sb.size
    · rw [ballocInner_run_succ sb dev s hb n (by omega) hsize]
      by_cases hclear : bit sb s.data (b + bi) = false
      · -- the first clear bit: `balloc` takes it
        rw [if_pos hclear]
        exact .inr ⟨b + bi, rfl, hsize, hclear, hset⟩
      · rw [if_neg hclear]
        apply ih (bi + 1) (by omega)
        intro y hy
        rcases Nat.lt_succ_iff_lt_or_eq.1 hy with hy | hy
        · exact hset y hy
        · rw [hy]
          simpa using hclear
    · -- the stride runs past `sb.size`: every bit below it is set
      refine .inl ⟨ballocInner_run_end sb dev s b n bi (fun h => hsize h.2), fun y hy => ?_⟩
      exact hset y (by omega)

/-- The outer loop from the stride `b`, with every bit below `b` set and enough iterations
left to pass `sb.size`, takes the first clear bit, if the bitmap has one. -/
theorem ballocOuter_spec (hfree : ∃ x < sb.size, bit sb s.data x = false) :
    ∀ n b, b % BPB = 0 → sb.size < b + n * BPB → (∀ y < b, bit sb s.data y = true) →
      ∃ x, (ballocOuter sb dev n b).run s = .ok (x, taken sb s x) ∧ x < sb.size ∧
        bit sb s.data x = false ∧ ∀ y < x, bit sb s.data y = true := by
  obtain ⟨x₀, hx₀, hclear₀⟩ := hfree
  -- a clear bit below `sb.size` bounds how far the set bits can reach
  have hreach : ∀ c, (∀ y < c, bit sb s.data y = true) → c ≤ x₀ := by
    intro c hc
    by_contra hlt
    rw [hc x₀ (by omega)] at hclear₀
    cases hclear₀
  intro n
  induction n with
  | zero =>
    intro b _ hn hset
    exact absurd (hreach b hset) (by omega)
  | succ n ih =>
    intro b hb hn hset
    have hb' : b < sb.size := by
      have := hreach b hset
      omega
    rcases ballocInner_spec sb dev s hb BPB 0 (by omega) (by simpa using hset) with
      ⟨hnone, hstride⟩ | ⟨x, hrun, hx⟩
    · have hnext : b + BPB ≤ sb.size := by
        have := hreach _ hstride
        omega
      obtain ⟨x, hrun, hx⟩ := ih (b + BPB) (by rw [Nat.add_mod_right, hb]) (by
        rw [Nat.succ_mul] at hn
        omega) (fun y hy => hstride y (by omega))
      refine ⟨x, ?_, hx⟩
      simp only [ballocOuter, hb', if_true, StateT.run_bind, hnone, StateExcept.ok_bind]
      exact hrun
    · refine ⟨x, ?_, hx⟩
      simp only [ballocOuter, hb', if_true, StateT.run_bind, hrun, StateExcept.ok_bind]
      rfl

/-- `balloc` takes the smallest block whose bit is clear, if there is one below
`sb.size`. -/
theorem balloc_spec (hfree : ∃ x < sb.size, bit sb s.data x = false) :
    ∃ x, (balloc sb dev).run s = .ok (x, taken sb s x) ∧ x < sb.size ∧
      bit sb s.data x = false ∧ ∀ y < x, bit sb s.data y = true :=
  ballocOuter_spec sb dev s hfree _ 0 (by decide) (by rw [BPB_eq]; omega) (fun _ h => absurd h (by omega))

/-- With every bit below `sb.size` set, the outer loop ends in the panic. -/
theorem ballocOuter_full (hfull : ∀ y < sb.size, bit sb s.data y = true) :
    ∀ n b, b % BPB = 0 → (ballocOuter sb dev n b).run s = .error "balloc: out of blocks" := by
  intro n
  induction n with
  | zero => intro b _; rfl
  | succ n ih =>
    intro b hb
    by_cases hb' : b < sb.size
    · rcases ballocInner_spec sb dev s hb BPB 0 (by omega)
          (fun y hy => hfull y (by omega)) with ⟨hnone, -⟩ | ⟨x, -, hx, hclear, -⟩
      · simp only [ballocOuter, hb', if_true, StateT.run_bind, hnone, StateExcept.ok_bind]
        exact ih (b + BPB) (by rw [Nat.add_mod_right, hb])
      · rw [hfull x hx] at hclear
        cases hclear
    · simp [ballocOuter, hb']
      rfl

/-! ## The bitmap before and after -/

/-- Taking `x` sets its bit and leaves every other bit of `[0, sb.size)`, when `x` holds no
bit of them. -/
theorem bit_taken {x : ℕ} (hx : ∀ y < sb.size, BBLOCK y sb ≠ x) :
    ∀ y < sb.size, bit sb (taken sb s x).data y = (bit sb s.data y || decide (y = x)) := by
  intro y hy
  rw [taken, bit_bzero sb _ (hx y hy), bit_set]

/-- `bfree` of a block whose bit is set clears exactly that bit. -/
theorem bfree_clears_bit {x : ℕ} (hset : bit sb s.data x = true) :
    ∃ s', (bfree sb dev x).run s = .ok ((), s') ∧
      ∀ y, bit sb s'.data y = (bit sb s.data y && !decide (y = x)) :=
  ⟨freed sb s x, by rw [bfree_run, if_pos hset], bit_clear sb s.data x⟩

/-- A block whose bit is clear is no marked bitmap block. -/
theorem not_bitmap_block {x : ℕ} (hmarked : BitmapMarked sb s.data) (hx : x < sb.size)
    (hclear : bit sb s.data x = false) : ∀ y < sb.size, BBLOCK y sb ≠ x := by
  intro y hy hyx
  have := hmarked y hy (hyx ▸ hx)
  rw [hyx, hclear] at this
  cases this

/-- `balloc` on any geometry whose bitmap blocks are marked in use takes the smallest free
block and changes the bitmap in its bit only; `bfree` of it gives the bitmap back. `bfree`
of any block whose bit is set clears exactly that bit, and the bit `balloc` tests as `bi`
within a stride is the one `bfree` computes. -/
theorem balloc_takes_first_free (hfree : ∃ x < sb.size, bit sb s.data x = false)
    (hmarked : BitmapMarked sb s.data) :
    (∃ b s', (balloc sb dev).run s = .ok (b, s') ∧
      b < sb.size ∧ bit sb s.data b = false ∧ (∀ y < b, bit sb s.data y = true) ∧
      (∀ y < sb.size, bit sb s'.data y = (bit sb s.data y || decide (y = b))) ∧
      ∃ s'', (bfree sb dev b).run s' = .ok ((), s'') ∧
        ∀ y < sb.size, bit sb s''.data y = bit sb s.data y) ∧
    (∀ x (t : Blocks), bit sb t.data x = true → ∃ t', (bfree sb dev x).run t = .ok ((), t') ∧
      ∀ y, bit sb t'.data y = (bit sb t.data y && !decide (y = x))) ∧
    (∀ c bi, c % BPB = 0 → bi < BPB →
      BBLOCK (c + bi) sb = BBLOCK c sb ∧ (c + bi) % BPB / 8 = bi / 8 ∧ (c + bi) % BPB % 8 = bi % 8) := by
  refine ⟨?_, fun x t hset => bfree_clears_bit sb dev t hset,
    fun c bi hc hbi => position_of_stride sb hc hbi⟩
  obtain ⟨b, hrun, hb, hclear, hfirst⟩ := balloc_spec sb dev s hfree
  have hbits := bit_taken sb s (not_bitmap_block sb s hmarked hb hclear)
  -- the bit of `b` is set now, so `bfree` does not panic
  have hset : bit sb (taken sb s b).data b = true := by
    rw [hbits b hb]
    simp
  obtain ⟨s'', hfree'', hbits''⟩ := bfree_clears_bit sb dev _ hset
  refine ⟨b, taken sb s b, hrun, hb, hclear, hfirst, hbits, s'', hfree'', fun y hy => ?_⟩
  rw [hbits'', hbits y hy]
  by_cases hyb : y = b
  · rw [hyb, hclear]
    simp
  · simp [hyb]

/-- A disk of three blocks with its bitmap in block 1, whose first byte marks blocks 0
and 1 in use. -/
def threeBlocks : Superblock := ⟨3, 1, 0, 0, 0, 0, 1⟩

/-- The bitmap of `threeBlocks`: byte 0 of block 1 is `0b011`. -/
def threeBlocksData : ℕ → ℕ → UInt8 := fun blk i => if blk = 1 ∧ i = 0 then 3 else 0

theorem balloc_takes_first_free_on_three_blocks :
    (∃ x < threeBlocks.size, bit threeBlocks threeBlocksData x = false) ∧
      BitmapMarked threeBlocks threeBlocksData ∧
      ∃ b s', (balloc threeBlocks 1).run ⟨threeBlocksData, []⟩ = .ok (b, s') ∧ b = 2 := by
  have hfree : ∃ x < threeBlocks.size, bit threeBlocks threeBlocksData x = false :=
    ⟨2, by decide, by decide⟩
  have hmarked : BitmapMarked threeBlocks threeBlocksData := by
    unfold BitmapMarked
    decide
  obtain ⟨⟨b, s', hrun, hb, hclear, -⟩, -⟩ :=
    balloc_takes_first_free threeBlocks 1 ⟨threeBlocksData, []⟩ hfree hmarked
  refine ⟨hfree, hmarked, b, s', hrun, ?_⟩
  have hb3 : b < 3 := hb
  interval_cases b
  · exact absurd hclear (by decide)
  · exact absurd hclear (by decide)
  · rfl

/-- A disk of two blocks with its bitmap in block 1, where block 0 is in use and block 1,
the bitmap block itself, is marked free. -/
def twoBlocks : Superblock := ⟨2, 1, 0, 0, 0, 0, 1⟩

/-- The bitmap of `twoBlocks`: byte 0 of block 1 is `0b01`. -/
def twoBlocksData : ℕ → ℕ → UInt8 := fun blk i => if blk = 1 ∧ i = 0 then 1 else 0

/-- Without the bitmap blocks marked, `balloc` can take a bitmap block and wipe it: on
`twoBlocks` it returns block 1, whose bit is then clear again, and block 0 loses its bit. -/
theorem balloc_wipes_own_bitmap_block :
    ∃ s', (balloc twoBlocks 1).run ⟨twoBlocksData, []⟩ = .ok (1, s') ∧
      bit twoBlocks twoBlocksData 0 = true ∧ bit twoBlocks s'.data 0 = false ∧
      bit twoBlocks s'.data 1 = false := by
  refine ⟨_, rfl, ?_, ?_, ?_⟩ <;> decide

/-! ## The bitmap table of the file-system model -/

/-- The disk of the file-system model stands for the blocks: the same superblock, `used`
is the bitmap's bits below `sb.size`, every block holding none of them has the same bytes,
and the same blocks were logged. -/
structure Abstracts (s : FsState) (t : Blocks) : Prop where
  sb_eq : s.disk.sb = sb
  used : ∀ y < sb.size, s.disk.used y = bit sb t.data y
  data : ∀ blk, (∀ y < sb.size, BBLOCK y sb ≠ blk) → s.disk.data blk = t.data blk
  logged : s.logged = t.logged

theorem fs_balloc_run_some {s : FsState} {b : ℕ}
    (h : (List.range s.disk.sb.size).find? (fun b => !s.disk.used b) = some b) :
    (Fs.balloc dev).run s = .ok (b, { s with
      disk := { s.disk with
        used := Function.update s.disk.used b true
        data := Function.update s.disk.data b fun _ => 0 }
      logged := s.logged ++ [BBLOCK b s.disk.sb, b] }) := by
  simp [Fs.balloc, h, Fs.bzero, Fs.modifyData, Fs.logWrite]
  rfl

theorem fs_balloc_run_none {s : FsState}
    (h : (List.range s.disk.sb.size).find? (fun b => !s.disk.used b) = none) :
    (Fs.balloc dev).run s = .error "balloc: out of blocks" := by
  simp [Fs.balloc, h]
  rfl

/-- The bit-level `balloc` refines the file-system model's: from disks that stand for each
other, with the bitmap blocks marked, both take the same block and the disks still stand
for each other, or both panic. -/
theorem balloc_refines_used {fs : FsState} (hab : Abstracts sb fs s)
    (hmarked : BitmapMarked sb s.data) :
    (∃ b fs' s', (Fs.balloc dev).run fs = .ok (b, fs') ∧ (balloc sb dev).run s = .ok (b, s') ∧
        Abstracts sb fs' s') ∨
      ((Fs.balloc dev).run fs = .error "balloc: out of blocks" ∧
        (balloc sb dev).run s = .error "balloc: out of blocks") := by
  have hsb := hab.sb_eq
  by_cases hfree : ∃ x < sb.size, bit sb s.data x = false
  · obtain ⟨b, hrun, hb, hclear, hfirst⟩ := balloc_spec sb dev s hfree
    have hnot := not_bitmap_block sb s hmarked hb hclear
    -- the table's search finds the same first free block
    have hfind : (List.range fs.disk.sb.size).find? (fun b => !fs.disk.used b) = some b := by
      rw [List.find?_range_eq_some, hsb]
      refine ⟨by simp [hab.used b hb, hclear], List.mem_range.2 hb, fun j hj => ?_⟩
      simp [hab.used j (by omega), hfirst j hj]
    refine .inl ⟨b, _, taken sb s b, fs_balloc_run_some dev hfind, hrun, ⟨hsb, fun y hy => ?_, ?_, ?_⟩⟩
    · simp only
      rw [bit_taken sb s hnot y hy, ← hab.used y hy]
      by_cases hyb : y = b
      · simp [hyb]
      · simp [hyb]
    · intro blk hblk
      simp only [taken]
      by_cases hbb : blk = b
      · simp [hbb]
      · rw [Function.update_of_ne hbb, Function.update_of_ne hbb, updateByte,
          Function.update_of_ne (Ne.symm (hblk b hb)), hab.data blk hblk]
    · simp [taken, hab.logged, hsb]
  · have hfull : ∀ y < sb.size, bit sb s.data y = true := by
      intro y hy
      by_contra hy'
      exact hfree ⟨y, hy, by simpa using hy'⟩
    refine .inr ⟨fs_balloc_run_none dev ?_, ballocOuter_full sb dev s hfull _ 0 (by decide)⟩
    rw [List.find?_range_eq_none, hsb]
    intro y hy
    simp [hab.used y hy, hfull y hy]

/-- The file-system model's disk for `threeBlocks`: its `used` table is the bitmap's bits. -/
def threeBlocksDisk : Disk :=
  ⟨threeBlocks, bit threeBlocks threeBlocksData, fun _ => DInode.zero, threeBlocksData⟩

theorem balloc_refines_used_on_three_blocks :
    Abstracts threeBlocks (Fs.boot threeBlocksDisk) ⟨threeBlocksData, []⟩ ∧
      BitmapMarked threeBlocks threeBlocksData ∧
      ((∃ b fs' s', (Fs.balloc 1).run (Fs.boot threeBlocksDisk) = .ok (b, fs') ∧
          (balloc threeBlocks 1).run ⟨threeBlocksData, []⟩ = .ok (b, s') ∧
          Abstracts threeBlocks fs' s') ∨
        ((Fs.balloc 1).run (Fs.boot threeBlocksDisk) = .error "balloc: out of blocks" ∧
          (balloc threeBlocks 1).run ⟨threeBlocksData, []⟩ = .error "balloc: out of blocks")) := by
  have hab : Abstracts threeBlocks (Fs.boot threeBlocksDisk) ⟨threeBlocksData, []⟩ :=
    ⟨rfl, fun _ _ => rfl, fun _ _ => rfl, rfl⟩
  have hmarked : BitmapMarked threeBlocks threeBlocksData := by
    unfold BitmapMarked
    decide
  exact ⟨hab, hmarked, balloc_refines_used threeBlocks 1 ⟨threeBlocksData, []⟩ hab hmarked⟩

end Xv6.Bitmap
