import Xv6.Analysis.Contents.Bmap

/-!
# `readi` reads the file's bytes

`content s i k` is byte `k` of file `i` read through its block map. On a file in shape,
every block below the size is there, so each round of `readi`'s loop finds its block
with `bmap` changing nothing (`bmap_run_of_ne`): `readi` never allocates, and returns the
bytes of the file from `off` to `off + n` or the size, whichever comes first
(`readi_spec`). A round copies the bytes from `off` to the end of its block or of the
range; those are the bytes of the flat view at `off`, `off + 1`, ... (`read_chunk`).
Source: kernel/fs.c:377-405, kernel/fs.c:455-477
-/

set_option autoImplicit false

namespace Xv6.Fs

open BlockMap

section Read

variable {s : FsState} {i : Fin NINODE}

/-- One round of the loops reads or writes `m` bytes from `off`, inside the block of `off`. -/
theorem chunk_le (off rem : ℕ) : off % BSIZE + min rem (BSIZE - off % BSIZE) ≤ BSIZE := by
  have := Nat.mod_lt off (show 0 < BSIZE by decide)
  omega

theorem chunk_lt {off rem : ℕ} (k : ℕ) (hk : k < min rem (BSIZE - off % BSIZE)) :
    off % BSIZE + k < BSIZE := by
  have := chunk_le off rem
  omega

theorem chunk_pos (off : ℕ) {rem : ℕ} (hrem : rem ≠ 0) : 0 < min rem (BSIZE - off % BSIZE) := by
  have := Nat.mod_lt off (show 0 < BSIZE by decide)
  omega

/-- The bytes of one round of `readi`, then the rest, are the bytes of the whole range. -/
theorem read_chunk (s : FsState) (i : Fin NINODE) (off rem : ℕ) :
    (List.range (min rem (BSIZE - off % BSIZE))).map
        (fun k => s.disk.data (blocks s i (off / BSIZE)) (off % BSIZE + k)) ++
      (List.range (rem - min rem (BSIZE - off % BSIZE))).map
        (fun k => content s i (off + min rem (BSIZE - off % BSIZE) + k)) =
      (List.range rem).map (fun k => content s i (off + k)) := by
  set m := min rem (BSIZE - off % BSIZE)
  have hm : rem = m + (rem - m) := by omega
  conv_rhs => rw [hm, List.range_add, List.map_append, List.map_map]
  congr 1
  · refine List.map_congr_left fun k hk => ?_
    rw [content_eq_flat, flat_add_of_lt (chunk_lt k (List.mem_range.1 hk))]
  · refine List.map_congr_left fun k _ => ?_
    simp only [Function.comp_apply, Nat.add_assoc]

/-- The loop of `readi` over a range below the size changes nothing and returns the file's
bytes. -/
theorem readiLoop_run (h : FileOk s i) :
    ∀ fuel off rem, rem ≤ fuel → off + rem ≤ (s.itable i).di.size →
      (readiLoop i fuel off rem).run s =
        .ok ((List.range rem).map (fun k => content s i (off + k)), s)
  | 0, off, rem, hf, _ => by
    obtain rfl : rem = 0 := by omega
    rfl
  | fuel + 1, off, rem, hf, hs => by
    by_cases h0 : rem = 0
    · subst h0
      simp [readiLoop]
      rfl
    have hbn : off / BSIZE * BSIZE < (s.itable i).di.size :=
      lt_of_le_of_lt (Nat.div_mul_le_self off BSIZE) (by omega)
    have hrun := bmap_run_of_ne (h.lt_maxfile hbn) (h.full _ hbn)
    have hm := chunk_pos off h0
    have ih := readiLoop_run h fuel (off + min rem (BSIZE - off % BSIZE))
      (rem - min rem (BSIZE - off % BSIZE)) (by omega) (by omega)
    simp [readiLoop, h0, StateT.run_bind, hrun, StateExcept.ok_bind, ih]
    exact read_chunk s i off rem

/-- `readi` into a kernel buffer, on a file in shape and a range whose end does not wrap:
it changes nothing and returns the file's bytes from `off` up to `off + n` or the size,
none where `off` is past the size. -/
theorem readi_spec (h : FileOk s i) {off n : ℕ} (hw : off + n < 2 ^ 32) :
    (readi i off n).run s =
      .ok ((List.range (min (off + n) (s.itable i).di.size - off)).map
        (fun k => content s i (off + k)), s) := by
  by_cases hoff : (s.itable i).di.size < off
  · have h0 : min (off + n) (s.itable i).di.size - off = 0 := by omega
    rw [h0]
    simp [readi, hoff]
    rfl
  · have hlen : (if (s.itable i).di.size < off + n then (s.itable i).di.size - off else n) =
        min (off + n) (s.itable i).di.size - off := by
      split <;> omega
    have hrun := readiLoop_run h _ off _ le_rfl (show off + (min (off + n) (s.itable i).di.size - off) ≤ _ by omega)
    simp [readi, hoff, hlen]
    -- `off + n` does not wrap
    rw [if_neg (by omega)]
    exact hrun

end Read

end Xv6.Fs
