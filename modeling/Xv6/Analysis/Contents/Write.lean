import Xv6.Analysis.Contents.Read

/-!
# `writei` writes the file's bytes

Each round of `writei`'s loop maps the block of `off` with `bmap`, then stores the part of
the source that falls in that block and logs it (`putChunk`), or, where `either_copyin`
cannot read a byte of it, stores the bytes before that byte, which `copyin` copied, without
logging them (`storeBytes`) and stops. `Wrote` is what the loop has done when it reaches `off`: the bytes from
the start to `off` are the source's, the other bytes below the size are as they were,
every block up to `off` is there, and of the blocks that are not the file's, none changed.
`bmap` keeps it (`Wrote.mapped`), since it changes only blocks that were free and the file's
indirect block; the store extends it to the end of the chunk (`Wrote.put`), since the
file's blocks are distinct.

After the loop `writei` raises the size to where the loop stopped and writes the inode
back. On a file in shape, at an offset up to the size and a range within `MAXFILE`
blocks, `writei` panics for want of a free block or writes the source up to the first
chunk it cannot read, and returns the number of bytes written (`writei_spec`).
Source: kernel/fs.c:377-405, kernel/fs.c:486-517
-/

set_option autoImplicit false

namespace Xv6.Fs

open BlockMap

/-! ## The source bytes -/

theorem mapM_id_map_some {α : Type} : ∀ xs : List α, (xs.map some).mapM id = some xs
  | [] => rfl
  | x :: xs => by simp [List.mapM_cons, mapM_id_map_some xs]

theorem eq_map_some_of_mapM_id {α : Type} : ∀ {l : List (Option α)} {xs : List α},
    l.mapM id = some xs → l = xs.map some
  | [], xs, h => by
    cases h
    rfl
  | none :: l, xs, h => by simp [List.mapM_cons] at h
  | some x :: l, xs, h => by
    cases hl : l.mapM id with
    | none => simp [List.mapM_cons, hl] at h
    | some ys =>
      have hxs : xs = x :: ys := by simpa [List.mapM_cons, hl] using h.symm
      subst hxs
      rw [eq_map_some_of_mapM_id hl]
      rfl

theorem mapM_id_of_isSome {α : Type} : ∀ {l : List (Option α)}, (∀ x ∈ l, x.isSome) →
    ∃ xs, l.mapM id = some xs
  | [], _ => ⟨[], rfl⟩
  | a :: l, h => by
    obtain ⟨x, rfl⟩ := Option.isSome_iff_exists.1 (h a (List.mem_cons_self ..))
    obtain ⟨xs, hxs⟩ := mapM_id_of_isSome fun y hy => h y (List.mem_cons_of_mem _ hy)
    exact ⟨x :: xs, by simp [List.mapM_cons, hxs]⟩

/-- The bytes of a chunk before its first `none`: as many as `filterMap` keeps of them. -/
theorem length_filterMap_takeWhile {α : Type} :
    ∀ l : List (Option α), ((l.takeWhile Option.isSome).filterMap id).length =
      (l.takeWhile Option.isSome).length
  | [] => rfl
  | none :: _ => rfl
  | some a :: l => by
    rw [List.takeWhile_cons_of_pos rfl, List.filterMap_cons_some (f := id) rfl, List.length_cons,
      List.length_cons, length_filterMap_takeWhile l]
theorem mapM_id_takeWhile {α : Type} :
    ∀ l : List (Option α), (l.takeWhile Option.isSome).mapM id =
      some ((l.takeWhile Option.isSome).filterMap id)
  | [] => rfl
  | none :: _ => rfl
  | some a :: l => by
    rw [List.takeWhile_cons_of_pos rfl, List.filterMap_cons_some (f := id) rfl, List.mapM_cons,
      mapM_id_takeWhile l]
    rfl
theorem take_length_takeWhile {α : Type} (p : α → Bool) :
    ∀ l : List α, l.take (l.takeWhile p).length = l.takeWhile p
  | [] => rfl
  | a :: l => by
    rw [List.takeWhile_cons]
    split
    · simp [take_length_takeWhile p l]
    · simp

/-- Where a chunk has a `none`, the bytes before the first one are followed by it. -/
theorem getElem?_length_takeWhile {α : Type} :
    ∀ {l : List (Option α)}, l.mapM id = none → l[(l.takeWhile Option.isSome).length]? = some none
  | [], h => by cases h
  | none :: _, _ => rfl
  | some a :: l, h => by
    have hl : l.mapM id = none := by
      cases hl : l.mapM id with
      | none => rfl
      | some xs => simp [List.mapM_cons, hl] at h
    simpa [List.takeWhile_cons] using getElem?_length_takeWhile hl

/-! ## One chunk -/

/-- The state with `m` bytes stored at offset `o` of block `addr`. -/
def storeBytes (s : FsState) (addr o m : ℕ) (bytes : List UInt8) : FsState :=
  { s with
    disk := { s.disk with
      data := Function.update s.disk.data addr fun k =>
        if o ≤ k ∧ k < o + m then bytes.getD (k - o) 0 else s.disk.data addr k } }

/-- The state after one round of `writei`'s loop stored `m` bytes at offset `o` of block
`addr` and logged it. -/
def putChunk (s : FsState) (addr o m : ℕ) (bytes : List UInt8) : FsState :=
  { storeBytes s addr o m bytes with logged := s.logged ++ [addr] }

section Chunk

variable {s : FsState} {i : Fin NINODE} {off m : ℕ}

theorem blocks_storeBytes (h : FileOk s i) (hoff : off / BSIZE < MAXFILE) (o m : ℕ)
    (bytes : List UInt8) : blocks (storeBytes s (blocks s i (off / BSIZE)) o m bytes) i = blocks s i :=
  blocks_congr rfl fun hind => Function.update_of_ne (h.apart.ne_ind _ hoff hind).symm _ _

/-- The bytes of the file after a chunk is stored into the block of `off`. -/
theorem content_storeBytes (h : FileOk s i) (hoff : off / BSIZE < MAXFILE)
    (ha : blocks s i (off / BSIZE) ≠ 0) (hm : off % BSIZE + m ≤ BSIZE) (bytes : List UInt8)
    {k : ℕ} (hk : k / BSIZE < MAXFILE) :
    content (storeBytes s (blocks s i (off / BSIZE)) (off % BSIZE) m bytes) i k =
      if off ≤ k ∧ k < off + m then bytes.getD (k - off) 0 else content s i k := by
  rw [content_eq_flat, blocks_storeBytes h hoff]
  by_cases hb : k / BSIZE = off / BSIZE
  · -- the block of `off`: the offsets within it say whether `k` is in the chunk
    rw [storeBytes, flat_update_self hb, content_eq_flat, flat, hb]
    have hk' : k = off / BSIZE * BSIZE + k % BSIZE := by
      have := Nat.div_add_mod k BSIZE
      rw [hb] at this
      rw [Nat.mul_comm] at this
      omega
    have ho : off = off / BSIZE * BSIZE + off % BSIZE := by
      have := Nat.div_add_mod off BSIZE
      rw [Nat.mul_comm] at this
      omega
    have hiff : (off % BSIZE ≤ k % BSIZE ∧ k % BSIZE < off % BSIZE + m) ↔ (off ≤ k ∧ k < off + m) := by
      omega
    by_cases hin : off ≤ k ∧ k < off + m
    · rw [if_pos (hiff.2 hin), if_pos hin]
      congr 1
      omega
    · rw [if_neg (mt hiff.1 hin), if_neg hin]
  · -- another block of the file: the map being apart keeps it
    have hout : ¬ (off ≤ k ∧ k < off + m) := by
      rintro ⟨h₁, h₂⟩
      obtain ⟨j, rfl⟩ : ∃ j, k = off + j := ⟨k - off, by omega⟩
      exact hb (div_add_of_lt (by omega))
    rw [storeBytes, flat_update_of_ne h.apart hoff ha hk hb, if_neg hout, content_eq_flat]

end Chunk

/-! ## The loop -/

section Run

variable {s s₂ : FsState} {i : Fin NINODE} {src : List (Option UInt8)} {off tot fuel : ℕ}

theorem writeiLoop_run_nil (fuel off tot : ℕ) (s : FsState) :
    (writeiLoop i fuel [] off tot).run s = .ok ((tot, off), s) := by
  cases fuel <;> rfl

theorem writeiLoop_run_fail (hsrc : src ≠ []) {e : String}
    (hrun : (bmap i (off / BSIZE)).run s = .error e) :
    (writeiLoop i (fuel + 1) src off tot).run s = .error e := by
  simp [writeiLoop, hsrc, StateT.run_bind, hrun]
  rfl

theorem writeiLoop_run_none (hsrc : src ≠ []) {addr : ℕ}
    (hrun : (bmap i (off / BSIZE)).run s = .ok (addr, s₂))
    (hb : (src.take (min src.length (BSIZE - off % BSIZE))).mapM id = none) :
    (writeiLoop i (fuel + 1) src off tot).run s = .ok ((tot, off),
      storeBytes s₂ addr (off % BSIZE)
        (((src.take (min src.length (BSIZE - off % BSIZE))).takeWhile Option.isSome).filterMap id).length
        (((src.take (min src.length (BSIZE - off % BSIZE))).takeWhile Option.isSome).filterMap id)) := by
  simp [writeiLoop, hsrc, StateT.run_bind, hrun, StateExcept.ok_bind, hb]
  rfl

theorem writeiLoop_run_some (hsrc : src ≠ []) {addr : ℕ} {bytes : List UInt8}
    (hrun : (bmap i (off / BSIZE)).run s = .ok (addr, s₂))
    (hb : (src.take (min src.length (BSIZE - off % BSIZE))).mapM id = some bytes) :
    (writeiLoop i (fuel + 1) src off tot).run s =
      (writeiLoop i fuel (src.drop (min src.length (BSIZE - off % BSIZE)))
        (off + min src.length (BSIZE - off % BSIZE)) (tot + min src.length (BSIZE - off % BSIZE))).run
        (putChunk s₂ addr (off % BSIZE) (min src.length (BSIZE - off % BSIZE)) bytes) := by
  simp [writeiLoop, hsrc, StateT.run_bind, hrun, StateExcept.ok_bind, hb]
  rfl

end Run

/-- What the loop of `writei` has done from `s` to `s'`, writing `src` from `off₀`, by the
time it reaches `off`: the file is in shape with its old size and has every block below
`off`; the bytes from `off₀` to `off` are those of `src` and the other bytes below the size
are as they were; every block the file gained was free; of the blocks that are not the
file's, none changed. -/
structure Wrote (s s' : FsState) (i : Fin NINODE) (src : List (Option UInt8)) (off₀ off : ℕ) :
    Prop where
  ok : FileOk s' i
  entry : AddrsOnly s s' i
  reach : ∀ bn, bn * BSIZE < off → blocks s' i bn ≠ 0
  written : ∀ k, off₀ ≤ k → k < off → src[k - off₀]? = some (some (content s' i k))
  kept : ∀ k < (s.itable i).di.size, (k < off₀ ∨ off ≤ k) → content s' i k = content s i k
  gained : ∀ b ≠ 0, s.disk.used b = true → Owns s' i b → Owns s i b
  used : ∀ b, s.disk.used b = true → s'.disk.used b = true
  frame : ∀ b ≠ 0, s.disk.used b = true → ¬ Owns s i b → s'.disk.data b = s.disk.data b
  touches : Touches s s'

section Loop

variable {s s₁ s₂ : FsState} {i : Fin NINODE} {src : List (Option UInt8)} {off₀ off : ℕ}

theorem lt_maxfile_of_lt {k : ℕ} (hk : k < MAXFILE * BSIZE) : k / BSIZE < MAXFILE :=
  Nat.div_lt_of_lt_mul (Nat.mul_comm MAXFILE BSIZE ▸ hk)

theorem Wrote.start (h : FileOk s i) (hoff : off₀ ≤ (s.itable i).di.size) :
    Wrote s s i src off₀ off₀ where
  ok := h
  entry := AddrsOnly.refl s i
  reach bn hbn := h.full bn (by omega)
  written _ h₁ h₂ := absurd h₂ (not_lt.2 h₁)
  kept _ _ _ := rfl
  gained _ _ _ hb := hb
  used _ hb := hb
  frame _ _ _ _ := rfl
  touches := Touches.refl s

/-- `bmap` of the block of `off` keeps what the loop has done. -/
theorem Wrote.mapped (hw : Wrote s s₁ i src off₀ off) {addr : ℕ}
    (hm : Mapped s₁ s₂ i (off / BSIZE) addr) (hoff : off ≤ MAXFILE * BSIZE) :
    Wrote s s₂ i src off₀ off where
  ok := hm.ok
  entry := hw.entry.trans hm.entry
  reach bn hbn := by
    by_cases he : bn = off / BSIZE
    · rw [he, hm.addr_eq]
      exact hm.addr_ne
    · rw [hm.others _ he]
      exact hw.reach bn hbn
  written k h₁ h₂ := by
    have hk : k / BSIZE * BSIZE < off := lt_of_le_of_lt (Nat.div_mul_le_self k BSIZE) h₂
    rw [hm.content_of_ne hw.ok (lt_maxfile_of_lt (by omega)) (hw.reach _ hk)]
    exact hw.written k h₁ h₂
  kept k hk hout := by
    have hk' : k / BSIZE * BSIZE < (s₁.itable i).di.size := by
      rw [hw.entry.size]
      exact lt_of_le_of_lt (Nat.div_mul_le_self k BSIZE) hk
    rw [hm.content_of_ne hw.ok (hw.ok.lt_maxfile hk') (hw.ok.full _ hk')]
    exact hw.kept k hk hout
  gained b hb0 hb hown := by
    rcases hm.owns hown with hown | hfree
    · exact hw.gained b hb0 hb hown
    · rw [hw.used b hb] at hfree
      cases hfree
  used b hb := hm.used b (hw.used b hb)
  frame b hb0 hb hown := by
    have hind : b ≠ indBlock s₁ i := fun he => hown (hw.gained b hb0 hb (.inr he))
    rw [hm.frame b (hw.used b hb) hind]
    exact hw.frame b hb0 hb hown
  touches := hw.touches.trans hm.touches

/-- The byte `src` has at `k`, for `k` in the chunk the loop took at `off`. -/
theorem getElem?_of_chunk (h₀ : off₀ ≤ off) {m : ℕ} {bytes : List UInt8}
    (hlen : m ≤ (src.drop (off - off₀)).length)
    (hb : ((src.drop (off - off₀)).take m).mapM id = some bytes) {k : ℕ} (h₁ : off ≤ k)
    (h₂ : k < off + m) : src[k - off₀]? = some (some (bytes.getD (k - off) 0)) := by
  have hsrc := eq_map_some_of_mapM_id hb
  have hbytes : bytes.length = m := by
    have := congrArg List.length hsrc
    rw [List.length_take, List.length_map] at this
    omega
  have hdrop : src[k - off₀]? = (src.drop (off - off₀))[k - off]? := by
    rw [List.getElem?_drop]
    congr 1
    omega
  rw [hdrop, ← List.getElem?_take_of_lt (show k - off < m by omega), hsrc, List.getElem?_map,
    List.getElem?_eq_getElem (by omega), List.getD_eq_getElem _ _ (by omega)]
  rfl

/-- `Wrote` reads nothing of the log. -/
theorem Wrote.logged (hw : Wrote s s₂ i src off₀ off) (l : List ℕ) :
    Wrote s { s₂ with logged := l } i src off₀ off :=
  ⟨⟨hw.ok.apart, hw.ok.zero, hw.ok.small, hw.ok.size_le, hw.ok.full⟩, hw.entry, hw.reach,
    hw.written, hw.kept, hw.gained, hw.used, hw.frame,
    ⟨hw.touches.sb, hw.touches.dinode, hw.touches.ftable, hw.touches.proc, hw.touches.pipes⟩⟩

/-- Storing `m` bytes of the source at `off`, in the block of `off`, extends what the loop has
done to `off + m`. -/
theorem Wrote.put (hw : Wrote s s₂ i src off₀ off) (h₀ : off₀ ≤ off) (hoff : off < MAXFILE * BSIZE)
    (ha : blocks s₂ i (off / BSIZE) ≠ 0) {m : ℕ} {bytes : List UInt8}
    (hm : off % BSIZE + m ≤ BSIZE) (hmax : off + m ≤ MAXFILE * BSIZE)
    (hlen : m ≤ (src.drop (off - off₀)).length)
    (hb : ((src.drop (off - off₀)).take m).mapM id = some bytes) :
    Wrote s (storeBytes s₂ (blocks s₂ i (off / BSIZE)) (off % BSIZE) m bytes) i src off₀ (off + m) := by
  have hoffB : off / BSIZE < MAXFILE := lt_maxfile_of_lt hoff
  have hblocks := blocks_storeBytes hw.ok hoffB (off % BSIZE) m bytes
  have hcontent := fun k => content_storeBytes (k := k) hw.ok hoffB ha hm bytes
  have howns : ∀ b, Owns (storeBytes s₂ (blocks s₂ i (off / BSIZE)) (off % BSIZE) m bytes) i b →
      Owns s₂ i b := by
    intro b hb
    unfold Owns at hb ⊢
    rwa [hblocks] at hb
  refine ⟨⟨?_, hw.ok.zero, hw.ok.small, hw.ok.size_le, fun bn hbn => ?_⟩, hw.entry,
    fun bn hbn => ?_, fun k h₁ h₂ => ?_, fun k hk hout => ?_,
    fun b hb0 hb hown => hw.gained b hb0 hb (howns b hown), hw.used, fun b hb0 hb hown => ?_,
    hw.touches.trans ⟨rfl, rfl, rfl, rfl, rfl⟩⟩
  · rw [hblocks]
    exact hw.ok.apart
  · rw [hblocks]
    exact hw.ok.full bn hbn
  · -- a block below `off + m` is below `off`, or the block of `off`
    rw [hblocks]
    by_cases hlt : bn * BSIZE < off
    · exact hw.reach bn hlt
    · rw [eq_div_of_lt hm hbn (not_lt.1 hlt)]
      exact ha
  · rw [hcontent k (lt_maxfile_of_lt (by omega))]
    by_cases hk : k < off
    · rw [if_neg (by omega)]
      exact hw.written k h₁ hk
    · rw [if_pos ⟨not_lt.1 hk, h₂⟩]
      exact getElem?_of_chunk h₀ hlen hb (not_lt.1 hk) h₂
  · have hk' : k < MAXFILE * BSIZE := lt_of_lt_of_le hk (hw.entry.size ▸ hw.ok.size_le)
    rw [hcontent k (lt_maxfile_of_lt hk'), if_neg (by omega)]
    exact hw.kept k hk (by omega)
  · have hne : b ≠ blocks s₂ i (off / BSIZE) := fun he =>
      hown (hw.gained b hb0 hb (.inl ⟨_, hoffB, he.symm⟩))
    simp only [storeBytes]
    rw [Function.update_of_ne hne]
    exact hw.frame b hb0 hb hown

/-- Below the size, the block of `off` is there, and `bmap` returns it. -/
theorem Wrote.bmap_of_lt (hw : Wrote s s₁ i src off₀ off) (hoff : off < (s.itable i).di.size) :
    (bmap i (off / BSIZE)).run s₁ = .ok (blocks s₁ i (off / BSIZE), s₁) := by
  have hbn : off / BSIZE * BSIZE < (s₁.itable i).di.size := by
    rw [hw.entry.size]
    exact lt_of_le_of_lt (Nat.div_mul_le_self off BSIZE) hoff
  exact bmap_run_of_ne (hw.ok.lt_maxfile hbn) (hw.ok.full _ hbn)

/-- The loop of `writei` from a point it reached: it panics for want of a free block, which
only a range past the size can need, or stops at some `off'` up to the end of `src` having
written `src` up to there. Where it stops short of the end, the chunk at `off'` has a byte at
`e` that `copyin` cannot read, and the bytes before it, which `copyin` copied, are stored
too: the bytes of `src` are in the file up to `e`. -/
theorem writeiLoop_spec (hmax : off₀ + src.length ≤ MAXFILE * BSIZE) :
    ∀ fuel off s₁, Wrote s s₁ i src off₀ off → off₀ ≤ off → off ≤ off₀ + src.length →
      off₀ + src.length - off ≤ fuel →
      (writeiLoop i fuel (src.drop (off - off₀)) off (off - off₀)).run s₁ =
          .error "balloc: out of blocks" ∧ (s.itable i).di.size < off₀ + src.length ∨
        ∃ off' e s₂, (writeiLoop i fuel (src.drop (off - off₀)) off (off - off₀)).run s₁ =
            .ok ((off' - off₀, off'), s₂) ∧ Wrote s s₂ i src off₀ e ∧ off ≤ off' ∧ off' ≤ e ∧
          e ≤ off₀ + src.length ∧ (off' < off₀ + src.length → src[e - off₀]? = some none)
  | 0, off, s₁, hw, _, h₁, hf => .inr ⟨off, off, s₁, rfl, hw, le_rfl, le_rfl, h₁, fun _ => by omega⟩
  | fuel + 1, off, s₁, hw, h₀, h₁, hf => by
    by_cases hend : off = off₀ + src.length
    · rw [List.drop_eq_nil_of_le (by omega), writeiLoop_run_nil]
      exact .inr ⟨off, off, s₁, rfl, hw, le_rfl, le_rfl, h₁, fun _ => by omega⟩
    have hlen : (src.drop (off - off₀)).length = off₀ + src.length - off := by
      rw [List.length_drop]
      omega
    have hne : src.drop (off - off₀) ≠ [] := fun h => by
      rw [h, List.length_nil] at hlen
      omega
    have hoff : off < MAXFILE * BSIZE := by omega
    rcases bmap_spec hw.ok (lt_maxfile_of_lt hoff) with he | ⟨addr, s₂, hrun, hm⟩
    · refine .inl ⟨writeiLoop_run_fail hne he, not_le.1 fun hle => ?_⟩
      rw [hw.bmap_of_lt (by omega)] at he
      cases he
    have hw₂ := hw.mapped hm hoff.le
    have hm0 := chunk_pos off (show (src.drop (off - off₀)).length ≠ 0 by omega)
    set m := min (src.drop (off - off₀)).length (BSIZE - off % BSIZE) with hm_def
    have hmB : off % BSIZE + m ≤ BSIZE := chunk_le off _
    cases hb : ((src.drop (off - off₀)).take m).mapM id with
    | none =>
      -- a byte of the chunk cannot be read: the bytes before it are stored, and the loop
      -- stops here
      set c := (src.drop (off - off₀)).take m with hc
      have hp := length_filterMap_takeWhile c
      have hnone := getElem?_length_takeWhile hb
      have hclen : c.length = m := by
        rw [hc, List.length_take]
        omega
      have hpm : (c.takeWhile Option.isSome).length < m := by
        rw [← hclen]
        exact (List.getElem?_eq_some_iff.1 hnone).1
      have hbytes : ((src.drop (off - off₀)).take ((c.takeWhile Option.isSome).filterMap id).length).mapM id =
          some ((c.takeWhile Option.isSome).filterMap id) := by
        rw [hp, ← Nat.min_eq_left hpm.le, ← List.take_take, ← hc, take_length_takeWhile,
          mapM_id_takeWhile]
      have hw₃ := hw₂.put h₀ hoff (hm.addr_eq ▸ hm.addr_ne) (by omega) (by omega) (by omega) hbytes
      rw [hm.addr_eq] at hw₃
      refine .inr ⟨off, off + ((c.takeWhile Option.isSome).filterMap id).length, _,
        writeiLoop_run_none hne hrun hb, hw₃, le_rfl, by omega, by omega, fun _ => ?_⟩
      -- the byte after them is the `none` of the chunk
      rw [show off + ((c.takeWhile Option.isSome).filterMap id).length - off₀ =
        off - off₀ + (c.takeWhile Option.isSome).length by omega, ← List.getElem?_drop,
        ← List.getElem?_take_of_lt hpm]
      exact hnone
    | some bytes =>
      rw [writeiLoop_run_some hne hrun hb, ← hm.addr_eq]
      have hw₃ : Wrote s (putChunk s₂ (blocks s₂ i (off / BSIZE)) (off % BSIZE) m bytes) i src
          off₀ (off + m) :=
        (hw₂.put h₀ hoff (hm.addr_eq ▸ hm.addr_ne) hmB (by omega) (min_le_left _ _) hb).logged _
      have ih := writeiLoop_spec hmax fuel (off + m) _ hw₃ (by omega) (by omega) (by omega)
      rw [show off + m - off₀ = off - off₀ + m by omega, ← List.drop_drop] at ih
      rcases ih with he | ⟨off', e, s₃, hrun₃, hw₃, hle, hle', hend, hstop⟩
      · exact .inl he
      · exact .inr ⟨off', e, s₃, hrun₃, hw₃, by omega, hle', hend, hstop⟩

end Loop

/-! ## `writei` -/

/-- The state `writei` leaves when its loop stopped at `off` in `s`: the size raised to
`off` where it was below, and the inode written back to the disk. -/
def writeBack (s : FsState) (i : Fin NINODE) (off : ℕ) : FsState :=
  let s₁ := if (s.itable i).di.size < off then
      { s with
        itable := Function.update s.itable i
          ({ s.itable i with di := { (s.itable i).di with size := off } }) }
    else s
  { s₁ with
    disk := { s₁.disk with
      dinode := Function.update s₁.disk.dinode (s₁.itable i).inum (s₁.itable i).di }
    logged := s₁.logged ++ [IBLOCK (s₁.itable i).inum s₁.disk.sb] }

/-- The entry of the file after `writeBack`: its size is raised to `off`. -/
def grown (s : FsState) (i : Fin NINODE) (off : ℕ) : Inode :=
  { s.itable i with di := { (s.itable i).di with size := max (s.itable i).di.size off } }

section WriteBack

variable {s : FsState} {i : Fin NINODE} {off : ℕ}

theorem writeBack_itable : (writeBack s i off).itable = Function.update s.itable i (grown s i off) := by
  by_cases h : (s.itable i).di.size < off
  · simp [writeBack, grown, h, max_eq_right h.le]
  · have hmax : max (s.itable i).di.size off = (s.itable i).di.size := max_eq_left (not_lt.1 h)
    simp [writeBack, grown, h, hmax]

theorem writeBack_disk : (writeBack s i off).disk =
    { s.disk with dinode := Function.update s.disk.dinode (s.itable i).inum (grown s i off).di } := by
  by_cases h : (s.itable i).di.size < off
  · simp [writeBack, grown, h, max_eq_right h.le]
  · have hmax : max (s.itable i).di.size off = (s.itable i).di.size := max_eq_left (not_lt.1 h)
    simp [writeBack, grown, h, hmax]

end WriteBack

section Writei

variable {s : FsState} {i : Fin NINODE} {src : List (Option UInt8)} {off : ℕ}

theorem maxfile_bytes : MAXFILE * BSIZE < 2 ^ 32 := by decide

theorem writei_run_ok (hoff : off ≤ (s.itable i).di.size)
    (hmax : off + src.length ≤ MAXFILE * BSIZE) {tot off' : ℕ} {s₂ : FsState}
    (hloop : (writeiLoop i src.length src off 0).run s = .ok ((tot, off'), s₂)) :
    (writei i src off).run s = .ok ((tot : ℤ), writeBack s₂ i off') := by
  have hw := maxfile_bytes
  simp [writei, not_lt.2 hoff, not_lt.2 hmax]
  -- `off + n` does not wrap
  rw [if_neg (by omega)]
  simp [StateT.run_bind, hloop, StateExcept.ok_bind]
  by_cases hg : (s₂.itable i).di.size < off'
  · simp [hg, StateT.run_bind, run_modifyDi, StateExcept.ok_bind, run_iupdate, writeBack]
  · simp [hg, run_iupdate, writeBack]

/-- A range past `MAXFILE` blocks is refused with nothing changed. -/
theorem writei_run_big (hbig : MAXFILE * BSIZE < off + src.length) :
    (writei i src off).run s = .ok (-1, s) := by
  simp [writei, hbig]
  rfl

theorem writei_run_error (hoff : off ≤ (s.itable i).di.size)
    (hmax : off + src.length ≤ MAXFILE * BSIZE) {e : String}
    (hloop : (writeiLoop i src.length src off 0).run s = .error e) :
    (writei i src off).run s = .error e := by
  have hw := maxfile_bytes
  simp [writei, not_lt.2 hoff, not_lt.2 hmax]
  rw [if_neg (by omega)]
  simp [StateT.run_bind, hloop]
  rfl

end Writei

/-- What `writei` did from `s` to `s'`, writing `n` bytes of `src` at `off`: the file is in
shape and its size is raised to `off + n`; the bytes from `off` to `off + e` are those of
`src`, the `n` it wrote and, where it stopped short at a byte `e` it cannot read, those
`copyin` copied before it; the other bytes below the old size are as they were; the inode
is written back, and of the rest only the blocks that were free or the file's changed. -/
structure Written (s s' : FsState) (i : Fin NINODE) (src : List (Option UInt8)) (off n e : ℕ) :
    Prop where
  ok : FileOk s' i
  size : (s'.itable i).di.size = max (s.itable i).di.size (off + n)
  entry : ∃ addrs, s'.itable i =
    { s.itable i with di := { (s.itable i).di with addrs, size := max (s.itable i).di.size (off + n) } }
  le : n ≤ e
  le_length : e ≤ src.length
  stop : n < src.length → src[e]? = some none
  written : ∀ k, off ≤ k → k < off + e → src[k - off]? = some (some (content s' i k))
  kept : ∀ k < (s.itable i).di.size, (k < off ∨ off + e ≤ k) → content s' i k = content s i k
  others : ∀ j, j ≠ i → s'.itable j = s.itable j
  stored : s'.disk.dinode (s.itable i).inum = (s'.itable i).di
  dinode : ∀ inum, inum ≠ (s.itable i).inum → s'.disk.dinode inum = s.disk.dinode inum
  gained : ∀ b ≠ 0, s.disk.used b = true → Owns s' i b → Owns s i b
  used : ∀ b, s.disk.used b = true → s'.disk.used b = true
  frame : ∀ b ≠ 0, s.disk.used b = true → ¬ Owns s i b → s'.disk.data b = s.disk.data b

section Full

variable {s s' : FsState} {i : Fin NINODE} {src : List (Option UInt8)} {off n e : ℕ}

/-- Where every byte of the source can be read, `writei` writes them all. -/
theorem Written.all (hw : Written s s' i src off n e) (hall : ∀ x ∈ src, x.isSome) :
    n = src.length := by
  by_contra hne
  have hnone := hw.stop (lt_of_le_of_ne (hw.le.trans hw.le_length) hne)
  have := hall none (List.mem_of_getElem? hnone)
  cases this

/-- A write of all the source stored nothing past it. -/
theorem Written.end_eq (hw : Written s s' i src off n e) (hn : n = src.length) : e = n :=
  le_antisymm (hn ▸ hw.le_length) hw.le

end Full

section WriteBack

variable {s s₂ : FsState} {i : Fin NINODE} {src : List (Option UInt8)} {off₀ off : ℕ}

theorem blocks_writeBack : blocks (writeBack s i off) i = blocks s i := by
  funext bn
  simp [blocks, Disk.blockOf, writeBack_itable, writeBack_disk, grown]

theorem indBlock_writeBack : indBlock (writeBack s i off) i = indBlock s i := by
  simp [indBlock, writeBack_itable, grown]

theorem content_writeBack : content (writeBack s i off) i = content s i := by
  rw [content_eq_flat, content_eq_flat, blocks_writeBack, writeBack_disk]

/-- The end of `writei` after its loop stopped at `off`. -/
theorem Wrote.written_back {e : ℕ} (hw : Wrote s s₂ i src off₀ e) (h₀ : off₀ ≤ off)
    (hoe : off ≤ e) (hmax : off ≤ MAXFILE * BSIZE) (hle : e ≤ off₀ + src.length)
    (hstop : off < off₀ + src.length → src[e - off₀]? = some none) :
    Written s (writeBack s₂ i off) i src off₀ (off - off₀) (e - off₀) := by
  have hsize : ((writeBack s₂ i off).itable i).di.size = max (s.itable i).di.size off := by
    rw [writeBack_itable, Function.update_self, grown, hw.entry.size]
  have hinum : (s₂.itable i).inum = (s.itable i).inum := by
    obtain ⟨addrs, he⟩ := hw.entry
    rw [he, Function.update_self]
  have howns : ∀ b, Owns (writeBack s₂ i off) i b ↔ Owns s₂ i b := by
    intro b
    unfold Owns
    rw [blocks_writeBack, indBlock_writeBack]
  refine ⟨⟨?_, ?_, ?_, ?_, fun bn hbn => ?_⟩, ?_, ?_, by omega, by omega,
    fun h => hstop (by omega), fun k h₁ h₂ => ?_, fun k hk hout => ?_, fun j hj => ?_, ?_,
    fun inum hne => ?_,
    fun b hb0 hb hown => hw.gained b hb0 hb ((howns b).1 hown), fun b hb => ?_,
    fun b hb0 hb hown => ?_⟩
  · rw [blocks_writeBack, indBlock_writeBack, writeBack_disk]
    exact hw.ok.apart
  · rw [writeBack_disk]
    exact hw.ok.zero
  · rw [writeBack_disk]
    exact hw.ok.small
  · rw [hsize, ← hw.entry.size]
    exact max_le hw.ok.size_le hmax
  · -- below the old size, or below where the loop stopped
    rw [blocks_writeBack]
    rw [hsize] at hbn
    rcases lt_max_iff.1 hbn with h | h
    · exact hw.ok.full bn (by rw [hw.entry.size]; exact h)
    · exact hw.reach bn (by omega)
  · rw [hsize, Nat.add_sub_cancel' h₀]
  · obtain ⟨addrs, he⟩ := hw.entry
    refine ⟨addrs, ?_⟩
    rw [writeBack_itable, Function.update_self, grown, he, Function.update_self,
      Nat.add_sub_cancel' h₀]
  · rw [content_writeBack]
    exact hw.written k h₁ (by omega)
  · rw [content_writeBack]
    exact hw.kept k hk (by omega)
  · rw [writeBack_itable, Function.update_of_ne hj]
    exact hw.entry.other hj
  · simp [writeBack_disk, writeBack_itable, hinum]
  · rw [writeBack_disk]
    dsimp only
    rw [Function.update_of_ne (hinum ▸ hne), hw.touches.dinode]
  · rw [writeBack_disk]
    exact hw.used b hb
  · rw [writeBack_disk]
    exact hw.frame b hb0 hb hown

/-- Another file whose blocks are none of file `i`'s keeps its bytes below its size. -/
theorem Written.other_content {n e : ℕ} (hw : Written s s₂ i src off₀ n e) {j : Fin NINODE}
    (hj : FileOk s j) (hji : j ≠ i) (hdisj : ∀ b ≠ 0, Owns s j b → ¬ Owns s i b) {k : ℕ}
    (hk : k < (s.itable j).di.size) : content s₂ j k = content s j k := by
  have hblocks : blocks s₂ j = blocks s j := blocks_congr (by rw [hw.others j hji]) fun hind =>
    hw.frame _ hind (hj.apart.marked_ind hind) (hdisj _ hind (.inr rfl))
  have hbn : k / BSIZE * BSIZE < (s.itable j).di.size :=
    lt_of_le_of_lt (Nat.div_mul_le_self k BSIZE) hk
  have hb0 := hj.full _ hbn
  have hlt := hj.lt_maxfile hbn
  rw [content_eq, content_eq, hblocks,
    hw.frame _ hb0 (hj.apart.marked _ hlt hb0) (hdisj _ hb0 (.inl ⟨_, hlt, rfl⟩))]

end WriteBack

section Writei

variable {s : FsState} {i : Fin NINODE} {src : List (Option UInt8)} {off : ℕ}

/-- `writei` on a file in shape, at an offset within the file and a range within `MAXFILE`
blocks: it panics for want of a free block, which only a range past the size can need, or
writes the bytes of `src` up to the first chunk with a byte it cannot read, returns their
number, raises the size and writes the inode back, and changes no block but the file's and
free ones; of that chunk, the bytes before the one it cannot read are stored too. -/
theorem writei_spec (h : FileOk s i) (hoff : off ≤ (s.itable i).di.size)
    (hmax : off + src.length ≤ MAXFILE * BSIZE) :
    (writei i src off).run s = .error "balloc: out of blocks" ∧
        (s.itable i).di.size < off + src.length ∨
      ∃ (n e : ℕ) (s' : FsState), (writei i src off).run s = .ok ((n : ℤ), s') ∧
        Written s s' i src off n e := by
  have hloop := writeiLoop_spec hmax src.length off s (Wrote.start h hoff) le_rfl (by omega)
    (by omega)
  rw [Nat.sub_self, List.drop_zero] at hloop
  rcases hloop with he | ⟨off', e, s₂, hrun, hw, h₀, hoe, hle, hstop⟩
  · exact .inl ⟨writei_run_error hoff hmax he.1, he.2⟩
  · exact .inr ⟨off' - off, e - off, writeBack s₂ i off', writei_run_ok hoff hmax hrun,
      hw.written_back h₀ hoe (by omega) hle hstop⟩

end Writei

end Xv6.Fs
