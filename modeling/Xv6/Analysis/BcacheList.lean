import Xv6.Model.Bio

/-!
# The buffer cache's list

The list through `bcache.head` is what makes `bget` a least-recently-used cache. Read from
`head.next`, it is a list `l` of buffers, most recently released first, and the pointer
code of `bio.c` is the list code of an LRU cache on `l`:

* `bget` is `getSpec`: the first buffer of `l` holding the block, else the last buffer of
  `l` with no reference (the one nearest `head.prev`), else the panic. Its two loops are
  `List.find?` on `l` and on `l.reverse` (`bget_eq_getSpec`).
* `brelse` moves the buffer to the front of `l` when its last reference goes, and leaves
  `l` alone otherwise (`Listed.brelse`).

Two facts carry this through every run: `l` holds every buffer once, so that the loops see
every buffer within their `NBUF` rounds, and no two buffers of a device other than 0 hold the
same block, since `bget` only recycles a buffer for a block no buffer holds. A step of the
system changes the cache by one of the operations above (`step_change`), each keeps both
facts, and `binit` sets them up.
-/

set_option autoImplicit false

namespace Xv6

open TransitionSystem

namespace Bcache

variable {bc : Bcache} {l : List (Fin NBUF)}

@[simp] theorem modifyBuf_links (bc : Bcache) (b : Fin NBUF) (f : Buf → Buf) :
    (bc.modifyBuf b f).links = bc.links := rfl

@[simp] theorem modifyBuf_buf_self (bc : Bcache) (b : Fin NBUF) (f : Buf → Buf) :
    (bc.modifyBuf b f).buf b = f (bc.buf b) := by
  simp only [modifyBuf, Function.update_self]

theorem modifyBuf_buf_of_ne (bc : Bcache) {b b' : Fin NBUF} (h : b' ≠ b) (f : Buf → Buf) :
    (bc.modifyBuf b f).buf b' = bc.buf b' := by
  simp only [modifyBuf, Function.update_of_ne h]

/-- `brelse` changes the buffers as dropping the reference does; only the links depend on
whether it was the last. -/
theorem brelse_buf (bc : Bcache) (b : Fin NBUF) :
    (bc.brelse b).buf = (bc.modifyBuf b fun x => { x with refcnt := x.refcnt - 1 }).buf := by
  unfold brelse
  dsimp only
  split <;> rfl

theorem holds_eq_true {dev blockno : UInt32} {b : Fin NBUF} :
    bc.holds dev blockno b = true ↔ (bc.buf b).dev = dev ∧ (bc.buf b).blockno = blockno := by
  simp [holds]

/-! ## What `bget` is for -/

/-- `bget` on the list `l`, most recently released first: take a reference to the first
buffer holding the block; else recycle the last buffer nobody references; else panic. -/
def getSpec (bc : Bcache) (l : List (Fin NBUF)) (dev blockno : UInt32) :
    Except String (Fin NBUF × Bcache) :=
  match l.find? (bc.holds dev blockno) with
  | some b => .ok (b, bc.modifyBuf b fun x => { x with refcnt := x.refcnt + 1 })
  | none =>
    match l.reverse.find? (fun b => (bc.buf b).refcnt == 0) with
    | some b => .ok (b, bc.modifyBuf b fun x => { x with dev, blockno, valid := false, refcnt := 1 })
    | none => .error "bget: no buffers"

/-- The list through the head holds every buffer, each once. -/
structure Listed (bc : Bcache) (l : List (Fin NBUF)) : Prop where
  links : bc.links.Represents l
  all : ∀ b, b ∈ l

/-- No two buffers of a device other than 0 hold the same block. -/
def Unique (bc : Bcache) : Prop :=
  ∀ b b', (bc.buf b).dev ≠ 0 → (bc.buf b).dev = (bc.buf b').dev →
    (bc.buf b).blockno = (bc.buf b').blockno → b = b'

theorem Listed.length_le (h : bc.Listed l) : l.length ≤ NBUF := by
  have hcard := h.links.nodup.length_le_card
  rwa [Fintype.card_fin] at hcard

/-- The pointer loops of `bget` are the list searches of `getSpec`. -/
theorem bget_eq_getSpec (h : bc.Listed l) (dev blockno : UInt32) :
    bc.bget dev blockno = bc.getSpec l dev blockno := by
  unfold bget getSpec
  rw [h.links.scan_next _ h.length_le]
  cases l.find? (bc.holds dev blockno) with
  | some b => rfl
  | none =>
    simp only
    rw [h.links.scan_prev _ h.length_le]
    cases l.reverse.find? (fun b => (bc.buf b).refcnt == 0) <;> rfl

/-- When a buffer holds the block and the device is not 0, `getSpec` takes a reference to
that buffer. -/
theorem getSpec_of_holds (hl : ∀ b, b ∈ l) (hu : bc.Unique) {dev blockno : UInt32}
    (hdev : dev ≠ 0) {b : Fin NBUF} (hb : bc.holds dev blockno b = true) :
    bc.getSpec l dev blockno = .ok (b, bc.bpin b) := by
  obtain ⟨b', hfind⟩ : ∃ b', l.find? (bc.holds dev blockno) = some b' :=
    Option.ne_none_iff_exists'.1 fun hnone => List.find?_eq_none.1 hnone b (hl b) hb
  have hb' : bc.holds dev blockno b' = true := List.find?_some hfind
  rw [holds_eq_true] at hb hb'
  -- the buffer found first is the only one holding the block
  have heq : b' = b := hu b' b (by rw [hb'.1]; exact hdev) (by rw [hb'.1, hb.1])
    (by rw [hb'.2, hb.2])
  rw [getSpec, hfind, heq]
  rfl

/-- With no buffer holding the block, `getSpec` recycles the free buffer nearest the end of
`l`: all buffers after it are referenced. -/
theorem getSpec_of_miss (hl : ∀ b, b ∈ l) {dev blockno : UInt32}
    (hmiss : ∀ b, bc.holds dev blockno b = false) (hfree : ∃ b, (bc.buf b).refcnt = 0) :
    ∃ pre post b, l = pre ++ b :: post ∧ (bc.buf b).refcnt = 0 ∧
      (∀ b' ∈ post, (bc.buf b').refcnt ≠ 0) ∧
      bc.getSpec l dev blockno =
        .ok (b, bc.modifyBuf b fun x => { x with dev, blockno, valid := false, refcnt := 1 }) := by
  have hnone : l.find? (bc.holds dev blockno) = none :=
    List.find?_eq_none.2 fun b _ => by simp [hmiss b]
  obtain ⟨b, hfind⟩ : ∃ b, l.reverse.find? (fun b => (bc.buf b).refcnt == 0) = some b := by
    obtain ⟨b, hb⟩ := hfree
    exact Option.ne_none_iff_exists'.1 fun hnone =>
      List.find?_eq_none.1 hnone b (List.mem_reverse.2 (hl b)) (by simpa using hb)
  -- `find?` on the reversed list splits it at `b`
  obtain ⟨hbfree, as, bs, hsplit, hbefore⟩ := List.find?_eq_some_iff_append.1 hfind
  refine ⟨bs.reverse, as.reverse, b, ?_, by simpa using hbfree, ?_, ?_⟩
  · rw [← List.reverse_reverse l, hsplit, List.reverse_append, List.reverse_cons,
      List.append_assoc, List.singleton_append]
  · intro b' hb'
    simpa using hbefore b' (List.mem_reverse.1 hb')
  · rw [getSpec, hnone]
    simp only [hfind]

/-- `getSpec` panics only when every buffer of `l` is referenced. -/
theorem getSpec_eq_error {dev blockno : UInt32} {msg : String}
    (h : bc.getSpec l dev blockno = .error msg) :
    msg = "bget: no buffers" ∧ ∀ b ∈ l, (bc.buf b).refcnt ≠ 0 := by
  unfold getSpec at h
  split at h
  · cases h
  · split at h
    · cases h
    · next hfree =>
      cases h
      refine ⟨rfl, fun b hb hzero => ?_⟩
      rw [List.find?_eq_none] at hfree
      simpa [hzero] using hfree b (List.mem_reverse.2 hb)

/-- What `getSpec` can return: a reference to a buffer holding the block, or a buffer with
no reference recycled for a block that no buffer holds. -/
theorem getSpec_eq_ok {dev blockno : UInt32} {b : Fin NBUF} {bc' : Bcache}
    (h : bc.getSpec l dev blockno = .ok (b, bc')) :
    (bc.holds dev blockno b = true ∧ bc' = bc.bpin b) ∨
      ((∀ b' ∈ l, bc.holds dev blockno b' = false) ∧
        bc' = bc.modifyBuf b fun x => { x with dev, blockno, valid := false, refcnt := 1 }) := by
  unfold getSpec at h
  split at h
  · next b₀ hfind =>
    cases h
    exact .inl ⟨List.find?_some hfind, rfl⟩
  · next hnone =>
    rw [List.find?_eq_none] at hnone
    split at h
    · cases h
      exact .inr ⟨fun b' hb' => by simpa using hnone b' hb', rfl⟩
    · cases h

/-! ## The two facts, operation by operation -/

theorem Listed.modifyBuf (h : bc.Listed l) (b : Fin NBUF) (f : Buf → Buf) :
    (bc.modifyBuf b f).Listed l := ⟨h.links, h.all⟩

/-- `brelse` moves the buffer to the front exactly when its last reference goes. -/
theorem Listed.brelse (h : bc.Listed l) (b : Fin NBUF) :
    (bc.brelse b).Listed (if (bc.buf b).refcnt - 1 = 0 then b :: l.erase b else l) := by
  unfold Bcache.brelse
  by_cases hz : (bc.buf b).refcnt - 1 = 0
  · rw [if_pos (by simpa using hz), if_pos hz]
    refine ⟨h.links.moveFront (h.all b), fun b' => ?_⟩
    by_cases hb' : b' = b
    · rw [hb']
      exact List.mem_cons_self
    · exact List.mem_cons_of_mem _ ((List.mem_erase_of_ne hb').2 (h.all b'))
  · rw [if_neg (by simpa using hz), if_neg hz]
    exact h.modifyBuf b _

/-- Changing the fields of a buffer other than `dev` and `blockno` keeps blocks unique. -/
theorem Unique.modifyBuf (hu : bc.Unique) (b : Fin NBUF) {f : Buf → Buf}
    (hdev : ∀ x, (f x).dev = x.dev) (hblock : ∀ x, (f x).blockno = x.blockno) :
    (bc.modifyBuf b f).Unique := by
  -- every buffer keeps the block it holds
  have hsame : ∀ b', ((bc.modifyBuf b f).buf b').dev = (bc.buf b').dev ∧
      ((bc.modifyBuf b f).buf b').blockno = (bc.buf b').blockno := by
    intro b'
    by_cases hb' : b' = b
    · subst hb'
      simp [hdev, hblock]
    · simp [modifyBuf_buf_of_ne bc hb']
  intro b₁ b₂ h0 hd hn
  obtain ⟨hd₁, hn₁⟩ := hsame b₁
  obtain ⟨hd₂, hn₂⟩ := hsame b₂
  rw [hd₁] at h0
  rw [hd₁, hd₂] at hd
  rw [hn₁, hn₂] at hn
  exact hu b₁ b₂ h0 hd hn

/-- Recycling a buffer for a block no buffer holds keeps blocks unique. -/
theorem Unique.recycle (hu : bc.Unique) {dev blockno : UInt32}
    (hmiss : ∀ b', bc.holds dev blockno b' = false) (b : Fin NBUF) :
    (bc.modifyBuf b fun x => { x with dev, blockno, valid := false, refcnt := 1 }).Unique := by
  -- a buffer other than `b` that ends up with `b`'s new block already held it
  have hother : ∀ b', b' ≠ b → ¬((bc.buf b').dev = dev ∧ (bc.buf b').blockno = blockno) :=
    fun b' _ hb' => by simpa [hmiss b'] using holds_eq_true.2 hb'
  intro b₁ b₂ h0 hd hn
  by_cases h₁ : b₁ = b <;> by_cases h₂ : b₂ = b
  · rw [h₁, h₂]
  · subst h₁
    simp only [modifyBuf_buf_self, modifyBuf_buf_of_ne bc h₂] at hd hn
    exact absurd ⟨hd.symm, hn.symm⟩ (hother b₂ h₂)
  · subst h₂
    simp only [modifyBuf_buf_self, modifyBuf_buf_of_ne bc h₁] at hd hn
    exact absurd ⟨hd, hn⟩ (hother b₁ h₁)
  · simp only [modifyBuf_buf_of_ne bc h₁, modifyBuf_buf_of_ne bc h₂] at h0 hd hn
    exact hu b₁ b₂ h0 hd hn

/-- The invariant of the cache. -/
structure Inv (bc : Bcache) : Prop where
  listed : ∃ l, bc.Listed l
  unique : bc.Unique

/-- How one step of the system changes the cache: not at all, by `bget`, by the part of
`brelse` under `bcache.lock`, by `bpin` or `bunpin`, or by `bread` setting `valid`. -/
inductive Change (bc : Bcache) : Bcache → Prop where
  | same : Change bc bc
  | bget {dev blockno : UInt32} {b : Fin NBUF} {bc' : Bcache} :
      bc.bget dev blockno = .ok (b, bc') → Change bc bc'
  | brelse (b : Fin NBUF) : Change bc (bc.brelse b)
  | bpin (b : Fin NBUF) : Change bc (bc.bpin b)
  | bunpin (b : Fin NBUF) : Change bc (bc.bunpin b)
  | validate (b : Fin NBUF) : Change bc (bc.modifyBuf b fun x => { x with valid := true })

theorem Inv.bget (hi : bc.Inv) {dev blockno : UInt32} {b : Fin NBUF} {bc' : Bcache}
    (h : bc.bget dev blockno = .ok (b, bc')) : bc'.Inv := by
  obtain ⟨⟨l, hl⟩, hu⟩ := hi
  rw [bget_eq_getSpec hl] at h
  rcases getSpec_eq_ok h with ⟨-, rfl⟩ | ⟨hmiss, rfl⟩
  · exact ⟨⟨l, hl.modifyBuf _ _⟩, hu.modifyBuf b (fun _ => rfl) (fun _ => rfl)⟩
  · exact ⟨⟨l, hl.modifyBuf _ _⟩, hu.recycle (fun b' => hmiss b' (hl.all b')) b⟩

theorem Inv.change (hi : bc.Inv) {bc' : Bcache} (h : Change bc bc') : bc'.Inv := by
  obtain ⟨⟨l, hl⟩, hu⟩ := hi
  cases h with
  | same => exact ⟨⟨l, hl⟩, hu⟩
  | bget hget => exact Inv.bget ⟨⟨l, hl⟩, hu⟩ hget
  | brelse b =>
    have hu' := hu.modifyBuf b (f := fun x => { x with refcnt := x.refcnt - 1 })
      (fun _ => rfl) (fun _ => rfl)
    refine ⟨⟨_, hl.brelse b⟩, ?_⟩
    unfold Unique at hu' ⊢
    rw [brelse_buf]
    exact hu'
  | bpin b => exact ⟨⟨l, hl.modifyBuf _ _⟩, hu.modifyBuf b (fun _ => rfl) (fun _ => rfl)⟩
  | bunpin b => exact ⟨⟨l, hl.modifyBuf _ _⟩, hu.modifyBuf b (fun _ => rfl) (fun _ => rfl)⟩
  | validate b => exact ⟨⟨l, hl.modifyBuf _ _⟩, hu.modifyBuf b (fun _ => rfl) (fun _ => rfl)⟩

/-- `binit` lists the buffers from `buf[NBUF-1]` down to `buf[0]`, all for device 0. -/
theorem inv_binit : binit.Inv := by
  have hlist : binit.Listed (List.finRange NBUF).reverse := by
    refine ⟨?_, fun b => List.mem_reverse.2 (List.mem_finRange b)⟩
    have h := (Dll.Links.represents_nil (L := ⟨fun _ => none, fun _ => none⟩) rfl rfl).foldl_pushFront
      (List.finRange NBUF) (by rw [List.append_nil, List.nodup_reverse]; exact List.nodup_finRange NBUF)
    rw [List.append_nil] at h
    exact h
  exact ⟨⟨_, hlist⟩, fun b _ h0 _ _ => absurd rfl h0⟩

end Bcache

namespace BioSys

variable {ι : Type} [DecidableEq ι]

/-- Every step changes the cache by one of the operations of `Bcache.Change`. -/
theorem step_change {s s' : BioSys ι} {a : BioAct ι} (h : s.step a = .next s') :
    Bcache.Change s.bcache s'.bcache := by
  cases a with
  | bread p dev blockno =>
    simp only [step] at h
    split at h
    · split at h
      · next b bc hget =>
        cases h
        exact .bget hget
      · cases h
    · cases h
  | run p =>
    simp only [step] at h
    generalize s.call p = c at h
    cases c with
    | idle => cases h
    | sleeping b =>
      simp only [runStep] at h
      split at h
      · cases h
        exact .same
      · cases h
    | reading b =>
      simp only [runStep] at h
      cases h
      split
      · exact .same
      · exact .validate b
    | releasing b =>
      simp only [runStep] at h
      cases h
      exact .brelse b
  | bwrite p b =>
    simp only [step] at h
    split at h
    · split at h
      · cases h
        exact .same
      · cases h
    · cases h
  | brelse p b =>
    simp only [step] at h
    split at h
    · split at h
      · cases h
        exact .same
      · cases h
    · cases h
  | bpin p b =>
    simp only [step] at h
    split at h
    · cases h
      exact .bpin b
    · cases h
  | bunpin p b =>
    simp only [step] at h
    split at h
    · cases h
      exact .bunpin b
    · cases h

theorem inv_of_reachable {s : BioSys ι} (hs : Reachable step init s) : s.bcache.Inv :=
  Reachable.inv (fun s : BioSys ι => s.bcache.Inv) Bcache.inv_binit
    (fun _ _ _ _ hi h => hi.change (step_change h)) hs

/-- In every reachable state the list through `bcache.head` holds each buffer once, with
`next` and `prev` inverse to each other; no two buffers of a device other than 0 hold the
same block; `bget` takes a reference to the buffer holding the block when there is one,
else recycles the free buffer nearest `head.prev`, and panics only when every buffer is
referenced; and `brelse` moves the buffer to the front exactly when its last reference
goes. -/
theorem bcache_list_invariant {s : BioSys ι} (hs : Reachable step init s) :
    ∃ l : List (Fin NBUF), s.bcache.links.Represents l ∧ (∀ b, b ∈ l) ∧
      (∀ x, s.bcache.links.next (s.bcache.links.prev x) = x ∧
        s.bcache.links.prev (s.bcache.links.next x) = x) ∧
      s.bcache.Unique ∧
      (∀ dev blockno b, dev ≠ 0 → s.bcache.holds dev blockno b = true →
        s.bcache.bget dev blockno = .ok (b, s.bcache.bpin b)) ∧
      (∀ dev blockno, (∀ b, s.bcache.holds dev blockno b = false) →
        (∃ b, (s.bcache.buf b).refcnt = 0) →
        ∃ pre post b, l = pre ++ b :: post ∧ (s.bcache.buf b).refcnt = 0 ∧
          (∀ b' ∈ post, (s.bcache.buf b').refcnt ≠ 0) ∧
          s.bcache.bget dev blockno =
            .ok (b, s.bcache.modifyBuf b fun x => { x with dev, blockno, valid := false, refcnt := 1 })) ∧
      (∀ dev blockno msg, s.bcache.bget dev blockno = .error msg →
        msg = "bget: no buffers" ∧ ∀ b, (s.bcache.buf b).refcnt ≠ 0) ∧
      (∀ b, (s.bcache.brelse b).links.Represents
        (if (s.bcache.buf b).refcnt - 1 = 0 then b :: l.erase b else l)) := by
  obtain ⟨⟨l, hl⟩, hu⟩ := inv_of_reachable hs
  refine ⟨l, hl.links, hl.all, fun x => ⟨hl.links.next_prev hl.all x, hl.links.prev_next hl.all x⟩,
    hu, ?_, ?_, ?_, fun b => (hl.brelse b).links⟩
  · intro dev blockno b hdev hb
    rw [Bcache.bget_eq_getSpec hl]
    exact Bcache.getSpec_of_holds hl.all hu hdev hb
  · intro dev blockno hmiss hfree
    rw [Bcache.bget_eq_getSpec hl]
    exact Bcache.getSpec_of_miss hl.all hmiss hfree
  · intro dev blockno msg herr
    rw [Bcache.bget_eq_getSpec hl] at herr
    obtain ⟨hmsg, hall⟩ := Bcache.getSpec_eq_error herr
    exact ⟨hmsg, fun b => hall b (hl.all b)⟩

/-- One process reads block 7 of device 1 and releases it. `binit` leaves `buf[0]` nearest
`head.prev`, so `bget` recycles it, and `brelse` drops its only reference and moves it to the
front of the list. -/
theorem bcache_list_invariant_after_brelse :
    ∃ s : BioSys (Fin 1), Reachable step init s ∧ (s.bcache.buf ⟨0, by decide⟩).blockno = 7 ∧
      s.bcache.links.next none = some ⟨0, by decide⟩ ∧ s.bcache.Unique := by
  obtain ⟨s, hs, htest⟩ := Reachable.of_run_nextSat .init
    (show (run step init [.bread 0 1 7, .run 0, .run 0, .brelse 0 ⟨0, by decide⟩, .run 0]).nextSat
      (fun s : BioSys (Fin 1) => (s.bcache.buf ⟨0, by decide⟩).blockno == 7 &&
        s.bcache.links.next none == some ⟨0, by decide⟩) = true by decide +kernel)
  simp only [Bool.and_eq_true, beq_iff_eq] at htest
  obtain ⟨l, -, -, -, hu, -⟩ := bcache_list_invariant hs
  exact ⟨s, hs, htest.1, htest.2, hu⟩

end BioSys

end Xv6
