import Xv6.Analysis.Vm.Map

/-!
# `copyout`, `copyin` and `copyinstr` on the user's view of memory

The user's byte at `va` is the byte of physical memory in the page the table maps `va`'s
page to for the user (`PTE_U`), at `va`'s offset in its page (`userByte`). On a table
whose mapped pages are distinct, non-zero and none of them a page of the table
(`UserOk`), each of the three loops copies exactly the bytes of its range and fails
exactly where the range meets a page that is not the user's. One iteration handles the
part of the range inside one page (`userByte_copy`, `copyinstrInner_spec`); an induction
on the iterations left carries the result over the whole range.

The side conditions of `UserOk` hold of every table the kernel gives a process: the pages
it maps come off the free list, which holds no page 0 and no page twice
(`Xv6.Analysis.Fork.Tables`). They are what the loops rely on: `walkaddr` returns 0 for a
page mapped to physical page 0, which `copyout` would take for a failure, and two user
pages mapped to one physical page would make a later chunk overwrite an earlier one.
-/

set_option autoImplicit false

namespace Xv6.Vm

open Radix

/-! ## The user's view -/

/-- The physical address of the user's byte at `va`: below `MAXVA`, in a page the table
maps with `PTE_U`. -/
def physAddr (m : Mem) (pt va : UInt64) : Option UInt64 :=
  if va < MAXVA then
    match lookup m pt va with
    | some (pa, fl) => if fl &&& PTE_U ≠ 0 then some (pa + (va - PGROUNDDOWN va)) else none
    | none => none
  else none

/-- The user's byte at `va`. -/
def userByte (m : Mem) (pt va : UInt64) : Option UInt8 := (physAddr m pt va).map m

/-- `va` lies below `MAXVA` in a page mapped with `PTE_V` and `PTE_U`. -/
def UserMapped (m : Mem) (pt va : UInt64) : Prop :=
  va < MAXVA ∧ ∃ pa fl, lookup m pt va = some (pa, fl) ∧ fl &&& PTE_U ≠ 0

/-- Every byte of `[va, va + len)` is the user's. -/
def UserRange (m : Mem) (pt va : UInt64) (len : ℕ) : Prop :=
  ∀ x, va.toNat ≤ x.toNat → x.toNat < va.toNat + len → UserMapped m pt x

/-- A table as the kernel keeps a process's: the invariant `uvmunmap` needs, and below
`MAXVA` every mapped page non-zero and mapped from one virtual page only. -/
structure UserOk (m : Mem) (pt : UInt64) : Prop where
  table : TableOk m pt
  ne_zero : ∀ va p fl, va < MAXVA → lookup m pt va = some (p, fl) → p ≠ 0
  inj : ∀ va va' p fl fl', va < MAXVA → va' < MAXVA → lookup m pt va = some (p, fl) →
    lookup m pt va' = some (p, fl') → va.toNat / 4096 = va'.toNat / 4096

section View

variable {m m' : Mem} {pt va : UInt64}

theorem uaddr_congr {va' : UInt64} (hva : va < MAXVA) (hva' : va' < MAXVA)
    (h : va.toNat / 4096 = va'.toNat / 4096) : uaddr m pt va = uaddr m pt va' := by
  rw [uaddr, uaddr, lookup_congr hva hva' h]

theorem uaddr_some {pa fl : UInt64} (hl : lookup m pt va = some (pa, fl)) :
    uaddr m pt va = if fl &&& PTE_U ≠ 0 then pa else 0 := by
  rw [uaddr, hl]

theorem uaddr_none (hl : lookup m pt va = none) : uaddr m pt va = 0 := by
  rw [uaddr, hl]

theorem physAddr_some {pa fl : UInt64} (hva : va < MAXVA) (hl : lookup m pt va = some (pa, fl)) :
    physAddr m pt va = if fl &&& PTE_U ≠ 0 then some (pa + (va - PGROUNDDOWN va)) else none := by
  rw [physAddr, if_pos hva, hl]

theorem physAddr_none (hva : va < MAXVA) (hl : lookup m pt va = none) : physAddr m pt va = none := by
  rw [physAddr, if_pos hva, hl]

theorem uaddr_aligned (m : Mem) (pt va : UInt64) : (uaddr m pt va).toNat % 4096 = 0 := by
  cases hl : lookup m pt va with
  | none => rw [uaddr_none hl]; rfl
  | some x =>
    obtain ⟨pa, fl⟩ := x
    rw [uaddr_some hl]
    split_ifs
    · exact lookup_aligned hl
    · rfl

/-- Where `walkaddr` finds a page, the table maps it to that page with `PTE_U`. -/
theorem lookup_of_uaddr (h : uaddr m pt va ≠ 0) :
    ∃ fl, lookup m pt va = some (uaddr m pt va, fl) ∧ fl &&& PTE_U ≠ 0 := by
  cases hl : lookup m pt va with
  | none => exact absurd (uaddr_none hl) h
  | some x =>
    obtain ⟨pa, fl⟩ := x
    rw [uaddr_some hl] at h ⊢
    by_cases hu : fl &&& PTE_U ≠ 0
    · rw [if_pos hu]
      exact ⟨fl, rfl, hu⟩
    · rw [if_neg hu] at h
      exact absurd rfl h

theorem userMapped_iff (hok : UserOk m pt) : UserMapped m pt va ↔ va < MAXVA ∧ uaddr m pt va ≠ 0 := by
  constructor
  · rintro ⟨hva, pa, fl, hl, hu⟩
    refine ⟨hva, ?_⟩
    rw [uaddr_some hl, if_pos hu]
    exact hok.ne_zero va pa fl hva hl
  · rintro ⟨hva, h⟩
    obtain ⟨fl, hl, hu⟩ := lookup_of_uaddr h
    exact ⟨hva, _, fl, hl, hu⟩

/-- On such a table, the user's byte at `va` is where `copyout` puts it: at the page
`walkaddr` returns, at `va`'s offset. -/
theorem physAddr_eq (hok : UserOk m pt) : physAddr m pt va =
    if va < MAXVA ∧ uaddr m pt va ≠ 0 then some (uaddr m pt va + (va - PGROUNDDOWN va))
    else none := by
  by_cases h : va < MAXVA ∧ uaddr m pt va ≠ 0
  · obtain ⟨fl, hl, hu⟩ := lookup_of_uaddr h.2
    rw [if_pos h, physAddr_some h.1 hl, if_pos hu]
  · rw [if_neg h]
    by_cases hva : va < MAXVA
    · cases hl : lookup m pt va with
      | none => exact physAddr_none hva hl
      | some x =>
        obtain ⟨pa, fl⟩ := x
        rw [physAddr_some hva hl]
        split_ifs with hu
        · -- a mapped user page is not page 0, so `walkaddr` would have found it
          exact absurd ((userMapped_iff hok).1 ⟨hva, pa, fl, hl, hu⟩) h
        · rfl
    · rw [physAddr, if_neg hva]

theorem uaddr_inj (hok : UserOk m pt) {va' : UInt64} (hva : va < MAXVA) (hva' : va' < MAXVA)
    (h : uaddr m pt va = uaddr m pt va') (h0 : uaddr m pt va ≠ 0) :
    va.toNat / 4096 = va'.toNat / 4096 := by
  obtain ⟨fl, hl, -⟩ := lookup_of_uaddr h0
  obtain ⟨fl', hl', -⟩ := lookup_of_uaddr (h ▸ h0)
  rw [← h] at hl'
  exact hok.inj va va' _ fl fl' hva hva' hl hl'

theorem physAddr_of_sameTree (h : SameTree m m' pt) (va : UInt64) :
    physAddr m' pt va = physAddr m pt va := by
  rw [physAddr, physAddr, lookup_of_sameTree h]

theorem userMapped_of_sameTree (h : SameTree m m' pt) (va : UInt64) :
    UserMapped m' pt va ↔ UserMapped m pt va := by
  rw [UserMapped, UserMapped, lookup_of_sameTree h]

theorem userOk_of_sameTree (h : SameTree m m' pt) (hok : UserOk m pt) : UserOk m' pt where
  table := tableOk_of_sameTree h hok.table
  ne_zero va p fl hva hl := hok.ne_zero va p fl hva (by rwa [lookup_of_sameTree h] at hl)
  inj va va' p fl fl' hva hva' hl hl' := by
    rw [lookup_of_sameTree h] at hl hl'
    exact hok.inj va va' p fl fl' hva hva' hl hl'

/-- Two addresses of one page are both the user's or both not. -/
theorem userMapped_congr {va' : UInt64} (hok : UserOk m pt) (hva' : va' < MAXVA)
    (h : va.toNat / 4096 = va'.toNat / 4096) (hm : UserMapped m pt va) : UserMapped m pt va' := by
  rw [userMapped_iff hok] at hm ⊢
  refine ⟨hva', ?_⟩
  rw [uaddr_congr hva' hm.1 h.symm]
  exact hm.2

/-- A copy into a page outside the tree keeps the tree. -/
theorem sameTree_copy {r d n s : UInt64} {src : Mem} (ht : TreeOk m pt) (hr : r.toNat % 4096 = 0)
    (hout : ¬ IsPtPage m pt r) (hin : ∀ b, b - d < n → b - r < PGSIZE) :
    SameTree m (m.copy d src s n) pt := by
  intro q hq b hb
  have hne : q ≠ r := fun e => hout (e ▸ hq)
  apply Mem.copy_of_not_lt
  intro hbd
  exact Mem.page_disjoint hr (ht.aligned q hq) hne b hb (hin b hbd)

end View

/-! ## Pages and chunks -/

theorem off_toNat (va : UInt64) : (va - PGROUNDDOWN va).toNat = va.toNat % 4096 := by
  rw [UInt64.toNat_sub_of_le _ _ (UInt64.le_iff_toNat_le.2 (by rw [PGROUNDDOWN_toNat]; omega)),
    PGROUNDDOWN_toNat]
  omega

theorem lt_MAXVA_iff (va : UInt64) : PGROUNDDOWN va < MAXVA ↔ va < MAXVA := by
  rw [UInt64.lt_iff_toNat_lt, UInt64.lt_iff_toNat_lt, PGROUNDDOWN_toNat, MAXVA_toNat]
  omega

/-- The first address of the next page, below `MAXVA`. -/
theorem nextPage_toNat {va : UInt64} (hva : va < MAXVA) :
    (PGROUNDDOWN va + PGSIZE).toNat = va.toNat / 4096 * 4096 + 4096 := by
  rw [UInt64.lt_iff_toNat_lt, MAXVA_toNat] at hva
  rw [UInt64.toNat_add, PGROUNDDOWN_toNat, PGSIZE_toNat]
  omega

/-- A chunk runs to the end of its page or of the range, whichever comes first. -/
theorem chunkLen_toNat (va len : UInt64) :
    (chunkLen va (PGROUNDDOWN va) len).toNat = min (4096 - va.toNat % 4096) len.toNat := by
  have hrest : (PGSIZE - (va - PGROUNDDOWN va)).toNat = 4096 - va.toNat % 4096 := by
    rw [UInt64.toNat_sub_of_le _ _ (UInt64.le_iff_toNat_le.2 (by rw [off_toNat]; simp; omega)),
      off_toNat, PGSIZE_toNat]
  unfold chunkLen
  split_ifs with h
  · rw [GT.gt, UInt64.lt_iff_toNat_lt, hrest] at h
    omega
  · rw [GT.gt, UInt64.lt_iff_toNat_lt, hrest] at h
    rw [hrest]
    omega

theorem chunkLen_le (va len : UInt64) : chunkLen va (PGROUNDDOWN va) len ≤ len := by
  rw [UInt64.le_iff_toNat_le, chunkLen_toNat]
  omega

/-! ## One chunk of `copyout` -/

section Chunk

variable {m : Mem} {pt va n : UInt64}

/-- `copyout`'s chunk lands in the user's page, which is no page of the table. -/
theorem sameTree_copyChunk (hok : UserOk m pt) (hu : uaddr m pt va ≠ 0)
    (hn : va.toNat % 4096 + n.toNat ≤ 4096) (ksrc : Mem) (src : UInt64) :
    SameTree m (m.copy (uaddr m pt va + (va - PGROUNDDOWN va)) ksrc src n) pt := by
  obtain ⟨fl, hl, -⟩ := lookup_of_uaddr hu
  refine sameTree_copy hok.table.tree (uaddr_aligned m pt va)
    (hok.table.mapped_not_pt _ ⟨va, fl, hl⟩) ?_
  intro b hb
  rw [show b - uaddr m pt va = (b - (uaddr m pt va + (va - PGROUNDDOWN va))) +
    (va - PGROUNDDOWN va) by grind, UInt64.lt_iff_toNat_lt, UInt64.toNat_add, PGSIZE_toNat,
    off_toNat]
  rw [UInt64.lt_iff_toNat_lt] at hb
  omega

/-- After `copyout` copies `n` bytes from `src` to `va` in `va`'s page, the user sees them
at `[va, va + n)` and every other byte of the user as it was. -/
theorem userByte_copy (hok : UserOk m pt) (hva : va < MAXVA) (hu : uaddr m pt va ≠ 0)
    (hn : va.toNat % 4096 + n.toNat ≤ 4096) (ksrc : Mem) (src x : UInt64) :
    userByte (m.copy (uaddr m pt va + (va - PGROUNDDOWN va)) ksrc src n) pt x =
      if va.toNat ≤ x.toNat ∧ x.toNat < va.toNat + n.toNat then some (ksrc (src + (x - va)))
      else userByte m pt x := by
  have hpa := uaddr_aligned m pt va
  have hn' : (va - PGROUNDDOWN va).toNat + n.toNat ≤ 4096 := by rw [off_toNat]; exact hn
  have hsame := sameTree_copyChunk hok hu hn ksrc src
  have hvaN := UInt64.lt_iff_toNat_lt.1 hva
  rw [MAXVA_toNat] at hvaN
  rw [userByte, userByte, physAddr_of_sameTree hsame, physAddr_eq hok]
  have hox := off_toNat x
  by_cases hx : x < MAXVA ∧ uaddr m pt x ≠ 0
  · rw [if_pos hx, Option.map_some, Option.map_some]
    have hxlt : (x - PGROUNDDOWN x).toNat < 4096 := by omega
    by_cases hpage : x.toNat / 4096 = va.toNat / 4096
    · -- `x` is in `va`'s page: read inside the window or beside it
      have hdown : PGROUNDDOWN x = PGROUNDDOWN va := by
        apply UInt64.toNat_inj.mp
        rw [PGROUNDDOWN_toNat, PGROUNDDOWN_toNat, hpage]
      rw [uaddr_congr hx.1 hva hpage, Mem.copy_page_self hxlt hn', off_toNat, off_toNat]
      by_cases hin : va.toNat ≤ x.toNat ∧ x.toNat < va.toNat + n.toNat
      · rw [if_pos (by omega), if_pos hin, hdown]
        congr 2
        grind
      · rw [if_neg (by omega), if_neg hin]
    · -- another page is another physical page
      have hne : uaddr m pt x ≠ uaddr m pt va :=
        fun h => hpage (uaddr_inj hok hx.1 hva h hx.2)
      rw [Mem.copy_other_page hpa (uaddr_aligned m pt x) hne hxlt hn', if_neg (by omega)]
  · rw [if_neg hx, Option.map_none, Option.map_none]
    -- the window lies in `va`'s page, which the user has
    have hout : ¬ (va.toNat ≤ x.toNat ∧ x.toNat < va.toNat + n.toNat) := by
      rintro ⟨h1, h2⟩
      have hxm : x < MAXVA := UInt64.lt_iff_toNat_lt.2 (by rw [MAXVA_toNat]; omega)
      exact hx ⟨hxm, by rw [uaddr_congr hxm hva (by omega)]; exact hu⟩
    rw [if_neg hout]

/-- Inside the chunk, the user's byte is the one `copyin` reads. -/
theorem userByte_chunk (hok : UserOk m pt) (hva : va < MAXVA) (hu : uaddr m pt va ≠ 0)
    (hn : va.toNat % 4096 + n.toNat ≤ 4096) {x : UInt64} (h1 : va.toNat ≤ x.toNat)
    (h2 : x.toNat < va.toNat + n.toNat) :
    userByte m pt x = some (m (uaddr m pt va + (va - PGROUNDDOWN va) + (x - va))) := by
  have hvaN := UInt64.lt_iff_toNat_lt.1 hva
  rw [MAXVA_toNat] at hvaN
  have hx : x < MAXVA := UInt64.lt_iff_toNat_lt.2 (by rw [MAXVA_toNat]; omega)
  have hpage : x.toNat / 4096 = va.toNat / 4096 := by omega
  have hdown : PGROUNDDOWN x = PGROUNDDOWN va := by
    apply UInt64.toNat_inj.mp
    rw [PGROUNDDOWN_toNat, PGROUNDDOWN_toNat, hpage]
  have hux : uaddr m pt x = uaddr m pt va := uaddr_congr hx hva hpage
  have hux0 : uaddr m pt x ≠ 0 := by rw [hux]; exact hu
  rw [userByte, physAddr_eq hok, if_pos ⟨hx, hux0⟩, Option.map_some, hux, hdown,
    show uaddr m pt va + (va - PGROUNDDOWN va) + (x - va) = uaddr m pt va + (x - PGROUNDDOWN va)
      by grind]

/-- The user has the whole range iff it has the first page of it and the rest of the range
from the next page on. -/
theorem userRange_step (hok : UserOk m pt) (hw : va < MAXVA ∧ uaddr m pt va ≠ 0) {len : ℕ}
    (hn : n.toNat = min (4096 - va.toNat % 4096) len) :
    UserRange m pt (PGROUNDDOWN va + PGSIZE) (len - n.toNat) ↔ UserRange m pt va len := by
  have hvaN := UInt64.lt_iff_toNat_lt.1 hw.1
  rw [MAXVA_toNat] at hvaN
  have hnext := nextPage_toNat hw.1
  constructor
  · intro h x h1 h2
    by_cases hfirst : x.toNat < va.toNat / 4096 * 4096 + 4096
    · -- `va`'s page, which the user has
      have hx : x < MAXVA := UInt64.lt_iff_toNat_lt.2 (by rw [MAXVA_toNat]; omega)
      exact userMapped_congr hok hx (by omega) ((userMapped_iff hok).2 hw)
    · exact h x (by omega) (by omega)
  · intro h x h1 h2
    exact h x (by omega) (by omega)

end Chunk

/-- `walkaddr` of the page of `va`: the page the user has there, or 0. -/
theorem walkaddr_page {s : VmState} {pt : UInt64} (ht : TreeOk s.mem pt) (va : UInt64) :
    (walkaddr pt (PGROUNDDOWN va)).run s = .ok (if va < MAXVA then uaddr s.mem pt va else 0, s) := by
  rw [walkaddr_run ht]
  by_cases hva : va < MAXVA
  · have h0 := (lt_MAXVA_iff va).2 hva
    rw [if_pos h0, if_pos hva, uaddr_congr h0 hva (by rw [PGROUNDDOWN_toNat]; omega)]
  · rw [if_neg (fun h => hva ((lt_MAXVA_iff va).1 h)), if_neg hva]

theorem walkaddr_page_zero {s : VmState} {pt va : UInt64}
    (hw : ¬ (va < MAXVA ∧ uaddr s.mem pt va ≠ 0)) :
    (if va < MAXVA then uaddr s.mem pt va else 0) = 0 := by
  split_ifs with h
  · exact not_not.1 fun h' => hw ⟨h, h'⟩
  · rfl

/-! ## `copyout` -/

section Copyout

variable {pt : UInt64} {ksrc : Mem} {s : VmState} {dstva src len : UInt64}

theorem copyoutLoop_len_zero (fuel : ℕ) :
    (copyoutLoop pt ksrc fuel dstva src 0).run s = .ok (0, s) := by
  cases fuel with
  | zero => rfl
  | succ fuel => simp [copyoutLoop]; rfl

theorem copyoutLoop_fail {fuel : ℕ} (ht : TreeOk s.mem pt) (hlen : len ≠ 0)
    (hw : ¬ (dstva < MAXVA ∧ uaddr s.mem pt dstva ≠ 0)) :
    (copyoutLoop pt ksrc (fuel + 1) dstva src len).run s = .ok (-1, s) := by
  simp [copyoutLoop, hlen, StateExcept.ok_bind, walkaddr_page ht dstva, walkaddr_page_zero hw]
  rfl

theorem copyoutLoop_step {fuel : ℕ} {n : UInt64} (ht : TreeOk s.mem pt) (hlen : len ≠ 0)
    (hw : dstva < MAXVA ∧ uaddr s.mem pt dstva ≠ 0) (hn : chunkLen dstva (PGROUNDDOWN dstva) len = n) :
    (copyoutLoop pt ksrc (fuel + 1) dstva src len).run s =
      (copyoutLoop pt ksrc fuel (PGROUNDDOWN dstva + PGSIZE) (src + n) (len - n)).run
        { s with mem := s.mem.copy (uaddr s.mem pt dstva + (dstva - PGROUNDDOWN dstva)) ksrc src n } := by
  subst hn
  simp [copyoutLoop, hlen, StateExcept.ok_bind, walkaddr_page ht dstva, hw.1, hw.2]

/-- What a run of `copyout`'s loop leaves when it starts at `dstva` with `len` bytes from
`src`: the tree and the allocator as they were; 0 exactly when every byte of the range is
the user's, and then the range holding the bytes of `src`; every other byte of the user as
it was. -/
structure CopiedOut (s s' : VmState) (pt : UInt64) (ksrc : Mem) (dstva src len : UInt64)
    (r : Int) : Prop where
  same : SameTree s.mem s'.mem pt
  freelist : s'.freelist = s.freelist
  kernelEnd : s'.kernelEnd = s.kernelEnd
  result : r = 0 ∨ r = -1
  ok_iff : r = 0 ↔ UserRange s.mem pt dstva len.toNat
  copied : r = 0 → ∀ va, dstva.toNat ≤ va.toNat → va.toNat < dstva.toNat + len.toNat →
    userByte s'.mem pt va = some (ksrc (src + (va - dstva)))
  frame : ∀ va, ¬ (dstva.toNat ≤ va.toNat ∧ va.toNat < dstva.toNat + len.toNat) →
    userByte s'.mem pt va = userByte s.mem pt va

/-- The loop of `copyout`, by induction on the iterations left; `fuel` covers every page
from `dstva`'s up to `MAXVA`. -/
theorem copyoutLoop_spec : ∀ (fuel : ℕ) (s : VmState) (dstva src len : UInt64),
    UserOk s.mem pt → (2 ^ 38 + 4095 - dstva.toNat) / 4096 < fuel →
    ∃ r s', (copyoutLoop pt ksrc fuel dstva src len).run s = .ok (r, s') ∧
      CopiedOut s s' pt ksrc dstva src len r := by
  intro fuel
  induction fuel with
  | zero => intro s dstva src len _ hfuel; omega
  | succ fuel ih =>
    intro s dstva src len hok hfuel
    by_cases hlen : len = 0
    · -- nothing to copy
      subst hlen
      refine ⟨0, s, copyoutLoop_len_zero _, fun _ _ _ _ => rfl, rfl, rfl, Or.inl rfl, ?_,
        fun _ va h1 h2 => ?_, fun _ _ => rfl⟩
      · simp only [UInt64.toNat_zero, true_iff]
        intro va h1 h2
        omega
      · simp only [UInt64.toNat_zero, Nat.add_zero] at h2
        omega
    have hlen0 : 0 < len.toNat := by
      have : len.toNat ≠ 0 := fun h => hlen (UInt64.toNat_inj.mp h)
      omega
    by_cases hw : dstva < MAXVA ∧ uaddr s.mem pt dstva ≠ 0
    case neg =>
      -- `dstva` itself is not the user's
      refine ⟨-1, s, copyoutLoop_fail hok.table.tree hlen hw, fun _ _ _ _ => rfl, rfl, rfl,
        Or.inr rfl, ⟨fun h => absurd h (by decide), fun h => ?_⟩, fun h => absurd h (by decide),
        fun _ _ => rfl⟩
      exact absurd ((userMapped_iff hok).1 (h dstva le_rfl (by omega))) hw
    case pos =>
      have hvaN := UInt64.lt_iff_toNat_lt.1 hw.1
      rw [MAXVA_toNat] at hvaN
      -- the chunk is named, so that the states below stay small
      obtain ⟨n, hn⟩ : ∃ n, chunkLen dstva (PGROUNDDOWN dstva) len = n := ⟨_, rfl⟩
      have hnN : n.toNat = min (4096 - dstva.toNat % 4096) len.toNat := by
        rw [← hn]
        exact chunkLen_toNat dstva len
      have hnle : n ≤ len := by
        rw [← hn]
        exact chunkLen_le dstva len
      have hnext := nextPage_toNat hw.1
      have hrest : (len - n).toNat = len.toNat - n.toNat := UInt64.toNat_sub_of_le _ _ hnle
      have hsame := sameTree_copyChunk hok hw.2 (n := n) (by omega) ksrc src
      have hbytes := userByte_copy hok hw.1 hw.2 (n := n) (by omega) ksrc src
      have hfuel' : (2 ^ 38 + 4095 - (PGROUNDDOWN dstva + PGSIZE).toNat) / 4096 < fuel := by
        rw [hnext]
        omega
      obtain ⟨r, s', hrun, hc⟩ := ih
        { s with mem := s.mem.copy (uaddr s.mem pt dstva + (dstva - PGROUNDDOWN dstva)) ksrc src n }
        (PGROUNDDOWN dstva + PGSIZE) (src + n) (len - n) (userOk_of_sameTree hsame hok) hfuel'
      refine ⟨r, s', by rw [copyoutLoop_step hok.table.tree hlen hw hn, hrun], ?_⟩
      exact {
        same := hsame.trans hc.same
        freelist := hc.freelist
        kernelEnd := hc.kernelEnd
        result := hc.result
        ok_iff := by
          rw [hc.ok_iff, hrest, ← userRange_step hok hw hnN]
          simp only [UserRange, userMapped_of_sameTree hsame]
        copied := by
          intro hr va h1 h2
          by_cases hfirst : va.toNat < dstva.toNat + n.toNat
          · rw [hc.frame va (by omega)]
            exact (hbytes va).trans (if_pos ⟨h1, hfirst⟩)
          · -- a later chunk, which starts at the next page
            have hat : PGROUNDDOWN dstva + PGSIZE = dstva + n := by
              apply UInt64.toNat_inj.mp
              rw [hnext, UInt64.toNat_add]
              omega
            rw [hc.copied hr va (by omega) (by omega), hat,
              show src + n + (va - (dstva + n)) = src + (va - dstva) by grind]
        frame := by
          intro va hva
          rw [hc.frame va (by omega)]
          exact (hbytes va).trans (if_neg (by omega)) }

/-- `copyout` on such a table: see `CopiedOut`. -/
theorem copyout_spec (hok : UserOk s.mem pt) (dstva src len : UInt64) :
    ∃ r s', (copyout pt dstva ksrc src len).run s = .ok (r, s') ∧
      CopiedOut s s' pt ksrc dstva src len r :=
  copyoutLoop_spec pageLoopFuel s dstva src len hok (by rw [pageLoopFuel_eq]; omega)

end Copyout

/-! ## Windows of the kernel buffer -/

/-- An address outside the window `[dst, dst + len)` is outside the rest of it once its first
`k` bytes are done. -/
theorem not_lt_rest {b dst k len : UInt64} (hk : k ≤ len) (hb : ¬ b - dst < len) :
    ¬ b - (dst + k) < len - k := by
  rw [UInt64.lt_iff_toNat_lt] at hb
  have hk' := UInt64.le_iff_toNat_le.1 hk
  rw [show b - (dst + k) = b - dst - k by grind, UInt64.lt_iff_toNat_lt,
    UInt64.toNat_sub_of_le _ _ (UInt64.le_iff_toNat_le.2 (by omega)), UInt64.toNat_sub_of_le _ _ hk]
  omega

/-- The first `k` bytes of the window are outside the rest of it. -/
theorem not_lt_rest_of_lt {dst j k len : UInt64} (hj : j < k) (hk : k ≤ len) :
    ¬ dst + j - (dst + k) < len - k := by
  have hj' := UInt64.lt_iff_toNat_lt.1 hj
  rw [show dst + j - (dst + k) = j - k by grind, UInt64.lt_iff_toNat_lt, UInt64.toNat_sub,
    UInt64.toNat_sub_of_le _ _ hk]
  have := len.toNat_lt
  omega

/-! ## `copyin` -/

section Copyin

variable {pt : UInt64} {s : VmState} {kdst : Mem} {dst srcva len : UInt64}

theorem copyinLoop_len_zero (fuel : ℕ) :
    (copyinLoop pt fuel kdst dst srcva 0).run s = .ok ((0, kdst), s) := by
  cases fuel with
  | zero => rfl
  | succ fuel => simp [copyinLoop]; rfl

theorem copyinLoop_fail {fuel : ℕ} (ht : TreeOk s.mem pt) (hlen : len ≠ 0)
    (hw : ¬ (srcva < MAXVA ∧ uaddr s.mem pt srcva ≠ 0)) :
    (copyinLoop pt (fuel + 1) kdst dst srcva len).run s = .ok ((-1, kdst), s) := by
  simp [copyinLoop, hlen, StateExcept.ok_bind, walkaddr_page ht srcva, walkaddr_page_zero hw]
  rfl

theorem copyinLoop_step {fuel : ℕ} {n : UInt64} (ht : TreeOk s.mem pt) (hlen : len ≠ 0)
    (hw : srcva < MAXVA ∧ uaddr s.mem pt srcva ≠ 0) (hn : chunkLen srcva (PGROUNDDOWN srcva) len = n) :
    (copyinLoop pt (fuel + 1) kdst dst srcva len).run s =
      (copyinLoop pt fuel (kdst.copy dst s.mem (uaddr s.mem pt srcva + (srcva - PGROUNDDOWN srcva)) n)
        (dst + n) (PGROUNDDOWN srcva + PGSIZE) (len - n)).run s := by
  subst hn
  simp [copyinLoop, hlen, StateExcept.ok_bind, walkaddr_page ht srcva, hw.1, hw.2]

/-- What a run of `copyin`'s loop leaves in the kernel buffer when it starts at `srcva` with
`len` bytes to `dst`: 0 exactly when every byte of the range is the user's, and then the
buffer holding the user's bytes; the buffer outside `[dst, dst + len)` as it was. -/
structure CopiedIn (m : Mem) (pt : UInt64) (kdst kdst' : Mem) (dst srcva len : UInt64)
    (r : Int) : Prop where
  result : r = 0 ∨ r = -1
  ok_iff : r = 0 ↔ UserRange m pt srcva len.toNat
  copied : r = 0 → ∀ va, srcva.toNat ≤ va.toNat → va.toNat < srcva.toNat + len.toNat →
    userByte m pt va = some (kdst' (dst + (va - srcva)))
  frame : ∀ b, ¬ b - dst < len → kdst' b = kdst b

/-- The loop of `copyin`, by induction on the iterations left. It only reads the state. -/
theorem copyinLoop_spec (hok : UserOk s.mem pt) : ∀ (fuel : ℕ) (kdst : Mem) (dst srcva len : UInt64),
    (2 ^ 38 + 4095 - srcva.toNat) / 4096 < fuel →
    ∃ r kdst', (copyinLoop pt fuel kdst dst srcva len).run s = .ok ((r, kdst'), s) ∧
      CopiedIn s.mem pt kdst kdst' dst srcva len r := by
  intro fuel
  induction fuel with
  | zero => intro kdst dst srcva len hfuel; omega
  | succ fuel ih =>
    intro kdst dst srcva len hfuel
    by_cases hlen : len = 0
    · -- nothing to copy
      subst hlen
      refine ⟨0, kdst, copyinLoop_len_zero _, Or.inl rfl, ?_, fun _ va h1 h2 => ?_, fun _ _ => rfl⟩
      · simp only [UInt64.toNat_zero, true_iff]
        intro va h1 h2
        omega
      · simp only [UInt64.toNat_zero, Nat.add_zero] at h2
        omega
    have hlen0 : 0 < len.toNat := by
      have : len.toNat ≠ 0 := fun h => hlen (UInt64.toNat_inj.mp h)
      omega
    by_cases hw : srcva < MAXVA ∧ uaddr s.mem pt srcva ≠ 0
    case neg =>
      -- `srcva` itself is not the user's
      refine ⟨-1, kdst, copyinLoop_fail hok.table.tree hlen hw, Or.inr rfl,
        ⟨fun h => absurd h (by decide), fun h => ?_⟩, fun h => absurd h (by decide), fun _ _ => rfl⟩
      exact absurd ((userMapped_iff hok).1 (h srcva le_rfl (by omega))) hw
    case pos =>
      have hvaN := UInt64.lt_iff_toNat_lt.1 hw.1
      rw [MAXVA_toNat] at hvaN
      obtain ⟨n, hn⟩ : ∃ n, chunkLen srcva (PGROUNDDOWN srcva) len = n := ⟨_, rfl⟩
      have hnN : n.toNat = min (4096 - srcva.toNat % 4096) len.toNat := by
        rw [← hn]
        exact chunkLen_toNat srcva len
      have hnle : n ≤ len := by
        rw [← hn]
        exact chunkLen_le srcva len
      have hnext := nextPage_toNat hw.1
      have hrest : (len - n).toNat = len.toNat - n.toNat := UInt64.toNat_sub_of_le _ _ hnle
      have hfuel' : (2 ^ 38 + 4095 - (PGROUNDDOWN srcva + PGSIZE).toNat) / 4096 < fuel := by
        rw [hnext]
        omega
      obtain ⟨r, kdst', hrun, hc⟩ := ih
        (kdst.copy dst s.mem (uaddr s.mem pt srcva + (srcva - PGROUNDDOWN srcva)) n)
        (dst + n) (PGROUNDDOWN srcva + PGSIZE) (len - n) hfuel'
      refine ⟨r, kdst', by rw [copyinLoop_step hok.table.tree hlen hw hn, hrun], ?_⟩
      exact {
        result := hc.result
        ok_iff := by rw [hc.ok_iff, hrest, userRange_step hok hw hnN]
        copied := by
          intro hr va h1 h2
          by_cases hfirst : va.toNat < srcva.toNat + n.toNat
          · -- the first chunk: the loop after it leaves `[dst, dst + n)` alone
            have hj : (va - srcva).toNat = va.toNat - srcva.toNat :=
              UInt64.toNat_sub_of_le _ _ (UInt64.le_iff_toNat_le.2 h1)
            have hout : ¬ dst + (va - srcva) - (dst + n) < len - n :=
              not_lt_rest_of_lt (UInt64.lt_iff_toNat_lt.2 (by omega)) hnle
            have hin : dst + (va - srcva) - dst < n := by
              rw [show dst + (va - srcva) - dst = va - srcva by grind, UInt64.lt_iff_toNat_lt, hj]
              omega
            rw [hc.frame _ hout, Mem.copy_of_lt hin, userByte_chunk hok hw.1 hw.2 (by omega) h1 hfirst,
              show dst + (va - srcva) - dst = va - srcva by grind]
          · -- a later chunk, which starts at the next page
            have hat : PGROUNDDOWN srcva + PGSIZE = srcva + n := by
              apply UInt64.toNat_inj.mp
              rw [hnext, UInt64.toNat_add]
              omega
            rw [hc.copied hr va (by omega) (by omega), hat,
              show dst + n + (va - (srcva + n)) = dst + (va - srcva) by grind]
        frame := by
          intro b hb
          have hbn : ¬ b - dst < n := fun h => hb (UInt64.lt_of_lt_of_le h hnle)
          rw [hc.frame b (not_lt_rest hnle hb), Mem.copy_of_not_lt hbn] }

/-- `copyin` on such a table: see `CopiedIn`. -/
theorem copyin_spec (hok : UserOk s.mem pt) (kdst : Mem) (dst srcva len : UInt64) :
    ∃ r kdst', (copyin pt kdst dst srcva len).run s = .ok ((r, kdst'), s) ∧
      CopiedIn s.mem pt kdst kdst' dst srcva len r :=
  copyinLoop_spec hok pageLoopFuel kdst dst srcva len (by rw [pageLoopFuel_eq]; omega)

end Copyin

/-! ## `copyinstr` -/

/-- The inner loop of `copyinstr` over `n` bytes from `p`: it stops at the first NUL among
them, copies the bytes before it and the NUL, and moves `dst` and `max` past the bytes before
it; without a NUL it copies all `n` and moves past them. -/
theorem copyinstrInner_spec (m : Mem) : ∀ (n : ℕ) (kdst : Mem) (p dst max : UInt64),
    n + 1 < 2 ^ 64 →
    ∃ k : UInt64, k.toNat ≤ n ∧ (∀ j : UInt64, j.toNat < k.toNat → m (p + j) ≠ 0) ∧
      (k.toNat < n → m (p + k) = 0) ∧
      copyinstrInner m n kdst p dst max =
        (decide (k.toNat < n), kdst.copy dst m p (if k.toNat < n then k + 1 else k), dst + k,
          max - k) := by
  intro n
  induction n with
  | zero =>
    intro kdst p dst max _
    refine ⟨0, le_refl _, fun j hj => absurd hj (by simp), fun h => absurd h (by simp), ?_⟩
    simp [copyinstrInner, Mem.copy_zero]
  | succ n ih =>
    intro kdst p dst max hn
    by_cases hp : m p = 0
    · -- a NUL first: copy it and stop
      refine ⟨0, by simp, fun j hj => absurd hj (by simp), fun _ => by rw [UInt64.add_zero]; exact hp,
        ?_⟩
      simp [copyinstrInner, hp, Mem.copy_one]
    · obtain ⟨k, hk, hnz, hz, heq⟩ :=
        ih (Function.update kdst dst (m p)) (p + 1) (dst + 1) (max - 1) (by omega)
      have hk1 : (k + 1).toNat = k.toNat + 1 := by
        rw [UInt64.toNat_add]
        simp only [UInt64.reduceToNat]
        omega
      refine ⟨k + 1, by omega, fun j hj => ?_, fun h => ?_, ?_⟩
      · by_cases hj0 : j = 0
        · rw [hj0, UInt64.add_zero]
          exact hp
        · -- a later byte is one the rest of the loop looked at
          have hj1 : (j - 1).toNat < k.toNat := by
            have : j.toNat ≠ 0 := fun h => hj0 (UInt64.toNat_inj.mp h)
            rw [UInt64.toNat_sub_of_le _ _ (UInt64.le_iff_toNat_le.2 (by simp; omega))]
            simp only [UInt64.reduceToNat]
            omega
          have := hnz (j - 1) hj1
          rwa [show p + 1 + (j - 1) = p + j by grind] at this
      · have := hz (by omega)
        rwa [show p + 1 + k = p + (k + 1) by grind] at this
      · have hc : (if k.toNat < n then k + 1 else k).toNat + 1 < 2 ^ 64 := by
          split_ifs <;> omega
        rw [copyinstrInner, if_neg hp, heq, Mem.copy_succ hc]
        have hdec : decide (k.toNat < n) = decide ((k + 1).toNat < n + 1) := by
          rw [hk1]
          simp
        have hif : (if k.toNat < n then k + 1 else k) + 1 =
            if (k + 1).toNat < n + 1 then k + 1 + 1 else k + 1 := by
          by_cases h : k.toNat < n
          · rw [if_pos h, if_pos (by omega)]
          · rw [if_neg h, if_neg (by omega)]
        rw [hdec, hif, show dst + 1 + k = dst + (k + 1) by grind,
          show max - 1 - k = max - (k + 1) by grind]

/-- The user's string at `srcva` ends at `e`: every byte from `srcva` to `e` is the user's,
`e` holds a NUL and no byte before it does. -/
def StrEnd (m : Mem) (pt srcva e : UInt64) : Prop :=
  srcva.toNat ≤ e.toNat ∧ UserRange m pt srcva (e.toNat + 1 - srcva.toNat) ∧
    userByte m pt e = some 0 ∧
    ∀ va, srcva.toNat ≤ va.toNat → va.toNat < e.toNat → userByte m pt va ≠ some 0

section Str

variable {m : Mem} {pt srcva e : UInt64}

/-- A string has one end. -/
theorem StrEnd.unique {e' : UInt64} (h : StrEnd m pt srcva e) (h' : StrEnd m pt srcva e') :
    e = e' := by
  apply UInt64.toNat_inj.mp
  rcases Nat.lt_trichotomy e.toNat e'.toNat with hlt | heq | hgt
  · exact absurd h.2.2.1 (h'.2.2.2 e h.1 hlt)
  · exact heq
  · exact absurd h'.2.2.1 (h.2.2.2 e' h'.1 hgt)

/-- Past a run of the user's bytes none of which is NUL, the string ends where the string
after the run ends. -/
theorem strEnd_skip {next : UInt64} (hle : srcva.toNat ≤ next.toNat)
    (hrun : ∀ va, srcva.toNat ≤ va.toNat → va.toNat < next.toNat →
      UserMapped m pt va ∧ userByte m pt va ≠ some 0) :
    StrEnd m pt srcva e ↔ StrEnd m pt next e := by
  constructor
  · rintro ⟨h1, h2, h3, h4⟩
    have hge : next.toNat ≤ e.toNat := by
      by_contra hlt
      exact (hrun e h1 (by omega)).2 h3
    exact ⟨hge, fun x hx1 hx2 => h2 x (by omega) (by omega), h3,
      fun x hx1 hx2 => h4 x (by omega) hx2⟩
  · rintro ⟨h1, h2, h3, h4⟩
    refine ⟨by omega, fun x hx1 hx2 => ?_, h3, fun x hx1 hx2 => ?_⟩
    · by_cases hx : x.toNat < next.toNat
      · exact (hrun x hx1 hx).1
      · exact h2 x (by omega) (by omega)
    · by_cases hx : x.toNat < next.toNat
      · exact (hrun x hx1 hx).2
      · exact h4 x (by omega) hx2

end Str

section Copyinstr

variable {pt : UInt64} {s : VmState} {kdst : Mem} {dst srcva max : UInt64}

theorem copyinstrLoop_got_null (fuel : ℕ) :
    (copyinstrLoop pt fuel true kdst dst srcva max).run s = .ok ((0, kdst), s) := by
  cases fuel with
  | zero => rfl
  | succ fuel => simp [copyinstrLoop]; rfl

theorem copyinstrLoop_max_zero (fuel : ℕ) :
    (copyinstrLoop pt fuel false kdst dst srcva 0).run s = .ok ((-1, kdst), s) := by
  cases fuel with
  | zero => rfl
  | succ fuel => simp [copyinstrLoop]; rfl

theorem copyinstrLoop_fail {fuel : ℕ} (ht : TreeOk s.mem pt) (hmax : max ≠ 0)
    (hw : ¬ (srcva < MAXVA ∧ uaddr s.mem pt srcva ≠ 0)) :
    (copyinstrLoop pt (fuel + 1) false kdst dst srcva max).run s = .ok ((-1, kdst), s) := by
  simp [copyinstrLoop, hmax, StateExcept.ok_bind, walkaddr_page ht srcva, walkaddr_page_zero hw]
  rfl

theorem copyinstrLoop_step {fuel : ℕ} {n : UInt64} (ht : TreeOk s.mem pt) (hmax : max ≠ 0)
    (hw : srcva < MAXVA ∧ uaddr s.mem pt srcva ≠ 0) (hn : chunkLen srcva (PGROUNDDOWN srcva) max = n) :
    (copyinstrLoop pt (fuel + 1) false kdst dst srcva max).run s =
      (copyinstrLoop pt fuel
        (copyinstrInner s.mem n.toNat kdst (uaddr s.mem pt srcva + (srcva - PGROUNDDOWN srcva)) dst max).1
        (copyinstrInner s.mem n.toNat kdst (uaddr s.mem pt srcva + (srcva - PGROUNDDOWN srcva)) dst max).2.1
        (copyinstrInner s.mem n.toNat kdst (uaddr s.mem pt srcva + (srcva - PGROUNDDOWN srcva)) dst max).2.2.1
        (PGROUNDDOWN srcva + PGSIZE)
        (copyinstrInner s.mem n.toNat kdst (uaddr s.mem pt srcva + (srcva - PGROUNDDOWN srcva)) dst max).2.2.2).run s := by
  subst hn
  simp [copyinstrLoop, hmax, StateExcept.ok_bind, walkaddr_page ht srcva, hw.1, hw.2]

/-- What a run of `copyinstr`'s loop leaves in the kernel buffer when it starts at `srcva`
with at most `max` bytes to `dst`: 0 exactly when the user's string at `srcva` ends within
`max` bytes, and then the buffer holding it with its NUL; the buffer outside
`[dst, dst + max)` as it was. -/
structure CopiedStr (m : Mem) (pt : UInt64) (kdst kdst' : Mem) (dst srcva max : UInt64)
    (r : Int) : Prop where
  result : r = 0 ∨ r = -1
  ok_iff : r = 0 ↔ ∃ e, StrEnd m pt srcva e ∧ e.toNat < srcva.toNat + max.toNat
  copied : r = 0 → ∀ e, StrEnd m pt srcva e → ∀ va, srcva.toNat ≤ va.toNat → va.toNat ≤ e.toNat →
    userByte m pt va = some (kdst' (dst + (va - srcva)))
  frame : ∀ b, ¬ b - dst < max → kdst' b = kdst b

/-- The loop of `copyinstr` before a NUL is met, by induction on the iterations left. It only
reads the state. -/
theorem copyinstrLoop_spec (hok : UserOk s.mem pt) :
    ∀ (fuel : ℕ) (kdst : Mem) (dst srcva max : UInt64), (2 ^ 38 + 4095 - srcva.toNat) / 4096 < fuel →
    ∃ r kdst', (copyinstrLoop pt fuel false kdst dst srcva max).run s = .ok ((r, kdst'), s) ∧
      CopiedStr s.mem pt kdst kdst' dst srcva max r := by
  intro fuel
  induction fuel with
  | zero => intro kdst dst srcva max hfuel; omega
  | succ fuel ih =>
    intro kdst dst srcva max hfuel
    by_cases hmax : max = 0
    · -- no byte may be copied, so there is no room for the NUL
      subst hmax
      refine ⟨-1, kdst, copyinstrLoop_max_zero _, Or.inr rfl,
        ⟨fun h => absurd h (by decide), ?_⟩, fun h => absurd h (by decide), fun _ _ => rfl⟩
      rintro ⟨e, he, hlt⟩
      simp only [UInt64.toNat_zero, Nat.add_zero] at hlt
      have := he.1
      omega
    by_cases hw : srcva < MAXVA ∧ uaddr s.mem pt srcva ≠ 0
    case neg =>
      -- a string at `srcva` starts with `srcva`'s byte, which is not the user's
      refine ⟨-1, kdst, copyinstrLoop_fail hok.table.tree hmax hw, Or.inr rfl,
        ⟨fun h => absurd h (by decide), ?_⟩, fun h => absurd h (by decide), fun _ _ => rfl⟩
      rintro ⟨e, he, -⟩
      have := he.1
      exact absurd ((userMapped_iff hok).1 (he.2.1 srcva le_rfl (by omega))) hw
    case pos =>
      have hvaN := UInt64.lt_iff_toNat_lt.1 hw.1
      rw [MAXVA_toNat] at hvaN
      obtain ⟨n, hn⟩ : ∃ n, chunkLen srcva (PGROUNDDOWN srcva) max = n := ⟨_, rfl⟩
      have hnN : n.toNat = min (4096 - srcva.toNat % 4096) max.toNat := by
        rw [← hn]
        exact chunkLen_toNat srcva max
      have hnext := nextPage_toNat hw.1
      have hfuel' : (2 ^ 38 + 4095 - (PGROUNDDOWN srcva + PGSIZE).toNat) / 4096 < fuel := by
        rw [hnext]
        omega
      obtain ⟨p, hp⟩ : ∃ p, uaddr s.mem pt srcva + (srcva - PGROUNDDOWN srcva) = p := ⟨_, rfl⟩
      obtain ⟨k, hk, hnz, hz, heq⟩ := copyinstrInner_spec s.mem n.toNat kdst p dst max (by omega)
      have hkmax : k ≤ max := UInt64.le_iff_toNat_le.2 (by omega)
      have hsk : (srcva + k).toNat = srcva.toNat + k.toNat := by
        rw [UInt64.toNat_add]
        omega
      -- the bytes of the chunk are the user's, and those the inner loop passed are not NUL
      have hbyte : ∀ va, srcva.toNat ≤ va.toNat → va.toNat < srcva.toNat + n.toNat →
          UserMapped s.mem pt va ∧ userByte s.mem pt va = some (s.mem (p + (va - srcva))) := by
        intro va h1 h2
        have hva : va < MAXVA := UInt64.lt_iff_toNat_lt.2 (by rw [MAXVA_toNat]; omega)
        refine ⟨userMapped_congr hok hva (by omega) ((userMapped_iff hok).2 hw), ?_⟩
        rw [userByte_chunk hok hw.1 hw.2 (n := n) (by omega) h1 h2, hp]
      have hoff : ∀ va, srcva.toNat ≤ va.toNat → (va - srcva).toNat = va.toNat - srcva.toNat :=
        fun va h1 => UInt64.toNat_sub_of_le _ _ (UInt64.le_iff_toNat_le.2 h1)
      have hrun : ∀ va, srcva.toNat ≤ va.toNat → va.toNat < (srcva + k).toNat →
          UserMapped s.mem pt va ∧ userByte s.mem pt va ≠ some 0 := by
        intro va h1 h2
        obtain ⟨hm, hb⟩ := hbyte va h1 (by omega)
        refine ⟨hm, ?_⟩
        rw [hb]
        intro h0
        exact hnz (va - srcva) (by rw [hoff va h1]; omega) (Option.some.inj h0)
      -- the copied bytes are the user's at the same offsets
      have hcopied : ∀ c : UInt64, ∀ va, srcva.toNat ≤ va.toNat → va.toNat < srcva.toNat + c.toNat →
          c.toNat ≤ n.toNat → userByte s.mem pt va = some (kdst.copy dst s.mem p c (dst + (va - srcva))) := by
        intro c va h1 h2 hc
        have hin : dst + (va - srcva) - dst < c := by
          rw [show dst + (va - srcva) - dst = va - srcva by grind, UInt64.lt_iff_toNat_lt, hoff va h1]
          omega
        rw [Mem.copy_of_lt hin, show dst + (va - srcva) - dst = va - srcva by grind]
        exact (hbyte va h1 (by omega)).2
      rw [copyinstrLoop_step hok.table.tree hmax hw hn, hp, heq]
      by_cases hkn : k.toNat < n.toNat
      · -- the NUL at `srcva + k` ends the string
        simp only [hkn, decide_true, if_true]
        have hend : StrEnd s.mem pt srcva (srcva + k) := by
          refine ⟨by omega, fun x h1 h2 => (hbyte x h1 (by omega)).1, ?_,
            fun x h1 h2 => (hrun x h1 h2).2⟩
          rw [(hbyte (srcva + k) (by omega) (by omega)).2,
            show srcva + k - srcva = k by grind, hz hkn]
        refine ⟨0, kdst.copy dst s.mem p (k + 1), copyinstrLoop_got_null _, Or.inl rfl,
          ⟨fun _ => ⟨srcva + k, hend, by omega⟩, fun _ => rfl⟩, ?_, ?_⟩
        · intro _ e he va h1 h2
          rw [he.unique hend] at h2
          have hk1 : (k + 1).toNat = k.toNat + 1 := by
            rw [UInt64.toNat_add]
            simp only [UInt64.reduceToNat]
            omega
          exact hcopied (k + 1) va h1 (by omega) (by omega)
        · intro b hb
          exact Mem.copy_of_not_lt fun h => hb (UInt64.lt_of_lt_of_le h
            (UInt64.le_iff_toNat_le.2 (by
              rw [UInt64.toNat_add]
              simp only [UInt64.reduceToNat]
              omega)))
      · -- no NUL in the chunk: the rest of the loop goes on from the next page
        have hkn' : k.toNat = n.toNat := by omega
        simp only [hkn, decide_false, if_false]
        obtain ⟨r, kdst', hrun', hc⟩ :=
          ih (kdst.copy dst s.mem p k) (dst + k) (PGROUNDDOWN srcva + PGSIZE) (max - k) hfuel'
        have hrest : (max - k).toNat = max.toNat - k.toNat := UInt64.toNat_sub_of_le _ _ hkmax
        -- where the rest is not empty, it starts right after the chunk
        have hat : k.toNat < max.toNat → PGROUNDDOWN srcva + PGSIZE = srcva + k := by
          intro hlt
          apply UInt64.toNat_inj.mp
          rw [hnext, hsk]
          omega
        have hskip : ∀ e, StrEnd s.mem pt srcva e ↔ StrEnd s.mem pt (srcva + k) e :=
          fun _ => strEnd_skip (by omega) hrun
        refine ⟨r, kdst', hrun', hc.result, ?_, ?_, ?_⟩
        · rw [hc.ok_iff]
          constructor
          · rintro ⟨e, he, hlt⟩
            have hkm : k.toNat < max.toNat := by
              have := he.1
              omega
            rw [hat hkm] at he
            exact ⟨e, (hskip e).2 he, by rw [hat hkm, hsk, hrest] at hlt; omega⟩
          · rintro ⟨e, he, hlt⟩
            have he' := (hskip e).1 he
            have hkm : k.toNat < max.toNat := by
              have := he'.1
              omega
            rw [hat hkm]
            exact ⟨e, he', by rw [hsk, hrest]; omega⟩
        · intro hr e he va h1 h2
          obtain ⟨e', he', hlt'⟩ := hc.ok_iff.1 hr
          have hkm : k.toNat < max.toNat := by
            have := he'.1
            omega
          by_cases hfirst : va.toNat < srcva.toNat + k.toNat
          · -- the chunk: the rest of the loop left it alone
            rw [hc.frame _ (not_lt_rest_of_lt (UInt64.lt_iff_toNat_lt.2 (by rw [hoff va h1]; omega))
              hkmax)]
            exact hcopied k va h1 hfirst (by omega)
          · have hnextE := (hskip e).1 he
            rw [← hat hkm] at hnextE
            rw [hc.copied hr e hnextE va (by omega) h2, hat hkm,
              show dst + k + (va - (srcva + k)) = dst + (va - srcva) by grind]
        · intro b hb
          rw [hc.frame b (not_lt_rest hkmax hb),
            Mem.copy_of_not_lt fun h => hb (UInt64.lt_of_lt_of_le h hkmax)]

/-- `copyinstr` on such a table: see `CopiedStr`. -/
theorem copyinstr_spec (hok : UserOk s.mem pt) (kdst : Mem) (dst srcva max : UInt64) :
    ∃ r kdst', (copyinstr pt kdst dst srcva max).run s = .ok ((r, kdst'), s) ∧
      CopiedStr s.mem pt kdst kdst' dst srcva max r :=
  copyinstrLoop_spec hok pageLoopFuel kdst dst srcva max (by rw [pageLoopFuel_eq]; omega)

end Copyinstr

/-! ## The three copies -/

/-- A table that maps nothing, as `uvmcreate` makes it, is a process's table. -/
theorem userOk_of_empty {m : Mem} {pt : UInt64} (h : ∀ i, i < 512 → next m pt i = none)
    (hpt : pt.toNat % 4096 = 0) (hpt0 : pt ≠ 0) : UserOk m pt where
  table := (good_of_empty (s := ⟨m, [], 0⟩) h hpt hpt0 (by simp) (by simp) List.nodup_nil
    (by simp)).tableOk
  ne_zero va p fl _ hl := by
    rw [lookup_of_empty h] at hl
    cases hl
  inj va va' p fl fl' _ _ hl := by
    rw [lookup_of_empty h] at hl
    cases hl

/-- `copyout`, `copyin` and `copyinstr` on the table `pt` in `s` do what `CopiedOut`,
`CopiedIn` and `CopiedStr` say, for every buffer, address and length. -/
structure UserCopies (s : VmState) (pt : UInt64) : Prop where
  copyout_ok : ∀ (ksrc : Mem) (dstva src len : UInt64), ∃ r s',
    (copyout pt dstva ksrc src len).run s = .ok (r, s') ∧ CopiedOut s s' pt ksrc dstva src len r
  copyin_ok : ∀ (kdst : Mem) (dst srcva len : UInt64), ∃ r kdst',
    (copyin pt kdst dst srcva len).run s = .ok ((r, kdst'), s) ∧
      CopiedIn s.mem pt kdst kdst' dst srcva len r
  copyinstr_ok : ∀ (kdst : Mem) (dst srcva max : UInt64), ∃ r kdst',
    (copyinstr pt kdst dst srcva max).run s = .ok ((r, kdst'), s) ∧
      CopiedStr s.mem pt kdst kdst' dst srcva max r

theorem user_copies_correct {s : VmState} {pt : UInt64} (hok : UserOk s.mem pt) : UserCopies s pt where
  copyout_ok _ dstva src len := copyout_spec hok dstva src len
  copyin_ok kdst dst srcva len := copyin_spec hok kdst dst srcva len
  copyinstr_ok kdst dst srcva max := copyinstr_spec hok kdst dst srcva max

/-- The fresh table of `uvmcreate` on zeroed memory. -/
theorem user_copies_correct_on_fresh_table :
    UserOk (fun _ => 0) 0x87fff000 ∧
      UserCopies { mem := fun _ => 0, freelist := [0x87ffe000, 0x87ffd000], kernelEnd := 0x80020000 }
        0x87fff000 :=
  have hok : UserOk (fun _ => 0) 0x87fff000 :=
    userOk_of_empty (fun i _ => by rw [next, Mem.load64_zero, if_neg (not_not.2 zero_not_valid)])
      (by decide) (by decide)
  ⟨hok, user_copies_correct hok⟩

end Xv6.Vm
