import Xv6.Analysis.Vm.Sv39
import Xv6.Lib.Radix

/-!
# A page table as a map from pages to PTEs

The pages of a page table `pt` in memory `m` form a tree of depth two: the root, the
level-1 pages its valid entries name, and the level-0 pages theirs name; `walk` reads
one entry on each level, indexed by `PX 2 va` and then `PX 1 va`. The abstraction
`lookup m pt va` is what the level-0 PTE of `va` maps it to, where `walk` reaches that
PTE and the PTE is valid: the pair of `PTE2PA` and `PTE_FLAGS` of the entry.

`TreeOk` asks that the pages of the tree be aligned, non-zero and reached by one path
each. Under it every argument about a write is one of three:

* a write that touches no byte of a page of the tree changes neither the tree nor the
  abstraction (`lookup_of_sameTree`);
* a store into the level-0 PTE of one page changes the abstraction there only
  (`lookup_store_leaf`);
* the allocation `walk` makes, a zeroed page put in an empty entry of a page above
  level 0, adds a page to the tree and changes the abstraction nowhere
  (`lookup_alloc`, `treeOk_alloc`).
-/

set_option autoImplicit false

namespace Xv6.Vm

open Radix

/-! ## The tree and the abstraction -/

/-- The page that entry `i` of the page-table page at `q` names, if the entry is valid. -/
def next (m : Mem) (q i : UInt64) : Option UInt64 :=
  if m.load64 (q + 8 * i) &&& PTE_V ≠ 0 then some (PTE2PA (m.load64 (q + 8 * i))) else none

/-- An index into a page-table page. -/
abbrev Idx (i : UInt64) : Prop := i < 512

/-- The pages of the table `pt`: the root and its pages of levels 1 and 0. -/
def IsPtPage (m : Mem) (pt q : UInt64) : Prop := IsNode Idx 2 (next m) pt q

/-- The path from the root to the level-0 page of `va`. -/
def vaPath (va : UInt64) : List UInt64 := [PX 1 va, PX 2 va]

/-- The address of the level-0 PTE of `va`, where `walk` reaches it. -/
def leafPte (m : Mem) (pt va : UInt64) : Option UInt64 :=
  (node (next m) pt (vaPath va)).map fun p0 => p0 + 8 * PX 0 va

/-- What a PTE maps its page to, if it is valid. -/
def decode (e : UInt64) : Option (UInt64 × UInt64) :=
  if e &&& PTE_V ≠ 0 then some (PTE2PA e, PTE_FLAGS e) else none

/-- The abstraction of the page table `pt`: what the level-0 PTE of `va` maps it to. -/
def lookup (m : Mem) (pt va : UInt64) : Option (UInt64 × UInt64) :=
  (leafPte m pt va).bind fun a => decode (m.load64 a)

/-- A physical page that some virtual page is mapped to. -/
def IsMapped (m : Mem) (pt p : UInt64) : Prop := ∃ va fl, lookup m pt va = some (p, fl)

/-- The pages of the tree are aligned, non-zero, and reached by one path each. -/
structure TreeOk (m : Mem) (pt : UInt64) : Prop where
  aligned : ∀ q, IsPtPage m pt q → q.toNat % 4096 = 0
  ne_zero : ∀ q, IsPtPage m pt q → q ≠ 0
  unshared : Unshared Idx 2 (next m) pt

theorem validPath_vaPath (va : UInt64) : ValidPath Idx 2 (vaPath va) := by
  refine ⟨by simp [vaPath], fun i hi => ?_⟩
  simp only [vaPath, List.mem_cons, List.not_mem_nil, or_false] at hi
  rcases hi with rfl | rfl <;> exact PX_lt _ _

theorem isPtPage_of_node {m : Mem} {pt q : UInt64} {path : List UInt64}
    (hp : ValidPath Idx 2 path) (h : node (next m) pt path = some q) : IsPtPage m pt q :=
  ⟨path, hp, h⟩

/-- Two PTEs `walk` reaches are one only for one page. -/
theorem leafPte_inj {m : Mem} {pt va va' e : UInt64} (ht : TreeOk m pt) (hva : va < MAXVA)
    (hva' : va' < MAXVA) (h : leafPte m pt va = some e) (h' : leafPte m pt va' = some e) :
    va.toNat / 4096 = va'.toNat / 4096 := by
  simp only [leafPte, Option.map_eq_some_iff] at h h'
  obtain ⟨p0, hp0, rfl⟩ := h
  obtain ⟨p0', hp0', he⟩ := h'
  have ha := ht.aligned p0 (isPtPage_of_node (validPath_vaPath va) hp0)
  have ha' := ht.aligned p0' (isPtPage_of_node (validPath_vaPath va') hp0')
  -- the two entries share an address, so they lie in one page at one offset
  have hnat := congrArg UInt64.toNat he
  rw [entry_toNat ha' (PX_lt 0 va'), entry_toNat ha (PX_lt 0 va)] at hnat
  have hx := PX0_toNat va
  have hx' := PX0_toNat va'
  have hpage : p0' = p0 := UInt64.toNat_inj.mp (by omega)
  have hidx : PX 0 va' = PX 0 va := UInt64.toNat_inj.mp (by omega)
  subst hpage
  have hpath := ht.unshared _ _ p0' (validPath_vaPath va) (validPath_vaPath va') hp0 hp0'
  simp only [vaPath, List.cons.injEq, and_true] at hpath
  exact (px_eq_iff hva hva').1 ⟨hidx.symm, hpath.1, hpath.2⟩

/-- The PTE of an address depends only on its page. -/
theorem leafPte_congr {m : Mem} {pt va va' : UInt64} (hva : va < MAXVA) (hva' : va' < MAXVA)
    (h : va.toNat / 4096 = va'.toNat / 4096) : leafPte m pt va = leafPte m pt va' := by
  obtain ⟨h0, h1, h2⟩ := (px_eq_iff hva hva').2 h
  simp only [leafPte, vaPath, h0, h1, h2]

theorem lookup_congr {m : Mem} {pt va va' : UInt64} (hva : va < MAXVA) (hva' : va' < MAXVA)
    (h : va.toNat / 4096 = va'.toNat / 4096) : lookup m pt va = lookup m pt va' := by
  rw [lookup, lookup, leafPte_congr hva hva' h]

/-! ## Bytes of entries and pages -/

/-- The bytes of entry `i` lie in the page. -/
theorem entry_sub_lt {q i b : UInt64} (hi : i < 512) (hb : b - (q + 8 * i) < 8) :
    b - q < PGSIZE := by
  have e : b - q = (b - (q + 8 * i)) + 8 * i := by grind
  rw [UInt64.lt_iff_toNat_lt] at hi hb ⊢
  rw [e, UInt64.toNat_add, UInt64.toNat_mul]
  simp only [UInt64.reduceToNat, PGSIZE_toNat] at *
  omega

/-- Two entries of aligned pages that differ in page or index share no byte. -/
theorem entry_disjoint {q q' i j : UInt64} (hq : q.toNat % 4096 = 0) (hq' : q'.toNat % 4096 = 0)
    (hi : i < 512) (hj : j < 512) (hne : q ≠ q' ∨ i ≠ j) (b : UInt64)
    (hb : b - (q + 8 * i) < 8) : ¬ b - (q' + 8 * j) < 8 := by
  by_cases hqq : q = q'
  · -- one page: distinct words at multiples of 8
    subst hqq
    have hij : i ≠ j := hne.resolve_left (not_not.2 rfl)
    have hij' : i.toNat ≠ j.toNat := fun h => hij (UInt64.toNat_inj.mp h)
    apply Mem.word_disjoint (by rw [entry_toNat hq hj]; omega) (by rw [entry_toNat hq hi]; omega)
      ?_ b hb
    intro h
    have := congrArg UInt64.toNat h
    rw [entry_toNat hq hi, entry_toNat hq hj] at this
    omega
  · intro hb'
    exact Mem.page_disjoint hq' hq hqq b (entry_sub_lt hi hb) (entry_sub_lt hj hb')

/-- An entry of an aligned page shares no byte with another aligned page. -/
theorem entry_not_in_page {q r i : UInt64} (hq : q.toNat % 4096 = 0) (hr : r.toNat % 4096 = 0)
    (hne : q ≠ r) (hi : i < 512) (b : UInt64) (hb : b - (q + 8 * i) < 8) : ¬ b - r < PGSIZE :=
  Mem.page_disjoint hr hq hne b (entry_sub_lt hi hb)

/-! ## Writes outside the tree -/

/-- `m'` agrees with `m` on every byte of every page of the tree of `pt` in `m`. -/
def SameTree (m m' : Mem) (pt : UInt64) : Prop :=
  ∀ q, IsPtPage m pt q → ∀ b, b - q < PGSIZE → m' b = m b

theorem next_congr {m m' : Mem} {q i : UInt64} (hi : i < 512)
    (h : ∀ b, b - q < PGSIZE → m' b = m b) : next m' q i = next m q i := by
  have hl : m'.load64 (q + 8 * i) = m.load64 (q + 8 * i) :=
    Mem.load64_congr fun b hb => h b (entry_sub_lt hi hb)
  simp only [next, hl]

/-- The entries of the pages above level 0 are kept. -/
theorem next_of_sameTree {m m' : Mem} {pt : UInt64} (h : SameTree m m' pt) :
    ∀ p q i, ValidPath Idx 2 (i :: p) → node (next m) pt p = some q → next m' q i = next m q i :=
  fun _ q _ hp hq => next_congr hp.head (h q (isPtPage_of_node hp.tail hq))

theorem node_of_sameTree {m m' : Mem} {pt : UInt64} (h : SameTree m m' pt) :
    ∀ path, ValidPath Idx 2 path → node (next m') pt path = node (next m) pt path :=
  node_congr (next_of_sameTree h)

theorem isPtPage_of_sameTree {m m' : Mem} {pt : UInt64} (h : SameTree m m' pt) (q : UInt64) :
    IsPtPage m' pt q ↔ IsPtPage m pt q := by
  unfold IsPtPage
  exact isNode_congr (next_of_sameTree h) q

theorem leafPte_of_sameTree {m m' : Mem} {pt : UInt64} (h : SameTree m m' pt) (va : UInt64) :
    leafPte m' pt va = leafPte m pt va := by
  rw [leafPte, leafPte, node_of_sameTree h _ (validPath_vaPath va)]

theorem lookup_of_sameTree {m m' : Mem} {pt : UInt64} (h : SameTree m m' pt) (va : UInt64) :
    lookup m' pt va = lookup m pt va := by
  rw [lookup, lookup, leafPte_of_sameTree h]
  cases hl : leafPte m pt va with
  | none => simp only [Option.bind_none]
  | some a =>
    -- the PTE lies in the level-0 page of `va`
    simp only [leafPte, Option.map_eq_some_iff] at hl
    obtain ⟨p0, hp0, rfl⟩ := hl
    have hpage := h p0 (isPtPage_of_node (validPath_vaPath va) hp0)
    simp only [Option.bind_some]
    rw [Mem.load64_congr fun b hb => hpage b (entry_sub_lt (PX_lt 0 va) hb)]

theorem isMapped_of_sameTree {m m' : Mem} {pt : UInt64} (h : SameTree m m' pt) (p : UInt64) :
    IsMapped m' pt p ↔ IsMapped m pt p := by
  simp only [IsMapped, lookup_of_sameTree h]

theorem treeOk_of_sameTree {m m' : Mem} {pt : UInt64} (h : SameTree m m' pt) (ht : TreeOk m pt) :
    TreeOk m' pt where
  aligned q hq := ht.aligned q ((isPtPage_of_sameTree h q).1 hq)
  ne_zero q hq := ht.ne_zero q ((isPtPage_of_sameTree h q).1 hq)
  unshared := unshared_congr (next_of_sameTree h) ht.unshared

theorem SameTree.trans {m m' m'' : Mem} {pt : UInt64} (h : SameTree m m' pt)
    (h' : SameTree m' m'' pt) : SameTree m m'' pt := fun q hq b hb => by
  rw [h' q ((isPtPage_of_sameTree h q).2 hq) b hb, h q hq b hb]

/-- A fill of an aligned page outside the tree keeps the tree. -/
theorem sameTree_fill {m : Mem} {pt r : UInt64} (ht : TreeOk m pt) (hr : r.toNat % 4096 = 0)
    (hout : ¬ IsPtPage m pt r) (c : UInt8) : SameTree m (m.fill r c PGSIZE) pt := by
  intro q hq b hb
  have hne : q ≠ r := fun e => hout (e ▸ hq)
  exact Mem.fill_of_not_lt (Mem.page_disjoint hr (ht.aligned q hq) hne b hb)

/-- A store into a page outside the tree keeps the tree. -/
theorem sameTree_store {m : Mem} {pt r a v : UInt64} (ht : TreeOk m pt)
    (hr : r.toNat % 4096 = 0) (hout : ¬ IsPtPage m pt r)
    (ha : ∀ b, b - a < 8 → b - r < PGSIZE) : SameTree m (m.store64 a v) pt := by
  intro q hq b hb
  have hne : q ≠ r := fun e => hout (e ▸ hq)
  apply Mem.store64_of_not_lt
  intro hba
  exact Mem.page_disjoint hr (ht.aligned q hq) hne b hb (ha b hba)

/-! ## A store into a level-0 PTE -/

section Leaf

variable {m : Mem} {pt va e v : UInt64}

/-- Storing into the PTE of a page keeps every page of the tree, since the PTE lies in a
level-0 page and no page above level 0 is one. -/
theorem node_store_leaf (ht : TreeOk m pt) (he : leafPte m pt va = some e) :
    ∀ path, ValidPath Idx 2 path → node (next (m.store64 e v)) pt path = node (next m) pt path := by
  simp only [leafPte, Option.map_eq_some_iff] at he
  obtain ⟨p0, hp0, rfl⟩ := he
  have hp0page := isPtPage_of_node (validPath_vaPath va) hp0
  apply node_congr
  intro p q i hp hq
  apply next_congr hp.head
  intro b hb
  apply Mem.store64_of_not_lt
  -- `q` lies above level 0, so it is not the level-0 page `p0`
  have hne : q ≠ p0 := by
    rintro rfl
    have := ht.unshared p (vaPath va) q hp.tail (validPath_vaPath va) hq hp0
    have hl := hp.length_lt
    rw [this] at hl
    simp [vaPath] at hl
  intro hb'
  exact entry_not_in_page (ht.aligned p0 hp0page) (ht.aligned q (isPtPage_of_node hp.tail hq))
    hne.symm (PX_lt 0 va) b hb' hb

theorem leafPte_store_leaf (ht : TreeOk m pt) (he : leafPte m pt va = some e) (va' : UInt64) :
    leafPte (m.store64 e v) pt va' = leafPte m pt va' := by
  rw [leafPte, leafPte, node_store_leaf ht he _ (validPath_vaPath va')]

theorem isPtPage_store_leaf (ht : TreeOk m pt) (he : leafPte m pt va = some e) (q : UInt64) :
    IsPtPage (m.store64 e v) pt q ↔ IsPtPage m pt q := by
  constructor
  · rintro ⟨p, hp, hq⟩
    exact ⟨p, hp, by rw [← node_store_leaf ht he p hp]; exact hq⟩
  · rintro ⟨p, hp, hq⟩
    exact ⟨p, hp, by rw [node_store_leaf ht he p hp]; exact hq⟩

theorem treeOk_store_leaf (ht : TreeOk m pt) (he : leafPte m pt va = some e) :
    TreeOk (m.store64 e v) pt where
  aligned q hq := ht.aligned q ((isPtPage_store_leaf ht he q).1 hq)
  ne_zero q hq := ht.ne_zero q ((isPtPage_store_leaf ht he q).1 hq)
  unshared p p' q hp hp' h1 h2 := by
    rw [node_store_leaf ht he p hp] at h1
    rw [node_store_leaf ht he p' hp'] at h2
    exact ht.unshared p p' q hp hp' h1 h2

/-- After a store into the PTE `e` of `va`, the abstraction is what the stored word says
at the addresses whose PTE is `e`, and as it was elsewhere. -/
theorem lookup_store_leaf (ht : TreeOk m pt) (he : leafPte m pt va = some e) (va' : UInt64) :
    lookup (m.store64 e v) pt va' =
      if leafPte m pt va' = some e then decode v else lookup m pt va' := by
  rw [lookup, leafPte_store_leaf ht he]
  split_ifs with h
  · rw [h, Option.bind_some, Mem.load64_store64_self]
  · cases hl : leafPte m pt va' with
    | none => simp [lookup, hl]
    | some a =>
      have hne : a ≠ e := fun hae => h (hae ▸ hl)
      simp only [leafPte, Option.map_eq_some_iff] at hl he
      obtain ⟨p0, hp0, rfl⟩ := he
      obtain ⟨p0', hp0', rfl⟩ := hl
      have ha := ht.aligned p0 (isPtPage_of_node (validPath_vaPath va) hp0)
      have ha' := ht.aligned p0' (isPtPage_of_node (validPath_vaPath va') hp0')
      -- distinct PTEs of aligned pages share no byte
      have hdis : p0' ≠ p0 ∨ PX 0 va' ≠ PX 0 va := by
        by_contra hc
        rw [not_or, not_not, not_not] at hc
        exact hne (by rw [hc.1, hc.2])
      simp only [lookup, leafPte, hp0', Option.map_some, Option.bind_some]
      rw [Mem.load64_store64_of_disjoint
        (entry_disjoint ha' ha (PX_lt 0 va') (PX_lt 0 va) hdis)]

end Leaf

/-! ## The allocation `walk` makes -/

section Alloc

variable {m : Mem} {pt q r i : UInt64} {path : List UInt64}

/-- The memory after `walk` puts the zeroed page `r` in entry `i` of the page `q`. -/
def allocMem (m : Mem) (q i r : UInt64) : Mem :=
  ((m.fill r 5 PGSIZE).fill r 0 PGSIZE).store64 (q + 8 * i) (PA2PTE r ||| PTE_V)

/-- What the allocation needs: `q` a page above level 0 whose entry `i` is empty, `r`
an aligned non-zero page outside the tree. -/
structure AllocOk (m : Mem) (pt : UInt64) (path : List UInt64) (q i r : UInt64) : Prop where
  at_path : node (next m) pt path = some q
  short : path.length ≤ 1
  valid : ValidPath Idx 2 path
  idx : i < 512
  empty : next m q i = none
  r_aligned : r.toNat % 4096 = 0
  r_ne_zero : r ≠ 0
  r_out : ¬ IsPtPage m pt r

theorem load_allocMem_of_page (ht : TreeOk m pt) (ha : AllocOk m pt path q i r) {x : UInt64}
    (hx : x.toNat % 4096 = 0) (hxr : x ≠ r) {j : UInt64} (hj : j < 512) (hxq : x ≠ q ∨ j ≠ i) :
    (allocMem m q i r).load64 (x + 8 * j) = m.load64 (x + 8 * j) := by
  have hq := ht.aligned q (isPtPage_of_node ha.valid ha.at_path)
  rw [allocMem, Mem.fill_fill, Mem.load64_store64_of_disjoint
    (entry_disjoint hx hq hj ha.idx hxq), Mem.load64_fill_of_disjoint
    (entry_not_in_page hx ha.r_aligned hxr hj)]

/-- The write makes exactly the one new entry of the tree. -/
theorem extends_alloc (ht : TreeOk m pt) (ha : AllocOk m pt path q i r) :
    Extends Idx 2 (next m) (next (allocMem m q i r)) pt path q i r where
  at_path := ha.at_path
  valid := ValidPath.cons ha.valid (by have := ha.short; omega) ha.idx
  was_empty := ha.empty
  points := by
    simp only [next, allocMem, Mem.load64_store64_self, PTE2PA_dirPte ha.r_aligned, ne_eq,
      valid_dirPte, not_false_eq_true, if_true]
  fresh := ha.r_out
  fresh_empty j hj := by
    have hq := ht.aligned q (isPtPage_of_node ha.valid ha.at_path)
    have hqr : q ≠ r := fun e => ha.r_out (e ▸ isPtPage_of_node ha.valid ha.at_path)
    have hz : (allocMem m q i r).load64 (r + 8 * j) = 0 := by
      rw [allocMem, Mem.fill_fill, Mem.load64_store64_of_disjoint
        (entry_disjoint ha.r_aligned hq hj ha.idx (Or.inl hqr.symm))]
      exact Mem.load64_fill_zero fun b hb => entry_sub_lt hj hb
    simp only [next, hz, zero_not_valid, ne_eq, not_true_eq_false, if_false]
  others p' q' j hp' hq' hne := by
    have hq'page := isPtPage_of_node hp'.tail hq'
    have hq'r : q' ≠ r := fun e => ha.r_out (e ▸ hq'page)
    simp only [next, load_allocMem_of_page ht ha (ht.aligned q' hq'page) hq'r hp'.head hne]

theorem node_alloc (ht : TreeOk m pt) (ha : AllocOk m pt path q i r) :
    ∀ p, ValidPath Idx 2 p →
      node (next (allocMem m q i r)) pt p = if p = i :: path then some r else node (next m) pt p :=
  node_extend (extends_alloc ht ha) ht.unshared

theorem isPtPage_alloc (ht : TreeOk m pt) (ha : AllocOk m pt path q i r) (x : UInt64) :
    IsPtPage (allocMem m q i r) pt x ↔ IsPtPage m pt x ∨ x = r :=
  isNode_extend (extends_alloc ht ha) ht.unshared x

theorem treeOk_alloc (ht : TreeOk m pt) (ha : AllocOk m pt path q i r) :
    TreeOk (allocMem m q i r) pt where
  aligned x hx := by
    rcases (isPtPage_alloc ht ha x).1 hx with hx | rfl
    · exact ht.aligned x hx
    · exact ha.r_aligned
  ne_zero x hx := by
    rcases (isPtPage_alloc ht ha x).1 hx with hx | rfl
    · exact ht.ne_zero x hx
    · exact ha.r_ne_zero
  unshared := unshared_extend (extends_alloc ht ha) ht.unshared

/-- The allocation changes the abstraction nowhere: below the new page every entry is
empty, as the old empty entry made everything below it. -/
theorem lookup_alloc (ht : TreeOk m pt) (ha : AllocOk m pt path q i r) (va : UInt64) :
    lookup (allocMem m q i r) pt va = lookup m pt va := by
  have hn := node_alloc ht ha (vaPath va) (validPath_vaPath va)
  by_cases hnew : vaPath va = i :: path
  · -- the level-0 page of `va` is the new zeroed page
    rw [if_pos hnew] at hn
    have hold : node (next m) pt (vaPath va) = none := by
      rw [hnew, node_cons, ha.at_path]
      simp [ha.empty]
    have hq := ht.aligned q (isPtPage_of_node ha.valid ha.at_path)
    have hqr : q ≠ r := fun e => ha.r_out (e ▸ isPtPage_of_node ha.valid ha.at_path)
    have hz : (allocMem m q i r).load64 (r + 8 * PX 0 va) = 0 := by
      rw [allocMem, Mem.fill_fill, Mem.load64_store64_of_disjoint
        (entry_disjoint ha.r_aligned hq (PX_lt 0 va) ha.idx (Or.inl hqr.symm))]
      exact Mem.load64_fill_zero fun b hb => entry_sub_lt (PX_lt 0 va) hb
    simp [lookup, leafPte, hn, hold, hz, decode]
  · rw [if_neg hnew] at hn
    rw [lookup, lookup, leafPte, leafPte, hn]
    cases hp0 : node (next m) pt (vaPath va) with
    | none => simp only [Option.map_none, Option.bind_none]
    | some p0 =>
      have hp0page := isPtPage_of_node (validPath_vaPath va) hp0
      have hp0r : p0 ≠ r := fun e => ha.r_out (e ▸ hp0page)
      -- the level-0 page of `va` is not `q`, which lies above level 0
      have hp0q : p0 ≠ q := by
        rintro rfl
        have := ht.unshared _ _ p0 (validPath_vaPath va) ha.valid hp0 ha.at_path
        have hs := ha.short
        rw [← this] at hs
        simp [vaPath] at hs
      simp only [Option.map_some, Option.bind_some,
        load_allocMem_of_page ht ha (ht.aligned p0 hp0page) hp0r (PX_lt 0 va) (Or.inl hp0q)]

theorem isMapped_alloc (ht : TreeOk m pt) (ha : AllocOk m pt path q i r) (p : UInt64) :
    IsMapped (allocMem m q i r) pt p ↔ IsMapped m pt p := by
  simp only [IsMapped, lookup_alloc ht ha]

/-- The allocation writes only the new page and one entry of the tree. -/
theorem allocMem_of_not_mem {b : UInt64} (ha : AllocOk m pt path q i r)
    (hb : ¬ b - r < PGSIZE) (hbq : ∀ x, IsPtPage m pt x → ¬ b - x < PGSIZE) :
    allocMem m q i r b = m b := by
  have hq := isPtPage_of_node ha.valid ha.at_path
  rw [allocMem, Mem.fill_fill, Mem.store64_of_not_lt, Mem.fill_of_not_lt hb]
  intro hb'
  exact hbq q hq (entry_sub_lt ha.idx hb')

end Alloc

end Xv6.Vm
