import Mathlib.Data.List.Basic

/-!
# Trees of pages reached by index paths

A radix tree laid out in pages: the entry `i` of a page `q` names a child page
`child q i`, or nothing. The page reached from the root through a list of indices is
`node child root path`, the path written innermost index first, so that `i :: path` is
the child at `i` of the page at `path`. Only paths of at most `d` indices that each pass
`ok` belong to the tree.

Two facts carry every argument about a write to such a tree. What the tree is depends
only on the entries of its pages above the last level (`node_congr`). And when one empty
entry of such a page is made to point to a page that is not in the tree and whose
entries are all empty, the tree gains exactly that page at that path (`node_extend`),
and no page of it becomes reachable by two paths (`unshared_extend`).
-/

set_option autoImplicit false

namespace Radix

variable {α ι : Type}

/-- The page reached from `root` through `path`, innermost index first. -/
def node (child : α → ι → Option α) (root : α) : List ι → Option α
  | [] => some root
  | i :: path => (node child root path).bind fun q => child q i

@[simp] theorem node_nil (child : α → ι → Option α) (root : α) : node child root [] = some root :=
  rfl

theorem node_cons (child : α → ι → Option α) (root : α) (i : ι) (path : List ι) :
    node child root (i :: path) = (node child root path).bind fun q => child q i :=
  rfl

section Tree

variable (ok : ι → Prop) (d : ℕ)

/-- A path of at most `d` indices that all pass `ok`. -/
def ValidPath (path : List ι) : Prop := path.length ≤ d ∧ ∀ i ∈ path, ok i

/-- A page of the tree: one reached by a valid path. -/
def IsNode (child : α → ι → Option α) (root q : α) : Prop :=
  ∃ path, ValidPath ok d path ∧ node child root path = some q

/-- No page of the tree is reached by two valid paths. -/
def Unshared (child : α → ι → Option α) (root : α) : Prop :=
  ∀ p p' q, ValidPath ok d p → ValidPath ok d p' → node child root p = some q →
    node child root p' = some q → p = p'

variable {ok d}

theorem ValidPath.tail {i : ι} {path : List ι} (h : ValidPath ok d (i :: path)) :
    ValidPath ok d path :=
  ⟨by have := h.1; simp only [List.length_cons] at this; omega,
    fun j hj => h.2 j (List.mem_cons_of_mem i hj)⟩

theorem ValidPath.head {i : ι} {path : List ι} (h : ValidPath ok d (i :: path)) : ok i :=
  h.2 i List.mem_cons_self

theorem ValidPath.length_lt {i : ι} {path : List ι} (h : ValidPath ok d (i :: path)) :
    path.length < d := by
  have := h.1
  simp only [List.length_cons] at this
  omega

theorem ValidPath.cons {i : ι} {path : List ι} (hp : ValidPath ok d path) (hlen : path.length < d)
    (hi : ok i) : ValidPath ok d (i :: path) := by
  refine ⟨by simp only [List.length_cons]; omega, fun j hj => ?_⟩
  rcases List.mem_cons.1 hj with rfl | hj
  · exact hi
  · exact hp.2 j hj

theorem ValidPath.nil : ValidPath ok d ([] : List ι) := ⟨Nat.zero_le d, by simp⟩

variable {child child' : α → ι → Option α} {root : α}

theorem isNode_root : IsNode ok d child root root := ⟨[], ValidPath.nil, rfl⟩

/-- A tree depends only on the entries of its pages above the last level. -/
theorem node_congr
    (h : ∀ p q i, ValidPath ok d (i :: p) → node child root p = some q → child' q i = child q i) :
    ∀ p, ValidPath ok d p → node child' root p = node child root p := by
  intro p
  induction p with
  | nil => intro _; rfl
  | cons i p ih =>
    intro hp
    rw [node_cons, node_cons, ih hp.tail]
    cases hq : node child root p with
    | none => rfl
    | some q => exact h p q i hp hq

theorem isNode_congr
    (h : ∀ p q i, ValidPath ok d (i :: p) → node child root p = some q → child' q i = child q i)
    (q : α) : IsNode ok d child' root q ↔ IsNode ok d child root q := by
  constructor
  · rintro ⟨p, hp, hq⟩
    exact ⟨p, hp, by rw [← node_congr h p hp]; exact hq⟩
  · rintro ⟨p, hp, hq⟩
    exact ⟨p, hp, by rw [node_congr h p hp]; exact hq⟩

theorem unshared_congr
    (h : ∀ p q i, ValidPath ok d (i :: p) → node child root p = some q → child' q i = child q i)
    (hu : Unshared ok d child root) : Unshared ok d child' root := by
  intro p p' q hp hp' h1 h2
  rw [node_congr h p hp] at h1
  rw [node_congr h p' hp'] at h2
  exact hu p p' q hp hp' h1 h2

section Extend

variable [DecidableEq ι] {p : List ι} {q r : α} {i : ι}

/-- The entries a write makes: `child q i` now names `r`, which names nothing, and every
other entry of a page above the last level is as it was. -/
structure Extends (ok : ι → Prop) (d : ℕ) (child child' : α → ι → Option α) (root : α)
    (p : List ι) (q : α) (i : ι) (r : α) : Prop where
  at_path : node child root p = some q
  valid : ValidPath ok d (i :: p)
  was_empty : child q i = none
  points : child' q i = some r
  fresh : ¬ IsNode ok d child root r
  fresh_empty : ∀ j, ok j → child' r j = none
  others : ∀ p' q' j, ValidPath ok d (j :: p') → node child root p' = some q' →
    (q' ≠ q ∨ j ≠ i) → child' q' j = child q' j

/-- After the write, the tree is the old one with `r` at `i :: p`. -/
theorem node_extend (he : Extends ok d child child' root p q i r) (hu : Unshared ok d child root) :
    ∀ p', ValidPath ok d p' →
      node child' root p' = if p' = i :: p then some r else node child root p' := by
  intro p'
  induction p' with
  | nil =>
    intro _
    simp
  | cons j p' ih =>
    intro hp'
    rw [node_cons, ih hp'.tail]
    by_cases hnew : p' = i :: p
    · -- below the new page: its entries are empty, and the old tree had nothing there
      subst hnew
      have hne : j :: i :: p ≠ i :: p := by
        intro h
        have := congrArg List.length h
        simp at this
      have hold : node child root (j :: i :: p) = none := by
        rw [node_cons, node_cons, he.at_path]
        simp [he.was_empty]
      rw [if_pos rfl, Option.bind_some, if_neg hne, hold]
      exact he.fresh_empty j hp'.head
    · simp only [hnew, if_false]
      cases hq' : node child root p' with
      | none =>
        have hne : j :: p' ≠ i :: p := by
          intro h
          cases h
          rw [he.at_path] at hq'
          cases hq'
        simp [hne, node_cons, hq']
      | some q' =>
        simp only [Option.bind_some]
        by_cases hsame : q' = q ∧ j = i
        · -- the written entry: the old page `q` is only reached by `p`
          obtain ⟨rfl, rfl⟩ := hsame
          have hpp : p' = p := hu p' p q' hp'.tail he.valid.tail hq' he.at_path
          subst hpp
          simp [he.points]
        · have hne : j :: p' ≠ i :: p := by
            intro h
            cases h
            rw [he.at_path] at hq'
            cases hq'
            exact hsame ⟨rfl, rfl⟩
          rw [if_neg hne, node_cons, hq', Option.bind_some]
          exact he.others p' q' j hp' hq' (not_and_or.1 hsame)

/-- After the write, the pages of the tree are the old ones and `r`. -/
theorem isNode_extend (he : Extends ok d child child' root p q i r) (hu : Unshared ok d child root)
    (x : α) : IsNode ok d child' root x ↔ IsNode ok d child root x ∨ x = r := by
  constructor
  · rintro ⟨p', hp', hx⟩
    rw [node_extend he hu p' hp'] at hx
    split_ifs at hx with h
    · exact Or.inr (Option.some.inj hx).symm
    · exact Or.inl ⟨p', hp', hx⟩
  · rintro (⟨p', hp', hx⟩ | rfl)
    · refine ⟨p', hp', ?_⟩
      rw [node_extend he hu p' hp']
      split_ifs with h
      · -- the old tree had nothing at `i :: p`
        subst h
        rw [node_cons, he.at_path] at hx
        simp [he.was_empty] at hx
      · exact hx
    · exact ⟨i :: p, he.valid, by rw [node_extend he hu _ he.valid]; simp⟩

/-- After the write, no page of the tree is reached by two valid paths. -/
theorem unshared_extend (he : Extends ok d child child' root p q i r)
    (hu : Unshared ok d child root) : Unshared ok d child' root := by
  intro p1 p2 x hp1 hp2 h1 h2
  rw [node_extend he hu p1 hp1] at h1
  rw [node_extend he hu p2 hp2] at h2
  split_ifs at h1 h2 with e1 e2 e2
  · rw [e1, e2]
  · -- `r` is not a page of the old tree
    exact absurd ⟨p2, hp2, (Option.some.inj h1) ▸ h2⟩ he.fresh
  · exact absurd ⟨p1, hp1, (Option.some.inj h2) ▸ h1⟩ he.fresh
  · exact hu p1 p2 x hp1 hp2 h1 h2

end Extend

/-! ### The subtree below a child of the root -/

section Below

variable {i j : ι} {c c' r : α}

/-- The page at a path whose outermost index is `i` is reached from the child at `i` by the
rest of the path. -/
theorem node_append (child : α → ι → Option α) (root : α) (i : ι) :
    ∀ p, node child root (p ++ [i]) = (child root i).bind fun c => node child c p
  | [] => by simp [node_cons]
  | j :: p => by
    rw [List.cons_append, node_cons, node_append child root i p, Option.bind_assoc]
    rfl

theorem validPath_append_iff {p : List ι} :
    ValidPath ok (d + 1) (p ++ [i]) ↔ ValidPath ok d p ∧ ok i := by
  unfold ValidPath
  rw [List.length_append, List.length_singleton, List.forall_mem_append, List.forall_mem_singleton]
  constructor
  · rintro ⟨hl, hp, hi⟩
    exact ⟨⟨by omega, hp⟩, hi⟩
  · rintro ⟨⟨hl, hp⟩, hi⟩
    exact ⟨by omega, hp, hi⟩

/-- The tree no level deep is its root. -/
theorem isNode_zero_iff : IsNode ok 0 child root r ↔ r = root := by
  constructor
  · rintro ⟨p, hp, hr⟩
    rw [List.eq_nil_of_length_eq_zero (Nat.le_zero.1 hp.1), node_nil] at hr
    exact (Option.some.inj hr).symm
  · rintro rfl
    exact isNode_root

/-- A page of the tree `d + 1` deep is the root, or a page of the tree `d` deep below one
of the root's children. -/
theorem isNode_succ_iff :
    IsNode ok (d + 1) child root r ↔
      r = root ∨ ∃ i c, ok i ∧ child root i = some c ∧ IsNode ok d child c r := by
  constructor
  · rintro ⟨p, hp, hr⟩
    rcases List.eq_nil_or_concat p with rfl | ⟨p', i, rfl⟩
    · exact .inl (Option.some.inj hr).symm
    · rw [List.concat_eq_append] at hp hr
      rw [node_append, Option.bind_eq_some_iff] at hr
      obtain ⟨c, hc, hr⟩ := hr
      obtain ⟨hp', hi⟩ := validPath_append_iff.1 hp
      exact .inr ⟨i, c, hi, hc, p', hp', hr⟩
  · rintro (rfl | ⟨i, c, hi, hc, p', hp', hr⟩)
    · exact isNode_root
    · refine ⟨p' ++ [i], validPath_append_iff.2 ⟨hp', hi⟩, ?_⟩
      rw [node_append, hc, Option.bind_some, hr]

/-- The page at `p` below the child at `i` is the root's page at `p ++ [i]`. -/
theorem node_of_below (hc : child root i = some c) {p : List ι} {x : α}
    (hx : node child c p = some x) : node child root (p ++ [i]) = some x := by
  rw [node_append, hc, Option.bind_some, hx]

variable (hu : Unshared ok (d + 1) child root)
include hu

/-- Below a child of the root no page is reached twice either. -/
theorem Unshared.below (hi : ok i) (hc : child root i = some c) : Unshared ok d child c := by
  intro p p' x hp hp' h1 h2
  exact List.append_cancel_right (hu _ _ x (validPath_append_iff.2 ⟨hp, hi⟩)
    (validPath_append_iff.2 ⟨hp', hi⟩) (node_of_below hc h1) (node_of_below hc h2))

/-- The root is no page below one of its children. -/
theorem Unshared.root_not_below (hi : ok i) (hc : child root i = some c) :
    ¬ IsNode ok d child c root := by
  rintro ⟨p, hp, hx⟩
  have := hu [] (p ++ [i]) root ValidPath.nil (validPath_append_iff.2 ⟨hp, hi⟩) rfl
    (node_of_below hc hx)
  simp at this

/-- The subtrees below two children of the root have no page in common. -/
theorem Unshared.below_disjoint (hi : ok i) (hj : ok j) (hc : child root i = some c)
    (hc' : child root j = some c') (hij : i ≠ j) (hx : IsNode ok d child c r) :
    ¬ IsNode ok d child c' r := by
  rintro ⟨p', hp', hx'⟩
  obtain ⟨p, hp, hx⟩ := hx
  have h := hu _ _ r (validPath_append_iff.2 ⟨hp, hi⟩) (validPath_append_iff.2 ⟨hp', hj⟩)
    (node_of_below hc hx) (node_of_below hc' hx')
  obtain ⟨-, h⟩ := List.append_inj' h rfl
  exact hij (List.singleton_inj.1 h)

end Below

end Tree

end Radix
