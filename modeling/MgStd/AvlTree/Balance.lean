import MgStd.Lib.SearchTree
import MgStd.AvlTree.Rotate
/-!
# Balance

When the left subtree of a node has grown by the new node `z` and is too high,
its own root was not rotated, and `z` is on its higher side. So the comparison
of `z` with that root picks the right rotation.
-/

namespace MgStd.AvlTree

open MgStd.Lib BinTree

variable {A : Type} [DecidableEq A] {cmp : A → A → Int} {h : Heap A (MgAvltreeNode A)}
  {c : HeightCtx A} {l m r t t' u v : HeightTree A} {a b x z : A} {d e f : Int}

/-- A leaf has height 0 and NULL has height -1. -/
def height : HeightTree A → Int
  | .nil => -1
  | .node l _ _ r => max (height l) (height r) + 1

/-- The stored heights are right, and the subtrees of each node differ in height by at most 1. -/
def Avl : HeightTree A → Prop
  | .nil => True
  | .node l _ d r => d = max (height l) (height r) + 1 ∧ height l ≤ height r + 1 ∧ height r ≤ height l + 1 ∧ Avl l ∧ Avl r

section
omit [DecidableEq A]

@[simp] theorem height_nil : height (nil : HeightTree A) = -1 := rfl
@[simp] theorem height_node : height (node l a d r) = max (height l) (height r) + 1 := rfl
@[simp] theorem avl_nil : Avl (nil : HeightTree A) := trivial
@[simp] theorem avl_node : Avl (node l a d r) ↔
    d = max (height l) (height r) + 1 ∧ height l ≤ height r + 1 ∧ height r ≤ height l + 1 ∧ Avl l ∧ Avl r := Iff.rfl

theorem neg_one_le_height (t : HeightTree A) : -1 ≤ height t := by
  induction t with
  | nil => simp
  | node l a d r ihl ihr => simp; omega

theorem Avl.stored_eq (ht : Avl t) : stored t = height t := by
  cases t with
  | nil => rfl
  | node l a d r => exact ht.1

/-- `z` is on the higher side of the tree. -/
def Heavy (cmp : A → A → Int) (z : A) : HeightTree A → Prop
  | .nil => False
  | .node l b _ r => 0 < cmp b z ∧ height l = height r + 1 ∨ cmp b z < 0 ∧ height r = height l + 1

/-- What the insertion of `z` makes of the heights of `t`. -/
structure Grown (cmp : A → A → Int) (z : A) (t t' : HeightTree A) : Prop where
  avl : Avl t'
  height_cases : height t' = height t ∨ height t' = height t + 1
  heavy : t ≠ nil → height t' = height t + 1 → Heavy cmp z t'

/-- A left subtree that is too high leans to the side of `z`. -/
theorem Grown.heavy_left (hg : Grown cmp z t t') (ht : Avl (node t a d r)) (hh : height t' - height r = 2) :
    height t' = height t + 1 ∧ Heavy cmp z t' := by
  obtain ⟨-, hl, -, -, -⟩ := ht
  have hr := neg_one_le_height r
  have hgrow : height t' = height t + 1 := by rcases hg.height_cases with h | h <;> omega
  refine ⟨hgrow, hg.heavy ?_ hgrow⟩
  rintro rfl
  simp at hgrow
  omega

theorem Grown.heavy_right (hg : Grown cmp z t t') (ht : Avl (node l a d t)) (hh : height t' - height l = 2) :
    height t' = height t + 1 ∧ Heavy cmp z t' := by
  obtain ⟨-, -, hr, -, -⟩ := ht
  have hl := neg_one_le_height l
  have hgrow : height t' = height t + 1 := by rcases hg.height_cases with h | h <;> omega
  refine ⟨hgrow, hg.heavy ?_ hgrow⟩
  rintro rfl
  simp at hgrow
  omega

end

theorem updateHeight_spec (ha : At cmp h c (node l a d r)) :
    Returns (updateHeight (some a)) h fun q h' => q = some a ∧
      Rearranged cmp h (c.plug (node l a d r)) h' c (node l a (max (stored l) (stored r) + 1) r) := by
  simpa [updateHeight, ha.self, returns_mgAvltreeHeight (at_left.2 ha).tree, returns_mgAvltreeHeight (at_right.2 ha).tree]
    using ha.rearranged.relabel (max (stored l) (stored r) + 1)

/-- The heights are settled by the last step where only the stored height of the root is wrong. -/
theorem settle {h₀ : Heap A (MgAvltreeNode A)} {T s : HeightTree A} (hr : Rearranged cmp h₀ T h c (node l a d r))
    (hl : Avl l) (hrA : Avl r) (hlr : height l ≤ height r + 1) (hrl : height r ≤ height l + 1)
    (hcases : height (node l a d r) = height s ∨ height (node l a d r) = height s + 1)
    (hheavy : height (node l a d r) = height s + 1 → Heavy cmp z (node l a d r)) :
    Returns (updateHeight (some a)) h fun q h' => ∃ T', q = T'.root ∧ Rearranged cmp h₀ T h' c T' ∧ Grown cmp z s T' := by
  refine (updateHeight_spec hr.place).mono ?_
  rintro _ h' ⟨rfl, hr'⟩
  refine ⟨_, rfl, hr.trans hr', ?_, hcases, fun _ => hheavy⟩
  simp [hl, hrA, hl.stored_eq, hrA.stored_eq, hlr, hrl]

/-! ## The left side -/

/-- The end of an insertion to the left of `a`. -/
theorem balanceLeft_spec (ha : At cmp h c (node t' a d r)) (ht : Avl (node t a d r)) (hg : Grown cmp z t t')
    (haz : 0 < cmp a z) :
    Returns (do updateHeight (← balanceLeft (some a) (some z))) h fun q h' => ∃ T, q = T.root ∧
      Rearranged cmp h (c.plug (node t' a d r)) h' c T ∧ Grown cmp z (node t a d r) T := by
  have hl := at_left.2 ha
  have hr := at_right.2 ha
  have ht' := hg.avl
  obtain ⟨-, htr, hrt, -, hrA⟩ := id ht
  simp [balanceLeft, ha.self, returns_mgAvltreeHeight hl.tree, returns_mgAvltreeHeight hr.tree, ht'.stored_eq, hrA.stored_eq]
  refine ⟨fun hh => ?_, fun hh => ?_⟩
  · obtain ⟨hgrow, hheavy⟩ := hg.heavy_left ht hh
    obtain _ | ⟨l, b, e, m⟩ := t'
    · exact hheavy.elim
    obtain ⟨-, hlm, hml, hlA, hmA⟩ := id ht'
    rw [height_node] at hgrow hh
    rcases hheavy with ⟨hbz, hhl⟩ | ⟨hbz, hhm⟩
    · -- left left: `l` is the higher one
      simp [hl.self, hbz, Int.not_le.2 hbz]
      refine (leftLeftRotation_spec ha).mono ?_
      rintro _ h₁ ⟨rfl, hrot⟩
      refine settle hrot hlA ?_ ?_ ?_ ?_ ?_
      · simp [hmA, hrA, hmA.stored_eq, hrA.stored_eq]; omega
      all_goals simp only [height_node]; omega
    · -- left right: `m` is, so it is not NULL
      have hle : ¬ 0 < cmp b z := by omega
      obtain _ | ⟨u, x, f, v⟩ := m
      · have := neg_one_le_height l
        simp at hhm
        omega
      obtain ⟨-, huv, hvu, huA, hvA⟩ := id hmA
      simp [hl.self, hle, Int.not_lt.1 hle]
      refine (leftRightRotation_spec ha).mono ?_
      rintro _ h₁ ⟨rfl, d', hrot⟩
      rw [height_node] at *
      refine settle hrot ?_ ?_ ?_ ?_ ?_ ?_
      · simp [hlA, huA, hlA.stored_eq, huA.stored_eq]; omega
      · simp [hvA, hrA, hvA.stored_eq, hrA.stored_eq]; omega
      all_goals simp only [height_node]; omega
  · have hcases := hg.height_cases
    refine settle ha.rearranged ht' hrA (by omega) (by omega) ?_ ?_
    · simp only [height_node]; omega
    · intro hh'
      simp only [height_node] at hh'
      exact .inl ⟨haz, by omega⟩

/-! ## The right side -/

/-- The end of an insertion to the right of `a`. -/
theorem balanceRight_spec (ha : At cmp h c (node l a d t')) (ht : Avl (node l a d t)) (hg : Grown cmp z t t')
    (haz : cmp a z < 0) :
    Returns (do updateHeight (← balanceRight (some a) (some z))) h fun q h' => ∃ T, q = T.root ∧
      Rearranged cmp h (c.plug (node l a d t')) h' c T ∧ Grown cmp z (node l a d t) T := by
  have hl := at_left.2 ha
  have hr := at_right.2 ha
  have ht' := hg.avl
  obtain ⟨-, hlt, htl, hlA, -⟩ := id ht
  simp [balanceRight, ha.self, returns_mgAvltreeHeight hl.tree, returns_mgAvltreeHeight hr.tree, ht'.stored_eq, hlA.stored_eq]
  refine ⟨fun hh => ?_, fun hh => ?_⟩
  · obtain ⟨hgrow, hheavy⟩ := hg.heavy_right ht hh
    obtain _ | ⟨m, b, e, r⟩ := t'
    · exact hheavy.elim
    obtain ⟨-, hmr, hrm, hmA, hrA⟩ := id ht'
    rw [height_node] at hgrow hh
    rcases hheavy with ⟨hbz, hhm⟩ | ⟨hbz, hhr⟩
    · -- right left: `m` is the higher one, so it is not NULL
      have hle : ¬ cmp b z < 0 := by omega
      obtain _ | ⟨u, x, f, v⟩ := m
      · have := neg_one_le_height r
        simp at hhm
        omega
      obtain ⟨-, huv, hvu, huA, hvA⟩ := id hmA
      simp [hr.self, hle, Int.not_lt.1 hle]
      refine (rightLeftRotation_spec ha).mono ?_
      rintro _ h₁ ⟨rfl, d', hrot⟩
      rw [height_node] at *
      refine settle hrot ?_ ?_ ?_ ?_ ?_ ?_
      · simp [hlA, huA, hlA.stored_eq, huA.stored_eq]; omega
      · simp [hvA, hrA, hvA.stored_eq, hrA.stored_eq]; omega
      all_goals simp only [height_node]; omega
    · -- right right: `r` is
      simp [hr.self, hbz, Int.not_le.2 hbz]
      refine (rightRightRotation_spec ha).mono ?_
      rintro _ h₁ ⟨rfl, hrot⟩
      refine settle hrot ?_ hrA ?_ ?_ ?_ ?_
      · simp [hlA, hmA, hlA.stored_eq, hmA.stored_eq]; omega
      all_goals simp only [height_node]; omega
  · have hcases := hg.height_cases
    refine settle ha.rearranged hlA ht' (by omega) (by omega) ?_ ?_
    · simp only [height_node]; omega
    · intro hh'
      simp only [height_node] at hh'
      exact .inr ⟨haz, by omega⟩

end MgStd.AvlTree
