import MgStd.AvlTree.Code
import MgStd.Lib.Rotation
/-!
# What the rotations do

The links of a rotation first, on the tree at some place; then the two heights
it writes. The code returns the new root of the place, and the parent's link
changes with it.
-/

namespace MgStd.AvlTree

open MgStd.Lib BinTree

abbrev HeightTree (A : Type) := BinTree A Int
abbrev HeightCtx (A : Type) := Ctx A Int

variable {A : Type} [DecidableEq A] {cmp : A → A → Int} {h : Heap A (MgAvltreeNode A)}
  {c : HeightCtx A} {l m r t u v : HeightTree A} {a b x : A} {d e f : Int}

/-- The height stored at the root; NULL has height -1. -/
def stored : HeightTree A → Int
  | .nil => -1
  | .node _ _ d _ => d

omit [DecidableEq A] in
@[simp] theorem stored_node : stored (node l a d r) = d := rfl

omit [DecidableEq A] in
@[simp] theorem returns_mgAvltreeHeight_some (Q : Int → Heap A (MgAvltreeNode A) → Prop) :
    Returns (mgAvltreeHeight (some a)) h Q ↔ ∃ n, h a = some n ∧ Q n.data h := by simp [mgAvltreeHeight]

omit [DecidableEq A] in
theorem returns_mgAvltreeHeight {q : Ptr A} (ht : TreeAt cmp h q t) (Q : Int → Heap A (MgAvltreeNode A) → Prop) :
    Returns (mgAvltreeHeight t.root) h Q ↔ Q (stored t) h := by
  cases t with
  | nil => simp [mgAvltreeHeight, stored]
  | node l a d r => simp [mgAvltreeHeight, ht.1, stored]

/-! ## Links -/

theorem leftLeftLinks_spec (ha : At cmp h c (node (node l b e m) a d r)) :
    Returns (leftLeftLinks (some a)) h fun q h' => q = some b ∧
      Rearranged cmp h (c.plug (node (node l b e m) a d r)) h' c (node l b e (node m a d r)) := rotateRight_spec ha

theorem rightRightLinks_spec (ha : At cmp h c (node l a d (node m b e r))) :
    Returns (rightRightLinks (some a)) h fun q h' => q = some b ∧
      Rearranged cmp h (c.plug (node l a d (node m b e r))) h' c (node (node l a d m) b e r) := rotateLeft_spec ha

/-! ## Rotations with their heights -/

theorem leftLeftRotation_spec (ha : At cmp h c (node (node l b e m) a d r)) :
    Returns (leftLeftRotation (some a)) h fun q h' => q = some b ∧
      Rearranged cmp h (c.plug (node (node l b e m) a d r)) h' c
        (node l b (max (stored l) (max (stored m) (stored r) + 1) + 1) (node m a (max (stored m) (stored r) + 1) r)) := by
  have hab := ha.apart'.ab
  refine (leftLeftLinks_spec ha).bind ?_
  rintro _ h₁ ⟨rfl, hr⟩
  have ha₁ := at_right.2 hr.place
  have hrec := Rearranged.right.1 ((Rearranged.right.2 hr).relabel (max (stored m) (stored r) + 1))
  simp only [Ctx.parent_right] at hrec
  have hl₂ := returns_mgAvltreeHeight (at_left.2 hrec.place).tree
  have hrec' := hrec.relabel (max (stored l) (max (stored m) (stored r) + 1) + 1)
  simpa [ha₁.self, returns_mgAvltreeHeight (at_left.2 ha₁).tree, returns_mgAvltreeHeight (at_right.2 ha₁).tree, hab.symm,
    hr.place.self, hl₂] using hrec'

theorem rightRightRotation_spec (ha : At cmp h c (node l a d (node m b e r))) :
    Returns (rightRightRotation (some a)) h fun q h' => q = some b ∧
      Rearranged cmp h (c.plug (node l a d (node m b e r))) h' c
        (node (node l a (max (stored l) (stored m) + 1) m) b (max (stored r) (max (stored l) (stored m) + 1) + 1) r) := by
  have hab := ha.apart.ab
  refine (rightRightLinks_spec ha).bind ?_
  rintro _ h₁ ⟨rfl, hr⟩
  have ha₁ := at_left.2 hr.place
  have hrec := Rearranged.left.1 ((Rearranged.left.2 hr).relabel (max (stored l) (stored m) + 1))
  simp only [Ctx.parent_left] at hrec
  have hr₂ := returns_mgAvltreeHeight (at_right.2 hrec.place).tree
  have hrec' := hrec.relabel (max (stored r) (max (stored l) (stored m) + 1) + 1)
  simpa [ha₁.self, returns_mgAvltreeHeight (at_left.2 ha₁).tree, returns_mgAvltreeHeight (at_right.2 ha₁).tree, hab.symm,
    hr.place.self, hr₂] using hrec'

theorem leftRightRotation_spec (ha : At cmp h c (node (node l b e (node u x f v)) a d r)) :
    Returns (leftRightRotation (some a)) h fun q h' => q = some x ∧ ∃ d',
      Rearranged cmp h (c.plug (node (node l b e (node u x f v)) a d r)) h' c
        (node (node l b (max (stored l) (stored u) + 1) u) x d' (node v a (max (stored v) (stored r) + 1) r)) := by
  have hb := at_left.2 ha
  simp [leftRightRotation, ha.self]
  refine (rightRightRotation_spec hb).mono ?_
  rintro _ h₁ ⟨rfl, hr⟩
  have ha₁ := at_left.1 hr.place
  have hself := ha₁.self
  simp only [root_node] at hself
  simp [hself, update_same]
  refine (leftLeftRotation_spec ha₁).mono ?_
  rintro _ h₂ ⟨rfl, hr₂⟩
  exact ⟨rfl, _, (Rearranged.left.1 hr).trans hr₂⟩

theorem rightLeftRotation_spec (ha : At cmp h c (node l a d (node (node u x f v) b e r))) :
    Returns (rightLeftRotation (some a)) h fun q h' => q = some x ∧ ∃ d',
      Rearranged cmp h (c.plug (node l a d (node (node u x f v) b e r))) h' c
        (node (node l a (max (stored l) (stored u) + 1) u) x d' (node v b (max (stored v) (stored r) + 1) r)) := by
  have hb := at_right.2 ha
  simp [rightLeftRotation, ha.self]
  refine (leftLeftRotation_spec hb).mono ?_
  rintro _ h₁ ⟨rfl, hr⟩
  have ha₁ := at_right.1 hr.place
  have hself := ha₁.self
  simp only [root_node] at hself
  simp [hself, update_same]
  refine (rightRightRotation_spec ha₁).mono ?_
  rintro _ h₂ ⟨rfl, hr₂⟩
  exact ⟨rfl, _, (Rearranged.right.1 hr).trans hr₂⟩

end MgStd.AvlTree
