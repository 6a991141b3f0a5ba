import MgStd.Lib.BinTree
/-!
# Orders of a tree

The node before its subtrees, and after them. Both agree with the order from
left to right only where no node has a child on the one side.
-/

namespace MgStd.Lib.BinTree

variable {A D : Type} {t l r : BinTree A D} {a : A} {d : D}

/-- Each node before its left subtree, and that before its right one. -/
def preorder : BinTree A D → List A
  | nil => []
  | node l a _ r => a :: (l.preorder ++ r.preorder)

/-- Each node behind its subtrees. -/
def postorder : BinTree A D → List A
  | nil => []
  | node l a _ r => l.postorder ++ r.postorder ++ [a]

theorem preorder_perm (t : BinTree A D) : t.preorder.Perm t.inorder := by
  induction t with
  | nil => exact .refl _
  | node l a d r ihl ihr =>
    rw [preorder, inorder_node]
    exact ((ihl.append ihr).cons a).trans List.perm_middle.symm

theorem postorder_perm (t : BinTree A D) : t.postorder.Perm t.inorder := by
  induction t with
  | nil => exact .refl _
  | node l a d r ihl ihr =>
    rw [postorder, inorder_node, List.append_assoc]
    exact ihl.append (List.perm_append_comm.trans (ihr.cons a))

/-- No node has a left child. -/
def NoLeft : BinTree A D → Prop
  | nil => True
  | node l _ _ r => l = nil ∧ r.NoLeft

/-- No node has a right child. -/
def NoRight : BinTree A D → Prop
  | nil => True
  | node l _ _ r => r = nil ∧ l.NoRight

theorem inorder_eq_nil : t.inorder = [] ↔ t = nil := by
  cases t <;> simp

/-- Where no address occurs twice, the root is in neither subtree, and none occurs twice in a subtree. -/
theorem nodup_node (h : (node l a d r).inorder.Nodup) :
    a ∉ l.inorder ++ r.inorder ∧ l.inorder.Nodup ∧ r.inorder.Nodup := by
  rw [inorder_node, List.nodup_middle, List.nodup_cons, List.nodup_append] at h
  exact ⟨h.1, h.2.1, h.2.2.1⟩

/-- A first element from the left subtree is not the root. -/
theorem inorder_eq_preorder (h : t.inorder.Nodup) : t.inorder = t.preorder ↔ t.NoLeft := by
  induction t with
  | nil => exact iff_of_true rfl trivial
  | node l a d r ihl ihr =>
    obtain ⟨ha, -, hr⟩ := nodup_node h
    rw [inorder_node, preorder, NoLeft]
    cases hl : l.inorder with
    | nil =>
      obtain rfl := inorder_eq_nil.1 hl
      rw [List.nil_append, preorder, List.nil_append, List.cons_inj_right, ihr hr]
      exact (and_iff_right rfl).symm
    | cons b bs =>
      apply iff_of_false
      · intro heq
        obtain rfl := (List.cons.inj heq).1
        exact ha (by simp [hl])
      · rintro ⟨rfl, -⟩
        cases hl

/-- A last element from the right subtree is not the root. -/
theorem inorder_eq_postorder (h : t.inorder.Nodup) : t.inorder = t.postorder ↔ t.NoRight := by
  induction t with
  | nil => exact iff_of_true rfl trivial
  | node l a d r ihl ihr =>
    obtain ⟨ha, hl, -⟩ := nodup_node h
    rw [inorder_node, postorder, NoRight]
    rcases List.eq_nil_or_concat r.inorder with hr | ⟨bs, b, hr⟩
    · obtain rfl := inorder_eq_nil.1 hr
      rw [postorder, List.append_nil, inorder_nil, List.append_cancel_right_eq, ihl hl]
      exact (and_iff_right rfl).symm
    · apply iff_of_false
      · intro heq
        rw [hr, List.concat_eq_append, ← List.cons_append, ← List.append_assoc] at heq
        obtain rfl := List.singleton_inj.1 (List.append_inj' heq rfl).2
        exact ha (by simp [hr])
      · rintro ⟨rfl, -⟩
        simp at hr

end MgStd.Lib.BinTree
