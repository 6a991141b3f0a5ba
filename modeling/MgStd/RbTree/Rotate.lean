import MgStd.RbTree.Code
/-!
# What the rotations do

Each rotation, run on the node at some place of a tree, leaves the rotated
tree at that place, returns the root of the whole tree, and writes to no node
outside it.
-/

namespace MgStd.RbTree

open MgStd.Lib BinTree

abbrev ColorTree (A : Type) := BinTree A MgrbtreeColor
abbrev ColorCtx (A : Type) := Ctx A MgrbtreeColor

variable {A : Type} [DecidableEq A] {cmp : A → A → Int} {h : Heap A (MgrbtreeT A)}
  {c : ColorCtx A} {l m r : ColorTree A} {a b : A} {d e : MgrbtreeColor}

/-- The heap a rotation leaves, its writes in the order of the code: `b` takes
the place of its parent `a`, and `m` changes from `b` to `a`. -/
def rotated (h : Heap A (MgrbtreeT A)) (c : ColorCtx A) (m : ColorTree A) (a b : A) (n₁ n₂ n₃ n₄ : MgrbtreeT A) :
    Heap A (MgrbtreeT A) :=
  Function.update (Function.update
    (relink (Function.update (adopt (Function.update h a (some n₁)) m.root (some a)) b (some n₂)) c (some b))
    b (some n₃)) a (some n₄)

section Rotated
variable {n₁ n₂ n₃ n₄ : MgrbtreeT A} {p : Ptr A}

theorem rotated_mid (hx : Apart c l m r a b) (hm : TreeAt cmp h p m) :
    TreeAt cmp (rotated h c m a b n₁ n₂ n₃ n₄) (some a) m :=
  treeAt_update _ hx.am (treeAt_update _ hx.bm (treeAt_relink hx.mc (treeAt_update _ hx.bm
    (treeAt_adopt (treeAt_update _ hx.am hm) hx.mn))))

theorem rotated_side {t : ColorTree A} (hat : a ∉ t.inorder) (hbt : b ∉ t.inorder)
    (hd : t.inorder.Disjoint m.inorder) (hc : t.inorder.Disjoint c.nodes) (ht : TreeAt cmp h p t) :
    TreeAt cmp (rotated h c m a b n₁ n₂ n₃ n₄) p t :=
  treeAt_update _ hat (treeAt_update _ hbt (treeAt_relink hc (treeAt_update _ hbt
    (treeAt_adopt_of_disjoint hd (treeAt_update _ hat ht)))))

theorem rotated_ctx (hx : Apart c l m r a b) (hc : CtxAt cmp h c p) :
    CtxAt cmp (rotated h c m a b n₁ n₂ n₃ n₄) c (some b) :=
  ctxAt_update _ hx.ac (ctxAt_update _ hx.bc (ctxAt_relink (ctxAt_update _ hx.bc
    (ctxAt_adopt hx.mc (ctxAt_update _ hx.ac hc))) hx.cn))

theorem rotated_agree {t : ColorTree A} (ha : a ∈ t.inorder) (hb : b ∈ t.inorder) (hm : ∀ x ∈ m.inorder, x ∈ t.inorder) :
    Agree (c.plug t).inorder h (rotated h c m a b n₁ n₂ n₃ n₄) := by
  intro x hx
  rw [Ctx.mem_inorder_plug, not_or] at hx
  have hxa : x ≠ a := fun e => hx.1 (e ▸ ha)
  have hxb : x ≠ b := fun e => hx.1 (e ▸ hb)
  simp [rotated, hxa, hxb, relink_of_not_mem hx.2, adopt_of_not_mem fun hxm => hx.1 (hm x hxm)]

end Rotated

/-! ## Left -/

theorem leftRote_writes (ha : At cmp h c (node l a d (node m b e r))) {Q : Ptr A → Heap A (MgrbtreeT A) → Prop}
    (hq : Q (c.plug (node (node l a d m) b e r)).root
      (rotated h c m a b ⟨d, c.parent, l.root, m.root, cmp⟩ ⟨e, c.parent, m.root, r.root, cmp⟩
        ⟨e, c.parent, some a, r.root, cmp⟩ ⟨d, some b, l.root, m.root, cmp⟩)) :
    Returns (mgrbtreeLeftRote (c.plug (node l a d (node m b e r))).root (some a)) h Q := by
  have hx := ha.apart
  obtain ⟨hta, -, htb, htm, -⟩ := ha.tree
  have hctx := ha.ctx
  have hadopt := fun v => returns_adopt (treeAt_update v hx.am htm)
  cases c with
  | top =>
    simpa [mgrbtreeLeftRote, isLchild, hta, htb, hx.ab, hx.ab.symm, hadopt, adopt_of_not_mem hx.am,
      adopt_of_not_mem hx.bm, rotated, relink] using hq
  | left p f s up =>
    obtain ⟨hpa, hpb, hpm⟩ := hx.parent rfl
    have hr : (up.plug (node (node (node l a d m) b e r) p f s)).root =
      (up.plug (node (node l a d (node m b e r)) p f s)).root := Ctx.root_plug up rfl
    rw [Ctx.plug_left, hr] at hq
    simpa [mgrbtreeLeftRote, isLchild, hta, htb, hx.ab, hx.ab.symm, hadopt, adopt_of_not_mem hx.am,
      adopt_of_not_mem hx.bm, adopt_of_not_mem hpm, hctx.1, hpa, hpb, hpa.symm, hpb.symm, rotated, relink] using hq
  | right s p f up =>
    obtain ⟨hpa, hpb, hpm⟩ := hx.parent rfl
    have hsa : s.root ≠ some a := fun e => hx.ac (by simp [mem_of_root e])
    have hr : (up.plug (node s p f (node (node l a d m) b e r))).root =
      (up.plug (node s p f (node l a d (node m b e r)))).root := Ctx.root_plug up rfl
    rw [Ctx.plug_right, hr] at hq
    simpa [mgrbtreeLeftRote, isLchild, hta, htb, hx.ab, hx.ab.symm, hadopt, adopt_of_not_mem hx.am,
      adopt_of_not_mem hx.bm, adopt_of_not_mem hpm, hctx.1, hpa, hpb, hpa.symm, hpb.symm, hsa, rotated,
      relink] using hq

theorem leftRote_spec (ha : At cmp h c (node l a d (node m b e r))) :
    Returns (mgrbtreeLeftRote (c.plug (node l a d (node m b e r))).root (some a)) h fun root' h' =>
      root' = (c.plug (node (node l a d m) b e r)).root ∧
        Rearranged cmp h (c.plug (node l a d (node m b e r))) h' c (node (node l a d m) b e r) := by
  have hx := ha.apart
  obtain ⟨-, htl, -, htm, htr⟩ := ha.tree
  refine leftRote_writes ha
    ⟨rfl, ha.rotate_left (by simp [rotated]) (by simp [rotated, hx.ab.symm]) ?_ ?_ ?_ ?_, by simp [Ctx.inorder_plug], ?_⟩
  · exact rotated_side hx.al hx.bl hx.lm hx.lc htl
  · exact rotated_mid hx htm
  · exact rotated_side hx.ar hx.br (List.disjoint_comm.1 hx.mr) hx.rc htr
  · exact rotated_ctx hx ha.ctx
  · exact rotated_agree (by simp) (by simp) (by simp +contextual)

/-! ## Right -/

theorem rightRote_writes (ha : At cmp h c (node (node l b e m) a d r)) {Q : Ptr A → Heap A (MgrbtreeT A) → Prop}
    (hq : Q (c.plug (node l b e (node m a d r))).root
      (rotated h c m a b ⟨d, c.parent, m.root, r.root, cmp⟩ ⟨e, c.parent, l.root, m.root, cmp⟩
        ⟨e, c.parent, l.root, some a, cmp⟩ ⟨d, some b, m.root, r.root, cmp⟩)) :
    Returns (mgrbtreeRightRote (c.plug (node (node l b e m) a d r)).root (some a)) h Q := by
  have hx := ha.apart'
  obtain ⟨hta, ⟨htb, -, htm⟩, -⟩ := ha.tree
  have hctx := ha.ctx
  have hadopt := fun v => returns_adopt (treeAt_update v hx.am htm)
  cases c with
  | top =>
    simpa [mgrbtreeRightRote, isLchild, hta, htb, hx.ab, hx.ab.symm, hadopt, adopt_of_not_mem hx.am,
      adopt_of_not_mem hx.bm, rotated, relink] using hq
  | left p f s up =>
    obtain ⟨hpa, hpb, hpm⟩ := hx.parent rfl
    have hr : (up.plug (node (node l b e (node m a d r)) p f s)).root =
      (up.plug (node (node (node l b e m) a d r) p f s)).root := Ctx.root_plug up rfl
    rw [Ctx.plug_left, hr] at hq
    simpa [mgrbtreeRightRote, isLchild, hta, htb, hx.ab, hx.ab.symm, hadopt, adopt_of_not_mem hx.am,
      adopt_of_not_mem hx.bm, adopt_of_not_mem hpm, hctx.1, hpa, hpb, hpa.symm, hpb.symm, rotated, relink] using hq
  | right s p f up =>
    obtain ⟨hpa, hpb, hpm⟩ := hx.parent rfl
    have hsa : s.root ≠ some a := fun e => hx.ac (by simp [mem_of_root e])
    have hr : (up.plug (node s p f (node l b e (node m a d r)))).root =
      (up.plug (node s p f (node (node l b e m) a d r))).root := Ctx.root_plug up rfl
    rw [Ctx.plug_right, hr] at hq
    simpa [mgrbtreeRightRote, isLchild, hta, htb, hx.ab, hx.ab.symm, hadopt, adopt_of_not_mem hx.am,
      adopt_of_not_mem hx.bm, adopt_of_not_mem hpm, hctx.1, hpa, hpb, hpa.symm, hpb.symm, hsa, rotated,
      relink] using hq

theorem rightRote_spec (ha : At cmp h c (node (node l b e m) a d r)) :
    Returns (mgrbtreeRightRote (c.plug (node (node l b e m) a d r)).root (some a)) h fun root' h' =>
      root' = (c.plug (node l b e (node m a d r))).root ∧
        Rearranged cmp h (c.plug (node (node l b e m) a d r)) h' c (node l b e (node m a d r)) := by
  have hx := ha.apart'
  obtain ⟨-, ⟨-, htl, htm⟩, htr⟩ := ha.tree
  refine rightRote_writes ha
    ⟨rfl, ha.rotate_right (by simp [rotated]) (by simp [rotated, hx.ab.symm]) ?_ ?_ ?_ ?_, by simp [Ctx.inorder_plug], ?_⟩
  · exact rotated_side hx.al hx.bl hx.lm hx.lc htl
  · exact rotated_mid hx htm
  · exact rotated_side hx.ar hx.br (List.disjoint_comm.1 hx.mr) hx.rc htr
  · exact rotated_ctx hx ha.ctx
  · exact rotated_agree (by simp) (by simp) (by simp +contextual)

end MgStd.RbTree
