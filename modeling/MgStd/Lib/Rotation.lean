import MgStd.Lib.Links
/-!
# Rotations

A rotation at `a` brings the child `b` of `a` to its place: six links, those of
`a` and `b`, of the subtree `m` between them and of the node above. The labels
stay with their nodes.
-/

namespace MgStd.Lib

open BinTree

variable {A D : Type} [DecidableEq A] {cmp : A → A → Int} {h : Heap A (Node A D)} {c : Ctx A D} {l m r : BinTree A D}
  {a b : A} {d e : D}

/-- The left child of `node` takes its place, and is given back. -/
def rotateRight (node : Ptr A) : Prog (Heap A (Node A D)) (Ptr A) := do
  let parent ← parentOf node
  let nl ← lchildOf node
  setLchild node (← rchildOf nl)
  setRchild nl node
  whenNode (← lchildOf node) do setParent (← lchildOf node) node
  setParent nl (← parentOf node)
  setParent node nl
  if parent ≠ none then
    if (← lchildOf parent) = node then setLchild parent nl else setRchild parent nl
  pure nl

/-- The right child of `node` takes its place, and is given back. -/
def rotateLeft (node : Ptr A) : Prog (Heap A (Node A D)) (Ptr A) := do
  let parent ← parentOf node
  let nr ← rchildOf node
  setRchild node (← lchildOf nr)
  setLchild nr node
  whenNode (← rchildOf node) do setParent (← rchildOf node) node
  setParent nr (← parentOf node)
  setParent node nr
  if parent ≠ none then
    if (← lchildOf parent) = node then setLchild parent nr else setRchild parent nr
  pure nr

/-- The heap that a rotation leaves: `b` takes the place of its parent `a`, and `m` changes from `b` to `a`. -/
def relinked (h : Heap A (Node A D)) (c : Ctx A D) (m : BinTree A D) (a b : A) (n₁ n₂ n₃ n₄ : Node A D) : Heap A (Node A D) :=
  relink (Function.update (Function.update (adopt (Function.update (Function.update h a (some n₁)) b (some n₂))
    m.root (some a)) b (some n₃)) a (some n₄)) c (some b)

section Relinked
variable {n₁ n₂ n₃ n₄ : Node A D} {p : Ptr A}

theorem relinked_mid (hx : Apart c l m r a b) (hm : TreeAt cmp h p m) :
    TreeAt cmp (relinked h c m a b n₁ n₂ n₃ n₄) (some a) m :=
  treeAt_relink hx.mc (treeAt_update _ hx.am (treeAt_update _ hx.bm (treeAt_adopt
    (treeAt_update _ hx.bm (treeAt_update _ hx.am hm)) hx.mn)))

theorem relinked_side {t : BinTree A D} (hat : a ∉ t.inorder) (hbt : b ∉ t.inorder)
    (hd : t.inorder.Disjoint m.inorder) (hc : t.inorder.Disjoint c.nodes) (ht : TreeAt cmp h p t) :
    TreeAt cmp (relinked h c m a b n₁ n₂ n₃ n₄) p t :=
  treeAt_relink hc (treeAt_update _ hat (treeAt_update _ hbt (treeAt_adopt_of_disjoint hd
    (treeAt_update _ hbt (treeAt_update _ hat ht)))))

theorem relinked_ctx (hx : Apart c l m r a b) (hc : CtxAt cmp h c p) :
    CtxAt cmp (relinked h c m a b n₁ n₂ n₃ n₄) c (some b) :=
  ctxAt_relink (ctxAt_update _ hx.ac (ctxAt_update _ hx.bc (ctxAt_adopt hx.mc
    (ctxAt_update _ hx.bc (ctxAt_update _ hx.ac hc))))) hx.cn

theorem relinked_agree {t : BinTree A D} (ha : a ∈ t.inorder) (hb : b ∈ t.inorder) (hm : ∀ x ∈ m.inorder, x ∈ t.inorder) :
    Agree (c.plug t).inorder h (relinked h c m a b n₁ n₂ n₃ n₄) := by
  intro x hx
  rw [Ctx.mem_inorder_plug, not_or] at hx
  have hxa : x ≠ a := fun e => hx.1 (e ▸ ha)
  have hxb : x ≠ b := fun e => hx.1 (e ▸ hb)
  simp [relinked, hxa, hxb, relink_of_not_mem hx.2, adopt_of_not_mem fun hxm => hx.1 (hm x hxm)]

end Relinked

theorem rotateRight_writes (ha : At cmp h c (node (node l b e m) a d r)) {Q : Ptr A → Heap A (Node A D) → Prop}
    (hq : Q (some b) (relinked h c m a b ⟨d, c.parent, m.root, r.root, cmp⟩ ⟨e, some a, l.root, some a, cmp⟩
      ⟨e, c.parent, l.root, some a, cmp⟩ ⟨d, some b, m.root, r.root, cmp⟩)) :
    Returns (rotateRight (some a)) h Q := by
  have hx := ha.apart'
  obtain ⟨hta, ⟨htb, -, htm⟩, -⟩ := ha.tree
  have hctx := ha.ctx
  have hadopt : ∀ (d' : D) (p q : Ptr A) w Q, Returns (whenNode m.root do setParent (← lchildOf (some a)) (some a))
      (Function.update (Function.update h a (some ⟨d', p, m.root, q, cmp⟩)) b w) Q ↔
      Q () (adopt (Function.update (Function.update h a (some ⟨d', p, m.root, q, cmp⟩)) b w) m.root (some a)) :=
    fun d' p q w => returns_adopt_read (treeAt_update _ hx.bm (treeAt_update _ hx.am htm)) (by simp [hx.ab]) _
  cases c with
  | top =>
    simpa [rotateRight, hta, htb, hx.ab, hx.ab.symm, hadopt, adopt_of_not_mem hx.am, adopt_of_not_mem hx.bm, relinked,
      relink] using hq
  | left p f s up =>
    obtain ⟨hpa, hpb, hpm⟩ := hx.parent rfl
    simpa [rotateRight, hta, htb, hx.ab, hx.ab.symm, hadopt, adopt_of_not_mem hx.am, adopt_of_not_mem hx.bm,
      adopt_of_not_mem hpm, hctx.1, hpa, hpb, relinked, relink] using hq
  | right s p f up =>
    obtain ⟨hpa, hpb, hpm⟩ := hx.parent rfl
    have hsa : s.root ≠ some a := fun e => hx.ac (by simp [mem_of_root e])
    simpa [rotateRight, hta, htb, hx.ab, hx.ab.symm, hadopt, adopt_of_not_mem hx.am, adopt_of_not_mem hx.bm,
      adopt_of_not_mem hpm, hctx.1, hpa, hpb, hsa, relinked, relink] using hq

theorem rotateRight_spec (ha : At cmp h c (node (node l b e m) a d r)) :
    Returns (rotateRight (some a)) h fun q h' => q = some b ∧
      Rearranged cmp h (c.plug (node (node l b e m) a d r)) h' c (node l b e (node m a d r)) := by
  have hx := ha.apart'
  obtain ⟨-, ⟨-, htl, htm⟩, htr⟩ := ha.tree
  refine rotateRight_writes ha ⟨rfl, ha.rotate_right ?_ ?_ ?_ ?_ ?_ ?_, by simp [Ctx.inorder_plug], ?_⟩
  · simp [relinked, relink_of_not_mem hx.ac]
  · simp [relinked, relink_of_not_mem hx.bc, hx.ab.symm]
  · exact relinked_side hx.al hx.bl hx.lm hx.lc htl
  · exact relinked_mid hx htm
  · exact relinked_side hx.ar hx.br (List.disjoint_comm.1 hx.mr) hx.rc htr
  · exact relinked_ctx hx ha.ctx
  · exact relinked_agree (by simp) (by simp) (by simp +contextual)

theorem rotateLeft_writes (ha : At cmp h c (node l a d (node m b e r))) {Q : Ptr A → Heap A (Node A D) → Prop}
    (hq : Q (some b) (relinked h c m a b ⟨d, c.parent, l.root, m.root, cmp⟩ ⟨e, some a, some a, r.root, cmp⟩
      ⟨e, c.parent, some a, r.root, cmp⟩ ⟨d, some b, l.root, m.root, cmp⟩)) :
    Returns (rotateLeft (some a)) h Q := by
  have hx := ha.apart
  obtain ⟨hta, -, htb, htm, -⟩ := ha.tree
  have hctx := ha.ctx
  have hadopt : ∀ (d' : D) (p q : Ptr A) w Q, Returns (whenNode m.root do setParent (← rchildOf (some a)) (some a))
      (Function.update (Function.update h a (some ⟨d', p, q, m.root, cmp⟩)) b w) Q ↔
      Q () (adopt (Function.update (Function.update h a (some ⟨d', p, q, m.root, cmp⟩)) b w) m.root (some a)) :=
    fun d' p q w => returns_adopt_read (treeAt_update _ hx.bm (treeAt_update _ hx.am htm)) (by simp [hx.ab]) _
  cases c with
  | top =>
    simpa [rotateLeft, hta, htb, hx.ab, hx.ab.symm, hadopt, adopt_of_not_mem hx.am, adopt_of_not_mem hx.bm, relinked,
      relink] using hq
  | left p f s up =>
    obtain ⟨hpa, hpb, hpm⟩ := hx.parent rfl
    simpa [rotateLeft, hta, htb, hx.ab, hx.ab.symm, hadopt, adopt_of_not_mem hx.am, adopt_of_not_mem hx.bm,
      adopt_of_not_mem hpm, hctx.1, hpa, hpb, relinked, relink] using hq
  | right s p f up =>
    obtain ⟨hpa, hpb, hpm⟩ := hx.parent rfl
    have hsa : s.root ≠ some a := fun e => hx.ac (by simp [mem_of_root e])
    simpa [rotateLeft, hta, htb, hx.ab, hx.ab.symm, hadopt, adopt_of_not_mem hx.am, adopt_of_not_mem hx.bm,
      adopt_of_not_mem hpm, hctx.1, hpa, hpb, hsa, relinked, relink] using hq

theorem rotateLeft_spec (ha : At cmp h c (node l a d (node m b e r))) :
    Returns (rotateLeft (some a)) h fun q h' => q = some b ∧
      Rearranged cmp h (c.plug (node l a d (node m b e r))) h' c (node (node l a d m) b e r) := by
  have hx := ha.apart
  obtain ⟨-, htl, -, htm, htr⟩ := ha.tree
  refine rotateLeft_writes ha ⟨rfl, ha.rotate_left ?_ ?_ ?_ ?_ ?_ ?_, by simp [Ctx.inorder_plug], ?_⟩
  · simp [relinked, relink_of_not_mem hx.ac]
  · simp [relinked, relink_of_not_mem hx.bc, hx.ab.symm]
  · exact relinked_side hx.al hx.bl hx.lm hx.lc htl
  · exact relinked_mid hx htm
  · exact relinked_side hx.ar hx.br (List.disjoint_comm.1 hx.mr) hx.rc htr
  · exact relinked_ctx hx ha.ctx
  · exact relinked_agree (by simp) (by simp) (by simp +contextual)

end MgStd.Lib
