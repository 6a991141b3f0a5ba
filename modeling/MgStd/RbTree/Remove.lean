import MgStd.RbTree.Insert
import MgStd.RbTree.RemoveFixup
/-!
# Removal

`__mgrbtree_remove_node_` takes out the node, or its successor which then
takes the node's place, and mends the colours. It keeps the parent of the gap
in `x_parent`; when the successor is the right child of the node itself that is
the removed node, and the fix-up of a black successor without children never
ends.
-/

namespace MgStd.RbTree

open MgStd.Lib BinTree

variable {A : Type} [DecidableEq A] {cmp : A → A → Int} {h : Heap A (MgrbtreeT A)}
  {c ci : ColorCtx A} {l r t x : ColorTree A} {a y z : A} {d e : MgrbtreeColor} {n : Nat}

/-! ## Taking nodes out -/

theorem spliceOut_spec (ha : At cmp h c (node l z d r)) (hx : l = nil ∧ r = x ∨ l = x ∧ r = nil) :
    Returns (spliceOut (c.plug (node l z d r)).root (some z) x.root) h fun q h' =>
      q = ((c.plug x).root, c.parent) ∧ h' = relink (adopt h x.root c.parent) c x.root := by
  have hself := ha.self
  have hxt : ∃ q, TreeAt cmp h q x := by
    rcases hx with ⟨-, rfl⟩ | ⟨rfl, -⟩
    · exact ⟨_, ha.tree.2.2⟩
    · exact ⟨_, ha.tree.2.1⟩
  have hzx : z ∉ x.inorder := by
    rcases hx with ⟨-, rfl⟩ | ⟨rfl, -⟩
    · exact (at_right.2 ha).not_mem (by simp)
    · exact (at_left.2 ha).not_mem (by simp)
  have hpx : ∀ p, c.parent = some p → p ∉ x.inorder := by
    intro p hp hpx
    refine ha.not_mem (Ctx.parent_mem hp) ?_
    rcases hx with ⟨-, rfl⟩ | ⟨rfl, -⟩ <;> simp [hpx]
  have hpz : ∀ p, c.parent = some p → z ≠ p := fun p hp e => ha.not_mem (Ctx.parent_mem hp) (by simp [e])
  obtain ⟨q, hxt⟩ := hxt
  have hadopt : ∀ Q, Returns (whenNode x.root do setParent x.root (← parentOf (some z))) h Q ↔
      Q () (adopt h x.root c.parent) := by
    cases x with
    | nil => simp [adopt]
    | node _ b _ _ =>
      simp [adopt, hself, hxt.1]
  cases c with
  | top => simp [spliceOut, hadopt, hself, adopt_of_not_mem hzx, relink]
  | left p f s up =>
    have hroot : (up.plug (node x p f s)).root = (up.plug (node (node l z d r) p f s)).root := Ctx.root_plug up rfl
    simp [spliceOut, hadopt, hself, adopt_of_not_mem hzx, isLchild, adopt_of_not_mem (hpx p rfl), (at_left.1 ha).self,
      hpz p rfl, relink, hroot]
  | right s p f up =>
    have hroot : (up.plug (node s p f x)).root = (up.plug (node s p f (node l z d r))).root := Ctx.root_plug up rfl
    have hzs : z ∉ s.inorder := (at_left.2 (at_right.1 ha)).not_mem (by simp)
    have hsz : s.root ≠ some z := fun e => hzs (mem_of_root e)
    simp [spliceOut, hadopt, hself, adopt_of_not_mem hzx, isLchild, adopt_of_not_mem (hpx p rfl), (at_right.1 ha).self,
      hpz p rfl, relink, hroot, hsz]

theorem handOver_spec {q : Ptr A} (hz : h z = some ⟨d, q, l.root, r.root, cmp⟩) (hl : TreeAt cmp h (some z) l)
    (hr : TreeAt cmp h (some z) r) (hzl : z ∉ l.inorder) (hzr : z ∉ r.inorder) (hlr : l.inorder.Disjoint r.inorder)
    (Q : Unit → Heap A (MgrbtreeT A) → Prop) :
    Returns (handOver (some y) (some z)) h Q ↔ Q ()
      (Function.update (adopt (adopt h l.root (some y)) r.root (some y)) z (some ⟨.mgBlack, none, none, none, cmp⟩)) := by
  have hleft : ∀ Q, Returns (whenNode l.root do setParent (← lchildOf (some z)) (some y)) h Q ↔
      Q () (adopt h l.root (some y)) := by
    cases l with
    | nil => simp [adopt]
    | node _ b _ _ => simp [adopt, hz, hl.1]
  have hz' : adopt h l.root (some y) z = some ⟨d, q, l.root, r.root, cmp⟩ := by rw [adopt_of_not_mem hzl, hz]
  have hr' := treeAt_adopt_of_disjoint (p := some y) (List.disjoint_comm.1 hlr) hr
  have hright : ∀ Q, Returns (whenNode r.root do setParent (← rchildOf (some z)) (some y)) (adopt h l.root (some y)) Q ↔
      Q () (adopt (adopt h l.root (some y)) r.root (some y)) := by
    cases r with
    | nil => simp [adopt]
    | node _ b _ _ => simp [hz', hr'.1, adopt_some hr'.1]
  have hz'' : adopt (adopt h l.root (some y)) r.root (some y) z = some ⟨d, q, l.root, r.root, cmp⟩ := by
    rw [adopt_of_not_mem hzr, hz']
  simp [handOver, hz, hleft, hz', hright, hz'', mgrbtreeInit]

theorem takePlace_writes {m : MgrbtreeT A} (ha : At cmp h c (node l z d r)) (hy : y ∉ (c.plug (node l z d r)).inorder)
    (hm : h y = some m) (hmc : m.cmp_func = cmp) {Q : Ptr A → Heap A (MgrbtreeT A) → Prop}
    (hq : Q (c.plug (node l y d r)).root (Function.update
      (replaced h c l r y ⟨d, c.parent, l.root, r.root, cmp⟩) z (some ⟨.mgBlack, none, none, none, cmp⟩))) :
    Returns (takePlace (c.plug (node l z d r)).root (some y) (some z)) h Q := by
  have hself := ha.self
  have hn := ha.nodup
  simp only [Ctx.mem_inorder_plug, inorder_node, List.mem_append, List.mem_cons, not_or] at hy
  simp only [inorder_node, List.nodup_append', List.nodup_cons, List.disjoint_append_left, List.disjoint_cons_left,
    List.disjoint_cons_right] at hn
  obtain ⟨⟨hyl, hyz, hyr⟩, hyc⟩ := hy
  obtain ⟨⟨-, ⟨hzr, -⟩, hzl, hlr⟩, -, hlc, hzc, hrc⟩ := hn
  have hover : ∀ h₁ : Heap A (MgrbtreeT A), (∀ x ∈ (node l z d r).inorder, h₁ x = h x) → ∀ q,
      (Returns (handOver (some y) (some z)) h₁ q ↔ q () (Function.update
        (adopt (adopt h₁ l.root (some y)) r.root (some y)) z (some ⟨.mgBlack, none, none, none, cmp⟩))) := by
    intro h₁ hag q
    obtain ⟨hz, hl, hr⟩ := ha.tree.frame hag
    exact handOver_spec hz hl hr hzl hzr hlr q
  have hyn : ∀ v, ∀ x ∈ (node l z d r).inorder, Function.update h y v x = h x := by
    intro v x hx
    refine Function.update_of_ne ?_ _ _
    rintro rfl
    simp_all
  have hpn : ∀ p, c.parent = some p → ∀ v w, ∀ x ∈ (node l z d r).inorder,
      Function.update (Function.update h y v) p w x = h x := by
    intro p hp v w x hx
    rw [Function.update_of_ne, hyn v x hx]
    rintro rfl
    exact ha.not_mem (Ctx.parent_mem hp) hx
  cases c with
  | top =>
    simp [takePlace, hself, hm, Ne.symm hyz, hmc, hover _ (hyn _)]
    exact hq
  | left p f s up =>
    have hp := (at_left.1 ha).self
    have hyp : p ≠ y := fun e => hyc (by simp [e])
    have hroot : (up.plug (node (node l z d r) p f s)).root = (up.plug (node (node l y d r) p f s)).root :=
      Ctx.root_plug up rfl
    simp [takePlace, hself, hm, Ne.symm hyz, hmc, hp, hyp, isLchild, hover _ (hpn p rfl _ _), hroot]
    simpa [replaced, relink, hp, hyp] using hq
  | right s p f up =>
    have hp := (at_right.1 ha).self
    have hyp : p ≠ y := fun e => hyc (by simp [e])
    have hzs : z ∉ s.inorder := (at_left.2 (at_right.1 ha)).not_mem (by simp)
    have hsz : s.root ≠ some z := fun e => hzs (mem_of_root e)
    have hroot : (up.plug (node s p f (node l z d r))).root = (up.plug (node s p f (node l y d r))).root :=
      Ctx.root_plug up rfl
    simp [takePlace, hself, hm, Ne.symm hyz, hmc, hp, hyp, hsz, isLchild, hover _ (hpn p rfl _ _), hroot]
    simpa [replaced, relink, hp, hyp] using hq

theorem takePlace_spec {m : MgrbtreeT A} (ha : At cmp h c (node l z d r)) (hy : y ∉ (c.plug (node l z d r)).inorder)
    (hm : h y = some m) (hmc : m.cmp_func = cmp) :
    Returns (takePlace (c.plug (node l z d r)).root (some y) (some z)) h fun root' h' =>
      root' = (c.plug (node l y d r)).root ∧ At cmp h' c (node l y d r) ∧
        h' z = some ⟨.mgBlack, none, none, none, cmp⟩ ∧ Agree (y :: (c.plug (node l z d r)).inorder) h h' := by
  have hz : z ∉ (node l y d r).inorder ∧ z ∉ c.nodes := by
    have hn := ha.nodup
    simp only [inorder_node, List.nodup_append', List.nodup_cons, List.disjoint_append_left, List.disjoint_cons_left,
      List.disjoint_cons_right] at hn
    obtain ⟨⟨-, ⟨hzr, -⟩, hzl, -⟩, -, -, hzc, -⟩ := hn
    have hyz : z ≠ y := fun e => hy (Ctx.mem_inorder_plug.2 (.inl (by simp [e])))
    exact ⟨by simp [hzl, hzr, hyz], hzc⟩
  refine takePlace_writes ha hy hm hmc ⟨rfl, (ha.replace hy).frame fun x hx => ?_, by simp, fun x hx => ?_⟩
  · refine Function.update_of_ne ?_ _ _
    rintro rfl
    rcases Ctx.mem_inorder_plug.1 hx with hx | hx
    · exact hz.1 hx
    · exact hz.2 hx
  · simp only [List.mem_cons, Ctx.mem_inorder_plug, inorder_node, List.mem_append, not_or] at hx
    obtain ⟨hxy, ⟨hxl, hxz, hxr⟩, hxc⟩ := hx
    rw [Function.update_of_ne hxz, replaced_of_not_mem hxy hxc hxl hxr]

/-! ## The successor -/

/-- The walk stands at `s`, and no node of `t` comes before those of `s`. -/
def LeftmostInv (h : Heap A (MgrbtreeT A)) (t : ColorTree A) (k : Nat) (q : Ptr A) (h' : Heap A (MgrbtreeT A)) : Prop :=
  h' = h ∧ ∃ (ci : ColorCtx A) (s : ColorTree A), ci.plug s = t ∧ ci.before = [] ∧ s ≠ nil ∧ q = s.root ∧ s.size = k

omit [DecidableEq A] in
theorem leftmost_spec (ha : At cmp h c t) (hne : t ≠ nil) {fuel : Nat} (hf : t.size < fuel) :
    Returns (loop leftmostRound fuel t.root) h fun q h' => h' = h ∧ ∃ (ci : ColorCtx A) (y : A) (e : MgrbtreeColor)
      (x : ColorTree A), ci.plug (node nil y e x) = t ∧ ci.before = [] ∧ q = some y := by
  refine returns_loop (LeftmostInv h t) ?_ fuel t.size _ h ⟨rfl, .top, t, rfl, rfl, hne, rfl, rfl⟩ hf
  rintro k q _ ⟨rfl, ci, s, rfl, hb, hs, rfl, rfl⟩
  obtain _ | ⟨s₁, y, e, x⟩ := s
  · exact absurd rfl hs
  have hself := (at_app.2 ha).self
  cases s₁ with
  | nil =>
    have hend : ∃ (ci' : ColorCtx A) (y' : A) (e' : MgrbtreeColor) (x' : ColorTree A),
      ci'.plug (node nil y' e' x') = ci.plug (node nil y e x) ∧ ci'.before = [] ∧ some y = some y' :=
      ⟨ci, y, e, x, rfl, hb, rfl⟩
    simpa [leftmostRound, hself] using hend
  | node l a d r =>
    simp [leftmostRound, hself]
    refine ⟨(node l a d r).size, by simp only [size]; omega, rfl, .left y e x ci, node l a d r, rfl, hb, by simp, rfl, rfl⟩

/-! ## Colours -/

omit [DecidableEq A] in
/-- The colours do not depend on the addresses. -/
theorem RedBlack.readdress (h : RedBlack (c.plug (node l z d r))) (y : A) : RedBlack (c.plug (node l y d r)) := by
  obtain ⟨n, hc, ht, hp⟩ := h.place
  refine redBlack_plug hc ?_ hp
  cases d <;> simpa using ht

/-- What is left at a place from which a node of colour `d` is gone. -/
def Gap (c : ColorCtx A) (x : ColorTree A) : MgrbtreeColor → Prop
  | .mgRed => RedBlack (c.plug x)
  | .mgBlack => ∃ n, Short x n ∧ CtxRb c (n + 1)

omit [DecidableEq A] in
theorem RedBlack.gap (h : RedBlack (c.plug (node l z d r))) (hx : l = nil ∧ r = x ∨ l = x ∧ r = nil) : Gap c x d := by
  obtain ⟨n, hc, ht, hp⟩ := h.place
  cases d with
  | mgRed =>
    obtain ⟨⟨hlc, hrc⟩, hl, hr⟩ := rb_red.1 ht
    rcases hx with ⟨-, rfl⟩ | ⟨rfl, -⟩
    · exact redBlack_plug hc hr (by simp [hrc])
    · exact redBlack_plug hc hl (by simp [hlc])
  | mgBlack =>
    obtain ⟨k, rfl, hl, hr⟩ := rb_black.1 ht
    rcases hx with ⟨-, rfl⟩ | ⟨rfl, -⟩
    · exact ⟨k, hr.short, hc⟩
    · exact ⟨k, hl.short, hc⟩

/-- The last step of a removal: a node of colour `d` is gone from the place `c`. -/
theorem mend_spec (ha : At cmp h c x) (hgap : Gap c x d) {np : Ptr A}
    (hnp : d = .mgBlack → x = nil → np = c.parent) {fuel : Nat} (hf : c.depth + 2 < fuel)
    {Q : Ptr A → Heap A (MgrbtreeT A) → Prop}
    (hq : ∀ T h', Rearranged cmp h (c.plug x) h' .top T → RedBlack T → Q T.root h') :
    (d = .mgBlack → Returns (mgrbtreeFixupRemove fuel (c.plug x).root np x.root) h Q) ∧
      (¬ d = .mgBlack → Q (c.plug x).root h) := by
  cases d with
  | mgRed => exact ⟨nofun, fun _ => hq _ _ ⟨at_plug.1 ha, rfl, .refl _ _⟩ hgap⟩
  | mgBlack =>
    obtain ⟨n, hx, hc⟩ := hgap
    refine ⟨fun _ => (mgrbtreeFixupRemove_spec ha hx hc (hnp rfl) hf).mono ?_, fun e => absurd rfl e⟩
    rintro root' h' ⟨T, rfl, hr, hrb⟩
    exact hq T h' hr hrb

/-! ## One removal -/

/-- `z` is gone from the tree `T`, and the rest is a red-black tree in order. -/
def Removed (cmp : A → A → Int) (T : ColorTree A) (z : A) (root' : Ptr A) (h' : Heap A (MgrbtreeT A)) : Prop :=
  ∃ T', root' = T'.root ∧ RbAt cmp h' T' ∧ ∃ L R, T.inorder = L ++ z :: R ∧ T'.inorder = L ++ R

/-- The right child of `z` is a black node without children, and `z` has a left child too. -/
def LoneSuccessor (h : Heap A (MgrbtreeT A)) (z : A) : Prop :=
  ∃ n y m, h z = some n ∧ n.lchild ≠ none ∧ n.rchild = some y ∧ h y = some m ∧ m.data = .mgBlack ∧
    m.lchild = none ∧ m.rchild = none

omit [DecidableEq A] in
theorem Removed.of_rearranged {T T' : ColorTree A} {h₁ h' : Heap A (MgrbtreeT A)} {L R : List A} (hT : RbAt cmp h T)
    (hL : T.inorder = L ++ z :: R) (hR : (c.plug x).inorder = L ++ R) (hag : Agree T.inorder h h₁)
    (hr : Rearranged cmp h₁ (c.plug x) h' .top T') (hrb : RedBlack T') :
    Removed cmp T z T'.root h' ∧ Agree T.inorder h h' := by
  have hseq : T'.inorder = L ++ R := hr.inorder.trans hR
  have hsub : (L ++ R).Sublist T.inorder := by
    rw [hL]
    exact (List.sublist_cons_self z R).append_left L
  refine ⟨⟨T', rfl, ⟨hr.place, hrb, ?_⟩, L, R, hL, hseq⟩, hag.trans (hr.agree.mono fun y hy => ?_)⟩
  · rw [hseq]
    exact hT.sorted.sublist hsub
  · exact hsub.subset (hR ▸ hy)

/-- The writes of `spliceOut` stay inside the tree. -/
theorem spliceOut_agree (hx : ∀ a ∈ x.inorder, a ∈ (c.plug t).inorder) (p q : Ptr A) :
    Agree (c.plug t).inorder h (relink (adopt h x.root p) c q) := by
  intro a ha
  rw [relink_of_not_mem fun hc => ha (Ctx.mem_inorder_plug.2 (.inr hc)), adopt_of_not_mem fun hax => ha (hx a hax)]

/-- The removal of a node with at most one child. -/
theorem removeNode_single (hT : RbAt cmp h (c.plug (node l z d r))) (hx : l = nil ∨ r = nil)
    {fuel : Nat} (hf : (c.plug (node l z d r)).size + 2 < fuel) :
    Returns (removeNode fuel (c.plug (node l z d r)).root (some z)) h fun root' h' =>
      Removed cmp (c.plug (node l z d r)) z root' h' ∧ Agree (c.plug (node l z d r)).inorder h h' := by
  have ha := at_plug.2 hT.place
  have hself := ha.self
  have hroot : (c.plug (node l z d r)).root ≠ none := c.root_plug_ne_none (by simp)
  have hdepth : c.depth + 2 < fuel := by
    have h₁ := c.depth_le
    rw [Ctx.size_plug] at hf
    omega
  have hmain : ∀ x : ColorTree A, l = nil ∧ r = x ∨ l = x ∧ r = nil →
      Returns (spliceOut (c.plug (node l z d r)).root (some z) x.root) h fun q h₁ => ∃ m, h₁ z = some m ∧
        (m.data = .mgBlack → Returns (mgrbtreeFixupRemove fuel q.1 q.2 x.root) h₁ fun root' h' =>
          Removed cmp (c.plug (node l z d r)) z root' h' ∧ Agree (c.plug (node l z d r)).inorder h h') ∧
        (¬ m.data = .mgBlack →
          Removed cmp (c.plug (node l z d r)) z q.1 h₁ ∧ Agree (c.plug (node l z d r)).inorder h h₁) := by
    intro x hx
    have hsub : ∀ a ∈ x.inorder, a ∈ (node l z d r).inorder ∧ a ≠ z := by
      rcases hx with ⟨-, rfl⟩ | ⟨rfl, -⟩ <;> intro a hax
      · exact ⟨by simp [hax], fun e => (at_right.2 ha).not_mem (p := z) (by simp) (e ▸ hax)⟩
      · exact ⟨by simp [hax], fun e => (at_left.2 ha).not_mem (p := z) (by simp) (e ▸ hax)⟩
    refine (spliceOut_spec ha hx).mono ?_
    rintro _ _ ⟨rfl, rfl⟩
    refine ⟨⟨d, c.parent, l.root, r.root, cmp⟩, ?_, ?_⟩
    · rw [relink_of_not_mem, adopt_of_not_mem, hself]
      · exact fun hzx => (hsub z hzx).2 rfl
      · exact fun hzc => ha.not_mem hzc (by simp)
    · refine mend_spec (ha.unlink hx) (hT.red_black.gap hx) (fun _ _ => rfl) hdepth fun T' h' hr hrb => ?_
      refine Removed.of_rearranged (L := c.before ++ l.inorder) (R := r.inorder ++ c.after) hT ?_ ?_ ?_ hr hrb
      · simp [Ctx.inorder_plug]
      · rcases hx with ⟨rfl, rfl⟩ | ⟨rfl, rfl⟩ <;> simp [Ctx.inorder_plug]
      · exact spliceOut_agree (fun a hax => Ctx.mem_inorder_plug.2 (.inl (hsub a hax).1)) _ _
  by_cases hl : l = nil
  · subst hl
    simp [removeNode, hself, hroot]
    exact hmain r (.inl ⟨rfl, rfl⟩)
  · obtain rfl : r = nil := by tauto
    simp [removeNode, hself, hroot, root_eq_none, hl]
    exact hmain l (.inr ⟨rfl, rfl⟩)

/-- The successor `y` of `z` goes from its place and takes that of `z`. The fix-up starts at the parent that
`y` had, which is in the tree unless it is `z`. -/
theorem removeNode_successor (hT : RbAt cmp h (c.plug (node l z d (ci.plug (node nil y e x))))) (hb : ci.before = [])
    (hlone : e = .mgBlack → x = nil → ci ≠ .top) {fuel : Nat}
    (hf : (c.plug (node l z d (ci.plug (node nil y e x)))).size + 2 < fuel) :
    Returns (spliceOut (c.plug (node l z d (ci.plug (node nil y e x)))).root (some y) x.root) h fun q h₁ =>
      ∃ m, h₁ y = some m ∧ Returns (takePlace q.1 (some y) (some z)) h₁ fun root' h₂ =>
        (m.data = .mgBlack → Returns (mgrbtreeFixupRemove fuel root' q.2 x.root) h₂ fun root' h' =>
          Removed cmp (c.plug (node l z d (ci.plug (node nil y e x)))) z root' h' ∧
            Agree (c.plug (node l z d (ci.plug (node nil y e x)))).inorder h h') ∧
        (¬ m.data = .mgBlack → Removed cmp (c.plug (node l z d (ci.plug (node nil y e x)))) z root' h₂ ∧
          Agree (c.plug (node l z d (ci.plug (node nil y e x)))).inorder h h₂) := by
  have hcz : At cmp h (ci.app (.right l z d c)) (node nil y e x) := at_app.2 (at_right.2 (at_plug.2 hT.place))
  have hplug : ∀ w s, (ci.app (.right l w d c)).plug s = c.plug (node l w d (ci.plug s)) := fun w s => by simp
  have hyx : y ∉ x.inorder := (at_right.2 hcz).not_mem (by simp)
  have hyc : y ∉ (ci.app (.right l z d c)).nodes := fun hy => hcz.not_mem hy (by simp)
  have hyT : y ∉ (c.plug (node l z d (ci.plug x))).inorder := by
    rw [← hplug, Ctx.mem_inorder_plug]
    tauto
  have hsplice := spliceOut_spec hcz (.inl ⟨rfl, rfl⟩)
  rw [hplug, hplug] at hsplice
  refine hsplice.mono ?_
  rintro _ h₁ ⟨rfl, hh₁⟩
  have hx₁ : At cmp h₁ (ci.app (.right l z d c)) x := hh₁ ▸ hcz.unlink (.inl ⟨rfl, rfl⟩)
  have hy₁ : h₁ y = some ⟨e, (ci.app (.right l z d c)).parent, none, x.root, cmp⟩ := by
    rw [hh₁, relink_of_not_mem hyc, adopt_of_not_mem hyx]
    exact hcz.self
  refine ⟨_, hy₁, (takePlace_spec (at_right.1 (at_app.1 hx₁)) hyT hy₁ rfl).mono ?_⟩
  rintro _ h₂ ⟨rfl, hat₂, -, hag₂⟩
  have hx₂ : At cmp h₂ (ci.app (.right l y d c)) x := at_app.2 (at_right.2 hat₂)
  have hgap : Gap (ci.app (.right l y d c)) x e := by
    have hrb := hT.red_black.readdress y
    rw [← hplug] at hrb
    exact hrb.gap (.inl ⟨rfl, rfl⟩)
  rw [← hplug]
  refine mend_spec hx₂ hgap ?_ ?_ fun T' h' hr hrb => ?_
  · intro he hx
    obtain ⟨p, hp⟩ : ∃ p, ci.parent = some p := by
      cases ci with
      | top => exact absurd rfl (hlone he hx)
      | left a d r up => exact ⟨a, rfl⟩
      | right l a d up => exact ⟨a, rfl⟩
    rw [Ctx.app_parent hp, Ctx.app_parent hp]
  · have h₁ := (ci.app (.right l y d c)).depth_le
    have h₂ := (ci.app (.right l y d c)).size_plug (node nil y e x)
    rw [hplug, Ctx.size_plug, size] at h₂
    rw [Ctx.size_plug, size] at hf
    omega
  · refine Removed.of_rearranged (L := c.before ++ l.inorder) (R := y :: (ci.plug x).inorder ++ c.after) hT ?_ ?_ ?_ hr hrb
    · simp [Ctx.inorder_plug, hb]
    · simp [Ctx.inorder_plug, hb]
    · rw [hh₁] at hag₂
      refine Agree.trans ?_ (hag₂.mono fun a hax => ?_)
      · rw [← hplug]
        exact spliceOut_agree (fun a hax => Ctx.mem_inorder_plug.2 (.inl (by simp [hax]))) _ _
      · simp only [List.mem_cons, ← hplug, Ctx.mem_inorder_plug] at hax ⊢
        simp only [inorder_node, inorder_nil, List.nil_append, List.mem_cons]
        tauto

/-- The removal of a node with two children, unless the fix-up starts at the removed node. -/
theorem removeNode_double (hT : RbAt cmp h (c.plug (node l z d r))) (hl : l ≠ nil) (hr : r ≠ nil)
    (hlone : ¬ LoneSuccessor h z) {fuel : Nat} (hf : (c.plug (node l z d r)).size + 2 < fuel) :
    Returns (removeNode fuel (c.plug (node l z d r)).root (some z)) h fun root' h' =>
      Removed cmp (c.plug (node l z d r)) z root' h' ∧ Agree (c.plug (node l z d r)).inorder h h' := by
  have ha := at_plug.2 hT.place
  have hself := ha.self
  have hroot : (c.plug (node l z d r)).root ≠ none := c.root_plug_ne_none (by simp)
  have hfr : r.size < fuel := by
    rw [Ctx.size_plug, size] at hf
    omega
  simp [removeNode, hself, hroot, root_eq_none, hl, hr]
  refine (leftmost_spec (at_right.2 ha) hr hfr).mono ?_
  rintro _ h ⟨rfl, ci, y, e, x, rfl, hb, rfl⟩
  have hcz : At cmp h (ci.app (.right l z d c)) (node nil y e x) := at_app.2 (at_right.2 ha)
  have hyself := hcz.self
  have hyz : y ≠ z := by
    have hz := (at_right.2 ha).not_mem (p := z) (by simp)
    rintro rfl
    exact hz (Ctx.mem_inorder_plug.2 (.inl (by simp)))
  simp [hyself, hyz]
  refine removeNode_successor hT hb ?_ hf
  rintro rfl rfl rfl
  exact hlone ⟨_, y, _, hself, by simpa [root_eq_none] using hl, rfl, hyself, rfl, rfl, rfl⟩

/-- Unless the fix-up starts at the removed node, the removal returns a red-black tree in order. -/
theorem removeNode_spec {T : ColorTree A} (hT : RbAt cmp h T) (hz : z ∈ T.inorder) (hlone : ¬ LoneSuccessor h z)
    {fuel : Nat} (hf : T.size + 2 < fuel) :
    Returns (removeNode fuel T.root (some z)) h fun root' h' => Removed cmp T z root' h' ∧ Agree T.inorder h h' := by
  obtain ⟨c, l, d, r, rfl⟩ := Ctx.exists_place hz
  by_cases hl : l = nil
  · exact removeNode_single hT (.inl hl) hf
  by_cases hr : r = nil
  · exact removeNode_single hT (.inr hr) hf
  · exact removeNode_double hT hl hr hlone hf

/-- When the fix-up starts at the removed node, whose links are NULL, it goes round for ever. -/
theorem fixupRemove_loop_stale {m : MgrbtreeT A} {root : Ptr A} (hroot : root ≠ none) (hz : h z = some m)
    (hl : m.lchild = none) (hr : m.rchild = none) (fuel : Nat) :
    loop fixupRemoveRound fuel (root, some z, none) h = .error .fuel := by
  refine loop_diverges ?_ fuel
  have hround : Returns (fixupRemoveRound (root, some z, none)) h fun r h' => r = .inl (root, some z, none) ∧ h' = h := by
    simp [fixupRemoveRound, hroot, hz, hl, hr]
  obtain ⟨_, _, heq, rfl, rfl⟩ := hround
  exact heq

theorem removeNode_stale {T : ColorTree A} (hT : RbAt cmp h T) (hz : z ∈ T.inorder) (hlone : LoneSuccessor h z)
    (fuel : Nat) (Q : Ptr A → Heap A (MgrbtreeT A) → Prop) : ¬ Returns (removeNode fuel T.root (some z)) h Q := by
  obtain ⟨c, l, d, r, rfl⟩ := Ctx.exists_place hz
  have ha := at_plug.2 hT.place
  have hself := ha.self
  have hroot : (c.plug (node l z d r)).root ≠ none := c.root_plug_ne_none (by simp)
  obtain ⟨n, y, m, hn, hnl, hnr, hm, hmd, hml, hmr⟩ := hlone
  obtain rfl := Option.some.inj (hself.symm.trans hn)
  obtain _ | ⟨r₁, y', e, r₂⟩ := r
  · cases hnr
  obtain rfl : y' = y := by simpa using hnr
  have hy := at_right.2 ha
  obtain rfl := Option.some.inj (hy.self.symm.trans hm)
  obtain rfl : e = .mgBlack := hmd
  obtain rfl : r₁ = nil := root_eq_none.1 hml
  obtain rfl : r₂ = nil := root_eq_none.1 hmr
  have hyz : y' ≠ z := fun e => hy.not_mem (p := z) (by simp) (by simp [e])
  have hyc : y' ∉ (Ctx.right l z d c).nodes := fun hc => hy.not_mem hc (by simp)
  have hyT : y' ∉ (c.plug (node l z d nil)).inorder := by
    simp only [Ctx.nodes_right, List.mem_cons, List.mem_append, not_or] at hyc
    simp [Ctx.mem_inorder_plug, hyc]
  intro hret
  simp [removeNode, hself, hroot, hnl] at hret
  cases fuel with
  | zero => simp [loop] at hret
  | succ fuel =>
    rw [returns_loop_succ] at hret
    simp [leftmostRound, hm, hyz] at hret
    obtain ⟨_, h₁, -, ⟨m, hm₁, hret⟩, rfl, hh₁⟩ := hret.and (spliceOut_spec hy (.inl ⟨rfl, rfl⟩))
    have hn₁ : At cmp h₁ (.right l z d c) nil := hh₁ ▸ hy.unlink (.inl ⟨rfl, rfl⟩)
    have hy₁ : h₁ y' = some ⟨.mgBlack, some z, none, none, cmp⟩ := by
      rw [hh₁, relink_of_not_mem hyc, adopt_of_not_mem (by simp)]
      exact hm
    obtain rfl := Option.some.inj (hy₁.symm.trans hm₁)
    obtain ⟨_, h₂, -, hret, rfl, -, hz₂, -⟩ := hret.and (takePlace_spec (at_right.1 hn₁) hyT hy₁ rfl)
    have hloop := fixupRemove_loop_stale (c.root_plug_ne_none (t := node l y' d nil) (by simp)) hz₂ rfl rfl (fuel + 1)
    simp [mgrbtreeFixupRemove, not_returns_of_error hloop] at hret

/-! ## The two entry points -/

/-- What `mgrbtree_remove` promises for a probe `q` with the record `m`. -/
def RemovedMatch (cmp : A → A → Int) (h : Heap A (MgrbtreeT A)) (T : ColorTree A) (q : A) (m : MgrbtreeT A)
    (root' : Ptr A) (h' : Heap A (MgrbtreeT A)) : Prop :=
  (∀ x ∈ T.inorder, cmp x q ≠ 0) ∧ root' = T.root ∧ h' = Function.update h q (some { m with rchild := none }) ∨
    ∃ x ∈ T.inorder, cmp x q = 0 ∧ h' q = some { m with rchild := some x } ∧ Removed cmp T x root' h'

theorem Removed.update_probe {T : ColorTree A} {q x : A} {root' : Ptr A} {h' : Heap A (MgrbtreeT A)}
    (hr : Removed cmp T x root' h') (hq : q ∉ T.inorder) (v : Option (MgrbtreeT A)) :
    Removed cmp T x root' (Function.update h' q v) := by
  obtain ⟨T', rfl, hT', L, R, hL, hR⟩ := hr
  refine ⟨T', rfl, ⟨hT'.place.frame fun y hy => Function.update_of_ne ?_ _ _, hT'.red_black, hT'.sorted⟩, L, R, hL, hR⟩
  rintro rfl
  rw [Ctx.plug_top, hR] at hy
  rw [hL] at hq
  simp_all

theorem mgrbtreeRemove_spec {T : ColorTree A} {q : A} {m : MgrbtreeT A} (hcmp : TotalPreorder cmp) (hT : RbAt cmp h T)
    (hq : q ∉ T.inorder) (hm : h q = some m) (hlone : ∀ x, find cmp q T = some x → ¬ LoneSuccessor h x)
    {fuel : Nat} (hf : T.size + 2 < fuel) :
    Returns (mgrbtreeRemove fuel T.root (some q)) h (RemovedMatch cmp h T q m) := by
  refine (mgrbtreeSearch_spec hT.place q (by omega)).bind ?_
  rintro _ h ⟨rfl, rfl⟩
  cases hx : find cmp q T with
  | none =>
    simp [removeNode, hm]
    exact .inl ⟨find_none hcmp hT.sorted hx, rfl, rfl⟩
  | some x =>
    obtain ⟨hxT, hxq⟩ := find_some hx
    refine (removeNode_spec hT hxT (hlone x hx) hf).bind ?_
    rintro root' h' ⟨hr, hag⟩
    simp [hag q hq, hm]
    exact .inr ⟨x, hxT, hxq, by simp, hr.update_probe hq _⟩

/-- Both removals do what they promise exactly when the node to go does not
have a left child next to a right child that is a black leaf: the fix-up of a
removal of such a node never ends. -/
theorem mgrbtree_remove_iff {T : ColorTree A} (hcmp : TotalPreorder cmp) (hT : RbAt cmp h T) :
    (∀ z ∈ T.inorder, Finishes (fun fuel => mgrbtreeRemoveNode fuel T.root (some z)) h (Removed cmp T z) ↔
      ¬ LoneSuccessor h z) ∧
    ∀ q m, q ∉ T.inorder → h q = some m →
      (Finishes (fun fuel => mgrbtreeRemove fuel T.root (some q)) h (RemovedMatch cmp h T q m) ↔
        ∀ x, find cmp q T = some x → ¬ LoneSuccessor h x) := by
  refine ⟨fun z hz => ⟨fun hfin hlone => ?_, fun hlone => ?_⟩, fun q m hq hm => ⟨fun hfin x hx hlone => ?_, fun hlone => ?_⟩⟩
  · obtain ⟨fuel, hret⟩ := hfin.returns
    exact removeNode_stale hT hz hlone fuel _ hret
  · exact .of_lt fun fuel hf => (removeNode_spec hT hz hlone hf).mono fun _ _ hr => hr.1
  · obtain ⟨n, hret⟩ := hfin
    have hsearch := mgrbtreeSearch_spec hT.place q (show T.size < n + T.size + 1 by omega)
    have hret := hret (n + T.size + 1) (by omega)
    simp only [mgrbtreeRemove, returns_bind] at hret
    obtain ⟨_, _, -, hret, rfl, rfl⟩ := hret.and hsearch
    rw [hx] at hret
    exact removeNode_stale hT (find_some hx).1 hlone _ _ hret
  · exact .of_lt fun fuel hf => mgrbtreeRemove_spec hcmp hT hq hm hlone hf

/-- Three black nodes. -/
def threeBlack : ColorTree Nat := node (node nil 1 .mgBlack nil) 2 .mgBlack (node nil 3 .mgBlack nil)

def threeBlackHeap : Heap Nat (MgrbtreeT Nat)
  | 1 => some ⟨.mgBlack, some 2, none, none, fun a b => (a : Int) - b⟩
  | 2 => some ⟨.mgBlack, none, some 1, some 3, fun a b => (a : Int) - b⟩
  | 3 => some ⟨.mgBlack, some 2, none, none, fun a b => (a : Int) - b⟩
  | _ => none

theorem rbAt_threeBlack : RbAt (fun a b : Nat => (a : Int) - b) threeBlackHeap threeBlack :=
  ⟨⟨by simp [threeBlack, threeBlackHeap], trivial, by simp [threeBlack]⟩,
    redBlack_top.2 ⟨rfl, 2, by simp [threeBlack]⟩, by simp [threeBlack, Sorted]⟩

/-- The root of the tree of three black nodes cannot be removed. -/
theorem mgrbtree_remove_root_diverges :
    RbAt (fun a b : Nat => (a : Int) - b) threeBlackHeap threeBlack ∧ 2 ∈ threeBlack.inorder ∧
      ∀ fuel, ¬ Returns (mgrbtreeRemoveNode fuel threeBlack.root (some 2)) threeBlackHeap fun _ _ => True := by
  have hmem : 2 ∈ threeBlack.inorder := by simp [threeBlack]
  have hlone : LoneSuccessor threeBlackHeap 2 := ⟨_, 3, _, rfl, by simp, rfl, rfl, rfl, rfl, rfl⟩
  exact ⟨rbAt_threeBlack, hmem, fun fuel => removeNode_stale rbAt_threeBlack hmem hlone fuel _⟩

/-- A leaf of the same tree can be removed. -/
theorem mgrbtree_remove_iff_leaf :
    Finishes (fun fuel => mgrbtreeRemoveNode fuel threeBlack.root (some 3)) threeBlackHeap
      (Removed (fun a b : Nat => (a : Int) - b) threeBlack 3) := by
  refine ((mgrbtree_remove_iff (.of_key fun a : Nat => (a : Int)) rbAt_threeBlack).1 3 (by simp [threeBlack])).2 ?_
  rintro ⟨n, y, m, hn, hl, -⟩
  cases hn
  exact hl rfl

end MgStd.RbTree
