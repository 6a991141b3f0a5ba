import MgStd.RbTree.Colors
/-!
# The insertion fix-up

The loop of `fixup_insert_mgrbtree_t` runs on a tree that is red-black but for
the colour of `node`, a red node whose parent may be red. Each round moves
`node` up, so the loop ends within the depth of `node`.
-/

namespace MgStd.RbTree

open MgStd.Lib BinTree

variable {A : Type} [DecidableEq A] {cmp : A → A → Int} {h : Heap A (MgrbtreeT A)}
  {c up : ColorCtx A} {l r s t u : ColorTree A} {a g p x z : A} {d : MgrbtreeColor} {n : Nat}

/-! ## Tests on a node -/

omit [DecidableEq A] in
@[simp] theorem returns_isRed_null (Q : Bool → Heap A (MgrbtreeT A) → Prop) :
    Returns (isRed none) h Q ↔ Q false h := by simp [isRed]

omit [DecidableEq A] in
@[simp] theorem returns_isRed_some (Q : Bool → Heap A (MgrbtreeT A) → Prop) :
    Returns (isRed (some a)) h Q ↔ ∃ m, h a = some m ∧ Q (decide (m.data = .mgRed)) h := by simp [isRed]

omit [DecidableEq A] in
@[simp] theorem returns_isBlack_null (Q : Bool → Heap A (MgrbtreeT A) → Prop) :
    Returns (isBlack none) h Q ↔ Q true h := by simp [isBlack]

omit [DecidableEq A] in
@[simp] theorem returns_isBlack_some (Q : Bool → Heap A (MgrbtreeT A) → Prop) :
    Returns (isBlack (some a)) h Q ↔ ∃ m, h a = some m ∧ Q (decide (m.data = .mgBlack)) h := by simp [isBlack]

omit [DecidableEq A] in
theorem returns_isRed {q : Ptr A} (ht : TreeAt cmp h q t) (Q : Bool → Heap A (MgrbtreeT A) → Prop) :
    Returns (isRed t.root) h Q ↔ Q (decide (color t = .mgRed)) h := by
  cases t with
  | nil => simp
  | node l a d r => simp [ht.1]; rfl

omit [DecidableEq A] in
theorem returns_isBlack {q : Ptr A} (ht : TreeAt cmp h q t) (Q : Bool → Heap A (MgrbtreeT A) → Prop) :
    Returns (isBlack t.root) h Q ↔ Q (decide (color t = .mgBlack)) h := by
  cases t with
  | nil => simp
  | node l a d r => simp [ht.1]; rfl

/-! ## The cases -/

theorem insertCase3_spec (ha : At cmp h (.left p .mgRed s (.left g .mgBlack u up)) (node l z d r)) :
    Returns (insertCase3 (up.plug (node (node (node l z d r) p .mgRed s) g .mgBlack u)).root (some z)) h
      fun root' h' => root' = (up.plug (node (node l z d r) p .mgBlack (node s g .mgRed u))).root ∧
        Rearranged cmp h (up.plug (node (node (node l z d r) p .mgRed s) g .mgBlack u)) h' up
          (node (node l z d r) p .mgBlack (node s g .mgRed u)) := by
  have hp := at_left.1 ha
  have hg := at_left.1 hp
  have hpt := ha.not_mem (p := p) (by simp)
  have hgt := hp.not_mem (p := g) (by simp)
  simp only [inorder_node, List.mem_append, List.mem_cons, not_or] at hpt hgt
  have hrec := (Rearranged.left.1 ((Rearranged.left.2 hg.rearranged).relabel .mgBlack)).relabel .mgRed
  have hroot : (up.plug (node (node (node l z d r) p .mgRed s) g .mgBlack u)).root =
    (up.plug (node (node (node l z d r) p .mgBlack s) g .mgRed u)).root := Ctx.root_plug up rfl
  rw [hroot]
  simp [insertCase3, ha.self, hp.self, hg.self, hgt, Ne.symm hpt.2.1, Ne.symm hgt.1.2.1, Ne.symm hgt.2.1]
  refine (rightRote_spec hrec.place).mono ?_
  rintro root' h' ⟨rfl, hrot⟩
  exact ⟨rfl, hrec.trans hrot⟩

theorem insertCase6_spec (ha : At cmp h (.right s p .mgRed (.right u g .mgBlack up)) (node l z d r)) :
    Returns (insertCase6 (up.plug (node u g .mgBlack (node s p .mgRed (node l z d r)))).root (some z)) h
      fun root' h' => root' = (up.plug (node (node u g .mgRed s) p .mgBlack (node l z d r))).root ∧
        Rearranged cmp h (up.plug (node u g .mgBlack (node s p .mgRed (node l z d r)))) h' up
          (node (node u g .mgRed s) p .mgBlack (node l z d r)) := by
  have hp := at_right.1 ha
  have hg := at_right.1 hp
  have hpt := ha.not_mem (p := p) (by simp)
  have hgt := hp.not_mem (p := g) (by simp)
  simp only [inorder_node, List.mem_append, List.mem_cons, not_or] at hpt hgt
  have hrec := (Rearranged.right.1 ((Rearranged.right.2 hg.rearranged).relabel .mgBlack)).relabel .mgRed
  have hroot : (up.plug (node u g .mgBlack (node s p .mgRed (node l z d r)))).root =
    (up.plug (node u g .mgRed (node s p .mgBlack (node l z d r)))).root := Ctx.root_plug up rfl
  rw [hroot]
  simp [insertCase6, ha.self, hp.self, hg.self, hgt, Ne.symm hpt.2.1, Ne.symm hgt.2.2.2.1, Ne.symm hgt.2.1]
  refine (leftRote_spec hrec.place).mono ?_
  rintro root' h' ⟨rfl, hrot⟩
  exact ⟨rfl, hrec.trans hrot⟩

/-- Case 1: `z` is a child of `p`, which is the left child of `g`; `x` is the right one. -/
theorem insertRecolor_left {n : MgrbtreeT A} (hp : At cmp h (.left g .mgBlack (node s x .mgRed t) up) (node l p .mgRed r))
    (hz : h z = some n) (hzp : n.parent = some p) (hzm : z ∈ l.inorder ∨ z ∈ r.inorder) (root : Ptr A) :
    Returns (insertRecolor root (some z) (some x)) h fun r' h' => r' = (root, some g) ∧
      Rearranged cmp h (up.plug (node (node l p .mgRed r) g .mgBlack (node s x .mgRed t))) h' up
        (node (node l p .mgBlack r) g .mgRed (node s x .mgBlack t)) := by
  have hg := at_left.1 hp
  have hx := at_right.2 hg
  have hgp := hp.not_mem (p := g) (by simp)
  have hxp := hp.not_mem (p := x) (by simp)
  have hgx := hx.not_mem (p := g) (by simp)
  have hpl := (at_left.2 hp).not_mem (p := p) (by simp)
  have hpr := (at_right.2 hp).not_mem (p := p) (by simp)
  simp only [inorder_node, List.mem_append, List.mem_cons, not_or] at hgp hxp hgx
  have hzne : z ≠ p ∧ z ≠ g ∧ z ≠ x := by
    rcases hzm with hzl | hzr
    · exact ⟨fun e => hpl (e ▸ hzl), fun e => hgp.1 (e ▸ hzl), fun e => hxp.1 (e ▸ hzl)⟩
    · exact ⟨fun e => hpr (e ▸ hzr), fun e => hgp.2.2 (e ▸ hzr), fun e => hxp.2.2 (e ▸ hzr)⟩
  have hrec := (Rearranged.right.1 ((Rearranged.right.2 (Rearranged.left.1
    (hp.rearranged.relabel .mgBlack))).relabel .mgBlack)).relabel .mgRed
  simp only [insertRecolor, returns_bind]
  simpa [hz, hzp, hzne, hp.self, hg.self, hx.self, hgp.2.1, Ne.symm hgp.2.1, hxp.2.1, Ne.symm hxp.2.1, hgx.2.1] using hrec

/-- Case 4: as case 1, with `p` the right child of `g`. -/
theorem insertRecolor_right {n : MgrbtreeT A} (hp : At cmp h (.right (node s x .mgRed t) g .mgBlack up) (node l p .mgRed r))
    (hz : h z = some n) (hzp : n.parent = some p) (hzm : z ∈ l.inorder ∨ z ∈ r.inorder) (root : Ptr A) :
    Returns (insertRecolor root (some z) (some x)) h fun r' h' => r' = (root, some g) ∧
      Rearranged cmp h (up.plug (node (node s x .mgRed t) g .mgBlack (node l p .mgRed r))) h' up
        (node (node s x .mgBlack t) g .mgRed (node l p .mgBlack r)) := by
  have hg := at_right.1 hp
  have hx := at_left.2 hg
  have hgp := hp.not_mem (p := g) (by simp)
  have hxp := hp.not_mem (p := x) (by simp)
  have hgx := hx.not_mem (p := g) (by simp)
  have hpl := (at_left.2 hp).not_mem (p := p) (by simp)
  have hpr := (at_right.2 hp).not_mem (p := p) (by simp)
  simp only [inorder_node, List.mem_append, List.mem_cons, not_or] at hgp hxp hgx
  have hzne : z ≠ p ∧ z ≠ g ∧ z ≠ x := by
    rcases hzm with hzl | hzr
    · exact ⟨fun e => hpl (e ▸ hzl), fun e => hgp.1 (e ▸ hzl), fun e => hxp.1 (e ▸ hzl)⟩
    · exact ⟨fun e => hpr (e ▸ hzr), fun e => hgp.2.2 (e ▸ hzr), fun e => hxp.2.2 (e ▸ hzr)⟩
  have hrec := (Rearranged.left.1 ((Rearranged.left.2 (Rearranged.right.1
    (hp.rearranged.relabel .mgBlack))).relabel .mgBlack)).relabel .mgRed
  simp only [insertRecolor, returns_bind]
  simpa [hz, hzp, hzne, hp.self, hg.self, hx.self, hgp.2.1, Ne.symm hgp.2.1, hxp.2.1, Ne.symm hxp.2.1, hgx.2.1] using hrec

/-! ## One round -/

/-- What a round makes of the place `c` with the red node at the root of `t`:
the loop ends when the parent is not red, and else goes on at a place higher up. -/
def RoundResult (cmp : A → A → Int) (h : Heap A (MgrbtreeT A)) (c : ColorCtx A) (t : ColorTree A) :
    (Ptr A × Ptr A) ⊕ Ptr A → Heap A (MgrbtreeT A) → Prop
  | .inr root, h' => root = (c.plug t).root ∧ h' = h ∧ (c = .top ∨ BlackParent c)
  | .inl (root, z), h' => ∃ c' t' n, root = (c'.plug t').root ∧ z = t'.root ∧
      Rearranged cmp h (c.plug t) h' c' t' ∧ color t' = .mgRed ∧ Rb t' n ∧ CtxRb c' n ∧ c'.depth < c.depth

theorem round_exit (ha : At cmp h c t) (hred : color t = .mgRed) (hc : c = .top ∨ BlackParent c) :
    Returns (fixupInsertRound ((c.plug t).root, t.root)) h (RoundResult cmp h c t) := by
  obtain _ | ⟨l, z, d, r⟩ := t
  · cases hred
  have hz := ha.self
  have hctx := ha.ctx
  cases c with
  | top => simp [fixupInsertRound, hz, RoundResult]
  | left p d s up =>
    obtain rfl : d = .mgBlack := by simpa using hc
    simp [fixupInsertRound, hz, hctx.1, RoundResult]
  | right s p d up =>
    obtain rfl : d = .mgBlack := by simpa using hc
    simp [fixupInsertRound, hz, hctx.1, RoundResult]

/-- Case 1, on either side. -/
theorem round_left_recolor (ha : At cmp h c t) (hred : color t = .mgRed) (ht : Rb t n)
    (hc : c = .left p .mgRed s (.left g .mgBlack u up) ∨ c = .right s p .mgRed (.left g .mgBlack u up))
    (hctx : CtxRb c n) (hu : color u = .mgRed) :
    Returns (fixupInsertRound ((c.plug t).root, t.root)) h (RoundResult cmp h c t) := by
  obtain _ | ⟨l, z, d, r⟩ := t
  · cases hred
  obtain _ | ⟨u₁, x, e, u₂⟩ := u
  · cases hu
  obtain rfl : e = .mgRed := hu
  rcases hc with rfl | rfl
  · have hp := at_left.1 ha
    have hg := at_left.1 hp
    have hx := at_right.2 hg
    simp [fixupInsertRound, ha.self, hp.self, hg.self, hx.self, isLchild]
    refine (insertRecolor_left hp ha.self rfl (.inl (by simp)) _).mono ?_
    rintro r' h' ⟨rfl, hr⟩
    obtain ⟨hs, hsc, -, hu, hup⟩ := hctx
    refine ⟨up, _, n + 1, ?_, ?_, hr, rfl, ?_, hup, ?_⟩
    · exact Ctx.root_plug up rfl
    · rfl
    · simp_all
    · simp only [Ctx.depth]; omega
  · have hp := at_right.1 ha
    have hg := at_left.1 hp
    have hx := at_right.2 hg
    simp [fixupInsertRound, ha.self, hp.self, hg.self, hx.self, isLchild]
    refine (insertRecolor_left hp ha.self rfl (.inr (by simp)) _).mono ?_
    rintro r' h' ⟨rfl, hr⟩
    obtain ⟨hs, hsc, -, hu, hup⟩ := hctx
    refine ⟨up, _, n + 1, ?_, ?_, hr, rfl, ?_, hup, ?_⟩
    · exact Ctx.root_plug up rfl
    · rfl
    · simp_all
    · simp only [Ctx.depth]; omega

/-- Case 4, on either side. -/
theorem round_right_recolor (ha : At cmp h c t) (hred : color t = .mgRed) (ht : Rb t n)
    (hc : c = .left p .mgRed s (.right u g .mgBlack up) ∨ c = .right s p .mgRed (.right u g .mgBlack up))
    (hctx : CtxRb c n) (hu : color u = .mgRed) :
    Returns (fixupInsertRound ((c.plug t).root, t.root)) h (RoundResult cmp h c t) := by
  obtain _ | ⟨l, z, d, r⟩ := t
  · cases hred
  obtain _ | ⟨u₁, x, e, u₂⟩ := u
  · cases hu
  obtain rfl : e = .mgRed := hu
  rcases hc with rfl | rfl
  · have hp := at_left.1 ha
    have hg := at_right.1 hp
    have hx := at_left.2 hg
    have hxp := hp.not_mem (p := x) (by simp)
    simp only [inorder_node, List.mem_append, List.mem_cons, not_or] at hxp
    simp [fixupInsertRound, ha.self, hp.self, hg.self, hx.self, isLchild, hxp.2.1]
    refine (insertRecolor_right hp ha.self rfl (.inl (by simp)) _).mono ?_
    rintro r' h' ⟨rfl, hr⟩
    obtain ⟨hs, hsc, -, hu, hup⟩ := hctx
    refine ⟨up, _, n + 1, ?_, ?_, hr, rfl, ?_, hup, ?_⟩
    · exact Ctx.root_plug up rfl
    · rfl
    · simp_all
    · simp only [Ctx.depth]; omega
  · have hp := at_right.1 ha
    have hg := at_right.1 hp
    have hx := at_left.2 hg
    have hxp := hp.not_mem (p := x) (by simp)
    simp only [inorder_node, List.mem_append, List.mem_cons, not_or] at hxp
    simp [fixupInsertRound, ha.self, hp.self, hg.self, hx.self, isLchild, hxp.2.1]
    refine (insertRecolor_right hp ha.self rfl (.inr (by simp)) _).mono ?_
    rintro r' h' ⟨rfl, hr⟩
    obtain ⟨hs, hsc, -, hu, hup⟩ := hctx
    refine ⟨up, _, n + 1, ?_, ?_, hr, rfl, ?_, hup, ?_⟩
    · exact Ctx.root_plug up rfl
    · rfl
    · simp_all
    · simp only [Ctx.depth]; omega

/-- Case 3 ends below a black node. -/
theorem insertCase3_result {T : ColorTree A} {h₀ : Heap A (MgrbtreeT A)}
    (hr : Rearranged cmp h₀ (c.plug t) h (.left p .mgRed s (.left g .mgBlack u up)) (node l z .mgRed r))
    (ht : Rb (node l z .mgRed r) n) (hs : Rb s n) (hsc : color s = .mgBlack) (hu : Rb u n) (huc : color u = .mgBlack)
    (hup : CtxRb up (n + 1)) (hd : up.depth + 1 < c.depth) (hT : T = node (node (node l z .mgRed r) p .mgRed s) g .mgBlack u) :
    Returns (insertCase3 (up.plug T).root (some z)) h fun root' h' =>
      RoundResult cmp h₀ c t (.inl (root', some z)) h' := by
  subst hT
  refine (insertCase3_spec hr.place).mono ?_
  rintro root' h' ⟨rfl, hrot⟩
  refine ⟨.left p .mgBlack (node s g .mgRed u) up, node l z .mgRed r, n, rfl, rfl, ?_, rfl, ht, ?_, hd⟩
  · exact Rearranged.left.2 (hr.trans hrot)
  · simp [hs, hsc, hu, huc, hup]

/-- Case 3: the parent and `z` are left children and the uncle is black. -/
theorem round_left_rotate (ha : At cmp h (.left p .mgRed s (.left g .mgBlack u up)) t) (hred : color t = .mgRed)
    (ht : Rb t n) (hctx : CtxRb (.left p .mgRed s (.left g .mgBlack u up)) n) (hu : color u = .mgBlack) :
    Returns (fixupInsertRound (((Ctx.left p .mgRed s (.left g .mgBlack u up)).plug t).root, t.root)) h
      (RoundResult cmp h (.left p .mgRed s (.left g .mgBlack u up)) t) := by
  obtain _ | ⟨l, z, d, r⟩ := t
  · cases hred
  obtain rfl : d = .mgRed := hred
  have hp := at_left.1 ha
  have hg := at_left.1 hp
  have hrd := returns_isRed (at_right.2 hg).tree
  have hzs := (at_right.2 hp).not_mem (p := z) (by simp)
  have hsz : s.root ≠ some z := fun e => hzs (mem_of_root e)
  obtain ⟨hs, hsc, -, hub, hup⟩ := hctx
  simp [fixupInsertRound, ha.self, hp.self, hg.self, isLchild, isRchild, hsz, hrd, hu]
  exact insertCase3_result ha.rearranged ht hs hsc hub hu hup (by simp [Ctx.depth]) rfl

/-- Case 2, and case 3 after it: `z` is the right child of a left child, and the uncle is black. -/
theorem round_left_turn (ha : At cmp h (.right s p .mgRed (.left g .mgBlack u up)) t) (hred : color t = .mgRed)
    (ht : Rb t n) (hctx : CtxRb (.right s p .mgRed (.left g .mgBlack u up)) n) (hu : color u = .mgBlack) :
    Returns (fixupInsertRound (((Ctx.right s p .mgRed (.left g .mgBlack u up)).plug t).root, t.root)) h
      (RoundResult cmp h (.right s p .mgRed (.left g .mgBlack u up)) t) := by
  obtain _ | ⟨l, z, d, r⟩ := t
  · cases hred
  obtain rfl : d = .mgRed := hred
  have hp := at_right.1 ha
  have hg := at_left.1 hp
  have hrd := returns_isRed (at_right.2 hg).tree
  obtain ⟨hs, hsc, -, hub, hup⟩ := hctx
  obtain ⟨⟨hlc, hrc⟩, hl, hr⟩ := rb_red.1 ht
  simp [fixupInsertRound, ha.self, hp.self, hg.self, isLchild, isRchild, hrd, hu]
  refine (leftRote_spec hp).mono ?_
  rintro root' h' ⟨rfl, hrot⟩
  have hz := hrot.place
  simp [hz.self]
  exact insertCase3_result (Rearranged.left.2 hrot) (by simp [*]) hr hrc hub hu hup (by simp [Ctx.depth]) rfl

/-- Case 6 ends below a black node. -/
theorem insertCase6_result {T : ColorTree A} {h₀ : Heap A (MgrbtreeT A)}
    (hr : Rearranged cmp h₀ (c.plug t) h (.right s p .mgRed (.right u g .mgBlack up)) (node l z .mgRed r))
    (ht : Rb (node l z .mgRed r) n) (hs : Rb s n) (hsc : color s = .mgBlack) (hu : Rb u n) (huc : color u = .mgBlack)
    (hup : CtxRb up (n + 1)) (hd : up.depth + 1 < c.depth) (hT : T = node u g .mgBlack (node s p .mgRed (node l z .mgRed r))) :
    Returns (insertCase6 (up.plug T).root (some z)) h fun root' h' =>
      RoundResult cmp h₀ c t (.inl (root', some z)) h' := by
  subst hT
  refine (insertCase6_spec hr.place).mono ?_
  rintro root' h' ⟨rfl, hrot⟩
  refine ⟨.right (node u g .mgRed s) p .mgBlack up, node l z .mgRed r, n, rfl, rfl, ?_, rfl, ht, ?_, hd⟩
  · exact Rearranged.right.2 (hr.trans hrot)
  · simp [hs, hsc, hu, huc, hup]

/-- Case 6: the parent and `z` are right children and the uncle is black. -/
theorem round_right_rotate (ha : At cmp h (.right s p .mgRed (.right u g .mgBlack up)) t) (hred : color t = .mgRed)
    (ht : Rb t n) (hctx : CtxRb (.right s p .mgRed (.right u g .mgBlack up)) n) (hu : color u = .mgBlack) :
    Returns (fixupInsertRound (((Ctx.right s p .mgRed (.right u g .mgBlack up)).plug t).root, t.root)) h
      (RoundResult cmp h (.right s p .mgRed (.right u g .mgBlack up)) t) := by
  obtain _ | ⟨l, z, d, r⟩ := t
  · cases hred
  obtain rfl : d = .mgRed := hred
  have hp := at_right.1 ha
  have hg := at_right.1 hp
  have hrd := returns_isRed (at_left.2 hg).tree
  have hzs := (at_left.2 hp).not_mem (p := z) (by simp)
  have hsz : s.root ≠ some z := fun e => hzs (mem_of_root e)
  have hpu := (at_left.2 hg).not_mem (p := p) (by simp)
  have hup' : u.root ≠ some p := fun e => hpu (mem_of_root e)
  obtain ⟨hs, hsc, -, hub, hup⟩ := hctx
  simp [fixupInsertRound, ha.self, hp.self, hg.self, isLchild, hsz, hup', hrd, hu]
  exact insertCase6_result ha.rearranged ht hs hsc hub hu hup (by simp [Ctx.depth]) rfl

/-- Case 5, and case 6 after it: `z` is the left child of a right child, and the uncle is black. -/
theorem round_right_turn (ha : At cmp h (.left p .mgRed s (.right u g .mgBlack up)) t) (hred : color t = .mgRed)
    (ht : Rb t n) (hctx : CtxRb (.left p .mgRed s (.right u g .mgBlack up)) n) (hu : color u = .mgBlack) :
    Returns (fixupInsertRound (((Ctx.left p .mgRed s (.right u g .mgBlack up)).plug t).root, t.root)) h
      (RoundResult cmp h (.left p .mgRed s (.right u g .mgBlack up)) t) := by
  obtain _ | ⟨l, z, d, r⟩ := t
  · cases hred
  obtain rfl : d = .mgRed := hred
  have hp := at_left.1 ha
  have hg := at_right.1 hp
  have hrd := returns_isRed (at_left.2 hg).tree
  have hpu := (at_left.2 hg).not_mem (p := p) (by simp)
  have hup' : u.root ≠ some p := fun e => hpu (mem_of_root e)
  obtain ⟨hs, hsc, -, hub, hup⟩ := hctx
  obtain ⟨⟨hlc, hrc⟩, hl, hr⟩ := rb_red.1 ht
  simp [fixupInsertRound, ha.self, hp.self, hg.self, isLchild, hup', hrd, hu]
  refine (rightRote_spec hp).mono ?_
  rintro root' h' ⟨rfl, hrot⟩
  have hz := hrot.place
  simp [hz.self]
  exact insertCase6_result (Rearranged.right.2 hrot) (by simp [*]) hl hlc hub hu hup (by simp [Ctx.depth]) rfl

/-- One round of the loop. -/
theorem fixupInsertRound_spec (ha : At cmp h c t) (hred : color t = .mgRed) (ht : Rb t n) (hc : CtxRb c n) :
    Returns (fixupInsertRound ((c.plug t).root, t.root)) h (RoundResult cmp h c t) := by
  cases c with
  | top => exact round_exit ha hred (.inl rfl)
  | left p d s up =>
    cases d with
    | mgBlack => exact round_exit ha hred (.inr rfl)
    | mgRed =>
      obtain ⟨-, -, hb, -⟩ := id hc
      cases up with
      | top => exact hb.elim
      | left g e u up =>
        obtain rfl : e = .mgBlack := hb
        cases hu : color u with
        | mgRed => exact round_left_recolor ha hred ht (.inl rfl) hc hu
        | mgBlack => exact round_left_rotate ha hred ht hc hu
      | right u g e up =>
        obtain rfl : e = .mgBlack := hb
        cases hu : color u with
        | mgRed => exact round_right_recolor ha hred ht (.inl rfl) hc hu
        | mgBlack => exact round_right_turn ha hred ht hc hu
  | right s p d up =>
    cases d with
    | mgBlack => exact round_exit ha hred (.inr rfl)
    | mgRed =>
      obtain ⟨-, -, hb, -⟩ := id hc
      cases up with
      | top => exact hb.elim
      | left g e u up =>
        obtain rfl : e = .mgBlack := hb
        cases hu : color u with
        | mgRed => exact round_left_recolor ha hred ht (.inr rfl) hc hu
        | mgBlack => exact round_left_turn ha hred ht hc hu
      | right u g e up =>
        obtain rfl : e = .mgBlack := hb
        cases hu : color u with
        | mgRed => exact round_right_recolor ha hred ht (.inr rfl) hc hu
        | mgBlack => exact round_right_rotate ha hred ht hc hu

/-! ## The loop -/

/-- The root painted black. -/
def blacken : ColorTree A → ColorTree A
  | .nil => .nil
  | .node l a _ r => .node l a .mgBlack r

omit [DecidableEq A] in
theorem redBlack_blacken (ht : Rb t n) : RedBlack (blacken t) := by
  obtain _ | ⟨l, a, _ | _, r⟩ := t
  · exact redBlack_top.2 ⟨rfl, n, ht⟩
  · exact redBlack_top.2 ⟨rfl, n, ht⟩
  · exact redBlack_top.2 ⟨rfl, n + 1, rb_black.2 ⟨n, rfl, (rb_red.1 ht).2⟩⟩

/-- The loop stands at the red node `t₁` of a tree that holds the nodes of `T` in their order. -/
def FixupInv (cmp : A → A → Int) (h : Heap A (MgrbtreeT A)) (T : ColorTree A) (k : Nat) (x : Ptr A × Ptr A)
    (h₁ : Heap A (MgrbtreeT A)) : Prop :=
  ∃ c₁ t₁ n₁, x = ((c₁.plug t₁).root, t₁.root) ∧ Rearranged cmp h T h₁ c₁ t₁ ∧ color t₁ = .mgRed ∧
    Rb t₁ n₁ ∧ CtxRb c₁ n₁ ∧ c₁.depth = k

/-- The tree at the end of the loop is red-black but for the colour of its root. -/
theorem fixupInsert_loop (ha : At cmp h c t) (hred : color t = .mgRed) (ht : Rb t n) (hc : CtxRb c n) {fuel : Nat}
    (hf : c.depth < fuel) :
    Returns (loop fixupInsertRound fuel ((c.plug t).root, t.root)) h fun root' h' =>
      ∃ T m, root' = T.root ∧ Rearranged cmp h (c.plug t) h' .top T ∧ Rb T m := by
  refine returns_loop (FixupInv cmp h (c.plug t)) ?_ fuel c.depth _ h ⟨c, t, n, rfl, ha.rearranged, hred, ht, hc, rfl⟩ hf
  rintro k x h₁ ⟨c₁, t₁, n₁, rfl, hr, hred₁, ht₁, hc₁, rfl⟩
  refine (fixupInsertRound_spec hr.place hred₁ ht₁ hc₁).mono ?_
  rintro (⟨root', z⟩ | root') h₂ hres
  · obtain ⟨c₂, t₂, n₂, rfl, rfl, hr₂, hred₂, ht₂, hc₂, hd⟩ := hres
    exact ⟨c₂.depth, hd, c₂, t₂, n₂, rfl, hr.trans hr₂, hred₂, ht₂, hc₂, rfl⟩
  · obtain ⟨rfl, rfl, hend⟩ := hres
    have hT : Rearranged cmp h (c.plug t) h₂ .top (c₁.plug t₁) := ⟨at_plug.1 hr.place, hr.inorder, hr.agree⟩
    rcases hend with rfl | hb
    · exact ⟨t₁, n₁, rfl, hT, ht₁⟩
    · obtain ⟨-, m, hm⟩ := redBlack_top.1 (redBlack_plug hc₁ ht₁ fun _ => hb)
      exact ⟨_, m, rfl, hT, hm⟩

theorem fixupInsertMgrbtreeT_spec (ha : At cmp h c t) (hred : color t = .mgRed) (ht : Rb t n) (hc : CtxRb c n)
    {fuel : Nat} (hf : c.depth < fuel) :
    Returns (fixupInsertMgrbtreeT fuel (c.plug t).root t.root) h fun root' h' =>
      ∃ T, root' = T.root ∧ Rearranged cmp h (c.plug t) h' .top T ∧ RedBlack T := by
  refine (fixupInsert_loop ha hred ht hc hf).bind ?_
  rintro root' h' ⟨T, m, rfl, hr, hm⟩
  cases T with
  | nil =>
    have hlen := congrArg List.length hr.inorder
    cases t with
    | nil => cases hred
    | node l z d r => simp [Ctx.size_plug, size] at hlen; omega
  | node l a d r =>
    simp [hr.place.self]
    exact ⟨node l a .mgBlack r, rfl, hr.relabel .mgBlack, redBlack_blacken hm⟩

end MgStd.RbTree
