import MgStd.SplayTree.Splay
/-!
# Removal

The node that was found is at the root. Its left tree is hung below the least
node of its right tree, and the children are linked as they should be. The
parent of the new root stays as it was, the removed node.
-/

namespace MgStd.SplayTree

open MgStd.Lib BinTree

variable {A : Type} [DecidableEq A] {cmp : A → A → Int} {h h' : Heap A (MgSplaytree A)} {l r t T : BinTree A Unit}
  {a b m q x y : A} {n nq : MgSplaytree A} {p : Ptr A} {search : Ptr A → Ptr A → TreeProg A (Ptr A)} {fuel : Nat}

/-! ## The least node -/

def leftmost : BinTree A Unit → Ptr A
  | nil => none
  | node l a _ _ => some ((leftmost l).getD a)

omit [DecidableEq A] in
theorem leftmost_mem (hm : leftmost t = some m) : m ∈ t.inorder := by
  induction t with
  | nil => cases hm
  | node l a d r ihl _ =>
    cases hl : leftmost l with
    | none =>
      obtain rfl : a = m := by simpa [leftmost, hl] using hm
      simp
    | some b =>
      obtain rfl : b = m := by simpa [leftmost, hl] using hm
      simp [ihl hl]

omit [DecidableEq A] in
theorem minLoop_spec (hl : LinkedAt cmp h l) (ha : h a = some n) (hn : n.lchild = l.root) (hf : l.size < fuel) :
    Returns (loop minRound fuel (some a)) h fun p h' => h' = h ∧ p = some ((leftmost l).getD a) := by
  induction l generalizing a n fuel with
  | nil =>
    obtain ⟨fuel, rfl⟩ : ∃ k, fuel = k + 1 := ⟨fuel - 1, by simp [size] at hf; omega⟩
    simp [returns_loop_succ, minRound, ha, hn, leftmost]
  | node l b d r ihl _ =>
    obtain ⟨fuel, rfl⟩ : ∃ k, fuel = k + 1 := ⟨fuel - 1, by simp [size] at hf; omega⟩
    obtain ⟨⟨p, hb⟩, hll, -⟩ := hl
    simp only [size] at hf
    rw [returns_loop_succ]
    simpa [minRound, ha, hn, leftmost] using ihl hll hb rfl (by omega)

omit [DecidableEq A] in
theorem mgSplaytreeMinNode_spec (hl : LinkedAt cmp h l) (ha : h a = some n) (hn : n.lchild = l.root) (hf : l.size < fuel) :
    Returns (mgSplaytreeMinNode fuel (some a)) h fun p h' => h' = h ∧ p = some ((leftmost l).getD a) := by
  simpa [mgSplaytreeMinNode] using minLoop_spec hl ha hn hf

/-! ## Joining the children -/

/-- `l` to the left of the least node of `r`. -/
def joined (l : BinTree A Unit) : BinTree A Unit → BinTree A Unit
  | nil => l
  | node rl a d rr => node (joined l rl) a d rr

omit [DecidableEq A] in
theorem inorder_joined (l r : BinTree A Unit) : (joined l r).inorder = l.inorder ++ r.inorder := by
  induction r with
  | nil => simp [joined]
  | node rl a d rr ihl _ => simp [joined, ihl]

omit [DecidableEq A] in
theorem joined_nil_left (r : BinTree A Unit) : joined nil r = r := by
  induction r with
  | nil => rfl
  | node rl a d rr ihl _ => rw [joined, ihl]

omit [DecidableEq A] in
theorem root_joined (hr : r ≠ nil) : (joined l r).root = r.root := by
  cases r with
  | nil => exact absurd rfl hr
  | node rl a d rr => rfl

/-- The writes that join: the least node takes the root of `l` for its left child and becomes its parent. -/
theorem treeAt_joined (hr : TreeAt cmp h p r) (hrn : r.inorder.Nodup) (hl : TreeAt cmp h (some x) l) (hln : l.inorder.Nodup)
    (hd : l.inorder.Disjoint r.inorder) (hm : leftmost r = some m) (hn : h m = some n) :
    TreeAt cmp (adopt (Function.update h m (some { n with lchild := l.root })) l.root (some m)) p (joined l r) := by
  have hml : m ∉ l.inorder := fun hml => hd hml (leftmost_mem hm)
  induction r generalizing p with
  | nil => cases hm
  | node rl a d rr ihl _ =>
    obtain ⟨ha, hrl, hrr⟩ := hr
    simp only [inorder_node, List.nodup_append', List.nodup_cons, List.disjoint_append_right, List.disjoint_cons_right] at hrn hd
    obtain ⟨hrln, ⟨harr, -⟩, harl, hlr⟩ := hrn
    obtain ⟨hdl, hal, hdr⟩ := hd
    have hframe : ∀ {y}, y ≠ m → y ∉ l.inorder →
        adopt (Function.update h m (some { n with lchild := l.root })) l.root (some m) y = h y := fun hym hyl => by
      rw [adopt_of_not_mem hyl, Function.update_of_ne hym]
    cases hrlm : leftmost rl with
    | none =>
      -- the least node is `a` itself
      obtain rfl : a = m := by simpa [leftmost, hrlm] using hm
      obtain rfl : rl = nil := by
        cases rl with
        | nil => rfl
        | node => cases hrlm
      rw [ha] at hn
      cases hn
      refine ⟨?_, treeAt_adopt (treeAt_update _ hml hl) hln,
        hrr.frame fun y hy => hframe (fun e => harr (e ▸ hy)) fun hyl => hdr hyl hy⟩
      rw [adopt_of_not_mem hml, Function.update_self]
      rfl
    | some b =>
      obtain rfl : b = m := by simpa [leftmost, hrlm] using hm
      have hbrl := leftmost_mem hrlm
      have hne : rl ≠ nil := by
        rintro rfl
        cases hrlm
      refine ⟨?_, ihl hrl hrln hdl hrlm, hrr.frame fun y hy => hframe (fun e => hlr hbrl (e ▸ hy)) fun hyl => hdr hyl hy⟩
      rw [hframe (fun e : a = b => harl (e ▸ hbrl)) hal, ha, root_joined hne]

/-- The children of the root in one tree, whose root still has the old root for its parent. -/
theorem joinChildren_spec (ha : At cmp h .top (node l x () r)) (hf : r.size < fuel) :
    Returns (joinChildren fuel (some x)) h fun root h' => root = (joined l r).root ∧ TreeAt cmp h' (some x) (joined l r) ∧
      ∀ y, y ∉ (node l x () r).inorder → h' y = h y := by
  have hself := ha.self
  obtain ⟨-, hl, hr⟩ := ha.tree
  have hn := ha.nodup
  simp only [inorder_node, Ctx.nodes_top, List.append_nil, List.nodup_append', List.nodup_cons, List.disjoint_cons_right] at hn
  obtain ⟨hln, ⟨hxr, hrn⟩, hxl, hd⟩ := hn
  unfold joinChildren
  cases l with
  | nil =>
    simp only [returns_bind, returns_lchildOf, returns_rchildOf, hself, Option.some.injEq, exists_eq_left', root_nil, ne_eq,
      not_true_eq_false, false_and, if_false, if_true, joined_nil_left, true_and,
      implies_true, and_true]
    exact hr
  | node ll b e lr =>
    cases r with
    | nil =>
      simp only [returns_bind, returns_lchildOf, returns_rchildOf, hself, Option.some.injEq, exists_eq_left', root_nil, root_node,
        ne_eq, not_true_eq_false, and_false, if_false, reduceCtorEq, joined, true_and, implies_true, and_true]
      exact hl
    | node rl c f rr =>
      have hc := hr.1
      simp only [size] at hf
      simp only [returns_bind, returns_lchildOf, returns_rchildOf, hself, Option.some.injEq, exists_eq_left', root_node, ne_eq,
        reduceCtorEq, not_false_eq_true, and_self, if_true]
      refine (mgSplaytreeMinNode_spec hr.2.1.linked hc rfl (by omega)).mono ?_
      rintro _ _ ⟨rfl, rfl⟩
      have hm : leftmost (node rl c f rr) = some ((leftmost rl).getD c) := rfl
      generalize (leftmost rl).getD c = m at hm ⊢
      have hmr := leftmost_mem hm
      obtain ⟨n, hn, -⟩ := hr.parent_of hmr
      have hmx : x ≠ m := fun e => hxr (e ▸ hmr)
      have hmb : b ≠ m := fun e => hd (a := m) (by simp [← e]) hmr
      have hbx : x ≠ b := fun e => hxl (by simp [e])
      have hjoin := treeAt_joined hr hrn hl hln hd hm hn
      rw [root_node, adopt_some (by rw [Function.update_of_ne hmb]; exact hl.1)] at hjoin
      simp only [returns_setLchild, returns_setParent, hn, Option.some.injEq, exists_eq_left', ne_eq, root_node,
        hmb, not_false_eq_true, Function.update_of_ne, hl.1, hmx, hbx, hself]
      refine ⟨rfl, hjoin, fun y hy => ?_⟩
      have hym : y ≠ m := fun e => hy (by rw [e]; simp only [inorder_node, List.mem_append, List.mem_cons] at hmr ⊢; tauto)
      have hyb : y ≠ b := fun e => hy (by simp [e])
      rw [Function.update_of_ne hyb, Function.update_of_ne hym]

/-! ## The call -/

/-- A key that is not there: the tree stays, and `nfree` is called with NULL. -/
theorem mgSplaytreeRemove_absent (hT : At cmp h .top T) (hne : T ≠ nil) (hq : h q = some nq)
    (hall : ∀ x ∈ T.inorder, cmp x q ≠ 0) (hqT : q ∉ T.inorder)
    (hsearch : Returns (search T.root (some q)) h fun p h' => h' = h ∧ Finds cmp T q p) (hf : T.size < fuel) :
    Returns (mgSplaytreeRemove search fuel T.root (some q)) h fun out h' =>
      out = (T.root, [none]) ∧ ∀ x ∈ T.inorder, h' x = h x := by
  cases T with
  | nil => exact absurd rfl hne
  | node l a d r =>
    have haq := hall a (by simp)
    unfold mgSplaytreeRemove
    rw [if_neg (by simp)]
    refine (mgSplaytreeSplayNodeToRoot_spec hT hsearch hf).bind ?_
    rintro _ _ (⟨_, x, _, _, hx, hxq, -⟩ | -)
    · exact absurd hxq (hall x hx)
    · simp only [root_node, returns_bind, returns_callCmp, hT.self, Option.some.injEq, exists_eq_left', ne_eq, haq, not_false_eq_true,
        if_true, returns_setRchild, returns_rchildOf, hq, Function.update_self, returns_pure, true_and]
      exact fun x hx => Function.update_of_ne (fun e : x = q => hqT (e ▸ hx)) _ _

/-- A key that is there: its node is released, and the others are joined below it. -/
theorem mgSplaytreeRemove_present (hcmp : TotalPreorder cmp) (hT : OrderedAt cmp h T) (hx : x ∈ T.inorder) (hxq : cmp x q = 0)
    (hq : h q = some nq) (hqx : x ≠ q) (hsearch : Returns (search T.root (some q)) h fun p h' => h' = h ∧ Finds cmp T q p)
    (hf : T.size < fuel) :
    Returns (mgSplaytreeRemove search fuel T.root (some q)) h fun out h' => ∃ l r, T.inorder = l.inorder ++ x :: r.inorder ∧
      out = ((joined l r).root, [some x]) ∧ TreeAt cmp h' (some x) (joined l r) := by
  have hroot : T.root ≠ none := fun e => by rw [root_eq_none.1 e] at hx; simp at hx
  have hqT : q ∉ T.inorder := fun hqT => hqx (hT.sorted.eq_of hcmp hx hqT hxq)
  unfold mgSplaytreeRemove
  rw [if_neg (by simpa using hroot)]
  refine (mgSplaytreeSplayNodeToRoot_spec hT.place hsearch hf).bind ?_
  rintro _ h₁ hs
  cases hs with
  | missing hall => exact absurd hxq (hall x hx)
  | found l y r _ hy hyq hr =>
    obtain rfl : x = y := hT.sorted.eq_of hcmp hx hy (hcmp.eq_trans hxq (hcmp.eq_symm hyq))
    have hin : (node l x () r).inorder = T.inorder := hr.inorder
    have hsize : (node l x () r).size = T.size := by rw [← length_inorder, hin, length_inorder]
    have hqh : h₁ q = some nq := (hr.agree q hqT).trans hq
    have hqr : q ∉ (node l x () r).inorder := hin ▸ hqT
    simp only [returns_bind, returns_callCmp, hr.place.self, Option.some.injEq, exists_eq_left', hyq, ne_eq, not_true_eq_false,
      if_false, returns_setRchild, hqh]
    have hmoved : At cmp (Function.update h₁ q (some { nq with rchild := some x })) .top (node l x () r) :=
      hr.place.frame fun y hy => Function.update_of_ne (fun e : y = q => hqr (e ▸ hy)) _ _
    simp only [size] at hsize
    refine (joinChildren_spec hmoved (by omega)).mono ?_
    rintro _ h'' ⟨rfl, htree, helse⟩
    have hqn := helse q hqr
    rw [Function.update_self] at hqn
    simp only [returns_rchildOf, hqn, Option.some.injEq, exists_eq_left', returns_pure]
    exact ⟨l, r, hin.symm, rfl, htree⟩

/-- The node itself for the probe: the link that is to remember it makes it its own right child, and it stays the root. -/
theorem mgSplaytreeRemove_self (hcmp : TotalPreorder cmp) (hT : OrderedAt cmp h T) (hqT : q ∈ T.inorder)
    (hsearch : Returns (search T.root (some q)) h fun p h' => h' = h ∧ Finds cmp T q p) (hf : T.size < fuel) :
    Returns (mgSplaytreeRemove search fuel T.root (some q)) h fun out _ => out = (some q, [some q]) := by
  have hroot : T.root ≠ none := fun e => by rw [root_eq_none.1 e] at hqT; simp at hqT
  unfold mgSplaytreeRemove
  rw [if_neg (by simpa using hroot)]
  refine (mgSplaytreeSplayNodeToRoot_spec hT.place hsearch hf).bind ?_
  rintro _ h₁ hs
  cases hs with
  | missing hall => exact absurd (hcmp.refl q) (hall q hqT)
  | found l y r _ hy hyq hr =>
    obtain rfl : q = y := hT.sorted.eq_of hcmp hqT hy (hcmp.eq_symm hyq)
    have hin : (node l q () r).inorder = T.inorder := hr.inorder
    have hsize : (node l q () r).size = T.size := by rw [← length_inorder, hin, length_inorder]
    have hself := hr.place.self
    have hql : q ∉ l.inorder := fun hql => by
      have hn := hr.place.nodup
      simp only [inorder_node, Ctx.nodes_top, List.append_nil, List.nodup_append', List.disjoint_cons_right] at hn
      exact hn.2.2.1 hql
    have hleft : TreeAt cmp (Function.update h₁ q (some ⟨(), none, l.root, some q, cmp⟩)) (some q) l :=
      treeAt_update _ hql hr.place.tree.2.1
    have hlf : l.size < fuel := by
      simp only [size] at hsize
      omega
    simp only [returns_bind, returns_callCmp, hself, Option.some.injEq, exists_eq_left', hcmp.refl, ne_eq, not_true_eq_false,
      if_false, returns_setRchild, Ctx.parent_top]
    unfold joinChildren
    simp only [returns_bind, returns_lchildOf, returns_rchildOf, Function.update_self, Option.some.injEq, exists_eq_left']
    cases l with
    | nil => simp
    | node ll b d lr =>
      simp only [root_node, ne_eq, reduceCtorEq, not_false_eq_true, and_self, if_true, returns_bind, returns_rchildOf,
        Function.update_self, Option.some.injEq, exists_eq_left']
      refine (mgSplaytreeMinNode_spec hleft.linked (Function.update_self ..) rfl hlf).mono ?_
      rintro _ _ ⟨rfl, rfl⟩
      obtain ⟨m, hm⟩ : ∃ m, leftmost (node ll b d lr) = some m := ⟨_, rfl⟩
      have hml := leftmost_mem hm
      have hqm : q ≠ m := fun e => hql (e ▸ hml)
      have hqb : q ≠ b := fun e => hql (by simp [e])
      obtain ⟨n, hn, -⟩ := hleft.parent_of hml
      rw [Function.update_of_ne hqm.symm] at hn
      have hb := hleft.1
      rw [hm]
      simp only [returns_setLchild, returns_lchildOf, returns_setParent, returns_pure, Function.update_self,
        Option.getD_some, root_node, ne_eq, hqm, hqm.symm, hqb, not_false_eq_true, Function.update_of_ne, hn,
        Option.some.injEq, exists_eq_left', and_true]
      by_cases hbm : b = m
      · exact ⟨_, by rw [hbm, Function.update_self]⟩
      · exact ⟨_, by rw [Function.update_of_ne hbm]; exact hb⟩

/-- What a removal is to leave, next to the root and what `nfree` was called with. -/
structure Removed (cmp : A → A → Int) (h : Heap A (MgSplaytree A)) (T : BinTree A Unit) (q : A) (out : Ptr A × List (Ptr A))
    (h' : Heap A (MgSplaytree A)) : Prop where
  present : ∀ x ∈ T.inorder, cmp x q = 0 → out.2 = [some x] ∧ ∃ T' L R, out.1 = T'.root ∧ OrderedAt cmp h' T' ∧
    T.inorder = L ++ x :: R ∧ T'.inorder = L ++ R ∧
    ∀ y ∈ T'.inorder, ∀ n, h' y = some n → n.parent ≠ some x ∧ n.lchild ≠ some x ∧ n.rchild ≠ some x
  absent : (∀ x ∈ T.inorder, cmp x q ≠ 0) → out.2 = [] ∧ out.1 = T.root ∧ ∀ x ∈ T.inorder, h' x = h x

omit [DecidableEq A] in
theorem root_parent (ht : TreeAt cmp h p t) (hy : t.root = some y) : ∃ n, h y = some n ∧ n.parent = p := by
  cases t with
  | nil => cases hy
  | node l a d r =>
    cases hy
    exact ⟨_, ht.1, rfl⟩

omit [DecidableEq A] in
theorem eq_nil (ht : t.inorder = []) : t = nil := by
  cases t with
  | nil => rfl
  | node l a d r => simp at ht

omit [DecidableEq A] in
theorem eq_leaf (ht : t.inorder = [x]) : t = node nil x () nil := by
  cases t with
  | nil => cases ht
  | node l a d r =>
    have hlen := congrArg List.length ht
    simp only [inorder_node, List.length_append, List.length_cons, List.length_nil] at hlen
    obtain rfl : l = nil := eq_nil (List.eq_nil_of_length_eq_zero (by omega))
    obtain rfl : r = nil := eq_nil (List.eq_nil_of_length_eq_zero (by omega))
    cases ht
    rfl

/-- The removed node, itself the probe, still is the root. -/
theorem not_removed_self (hcmp : TotalPreorder cmp) (hT : OrderedAt cmp h T) (hqT : q ∈ T.inorder)
    (hsearch : Returns (search T.root (some q)) h fun p h' => h' = h ∧ Finds cmp T q p) (hf : T.size < fuel) :
    ¬ Returns (mgSplaytreeRemove search fuel T.root (some q)) h (Removed cmp h T q) := by
  intro hret
  obtain ⟨out, h', -, hrem, rfl⟩ := hret.and (mgSplaytreeRemove_self hcmp hT hqT hsearch hf)
  obtain ⟨-, T', L, R, hroot, -, hin, hin', -⟩ := hrem.present q hqT (hcmp.refl q)
  have hqT' := mem_of_root hroot.symm
  have hn : T.inorder.Nodup := by simpa using hT.place.nodup
  rw [hin, List.nodup_middle, List.nodup_cons] at hn
  exact hn.1 (hin' ▸ hqT')

/-- The parent of the new root is the removed node, unless there is no new root. -/
theorem removed_iff_alone (hcmp : TotalPreorder cmp) (hT : OrderedAt cmp h T) (hx : x ∈ T.inorder) (hxq : cmp x q = 0)
    (hq : h q = some nq) (hqx : x ≠ q) (hsearch : Returns (search T.root (some q)) h fun p h' => h' = h ∧ Finds cmp T q p)
    (hf : T.size < fuel) :
    Returns (mgSplaytreeRemove search fuel T.root (some q)) h (Removed cmp h T q) ↔ T = node nil x () nil := by
  have hspec := mgSplaytreeRemove_present hcmp hT hx hxq hq hqx hsearch hf
  constructor
  · intro hret
    obtain ⟨out, h', -, hrem, l, r, hin, rfl, htree⟩ := hret.and hspec
    obtain ⟨-, T', -, -, hroot, hT', -⟩ := hrem.present x hx hxq
    cases hj : (joined l r).root with
    | none =>
      have hjin := inorder_joined l r
      rw [root_eq_none.1 hj, inorder_nil] at hjin
      obtain ⟨hl, hr⟩ := List.append_eq_nil_iff.1 hjin.symm
      exact eq_leaf (by rw [hin, hl, hr]; rfl)
    | some y =>
      obtain ⟨n, hn, hp⟩ := root_parent htree hj
      obtain ⟨n', hn', hp'⟩ := root_parent hT'.place.tree (hroot.symm.trans hj)
      rw [hn, Option.some.injEq] at hn'
      rw [hn', hp'] at hp
      cases hp
  · rintro rfl
    refine hspec.mono ?_
    rintro out h' ⟨l, r, hin, rfl, htree⟩
    have hlen := congrArg List.length hin
    simp only [inorder_node, inorder_nil, List.length_append, List.length_cons, length_inorder, List.length_nil] at hlen
    have hj : joined l r = nil := by
      refine eq_nil (List.eq_nil_of_length_eq_zero ?_)
      rw [inorder_joined, List.length_append, length_inorder, length_inorder]
      omega
    refine ⟨fun z hz hzq => ?_, fun hall => absurd hxq (hall x hx)⟩
    obtain rfl : z = x := by simpa using hz
    exact ⟨rfl, nil, [], [], by rw [hj], ⟨⟨trivial, trivial, by simp⟩, .nil⟩, rfl, rfl, by simp⟩

/-- `mg_splaytree_remove` does what it is for if and only if the tree is empty, or has the node to remove alone, and that is
not the probe. -/
theorem mg_splaytree_remove_iff (hcmp : TotalPreorder cmp) (hT : OrderedAt cmp h T) (hq : h q = some nq)
    (hsearch : Returns (search T.root (some q)) h fun p h' => h' = h ∧ Finds cmp T q p) (hf : T.size < fuel) :
    Returns (mgSplaytreeRemove search fuel T.root (some q)) h (Removed cmp h T q) ↔
      T = nil ∨ ∃ x, T = node nil x () nil ∧ cmp x q = 0 ∧ x ≠ q := by
  by_cases hne : T = nil
  · subst hne
    refine iff_of_true ?_ (.inl rfl)
    simp only [mgSplaytreeRemove, root_nil, true_or, if_true, returns_pure]
    exact ⟨by simp, fun _ => ⟨rfl, rfl, by simp⟩⟩
  rw [or_iff_right hne]
  by_cases hold : ∃ x ∈ T.inorder, cmp x q = 0
  · obtain ⟨x, hx, hxq⟩ := hold
    by_cases hqx : x = q
    · subst hqx
      refine iff_of_false (not_removed_self hcmp hT hx hsearch hf) ?_
      rintro ⟨y, rfl, -, hyx⟩
      have hxy : x = y := by simpa using hx
      exact hyx hxy.symm
    · rw [removed_iff_alone hcmp hT hx hxq hq hqx hsearch hf]
      constructor
      · exact fun halone => ⟨x, halone, hxq, hqx⟩
      · rintro ⟨y, rfl, -, -⟩
        have hxy : x = y := by simpa using hx
        rw [hxy]
  · have hall : ∀ x ∈ T.inorder, cmp x q ≠ 0 := fun x hx hxq => hold ⟨x, hx, hxq⟩
    have hqT : q ∉ T.inorder := fun hqT => hall q hqT (hcmp.refl q)
    refine iff_of_false (fun hret => ?_) ?_
    · obtain ⟨out, h', -, hrem, rfl, -⟩ := hret.and (mgSplaytreeRemove_absent hT.place hne hq hall hqT hsearch hf)
      cases (hrem.absent hall).1
    · rintro ⟨y, rfl, hyq, -⟩
      exact hall y (by simp) hyq

/-- The tree of the nodes 2 and 4, and the probe 3 with the key of 2. -/
def probed : Heap Nat (MgSplaytree Nat) := Function.update twoNodes 3 (some ⟨(), none, none, none, halfCmp⟩)

theorem probed_ordered : OrderedAt halfCmp probed (node nil 2 () (node nil 4 () nil)) :=
  ⟨twoNodes_ordered.place.frame fun x hx => Function.update_of_ne (fun e : x = 3 => by simp [e] at hx) _ _,
    twoNodes_ordered.sorted⟩

/-- The node 2 alone, and the probe 3. -/
def alone : Heap Nat (MgSplaytree Nat) := fun x => if x = 2 ∨ x = 3 then some ⟨(), none, none, none, halfCmp⟩ else none

theorem alone_ordered : OrderedAt halfCmp alone (node nil 2 () nil) :=
  ⟨⟨⟨rfl, trivial, trivial⟩, trivial, by decide⟩, by simp [StrictSorted]⟩

theorem mg_splaytree_remove_iff_alone :
    Returns (mgSplaytreeRemove (searchReturned 2) 2 (some 2) (some 3)) alone (Removed halfCmp alone (node nil 2 () nil) 3) :=
  (mg_splaytree_remove_iff halfCmp_preorder alone_ordered rfl (searchReturned_finds halfCmp_preorder alone_ordered 3 (by decide))
    (by decide)).2 (.inr ⟨2, rfl, rfl, by decide⟩)

/-- The node 4 is the new root, and its parent is the node 2. -/
theorem mg_splaytree_remove_parent :
    ¬ ∀ (h : Heap Nat (MgSplaytree Nat)) (cmp : Nat → Nat → Int) (T : BinTree Nat Unit) (q fuel : Nat)
      (search : Ptr Nat → Ptr Nat → TreeProg Nat (Ptr Nat)), TotalPreorder cmp → OrderedAt cmp h T → h q ≠ none →
      Returns (search T.root (some q)) h (fun p h' => h' = h ∧ Finds cmp T q p) → T.size < fuel →
      Returns (mgSplaytreeRemove search fuel T.root (some q)) h (Removed cmp h T q) := by
  intro hall
  have hret := hall probed _ _ 3 3 _ halfCmp_preorder probed_ordered (by simp [probed])
    (searchReturned_finds halfCmp_preorder probed_ordered 3 (show _ < 3 by decide)) (by decide)
  have hrun : mgSplaytreeRemove (searchReturned 3) 3 (some 2) (some 3) probed =
      .ok ((some 4, [some 2]), Function.update probed 3 (some ⟨(), none, none, some 2, halfCmp⟩)) := rfl
  obtain ⟨-, T', -, -, hroot, hT', -⟩ := (hret.of_eq hrun).present 2 (by simp) (by simp [halfCmp])
  obtain ⟨n, hn, hp⟩ := root_parent hT'.place.tree hroot.symm
  obtain rfl : (⟨(), some 2, none, none, halfCmp⟩ : MgSplaytree Nat) = n := Option.some.inj hn
  cases hp

end MgStd.SplayTree
