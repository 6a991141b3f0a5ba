import MgStd.Lib.Runs
import MgStd.Bstree.Insert
/-!
# Deletion

A leaf is deleted as it should be. The child that comes to the place of a
deleted node keeps that node for its parent, and the walk that is to find the
place for a left tree goes one step too far.
-/

namespace MgStd.Bstree

open MgStd.Lib BinTree

variable {A : Type} [DecidableEq A] {cmp : A → A → Int} {h h' : Heap A (MgBsTree A)} {c : Ctx A Unit} {l r t T : BinTree A Unit}
  {a q x y z : A} {d : Unit} {fuel : Nat}

theorem mgBstreeSetParentChild_spec (ha : At cmp h c (node l z d r)) (hc : c ≠ .top) (p : Ptr A) :
    Returns (mgBstreeSetParentChild (some z) p) h fun _ h' => h' = relink h c p := by
  have hself := ha.self
  cases c with
  | top => exact absurd rfl hc
  | left b e s up =>
    have hb := (at_left.1 ha).self
    simp [mgBstreeSetParentChild, hself, hb, relink]
  | right s b e up =>
    have hb := (at_right.1 ha).self
    have hsz : some z ≠ s.root := fun e => ha.not_mem (p := z) (by simp [mem_of_root e.symm]) (by simp)
    simp [mgBstreeSetParentChild, hself, hb, hsz, relink]

/-! ## The shapes of the node -/

theorem mgBstreeDel_leaf (ha : At cmp h c (node nil z d nil)) (hc : c ≠ .top) :
    Returns (mgBstreeDel fuel (some a) (some z)) h fun _ h' => At cmp h' c nil := by
  have hself := ha.self
  unfold mgBstreeDel
  rw [if_neg (by simp)]
  simp only [returns_bind, returns_lchildOf, returns_rchildOf, hself, Option.some.injEq, exists_eq_left', root_nil, ne_eq,
    not_true_eq_false, or_self, if_true, if_false]
  refine (mgBstreeSetParentChild_spec ha hc none).mono ?_
  rintro _ _ rfl
  exact ha.unlink (.inl ⟨rfl, rfl⟩)

/-- The only child comes to the place, and still has the deleted node for its parent. -/
theorem mgBstreeDel_child (ha : At cmp h c (node l z d r)) (hc : c ≠ .top) (hlr : l = nil ∧ r = t ∨ l = t ∧ r = nil)
    (hy : t.root = some y) :
    Returns (mgBstreeDel fuel (some a) (some z)) h fun _ h' => ∃ n, h' y = some n ∧ n.parent = some z := by
  have hself := ha.self
  have htree : TreeAt cmp h (some z) t := by
    rcases hlr with ⟨rfl, rfl⟩ | ⟨rfl, rfl⟩
    · exact ha.tree.2.2
    · exact ha.tree.2.1
  have hyt : y ∈ (node l z d r).inorder := by
    rcases hlr with ⟨rfl, rfl⟩ | ⟨rfl, rfl⟩ <;> simp [mem_of_root hy]
  have hset : Returns (mgBstreeSetParentChild (some z) (some y)) h fun _ h' => ∃ n, h' y = some n ∧ n.parent = some z := by
    refine (mgBstreeSetParentChild_spec ha hc (some y)).mono ?_
    rintro _ _ rfl
    rw [relink_of_not_mem fun hyc => ha.not_mem hyc hyt]
    cases t with
    | nil => cases hy
    | node tl b e tr =>
      cases hy
      exact ⟨_, htree.1, rfl⟩
  unfold mgBstreeDel
  rw [if_neg (by simp)]
  rcases hlr with ⟨rfl, rfl⟩ | ⟨rfl, rfl⟩
  · simpa only [returns_bind, returns_lchildOf, returns_rchildOf, hself, Option.some.injEq, exists_eq_left', root_nil, hy, ne_eq,
      not_true_eq_false, true_or, if_true, if_false, reduceCtorEq, not_false_eq_true] using hset
  · simpa only [returns_bind, returns_lchildOf, returns_rchildOf, hself, Option.some.injEq, exists_eq_left', root_nil, hy, ne_eq,
      not_true_eq_false, or_true, if_true, if_false, reduceCtorEq, not_false_eq_true] using hset

omit [DecidableEq A] in
/-- The walk to the left ends at NULL. -/
theorem leftLoop_ensures (p : Ptr A) (n : Nat) : Ensures (loop leftRound n p) h fun p _ => p = none := by
  refine ensures_loop (fun _ _ => True) (fun p s _ => ?_) n p h trivial
  unfold leftRound
  simp only [ensures_ite, ensures_bind, ensures_pure]
  exact ⟨fun _ _ _ _ => trivial, fun hp => by simpa using hp⟩

/-- With two children the call dereferences NULL. -/
theorem mgBstreeDel_two (ha : At cmp h c (node l z d r)) (hl : l ≠ nil) (hr : r ≠ nil) (Q : Unit → Heap A (MgBsTree A) → Prop) :
    ¬ Returns (mgBstreeDel fuel (some a) (some z)) h Q := by
  intro hret
  have hself := ha.self
  unfold mgBstreeDel at hret
  rw [if_neg (by simp)] at hret
  simp only [returns_bind, returns_lchildOf, returns_rchildOf, hself, Option.some.injEq, exists_eq_left', root_eq_none, hl, hr,
    or_self, if_false] at hret
  obtain ⟨_, _, -, p, _, -, hret⟩ := hret
  obtain ⟨_, _, -, hret, rfl⟩ := hret.of_ensures (leftLoop_ensures p fuel)
  simp [parentOf] at hret

/-! ## One deletion -/

/-- A node without children. -/
def Leaf (h : Heap A (MgBsTree A)) (z : A) : Prop := ∃ n, h z = some n ∧ n.lchild = none ∧ n.rchild = none

/-- What a deletion is to leave. -/
def Deleted (cmp : A → A → Int) (T : BinTree A Unit) (a z : A) (h' : Heap A (MgBsTree A)) : Prop :=
  ∃ T' L R, T'.root = some a ∧ OrderedAt cmp h' T' ∧ T.inorder = L ++ z :: R ∧ T'.inorder = L ++ R

theorem mgBstreeDel_deleted (hT : OrderedAt cmp h T) (hroot : T.root = some a) (hz : z ∈ T.inorder) (hza : z ≠ a) (hleaf : Leaf h z) :
    Returns (mgBstreeDel fuel (some a) (some z)) h fun _ h' => Deleted cmp T a z h' := by
  obtain ⟨c, l, d, r, rfl⟩ := Ctx.exists_place hz
  have ha := at_plug.2 hT.place
  have hc : c ≠ .top := by
    rintro rfl
    exact hza (Option.some.inj hroot)
  obtain ⟨n, hn, hl, hr⟩ := hleaf
  rw [ha.self, Option.some.injEq] at hn
  subst hn
  obtain rfl := root_eq_none.1 hl
  obtain rfl := root_eq_none.1 hr
  refine (mgBstreeDel_leaf ha hc).mono fun _ h' hplace => ?_
  have hin : (c.plug (node nil z d nil)).inorder = c.before ++ z :: c.after := by simp [Ctx.inorder_plug]
  have hin' : (c.plug nil : BinTree A Unit).inorder = c.before ++ c.after := by simp [Ctx.inorder_plug]
  refine ⟨c.plug nil, c.before, c.after, ?_, ⟨at_plug.1 hplace, hin' ▸ (hin ▸ hT.sorted).erase⟩, hin, hin'⟩
  rw [← hroot]
  exact Ctx.root_plug_of_ne_top hc _ _

omit [DecidableEq A] in
/-- No node that is left has the deleted one for its parent. -/
theorem Deleted.parent_ne {n : MgBsTree A} (hd : Deleted cmp T a z h') (hT : T.inorder.Nodup) (hy : y ∈ T.inorder) (hyz : y ≠ z)
    (hn : h' y = some n) : n.parent ≠ some z := by
  obtain ⟨T', L, R, -, hT', hin, hin'⟩ := hd
  have hyT' : y ∈ T'.inorder := by
    rw [hin, List.mem_append, List.mem_cons] at hy
    rw [hin', List.mem_append]
    tauto
  intro hp
  obtain ⟨n', hn', hp'⟩ := hT'.place.tree.parent_of hyT'
  rw [hn, Option.some.injEq] at hn'
  subst hn'
  rw [hp] at hp'
  rcases hp' with hp' | ⟨w, hw, hp'⟩
  · cases hp'
  · cases hp'
    rw [hin, List.nodup_middle, List.nodup_cons] at hT
    exact hT.1 (hin' ▸ hw)

/-- A node other than the root is deleted as it should be if and only if it is a leaf. -/
theorem mgBstreeDel_iff (hT : OrderedAt cmp h T) (hroot : T.root = some a) (hz : z ∈ T.inorder) (hza : z ≠ a) :
    Returns (mgBstreeDel fuel (some a) (some z)) h (fun _ h' => Deleted cmp T a z h') ↔ Leaf h z := by
  refine ⟨fun hret => ?_, fun hleaf => mgBstreeDel_deleted hT hroot hz hza hleaf⟩
  obtain ⟨c, l, d, r, rfl⟩ := Ctx.exists_place hz
  have ha := at_plug.2 hT.place
  have hc : c ≠ .top := by
    rintro rfl
    exact hza (Option.some.inj hroot)
  have hn : (c.plug (node l z d r)).inorder.Nodup := by simpa using hT.place.nodup
  have hchild : ∀ {t : BinTree A Unit} {y : A}, (l = nil ∧ r = t ∨ l = t ∧ r = nil) → t.root = some y → False := by
    intro t y hlr hy
    obtain ⟨_, h', -, hdel, n, hn', hp⟩ := hret.and (mgBstreeDel_child ha hc hlr hy)
    have hyt := mem_of_root hy
    have hyz : y ≠ z := by
      rintro rfl
      have hnode := (List.nodup_append'.1 ha.nodup).1
      rw [inorder_node, List.nodup_middle, List.nodup_cons, List.mem_append, not_or] at hnode
      rcases hlr with ⟨rfl, rfl⟩ | ⟨rfl, rfl⟩
      · exact hnode.1.2 hyt
      · exact hnode.1.1 hyt
    refine hdel.parent_ne hn (Ctx.mem_inorder_plug.2 (.inl ?_)) hyz hn' hp
    rcases hlr with ⟨rfl, rfl⟩ | ⟨rfl, rfl⟩ <;> simp [hyt]
  refine ⟨_, ha.self, ?_⟩
  cases l with
  | nil =>
    cases r with
    | nil => exact ⟨rfl, rfl⟩
    | node rl b e rr => exact (hchild (.inl ⟨rfl, rfl⟩) rfl).elim
  | node ll b e lr =>
    cases r with
    | nil => exact (hchild (.inr ⟨rfl, rfl⟩) rfl).elim
    | node rl b' e' rr => exact absurd hret (mgBstreeDel_two ha (by simp) (by simp) _)

/-! ## Runs -/

/-- What a caller does with the tree of the root `a`. -/
inductive Op (A : Type)
  | init (z : A)
  | insert (z : A)
  | del (z : A)

def opOf (fuel : Nat) (a : A) (cmp : A → A → Int) : Op A → TreeProg A Unit
  | .init z => mgBstreeInitNode (some z) cmp
  | .insert z => do
    let _ ← mgBstreeInsert fuel (some a) (some z)
  | .del z => mgBstreeDel fuel (some a) (some z)

def step (fuel : Nat) (a : A) (cmp : A → A → Int) (h : Heap A (MgBsTree A)) (op : Op A) :
    Option (Except Fault (Heap A (MgBsTree A))) :=
  match opOf fuel a cmp op h with
  | .ok (_, h') => some (.ok h')
  | .error e => some (.error e)

/-- `z` is a node of the tree of the root `a`. -/
def InTree (cmp : A → A → Int) (a : A) (h : Heap A (MgBsTree A)) (z : A) : Prop :=
  ∃ T, T.root = some a ∧ OrderedAt cmp h T ∧ z ∈ T.inorder

/-- A node of the tree is not initialised again, what is inserted is new (or its key is there), and what is deleted is in the
tree and not its root. -/
def Legal (cmp : A → A → Int) (a : A) (h : Heap A (MgBsTree A)) : Op A → Prop
  | .init z => ¬ InTree cmp a h z
  | .insert z => Fresh cmp h z ∨ ∃ x, InTree cmp a h x ∧ cmp x z = 0
  | .del z => InTree cmp a h z ∧ z ≠ a

/-- What is deleted is a leaf. -/
def OnLeaf (h : Heap A (MgBsTree A)) : Op A → Prop
  | .init _ => True
  | .insert _ => True
  | .del z => Leaf h z

omit [DecidableEq A] in
theorem InTree.mem (hT : OrderedAt cmp h T) (hroot : T.root = some a) (hz : InTree cmp a h z) : z ∈ T.inorder := by
  obtain ⟨T', hroot', hT', hz⟩ := hz
  exact hT.linked.unique hT'.linked (hroot.trans hroot'.symm) ▸ hz

theorem returns_of_step {op : Op A} {Q : Unit → Heap A (MgBsTree A) → Prop} (hstep : step fuel a cmp h op = some (.ok h'))
    (hret : Returns (opOf fuel a cmp op) h Q) : Q () h' := by
  unfold step at hstep
  split at hstep
  · next hm =>
    cases hstep
    exact hret.of_eq hm
  · cases hstep

/-- One step of a run. -/
theorem step_ordered {op : Op A} (hcmp : TotalPreorder cmp) (hT : OrderedAt cmp h T) (hroot : T.root = some a) (hl : Legal cmp a h op)
    (hleaf : OnLeaf h op) (hf : T.size < fuel) (hstep : step fuel a cmp h op = some (.ok h')) :
    ∃ T', T'.root = some a ∧ OrderedAt cmp h' T' ∧ T'.size ≤ T.size + 1 := by
  cases op with
  | init z =>
    have hz : z ∉ T.inorder := fun hz => hl ⟨T, hroot, hT, hz⟩
    refine returns_of_step hstep (Q := fun _ h' => ∃ T', T'.root = some a ∧ OrderedAt cmp h' T' ∧ T'.size ≤ T.size + 1) ?_
    cases hn : h z with
    | none =>
      have hfault : step fuel a cmp h (.init z) = some (.error .dangling) := by
        simp [step, opOf, mgBstreeInitNode, store, hn]
      rw [hstep] at hfault
      cases hfault
    | some n =>
      simp only [opOf, mgBstreeInitNode, returns_store, hn, Option.some.injEq, exists_eq_left']
      exact ⟨T, hroot, ⟨hT.place.frame fun x hx => Function.update_of_ne (fun e : x = z => hz (e ▸ hx)) _ _, hT.sorted⟩, by omega⟩
  | insert z =>
    have hz : (∀ x ∈ T.inorder, cmp x z ≠ 0) → Fresh cmp h z := by
      intro hall
      refine hl.resolve_right ?_
      rintro ⟨x, hx, hxz⟩
      exact hall x (hx.mem hT hroot) hxz
    refine returns_of_step hstep (Q := fun _ h' => ∃ T', T'.root = some a ∧ OrderedAt cmp h' T' ∧ T'.size ≤ T.size + 1) ?_
    simp only [opOf, returns_bind, returns_pure]
    refine (mgBstreeInsert_spec hcmp hT hroot hz hf).mono ?_
    rintro _ h' ⟨T', hroot', hT', hins⟩
    refine ⟨T', hroot', hT', ?_⟩
    cases hins with
    | present hold => omega
    | absent c _ hall hung =>
      rw [← hung.inorder, Ctx.size_plug, Ctx.size_plug]
      simp only [size]
      omega
  | del z =>
    have hz := hl.1.mem hT hroot
    obtain ⟨T', L, R, hroot', hT', hin, hin'⟩ := returns_of_step hstep (mgBstreeDel_deleted hT hroot hz hl.2 hleaf)
    refine ⟨T', hroot', hT', ?_⟩
    rw [← length_inorder, ← length_inorder, hin, hin']
    simp only [List.length_append, List.length_cons]
    omega

theorem run_ordered {ops : List (Op A)} {h₀ : Heap A (MgBsTree A)} (hcmp : TotalPreorder cmp) (ha : Fresh cmp h₀ a)
    (hrun : Run (step fuel a cmp) (fun h op => Legal cmp a h op ∧ OnLeaf h op) h₀ ops h) (hf : ops.length + 1 < fuel) :
    ∃ T, T.root = some a ∧ OrderedAt cmp h T := by
  have hinv := hrun.inv_past
    (fun ops h => ops.length + 1 < fuel → ∃ T, T.root = some a ∧ OrderedAt cmp h T ∧ T.size ≤ ops.length + 1) (fun _ => ?_) ?_
  · obtain ⟨T, hroot, hT, -⟩ := hinv hf
    exact ⟨T, hroot, hT⟩
  · exact ⟨node nil a () nil, rfl, ⟨⟨⟨ha, trivial, trivial⟩, trivial, by simp⟩, by simp [StrictSorted]⟩, by simp [size]⟩
  · intro ops h op h' ih hok hstep hlen
    rw [List.length_append, List.length_singleton] at hlen ⊢
    obtain ⟨T, hroot, hT, hsize⟩ := ih (by omega)
    obtain ⟨T', hroot', hT', hsize'⟩ := step_ordered hcmp hT hroot hok.1 hok.2 (by omega) hstep
    exact ⟨T', hroot', hT', by omega⟩

/-- After every run of insertions and of deletions of leaves the tree is in strict order with right parents, and the deletion of
a further node other than the root does what it is for if and only if that node is a leaf. -/
theorem mg_bstree_del_run (hcmp : TotalPreorder cmp) (h₀ h : Heap A (MgBsTree A)) (a : A) (ha : Fresh cmp h₀ a) (fuel : Nat)
    (ops : List (Op A)) (hrun : Run (step fuel a cmp) (fun h op => Legal cmp a h op ∧ OnLeaf h op) h₀ ops h)
    (hf : ops.length + 1 < fuel) :
    ∃ T, T.root = some a ∧ OrderedAt cmp h T ∧ ∀ z ∈ T.inorder, z ≠ a →
      (Returns (mgBstreeDel fuel (some a) (some z)) h (fun _ h' => Deleted cmp T a z h') ↔ Leaf h z) := by
  obtain ⟨T, hroot, hT⟩ := run_ordered hcmp ha hrun hf
  exact ⟨T, hroot, hT, fun z hz hza => mgBstreeDel_iff hT hroot hz hza⟩

theorem chained_run (ok : Heap Nat (MgBsTree Nat) → Op Nat → Prop) (hok : ∀ h z, Fresh halfCmp h z → ok h (.insert z)) :
    Run (step 5 2 halfCmp) ok allNew [.insert 4, .insert 6] chained := by
  have h₁ : Run (step 5 2 halfCmp) ok allNew [.insert 4] _ := .snoc .nil (hok _ _ (by rfl)) (by rfl)
  exact .snoc h₁ (hok _ _ (by rfl)) (by rfl)

/-- The leaf 6 is deleted, and then 4 is a leaf. -/
theorem mg_bstree_del_run_leaf :
    ∃ T, T.root = some 2 ∧ OrderedAt halfCmp (Function.update chained 4 (some ⟨(), some 2, none, none, halfCmp⟩)) T ∧
      ∀ z ∈ T.inorder, z ≠ 2 → (Returns (mgBstreeDel 5 (some 2) (some z))
        (Function.update chained 4 (some ⟨(), some 2, none, none, halfCmp⟩)) (fun _ h' => Deleted halfCmp T 2 z h') ↔
        Leaf (Function.update chained 4 (some ⟨(), some 2, none, none, halfCmp⟩)) z) :=
  mg_bstree_del_run halfCmp_preorder allNew _ 2 rfl 5 [.insert 4, .insert 6, .del 6]
    (.snoc (chained_run _ fun _ _ h => ⟨.inl h, trivial⟩)
      ⟨⟨⟨_, rfl, chained_ordered, by simp⟩, by decide⟩, _, rfl, rfl, rfl⟩ rfl) (by decide)

/-- The node 6 takes the place of 4 and keeps it for its parent. -/
theorem mg_bstree_del_parent :
    ¬ ∀ (h₀ h : Heap Nat (MgBsTree Nat)) (cmp : Nat → Nat → Int) (a fuel : Nat) (ops : List (Op Nat)), TotalPreorder cmp →
      Fresh cmp h₀ a → Run (step fuel a cmp) (Legal cmp a) h₀ ops h → ops.length + 1 < fuel →
      ∃ T, T.root = some a ∧ OrderedAt cmp h T ∧ ∀ z ∈ T.inorder, z ≠ a →
        Returns (mgBstreeDel fuel (some a) (some z)) h fun _ h' => Deleted cmp T a z h' := by
  intro hall
  obtain ⟨T, hroot, hT, hdel⟩ := hall allNew chained halfCmp 2 5 [.insert 4, .insert 6] halfCmp_preorder rfl
    (chained_run _ fun _ _ h => .inl h) (by decide)
  obtain rfl := hT.linked.unique chained_ordered.linked hroot
  obtain ⟨n, hn, -, hr⟩ := (mgBstreeDel_iff hT hroot (by simp) (by decide)).1 (hdel 4 (by simp) (by decide))
  rw [show chained 4 = some ⟨(), some 2, none, some 6, halfCmp⟩ from rfl, Option.some.injEq] at hn
  subst hn
  cases hr

end MgStd.Bstree
