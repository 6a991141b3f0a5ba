import Mathlib.Algebra.Group.Nat.Defs
import MgStd.Lib.Descent
import MgStd.RbTree.Insert
/-!
# The height of a red-black tree

The black height bounds the levels of a tree from above and its nodes from below.
So the loops that go down a tree stand at few nodes, in whatever order the nodes
were inserted.
-/

namespace MgStd.RbTree

open MgStd.Lib BinTree

variable {A : Type} {cmp : A → A → Int} {h : Heap A (MgrbtreeT A)} {t T : ColorTree A} {n k fuel : Nat}

/-! ## Levels and nodes -/

theorem Rb.pow_le_size (h : Rb t n) : 2 ^ n ≤ t.size + 1 := by
  induction t generalizing n with
  | nil =>
    obtain rfl := rb_nil.1 h
    exact Nat.le_refl 1
  | node l a d r ihl ihr =>
    rw [size]
    cases d with
    | mgRed =>
      obtain ⟨-, hl, -⟩ := rb_red.1 h
      have hleft := ihl hl
      omega
    | mgBlack =>
      obtain ⟨k, rfl, hl, hr⟩ := rb_black.1 h
      have hleft := ihl hl
      have hright := ihr hr
      rw [Nat.pow_succ]
      omega

/-- Above every red node there is a black one, but for the root. -/
theorem Rb.levels_le (h : Rb t n) : t.levels ≤ 2 * n + 1 ∧ (color t = .mgBlack → t.levels ≤ 2 * n) := by
  induction t generalizing n with
  | nil => exact ⟨Nat.zero_le _, fun _ => Nat.zero_le _⟩
  | node l a d r ihl ihr =>
    rw [levels]
    cases d with
    | mgRed =>
      -- the children are black and give back the level that the red node takes
      obtain ⟨⟨hlc, hrc⟩, hl, hr⟩ := rb_red.1 h
      have hleft := (ihl hl).2 hlc
      have hright := (ihr hr).2 hrc
      exact ⟨by omega, nofun⟩
    | mgBlack =>
      obtain ⟨k, rfl, hl, hr⟩ := rb_black.1 h
      have hleft := (ihl hl).1
      have hright := (ihr hr).1
      exact ⟨by omega, fun _ => by omega⟩

theorem RedBlack.pow_levels_le (h : RedBlack t) : 2 ^ t.levels ≤ (t.size + 1) ^ 2 := by
  obtain ⟨hblack, n, hn⟩ := redBlack_top.1 h
  calc 2 ^ t.levels ≤ 2 ^ (n * 2) := Nat.pow_le_pow_right (by decide) (by rw [Nat.mul_comm]; exact hn.levels_le.2 hblack)
    _ = (2 ^ n) ^ 2 := Nat.pow_mul 2 n 2
    _ ≤ (t.size + 1) ^ 2 := Nat.pow_le_pow_left hn.pow_le_size 2

/-! ## Ways down -/

/-- `mgrbtree_search`, with the nodes that it inspects. -/
def searchInspected (fuel : Nat) (root node : Ptr A) : TreeProg A (List A × Ptr A) := walked id (searchRound node) fuel root

/-- The walk of `mgrbtree_insert` to the parent of the new node, with the nodes on it. -/
def insertInspected (fuel : Nat) (root node : Ptr A) : TreeProg A (List A × Ptr A) :=
  walked Prod.snd (insertWalkRound node) fuel (none, root)

/-- `mgrbtree_min_node`, with the nodes that it inspects. -/
def minInspected (fuel : Nat) (root : Ptr A) : TreeProg A (List A × Ptr A) :=
  if root = none then pure ([], none) else walked id leftmostRound fuel root

/-- `mgrbtree_max_node`, with the nodes that it inspects. -/
def maxInspected (fuel : Nat) (root : Ptr A) : TreeProg A (List A × Ptr A) :=
  if root = none then pure ([], none) else walked id rightmostRound fuel root

/-- A node is compared, and the loop goes on with one of its children. -/
theorem returns_searchInspected (hl : LinkedAt cmp h T) (q : A) (hf : T.size < fuel) :
    Returns (searchInspected fuel T.root (some q)) h fun v h' => h' = h ∧ v.1.length ≤ T.levels := by
  refine returns_walked (fun t x => x = t.root ∧ LinkedAt cmp h t) (fun t x hx => hx.1) ?_ ?_ ⟨rfl, hl⟩ hf
  · rintro _ ⟨rfl, -⟩
    simp [searchRound]
  · rintro l a d r _ ⟨rfl, ⟨p, ha⟩, hl, hr⟩
    simp only [searchRound, root_node, ne_eq, reduceCtorEq, not_false_eq_true, if_true, returns_bind, returns_callCmp,
      returns_ite, returns_lchildOf, returns_rchildOf, returns_pure, ha, Option.some.injEq, exists_eq_left', exists_eq', Sum.inl.injEq,
      forall_eq', hl, hr, false_implies, implies_true, and_true, true_and, true_or, or_true]

theorem returns_insertInspected (hl : LinkedAt cmp h T) (z : A) (hf : T.size < fuel) :
    Returns (insertInspected fuel T.root (some z)) h fun v h' => h' = h ∧ v.1.length ≤ T.levels := by
  refine returns_walked (fun t x => x.2 = t.root ∧ LinkedAt cmp h t) (fun t x hx => hx.1) ?_ ?_ ⟨rfl, hl⟩ hf
  · rintro ⟨p, _⟩ ⟨rfl, -⟩
    simp [insertWalkRound]
  · rintro l a d r ⟨p, _⟩ ⟨rfl, ⟨p', ha⟩, hl, hr⟩
    simp only [insertWalkRound, root_node, ne_eq, reduceCtorEq, not_false_eq_true, if_true, returns_bind, returns_callCmp,
      returns_ite, returns_lchildOf, returns_rchildOf, returns_pure, ha, Option.some.injEq, exists_eq_left', exists_eq', Sum.inl.injEq,
      forall_eq', hl, hr, implies_true, and_true, true_and, true_or, or_true]

/-- A loop that only goes on to a child that is there. -/
theorem returns_endInspected {body : Ptr A → TreeProg A (Ptr A ⊕ Ptr A)} (hl : LinkedAt cmp h T) (hf : T.size < fuel)
    (hbody : ∀ l a d r, LinkedAt cmp h (node l a d r) → Returns (body (some a)) h fun v h' =>
      h' = h ∧ ∀ y, v = .inl y → y ≠ none ∧ (y = l.root ∨ y = r.root)) :
    Returns (if T.root = none then pure ([], none) else walked id body fuel T.root) h fun v h' =>
      h' = h ∧ v.1.length ≤ T.levels := by
  by_cases hne : T.root = none
  · rw [if_pos hne, returns_pure]
    exact ⟨rfl, Nat.zero_le _⟩
  rw [if_neg hne]
  refine returns_walked (fun t x => x = t.root ∧ x ≠ none ∧ LinkedAt cmp h t) (fun t x hx => hx.1) ?_ ?_ ⟨rfl, hne, hl⟩ hf
  · rintro _ ⟨rfl, hroot, -⟩
    exact absurd rfl hroot
  · rintro l a d r _ ⟨rfl, -, hnode⟩
    refine (hbody l a d r hnode).mono ?_
    rintro v _ ⟨rfl, hv⟩
    refine ⟨rfl, fun y hy => ?_⟩
    obtain ⟨hchild, rfl | rfl⟩ := hv y hy
    · exact .inl ⟨rfl, hchild, hnode.2.1⟩
    · exact .inr ⟨rfl, hchild, hnode.2.2⟩

theorem returns_minInspected (hl : LinkedAt cmp h T) (hf : T.size < fuel) :
    Returns (minInspected fuel T.root) h fun v h' => h' = h ∧ v.1.length ≤ T.levels := by
  refine returns_endInspected hl hf ?_
  rintro l a d r ⟨⟨p, ha⟩, -⟩
  simp only [leftmostRound, returns_bind, returns_ite, returns_lchildOf, returns_pure, ha, Option.some.injEq, exists_eq_left',
    Sum.inl.injEq, forall_eq']
  exact ⟨fun hroot => ⟨trivial, hroot, .inl trivial⟩, fun _ => ⟨trivial, fun _ h => by cases h⟩⟩

theorem returns_maxInspected (hl : LinkedAt cmp h T) (hf : T.size < fuel) :
    Returns (maxInspected fuel T.root) h fun v h' => h' = h ∧ v.1.length ≤ T.levels := by
  refine returns_endInspected hl hf ?_
  rintro l a d r ⟨⟨p, ha⟩, -⟩
  simp only [rightmostRound, returns_bind, returns_ite, returns_rchildOf, returns_pure, ha, Option.some.injEq, exists_eq_left',
    Sum.inl.injEq, forall_eq']
  exact ⟨fun hroot => ⟨trivial, hroot, .inr trivial⟩, fun _ => ⟨trivial, fun _ h => by cases h⟩⟩

/-! ## Runs -/

/-- What is left out of `mgrbtree_insert` by its walk. -/
theorem mgrbtreeInsert_inspected [DecidableEq A] (fuel : Nat) (root node : Ptr A) :
    mgrbtreeInsert fuel root node = (insertInspected fuel root node >>= fun v => do
      let root ← insertLink root node v.2
      fixupInsertMgrbtreeT fuel root node) := by
  rw [mgrbtreeInsert, loop_eq_walked Prod.snd, insertInspected, bind_map_left]

theorem mgrbtreeMinNode_inspected (fuel : Nat) (root : Ptr A) :
    mgrbtreeMinNode fuel root = Prod.snd <$> minInspected fuel root := by
  unfold mgrbtreeMinNode minInspected
  split
  · rfl
  · exact loop_eq_walked id leftmostRound fuel root

theorem mgrbtreeMaxNode_inspected (fuel : Nat) (root : Ptr A) :
    mgrbtreeMaxNode fuel root = Prod.snd <$> maxInspected fuel root := by
  unfold mgrbtreeMaxNode maxInspected
  split
  · rfl
  · exact loop_eq_walked id rightmostRound fuel root

/-- Of the `n` nodes of a tree few are inspected, and none is changed. -/
def InspectsFew (m : TreeProg A (List A × Ptr A)) (h : Heap A (MgrbtreeT A)) (n : Nat) : Prop :=
  Returns m h fun v h' => h' = h ∧ 2 ^ v.1.length ≤ (n + 1) ^ 2

theorem RedBlack.inspectsFew {m : TreeProg A (List A × Ptr A)} (hT : RedBlack T)
    (hm : Returns m h fun v h' => h' = h ∧ v.1.length ≤ T.levels) : InspectsFew m h T.size :=
  hm.mono fun _ _ hv => ⟨hv.1, Nat.le_trans (Nat.pow_le_pow_right (by decide) hv.2) hT.pow_levels_le⟩

/-- After every run of insertions into the empty tree, a search for any node, the
walk of the next insertion and the walks to both ends inspect `k` of the `n` nodes
with `2 ^ k ≤ (n + 1) ^ 2`. -/
theorem mgrbtree_height_bound [DecidableEq A] (hcmp : TotalPreorder cmp) (h : Heap A (MgrbtreeT A)) (zs : List A) (hn : zs.Nodup)
    (hi : Initialised cmp h zs) (fuel : Nat) (hf : zs.length < fuel) :
    Returns (insertEach fuel none zs) h fun root h₁ => ∃ T, root = T.root ∧ RbAt cmp h₁ T ∧ T.inorder.Perm zs ∧
      (∀ q, mgrbtreeSearch fuel root (some q) = Prod.snd <$> searchInspected fuel root (some q) ∧
        InspectsFew (searchInspected fuel root (some q)) h₁ T.size) ∧
      (∀ z, mgrbtreeInsert fuel root (some z) = (insertInspected fuel root (some z) >>= fun v => do
          let root' ← insertLink root (some z) v.2
          fixupInsertMgrbtreeT fuel root' (some z)) ∧
        InspectsFew (insertInspected fuel root (some z)) h₁ T.size) ∧
      (mgrbtreeMinNode fuel root = Prod.snd <$> minInspected fuel root ∧ InspectsFew (minInspected fuel root) h₁ T.size) ∧
      (mgrbtreeMaxNode fuel root = Prod.snd <$> maxInspected fuel root ∧ InspectsFew (maxInspected fuel root) h₁ T.size) := by
  have hsum : (zs ++ (nil : ColorTree A).inorder).Nodup := by rwa [inorder_nil, List.append_nil]
  have hrounds : (nil : ColorTree A).size + zs.length ≤ fuel := by
    rw [size]
    omega
  refine (insertEach_spec hcmp rbAt_nil hsum hi hrounds).mono ?_
  rintro _ h₁ ⟨T, rfl, hT, hperm, -⟩
  rw [inorder_nil, List.append_nil] at hperm
  have hsize : T.size < fuel := by
    rw [← length_inorder, hperm.length_eq]
    exact hf
  have hl := hT.place.tree.linked
  refine ⟨T, rfl, hT, hperm, fun q => ⟨loop_eq_walked id _ _ _, ?_⟩, fun z => ⟨mgrbtreeInsert_inspected _ _ _, ?_⟩,
    ⟨mgrbtreeMinNode_inspected _ _, ?_⟩, ⟨mgrbtreeMaxNode_inspected _ _, ?_⟩⟩
  · exact hT.red_black.inspectsFew (returns_searchInspected hl q hsize)
  · exact hT.red_black.inspectsFew (returns_insertInspected hl z hsize)
  · exact hT.red_black.inspectsFew (returns_minInspected hl hsize)
  · exact hT.red_black.inspectsFew (returns_maxInspected hl hsize)

/-- Four nodes with one key, all to the right of each other. -/
theorem mgrbtree_height_bound_equal :
    Returns (insertEach 5 none [1, 2, 3, 4]) (fun _ => some ⟨.mgBlack, none, none, none, fun _ _ : Nat => 0⟩)
      fun root h₁ => ∃ T : ColorTree Nat, root = T.root ∧ T.inorder.Perm [1, 2, 3, 4] ∧
        (∀ q, InspectsFew (searchInspected 5 root (some q)) h₁ T.size) ∧
        (∀ z, InspectsFew (insertInspected 5 root (some z)) h₁ T.size) := by
  have hcmp : TotalPreorder fun _ _ : Nat => (0 : Int) := TotalPreorder.of_key fun _ => 0
  refine (mgrbtree_height_bound hcmp _ [1, 2, 3, 4] (by decide) (fun z _ => ⟨_, rfl, rfl⟩) 5 (by decide)).mono ?_
  rintro root h₁ ⟨T, hroot, -, hperm, hsearch, hinsert, -⟩
  exact ⟨T, hroot, hperm, fun q => (hsearch q).2, fun z => (hinsert z).2⟩

end MgStd.RbTree
