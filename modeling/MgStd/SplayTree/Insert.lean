import MgStd.SplayTree.Splay
/-!
# Insertion

A node of a new key is hung above the whole tree, which goes to one side of it.
That keeps the order only when the new key is below or above all that are there.
-/

namespace MgStd.SplayTree

open MgStd.Lib BinTree

variable {A : Type} [DecidableEq A] {cmp : A → A → Int} {h h' : Heap A (MgSplaytree A)} {l r T : BinTree A Unit}
  {a x z : A} {d : Unit} {search : Ptr A → Ptr A → TreeProg A (Ptr A)} {fuel : Nat}

/-- The new node above the old tree. -/
def hung (cmp : A → A → Int) (z : A) : BinTree A Unit → BinTree A Unit
  | nil => node nil z () nil
  | node l a d r => if 0 < cmp a z then node nil z () (node l a d r) else node (node l a d r) z () nil

omit [DecidableEq A] in
theorem root_hung : (hung cmp z T).root = some z := by
  cases T with
  | nil => rfl
  | node l a d r =>
    rw [hung]
    split <;> rfl

/-- The links of a node `z` above a tree. -/
theorem hang_spec (ha : At cmp h .top T) (hz : z ∉ T.inorder) (hlr : l = nil ∧ r = T ∨ l = T ∧ r = nil)
    (hself : h' z = some ⟨(), none, l.root, r.root, cmp⟩) (helse : ∀ x, x ≠ z → h' x = adopt h T.root (some z) x) :
    At cmp h' .top (node l z () r) := by
  have hn : T.inorder.Nodup := by simpa using ha.nodup
  have htree : TreeAt cmp h' (some z) T :=
    (treeAt_adopt ha.tree hn).frame fun x hx => helse x fun e => hz (e ▸ hx)
  rcases hlr with ⟨rfl, rfl⟩ | ⟨rfl, rfl⟩
  · exact ⟨⟨hself, trivial, htree⟩, trivial, by simpa using ⟨hz, hn⟩⟩
  · exact ⟨⟨hself, htree, trivial⟩, trivial, by simp [List.nodup_append', hn, hz]⟩

/-- A new key: the whole tree goes to one side. -/
theorem mgSplaytreeInsert_absent (hT : OrderedAt cmp h T) (hz : h z = some ⟨(), none, none, none, cmp⟩) (hzT : z ∉ T.inorder)
    (hall : ∀ x ∈ T.inorder, cmp x z ≠ 0)
    (hsearch : Returns (search T.root (some z)) h fun p h' => h' = h ∧ Finds cmp T z p) (hf : T.size < fuel) :
    Returns (mgSplaytreeInsert search fuel T.root (some z)) h fun root h' =>
      root = some z ∧ At cmp h' .top (hung cmp z T) := by
  unfold mgSplaytreeInsert
  simp only [reduceCtorEq, if_false]
  refine (mgSplaytreeSplayNodeToRoot_spec hT.place hsearch hf).bind ?_
  rintro _ _ (⟨_, x, _, _, hx, hq, -⟩ | -)
  · exact absurd hq (hall x hx)
  cases T with
  | nil =>
    simp only [root_nil, if_true, returns_pure, true_and]
    exact ⟨⟨hz, trivial, trivial⟩, trivial, by simp [hung]⟩
  | node l a d r =>
    have hself := hT.place.self
    have haz : a ≠ z := fun e => hzT (by simp [e])
    have hne := hall a (by simp)
    have helse : ∀ (n₁ n₂ n₃ : Option (MgSplaytree A)) (x : A), x ≠ z →
        Function.update (Function.update (Function.update (Function.update h z n₁) a (some ⟨d, some z, l.root, r.root, cmp⟩))
          z n₂) z n₃ x = adopt h (some a) (some z) x := fun n₁ n₂ n₃ x hx => by
      rw [adopt_some hself, Function.update_of_ne hx, Function.update_of_ne hx]
      by_cases hxa : x = a
      · rw [hxa, Function.update_self, Function.update_self]
      · rw [Function.update_of_ne hxa, Function.update_of_ne hxa, Function.update_of_ne hx]
    simp only [root_node, reduceCtorEq, if_false, returns_bind, returns_callCmp, hself, Option.some.injEq, exists_eq_left',
      returns_ite, returns_setRchild, returns_setLchild, returns_setParent, hz, haz, haz.symm, Function.update_self, ne_eq,
      not_false_eq_true, Function.update_of_ne, returns_pure, true_and]
    refine ⟨fun hgt => ?_, fun hle => ⟨fun _ => ?_, fun hge => absurd (by omega) hne⟩⟩
    · rw [hung, if_pos hgt]
      exact hang_spec hT.place hzT (.inl ⟨rfl, rfl⟩) (Function.update_self ..) (helse _ _ _)
    · rw [hung, if_neg hle]
      exact hang_spec hT.place hzT (.inr ⟨rfl, rfl⟩) (Function.update_self ..) (helse _ _ _)

/-- A key that is there: its node comes to the root. -/
theorem mgSplaytreeInsert_present (hcmp : TotalPreorder cmp) (hT : OrderedAt cmp h T) (hx : x ∈ T.inorder) (hxz : cmp x z = 0)
    (hsearch : Returns (search T.root (some z)) h fun p h' => h' = h ∧ Finds cmp T z p) (hf : T.size < fuel) :
    Returns (mgSplaytreeInsert search fuel T.root (some z)) h fun root h' => ∃ T', root = some x ∧ T'.root = some x ∧
      OrderedAt cmp h' T' ∧ T'.inorder = T.inorder := by
  unfold mgSplaytreeInsert
  simp only [reduceCtorEq, if_false]
  refine (mgSplaytreeSplayNodeToRoot_spec hT.place hsearch hf).bind ?_
  rintro _ _ (⟨l, y, r, h', hy, hq, hr⟩ | hall)
  · obtain rfl : x = y := hT.sorted.eq_of hcmp hx hy (hcmp.eq_trans hxz (hcmp.eq_symm hq))
    simp only [reduceCtorEq, if_false, returns_bind, returns_callCmp, hr.place.self, Option.some.injEq, exists_eq_left', hq,
      Int.lt_irrefl, returns_pure, returns_ite, false_implies, not_false_eq_true, true_implies, true_and]
    exact ⟨node l x () r, rfl, Rearranged.ordered hT hr, hr.inorder⟩
  · exact absurd hxz (hall x hx)

omit [DecidableEq A] in
theorem hung_sorted_iff (hcmp : TotalPreorder cmp) (hs : StrictSorted cmp T.inorder) (hall : ∀ x ∈ T.inorder, cmp x z ≠ 0) :
    StrictSorted cmp (hung cmp z T).inorder ↔ (∀ x ∈ T.inorder, cmp x z < 0) ∨ ∀ x ∈ T.inorder, 0 < cmp x z := by
  cases T with
  | nil => simp [hung, StrictSorted]
  | node l a d r =>
    have hne := hall a (by simp)
    rw [hung]
    split
    · next hgt =>
      change List.Pairwise _ (z :: (node l a d r).inorder) ↔ _
      rw [List.pairwise_cons]
      constructor
      · exact fun hz => .inr fun x hx => (hcmp.swap z x).1 (hz.1 x hx)
      · rintro (hlt | hgt')
        · have := hlt a (by simp)
          omega
        · exact ⟨fun x hx => (hcmp.swap z x).2 (hgt' x hx), hs⟩
    · next hle =>
      change List.Pairwise _ ((node l a d r).inorder ++ [z]) ↔ _
      rw [List.pairwise_append]
      constructor
      · exact fun hz => .inl fun x hx => hz.2.2 x hx z (by simp)
      · rintro (hlt | hgt)
        · exact ⟨hs, by simp, by simpa using hlt⟩
        · exact absurd (hgt a (by simp)) hle

/-- What an insertion is to leave. -/
structure Inserted (cmp : A → A → Int) (T : BinTree A Unit) (z : A) (root : Ptr A) (h' : Heap A (MgSplaytree A)) : Prop where
  absent : (∀ x ∈ T.inorder, cmp x z ≠ 0) → ∃ T' L R, root = some z ∧ T'.root = some z ∧ OrderedAt cmp h' T' ∧
    T.inorder = L ++ R ∧ T'.inorder = L ++ z :: R
  present : ∀ x ∈ T.inorder, cmp x z = 0 → ∃ T', root = some x ∧ T'.root = some x ∧ OrderedAt cmp h' T' ∧
    ∀ y, y ∈ T'.inorder ↔ y ∈ T.inorder

/-- `mg_splaytree_insert` does what it is for if and only if the key is there, or all keys are below or all above it. -/
theorem mg_splaytree_insert_iff (hcmp : TotalPreorder cmp) (hT : OrderedAt cmp h T) (hz : h z = some ⟨(), none, none, none, cmp⟩)
    (hsearch : Returns (search T.root (some z)) h fun p h' => h' = h ∧ Finds cmp T z p) (hf : T.size < fuel) :
    Returns (mgSplaytreeInsert search fuel T.root (some z)) h (Inserted cmp T z) ↔
      (∃ x ∈ T.inorder, cmp x z = 0) ∨ (∀ x ∈ T.inorder, cmp x z < 0) ∨ ∀ x ∈ T.inorder, 0 < cmp x z := by
  by_cases hold : ∃ x ∈ T.inorder, cmp x z = 0
  · obtain ⟨x, hx, hxz⟩ := hold
    refine iff_of_true ?_ (.inl ⟨x, hx, hxz⟩)
    refine (mgSplaytreeInsert_present hcmp hT hx hxz hsearch hf).mono ?_
    rintro _ h' ⟨T', rfl, hroot, hT', hin⟩
    refine ⟨fun hall => absurd hxz (hall x hx), fun y hy hyz => ⟨T', ?_, ?_, hT', fun w => by rw [hin]⟩⟩
    · rw [hT.sorted.eq_of hcmp hy hx (hcmp.eq_trans hyz (hcmp.eq_symm hxz))]
    · rw [hroot, hT.sorted.eq_of hcmp hy hx (hcmp.eq_trans hyz (hcmp.eq_symm hxz))]
  · have hall : ∀ x ∈ T.inorder, cmp x z ≠ 0 := fun x hx hxz => hold ⟨x, hx, hxz⟩
    have hzT : z ∉ T.inorder := fun hzT => hall z hzT (hcmp.refl z)
    have hspec := mgSplaytreeInsert_absent hT hz hzT hall hsearch hf
    rw [or_iff_right hold, ← hung_sorted_iff hcmp hT.sorted hall]
    constructor
    · intro hret
      obtain ⟨root, h', -, hins, -, hplace⟩ := hret.and hspec
      obtain ⟨T', L, R, -, hroot, hT', -⟩ := hins.absent hall
      -- the heap holds one tree below the new node
      have hsame := hT'.linked.unique hplace.tree.linked (hroot.trans root_hung.symm)
      rw [← hsame]
      exact hT'.sorted
    · intro hsorted
      refine hspec.mono ?_
      rintro _ h' ⟨rfl, hplace⟩
      refine ⟨fun _ => ?_, fun x hx hxz => absurd hxz (hall x hx)⟩
      cases T with
      | nil => exact ⟨_, [], [], rfl, root_hung, ⟨hplace, hsorted⟩, rfl, rfl⟩
      | node l a d r =>
        by_cases hgt : 0 < cmp a z
        · exact ⟨_, [], (node l a d r).inorder, rfl, root_hung, ⟨hplace, hsorted⟩, rfl, by simp [hung, hgt]⟩
        · exact ⟨_, (node l a d r).inorder, [], rfl, root_hung, ⟨hplace, hsorted⟩, (List.append_nil _).symm, by simp [hung, hgt]⟩

/-- The nodes 2 and 6 in a tree, and the new nodes 4 and 8. -/
def apart : Heap Nat (MgSplaytree Nat) := fun x =>
  if x = 2 then some ⟨(), none, none, some 6, halfCmp⟩
  else if x = 6 then some ⟨(), some 2, none, none, halfCmp⟩
  else if x = 4 ∨ x = 8 then some ⟨(), none, none, none, halfCmp⟩
  else none

theorem apart_ordered : OrderedAt halfCmp apart (node nil 2 () (node nil 6 () nil)) :=
  ⟨⟨⟨rfl, trivial, rfl, trivial, trivial⟩, trivial, by decide⟩, by simp [StrictSorted, halfCmp]⟩

/-- The key of 8 is above all keys. -/
theorem mg_splaytree_insert_iff_above :
    Returns (mgSplaytreeInsert (searchReturned 3) 3 (some 2) (some 8)) apart
      (Inserted halfCmp (node nil 2 () (node nil 6 () nil)) 8) :=
  (mg_splaytree_insert_iff halfCmp_preorder apart_ordered rfl (searchReturned_finds halfCmp_preorder apart_ordered 8 (by decide))
    (by decide)).2 (by simp [halfCmp])

/-- The key of 4 is between the two, and the node 6 ends up on its left. -/
theorem mg_splaytree_insert_between :
    ¬ ∀ (h : Heap Nat (MgSplaytree Nat)) (cmp : Nat → Nat → Int) (T : BinTree Nat Unit) (z fuel : Nat)
      (search : Ptr Nat → Ptr Nat → TreeProg Nat (Ptr Nat)), TotalPreorder cmp → OrderedAt cmp h T →
      h z = some ⟨(), none, none, none, cmp⟩ →
      Returns (search T.root (some z)) h (fun p h' => h' = h ∧ Finds cmp T z p) → T.size < fuel →
      Returns (mgSplaytreeInsert search fuel T.root (some z)) h (Inserted cmp T z) := by
  intro hall
  have hsearch := searchReturned_finds halfCmp_preorder apart_ordered 4 (show _ < 3 by decide)
  have hnew : ∀ x ∈ (node nil 2 () (node nil 6 () nil)).inorder, halfCmp x 4 ≠ 0 := by simp [halfCmp]
  have hret := hall apart _ _ 4 3 _ halfCmp_preorder apart_ordered rfl hsearch (by decide)
  obtain ⟨root, h', -, hins, -, hplace⟩ :=
    hret.and (mgSplaytreeInsert_absent apart_ordered rfl (by simp) hnew hsearch (by decide))
  obtain ⟨T', -, -, -, hroot, hT', -⟩ := hins.absent hnew
  have hsame := hT'.linked.unique hplace.tree.linked (hroot.trans root_hung.symm)
  have hsorted := hT'.sorted
  rw [hsame] at hsorted
  simp [hung, StrictSorted, halfCmp] at hsorted

end MgStd.SplayTree
