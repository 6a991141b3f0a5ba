import MgStd.Lib.Rotation
import MgStd.SplayTree.Search
/-!
# Splaying

Single rotations bring the node that was found up to the root, one level in each
round. They keep the sequence of the nodes and leave the links right, whatever
mix of left and right steps it takes.
-/

namespace MgStd.SplayTree

open MgStd.Lib BinTree

variable {A : Type} [DecidableEq A] {cmp : A → A → Int} {h h' : Heap A (MgSplaytree A)} {c : Ctx A Unit}
  {l m r T : BinTree A Unit} {a b q x : A} {d e : Unit}

theorem rightSingleRotation_spec (ha : At cmp h c (node (node l b e m) a d r)) :
    Returns (rightSingleRotation (some a)) h fun p h' => p = some b ∧
      Rearranged cmp h (c.plug (node (node l b e m) a d r)) h' c (node l b e (node m a d r)) := by
  have hrot := rotateRight_spec ha
  unfold rotateRight at hrot
  unfold rightSingleRotation
  simp only [returns_bind, returns_parentOf, returns_lchildOf, ha.self, Option.some.injEq, exists_eq_left', returns_ite, root_node,
    reduceCtorEq, false_implies, true_and, not_false_eq_true, true_implies] at hrot ⊢
  exact hrot

theorem leftSingleRotation_spec (ha : At cmp h c (node l a d (node m b e r))) :
    Returns (leftSingleRotation (some a)) h fun p h' => p = some b ∧
      Rearranged cmp h (c.plug (node l a d (node m b e r))) h' c (node (node l a d m) b e r) := by
  have hrot := rotateLeft_spec ha
  unfold rotateLeft at hrot
  unfold leftSingleRotation
  simp only [returns_bind, returns_parentOf, returns_rchildOf, ha.self, Option.some.injEq, exists_eq_left', returns_ite, root_node,
    reduceCtorEq, false_implies, true_and, not_false_eq_true, true_implies] at hrot ⊢
  exact hrot

/-- One round: the node is at the root, or comes one level up. -/
theorem splayRound_spec (hr : Rearranged cmp h T h' c (node l x d r)) :
    Returns (splayRound (some x)) h' fun v h'' => match v with
      | .inl p => p = some x ∧ ∃ c' l' r', c'.depth < c.depth ∧ Rearranged cmp h T h'' c' (node l' x () r')
      | .inr p => p = some x ∧ h'' = h' ∧ c = .top := by
  have hself := hr.place.self
  cases c with
  | top => simp [splayRound, hself]
  | left a f s up =>
    have hup := Rearranged.left.1 hr
    simp only [splayRound, returns_bind, returns_parentOf, hself, Option.some.injEq, exists_eq_left', Ctx.parent_left,
      returns_ite, reduceCtorEq, false_implies, true_and, not_false_eq_true, true_implies, returns_lchildOf, hup.place.self,
      root_node, not_true_eq_false, and_true, returns_pure]
    refine (rightSingleRotation_spec hup.place).mono ?_
    rintro _ h'' ⟨rfl, hrot⟩
    exact ⟨rfl, up, l, node r a f s, by simp [Ctx.depth], hup.trans hrot⟩
  | right s a f up =>
    have hup := Rearranged.right.1 hr
    have hxs : s.root ≠ some x := fun e => hr.place.not_mem (p := x) (by simp [mem_of_root e]) (by simp)
    simp only [splayRound, returns_bind, returns_parentOf, hself, Option.some.injEq, exists_eq_left', Ctx.parent_right,
      returns_ite, reduceCtorEq, false_implies, true_and, not_false_eq_true, true_implies, returns_lchildOf, hup.place.self, hxs,
      returns_pure]
    refine (leftSingleRotation_spec hup.place).mono ?_
    rintro _ h'' ⟨rfl, hrot⟩
    exact ⟨rfl, up, node s a f l, r, by simp [Ctx.depth], hup.trans hrot⟩

theorem splayLoop_spec (hr : Rearranged cmp h T h' c (node l x d r)) {fuel : Nat} (hf : c.depth < fuel) :
    Returns (loop splayRound fuel (some x)) h' fun p h'' => p = some x ∧
      ∃ l' r', Rearranged cmp h T h'' .top (node l' x () r') := by
  refine returns_loop (fun k p h'' => p = some x ∧ ∃ c l r, c.depth = k ∧ Rearranged cmp h T h'' c (node l x () r)) ?_
    fuel c.depth (some x) h' ⟨rfl, c, l, r, rfl, hr⟩ hf
  rintro k _ h₁ ⟨rfl, c, l, r, rfl, hr⟩
  refine (splayRound_spec hr).mono ?_
  rintro (p | p) h₂ hv
  · obtain ⟨rfl, c', l', r', hlt, hr'⟩ := hv
    exact ⟨c'.depth, hlt, rfl, c', l', r', rfl, hr'⟩
  · obtain ⟨rfl, rfl, rfl⟩ := hv
    exact ⟨rfl, l, r, hr⟩

/-! ## The search and the way up -/

variable {search : Ptr A → Ptr A → TreeProg A (Ptr A)}

/-- What splaying leaves: the node that compares equal at the root, or the tree as it was. -/
inductive Splayed (cmp : A → A → Int) (h : Heap A (MgSplaytree A)) (T : BinTree A Unit) (q : A) :
    Ptr A → Heap A (MgSplaytree A) → Prop
  | found (l : BinTree A Unit) (x : A) (r : BinTree A Unit) (h' : Heap A (MgSplaytree A)) (hx : x ∈ T.inorder) (hq : cmp x q = 0)
      (hr : Rearranged cmp h T h' .top (node l x () r)) : Splayed cmp h T q (some x) h'
  | missing (hall : ∀ x ∈ T.inorder, cmp x q ≠ 0) : Splayed cmp h T q T.root h

theorem mgSplaytreeSplayNodeToRoot_spec (ha : At cmp h .top T)
    (hsearch : Returns (search T.root (some q)) h fun p h' => h' = h ∧ Finds cmp T q p) {fuel : Nat} (hf : T.size < fuel) :
    Returns (mgSplaytreeSplayNodeToRoot search fuel T.root (some q)) h (Splayed cmp h T q) := by
  unfold mgSplaytreeSplayNodeToRoot
  refine hsearch.bind ?_
  rintro (_ | x) _ ⟨rfl, hfound⟩
  · simp only [if_true, returns_pure]
    exact .missing hfound
  · obtain ⟨hx, hq⟩ := hfound
    obtain ⟨c, l, d, r, rfl⟩ := Ctx.exists_place hx
    simp only [reduceCtorEq, if_false]
    have hdepth : c.depth < fuel := by
      have hsize := Ctx.size_plug c (node l x d r)
      have hle := c.depth_le
      omega
    refine (splayLoop_spec (at_plug.2 ha).rearranged hdepth).mono ?_
    rintro _ h' ⟨rfl, l', r', hr⟩
    exact .found l' x r' h' hx hq hr

omit [DecidableEq A] in
/-- A rearranged tree is in the same order. -/
theorem Rearranged.ordered {t : BinTree A Unit} (hT : OrderedAt cmp h T) (hr : Rearranged cmp h T h' .top t) : OrderedAt cmp h' t :=
  ⟨hr.place, by rw [show t.inorder = T.inorder from hr.inorder]; exact hT.sorted⟩

/-- With a search that finds what is there, `mg_splaytree_find` ends, with the matching node at the root of the same
sequence, or with the tree as it was. -/
theorem mg_splaytree_find_root (hT : OrderedAt cmp h T) (q : A)
    (hsearch : Returns (search T.root (some q)) h fun p h' => h' = h ∧ Finds cmp T q p) (fuel : Nat) (hf : T.size < fuel) :
    Returns (mgSplaytreeFind search fuel T.root (some q)) h fun root h' =>
      (∃ x T', x ∈ T.inorder ∧ cmp x q = 0 ∧ root = some x ∧ T'.root = some x ∧ OrderedAt cmp h' T' ∧
        T'.inorder = T.inorder ∧ ∃ n, h' x = some n ∧ n.parent = none) ∨
      (∀ x ∈ T.inorder, cmp x q ≠ 0) ∧ root = T.root ∧ h' = h := by
  refine (mgSplaytreeSplayNodeToRoot_spec hT.place hsearch hf).mono ?_
  rintro root h' (⟨l, x, r, h', hx, hq, hr⟩ | hall)
  · exact .inl ⟨x, node l x () r, hx, hq, rfl, rfl, Rearranged.ordered hT hr, hr.inorder, _, hr.place.self, rfl⟩
  · exact .inr ⟨hall, rfl, rfl⟩

/-- The probe 5 brings the node 4 up. -/
theorem mg_splaytree_find_root_four :
    Returns (mgSplaytreeFind (searchReturned 3) 3 (some 2) (some 5)) twoNodes fun root h' =>
      (∃ (x : Nat) (T' : BinTree Nat Unit), x ∈ [2, 4] ∧ halfCmp x 5 = 0 ∧ root = some x ∧ T'.root = some x ∧
        OrderedAt halfCmp h' T' ∧ T'.inorder = [2, 4] ∧ ∃ n, h' x = some n ∧ n.parent = none) ∨
      (∀ x ∈ [2, 4], halfCmp x 5 ≠ 0) ∧ root = some 2 ∧ h' = twoNodes :=
  mg_splaytree_find_root twoNodes_ordered 5 (searchReturned_finds halfCmp_preorder twoNodes_ordered 5 (by decide)) 3 (by decide)

end MgStd.SplayTree
