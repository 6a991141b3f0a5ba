import Mathlib.Logic.Relation
import MgStd.SplayTree.Insert
/-!
# Splaying from the root

`mg_splaytree_splay_root_to_node` looks at the root and at the next node on the way
to the probe. If both lie on one side of it, the next node comes up to the root; if
not, the node below the two is to come up between them. There is none when the probe
lies between the two and has no match: then the loop goes round for ever.
-/

namespace MgStd.SplayTree

open MgStd.Lib BinTree

variable {A : Type}

/-! ## Rounds on trees -/

/-- A round that rotates, at the root or below it. -/
inductive Turned (cmp : A → A → Int) (q : A) : BinTree A Unit → BinTree A Unit → Prop
  | right {l m r : BinTree A Unit} {x y : A} {d e : Unit} (hx : 0 < cmp x q) (hy : 0 ≤ cmp y q) :
      Turned cmp q (node (node l y e m) x d r) (node l y e (node m x d r))
  | leftBelow {l m n r : BinTree A Unit} {x y z : A} {d e f : Unit} (hx : 0 < cmp x q) (hy : cmp y q < 0) :
      Turned cmp q (node (node l y e (node m z f n)) x d r) (node (node (node l y e m) z f n) x d r)
  | left {l m r : BinTree A Unit} {x y : A} {d e : Unit} (hx : cmp x q < 0) (hy : cmp y q ≤ 0) :
      Turned cmp q (node l x d (node m y e r)) (node (node l x d m) y e r)
  | rightBelow {l m n r : BinTree A Unit} {x y z : A} {d e f : Unit} (hx : cmp x q < 0) (hy : 0 < cmp y q) :
      Turned cmp q (node l x d (node (node m z f n) y e r)) (node l x d (node m z f (node n y e r)))

/-- The loop leaves: at the node that compares equal, or there is no next node. -/
inductive Rests (cmp : A → A → Int) (q : A) : BinTree A Unit → Prop
  | found {l r : BinTree A Unit} {x : A} {d : Unit} (hx : cmp x q = 0) : Rests cmp q (node l x d r)
  | least {r : BinTree A Unit} {x : A} {d : Unit} (hx : 0 < cmp x q) : Rests cmp q (node nil x d r)
  | greatest {l : BinTree A Unit} {x : A} {d : Unit} (hx : cmp x q < 0) : Rests cmp q (node l x d nil)

/-- The rotation below the root has no node to bring up. -/
inductive Stuck (cmp : A → A → Int) (q : A) : BinTree A Unit → Prop
  | left {l r : BinTree A Unit} {x y : A} {d e : Unit} (hx : 0 < cmp x q) (hy : cmp y q < 0) :
      Stuck cmp q (node (node l y e nil) x d r)
  | right {l r : BinTree A Unit} {x y : A} {d e : Unit} (hx : cmp x q < 0) (hy : 0 < cmp y q) :
      Stuck cmp q (node l x d (node nil y e r))

variable {cmp : A → A → Int} {h h' : Heap A (MgSplaytree A)} {t t' T : BinTree A Unit} {q : A}

theorem Turned.ne_nil (h : Turned cmp q t t') : t' ≠ nil := by
  cases h <;> exact nofun

theorem exists_round (cmp : A → A → Int) (q : A) (ht : t ≠ nil) : Rests cmp q t ∨ Stuck cmp q t ∨ ∃ t', Turned cmp q t t' := by
  cases t with
  | nil => exact absurd rfl ht
  | node l x d r =>
    rcases Int.lt_trichotomy (cmp x q) 0 with hx | hx | hx
    · cases r with
      | nil => exact .inl (.greatest hx)
      | node m y e r =>
        rcases Int.lt_or_le 0 (cmp y q) with hy | hy
        · cases m with
          | nil => exact .inr (.inl (.right hx hy))
          | node m z f n => exact .inr (.inr ⟨_, .rightBelow hx hy⟩)
        · exact .inr (.inr ⟨_, .left hx hy⟩)
    · exact .inl (.found hx)
    · cases l with
      | nil => exact .inl (.least hx)
      | node l y e m =>
        rcases Int.lt_or_le (cmp y q) 0 with hy | hy
        · cases m with
          | nil => exact .inr (.inl (.left hx hy))
          | node m z f n => exact .inr (.inr ⟨_, .leftBelow hx hy⟩)
        · exact .inr (.inr ⟨_, .right hx hy⟩)

/-! ## The way to the probe -/

/-- The nodes on the way to `q`. -/
def wayTo (cmp : A → A → Int) (q : A) : BinTree A Unit → Nat
  | nil => 0
  | node l x _ r => if cmp x q = 0 then 1 else if 0 < cmp x q then wayTo cmp q l + 1 else wayTo cmp q r + 1

/-- One if `q` lies between the root and the next node on the way. -/
def straddle (cmp : A → A → Int) (q : A) : BinTree A Unit → Nat
  | nil => 0
  | node l x _ r =>
    if 0 < cmp x q then l.root.elim 0 fun y => if cmp y q < 0 then 1 else 0
    else r.root.elim 0 fun y => if 0 < cmp y q then 1 else 0

section
variable {l r : BinTree A Unit} {x y : A} {d : Unit}

theorem wayTo_found (hx : cmp x q = 0) : wayTo cmp q (node l x d r) = 1 := if_pos hx

theorem wayTo_left (hx : 0 < cmp x q) : wayTo cmp q (node l x d r) = wayTo cmp q l + 1 := by
  rw [wayTo, if_neg (Int.ne_of_gt hx), if_pos hx]

theorem wayTo_right (hx : cmp x q < 0) : wayTo cmp q (node l x d r) = wayTo cmp q r + 1 := by
  rw [wayTo, if_neg (Int.ne_of_lt hx), if_neg (Int.lt_asymm hx)]

theorem straddle_left (hx : 0 < cmp x q) (hy : l.root = some y) :
    straddle cmp q (node l x d r) = if cmp y q < 0 then 1 else 0 := by
  rw [straddle, if_pos hx, hy, Option.elim_some]

theorem straddle_right (hx : cmp x q < 0) (hy : r.root = some y) :
    straddle cmp q (node l x d r) = if 0 < cmp y q then 1 else 0 := by
  rw [straddle, if_neg (Int.lt_asymm hx), hy, Option.elim_some]

theorem straddle_le (cmp : A → A → Int) (q : A) (t : BinTree A Unit) : straddle cmp q t ≤ 1 := by
  have hif : ∀ (o : Option A) (p : A → Prop) [DecidablePred p], (o.elim 0 fun y => if p y then 1 else 0) ≤ 1 := by
    intro o p _
    cases o with
    | none => exact Nat.zero_le 1
    | some y =>
      rw [Option.elim_some]
      split
      · exact Nat.le_refl 1
      · exact Nat.zero_le 1
  cases t with
  | nil => exact Nat.zero_le 1
  | node l x d r =>
    rw [straddle]
    split
    · exact hif l.root _
    · exact hif r.root _

end

/-- A rotation at the root takes it off the way. One below it takes the next node off, or brings a node up that lies
on the side of the root. -/
theorem Turned.decreases (h : Turned cmp q t t') :
    2 * wayTo cmp q t' + straddle cmp q t' < 2 * wayTo cmp q t + straddle cmp q t := by
  have hle := straddle_le cmp q t'
  cases h with
  | right hx hy =>
    rw [wayTo_left hx]
    rcases Int.lt_or_eq_of_le hy with hy | hy
    · rw [wayTo_left hy, wayTo_left hy]
      omega
    · rw [wayTo_found hy.symm, wayTo_found hy.symm]
      omega
  | @leftBelow l m n r x y z d e f hx hy =>
    rw [straddle_left hx (root_node l y e _), if_pos hy, wayTo_left hx, wayTo_left hx, wayTo_right hy]
    rcases Int.lt_trichotomy (cmp z q) 0 with hz | hz | hz
    · rw [wayTo_right hz, wayTo_right hz]
      omega
    · rw [wayTo_found hz, wayTo_found hz]
      omega
    · -- the way keeps its length, but `q` lies no longer between the first two
      rw [straddle_left hx (root_node _ z f n), if_neg (Int.lt_asymm hz), wayTo_left hz, wayTo_left hz, wayTo_right hy]
      omega
  | left hx hy =>
    rw [wayTo_right hx]
    rcases Int.lt_or_eq_of_le hy with hy | hy
    · rw [wayTo_right hy, wayTo_right hy]
      omega
    · rw [wayTo_found hy, wayTo_found hy]
      omega
  | @rightBelow l m n r x y z d e f hx hy =>
    rw [straddle_right hx (root_node _ y e r), if_pos hy, wayTo_right hx, wayTo_right hx, wayTo_left hy]
    rcases Int.lt_trichotomy (cmp z q) 0 with hz | hz | hz
    · -- as above
      rw [straddle_right hx (root_node m z f _), if_neg (Int.lt_asymm hz), wayTo_right hz, wayTo_right hz, wayTo_left hy]
      omega
    · rw [wayTo_found hz, wayTo_found hz]
      omega
    · rw [wayTo_left hz, wayTo_left hz]
      omega

/-- Rotations bring every tree to an end. -/
theorem exists_end (cmp : A → A → Int) (q : A) (ht : t ≠ nil) :
    ∃ t', Relation.ReflTransGen (Turned cmp q) t t' ∧ (Rests cmp q t' ∨ Stuck cmp q t') := by
  induction hk : 2 * wayTo cmp q t + straddle cmp q t using Nat.strongRecOn generalizing t with
  | ind k ih =>
    rcases exists_round cmp q ht with hrest | hstuck | ⟨t₁, hturn⟩
    · exact ⟨t, .refl, .inl hrest⟩
    · exact ⟨t, .refl, .inr hstuck⟩
    · have hlt := hturn.decreases
      obtain ⟨t', hrun, hend⟩ := ih _ (hk ▸ hlt) hturn.ne_nil rfl
      exact ⟨t', .head hturn hrun, hend⟩

/-! ## Rounds on the heap -/

section
variable [DecidableEq A]

theorem round_rests (hl : LinkedAt cmp h t) (ht : Rests cmp q t) :
    Returns (splayRootToNodeRound (some q) t.root) h fun v h' => v = .inr t.root ∧ h' = h := by
  cases ht with
  | found hx =>
    obtain ⟨⟨p, ha⟩, -⟩ := hl
    simp only [splayRootToNodeRound, root_node, returns_bind, returns_callCmp, ha, Option.some.injEq, exists_eq_left', hx,
      Int.lt_irrefl, if_false, returns_pure, and_self]
  | least hx =>
    obtain ⟨⟨p, ha⟩, -⟩ := hl
    simp only [splayRootToNodeRound, root_node, returns_bind, returns_callCmp, ha, Option.some.injEq, exists_eq_left', hx,
      if_true, returns_lchildOf, root_nil, returns_pure, and_self]
  | greatest hx =>
    obtain ⟨⟨p, ha⟩, -⟩ := hl
    simp only [splayRootToNodeRound, root_node, returns_bind, returns_callCmp, ha, Option.some.injEq, exists_eq_left', hx,
      Int.lt_asymm hx, if_true, if_false, returns_rchildOf, root_nil, returns_pure, and_self]

theorem round_stuck (hl : LinkedAt cmp h t) (ht : Stuck cmp q t) :
    Returns (splayRootToNodeRound (some q) t.root) h fun v h' => v = .inl t.root ∧ h' = h := by
  cases ht with
  | left hx hy =>
    obtain ⟨⟨p, ha⟩, ⟨⟨p', hb⟩, -⟩, -⟩ := hl
    simp only [splayRootToNodeRound, leftSingleRotation, root_node, returns_bind, returns_callCmp, ha, hb, Option.some.injEq,
      exists_eq_left', hx, Int.not_le.2 hy, if_true, if_false, returns_lchildOf, returns_rchildOf, returns_parentOf, root_nil,
      reduceCtorEq, returns_pure, returns_setLchild, true_and]
    -- the root is written with the left child that it has
    exact Function.update_eq_self_iff.2 ha.symm
  | right hx hy =>
    obtain ⟨⟨p, ha⟩, -, ⟨p', hb⟩, -⟩ := hl
    simp only [splayRootToNodeRound, rightSingleRotation, root_node, returns_bind, returns_callCmp, ha, hb, Option.some.injEq,
      exists_eq_left', hx, Int.lt_asymm hx, Int.not_le.2 hy, if_true, if_false, returns_lchildOf, returns_rchildOf, returns_parentOf,
      root_nil, reduceCtorEq, returns_pure, returns_setRchild, true_and]
    exact Function.update_eq_self_iff.2 ha.symm

theorem round_turns (hr : Rearranged cmp h T h' .top t) (ht : Turned cmp q t t') :
    Returns (splayRootToNodeRound (some q) t.root) h' fun v h'' => v = .inl t'.root ∧ Rearranged cmp h T h'' .top t' := by
  cases ht with
  | right hx hy =>
    obtain ⟨⟨p, ha⟩, ⟨⟨p', hb⟩, -⟩, -⟩ := hr.place.tree.linked
    simp only [splayRootToNodeRound, root_node, returns_bind, returns_callCmp, ha, hb, Option.some.injEq, exists_eq_left', hx, hy,
      if_true, if_false, returns_lchildOf, reduceCtorEq, returns_pure]
    refine (rightSingleRotation_spec hr.place).mono ?_
    rintro _ h'' ⟨rfl, hrot⟩
    exact ⟨rfl, hr.trans hrot⟩
  | leftBelow hx hy =>
    obtain ⟨⟨p, ha⟩, ⟨⟨p', hb⟩, -⟩, -⟩ := hr.place.tree.linked
    simp only [splayRootToNodeRound, root_node, returns_bind, returns_callCmp, ha, hb, Option.some.injEq, exists_eq_left', hx,
      Int.not_le.2 hy, if_true, if_false, returns_lchildOf, reduceCtorEq, returns_pure]
    have hbelow := Rearranged.left.2 hr
    refine (leftSingleRotation_spec hbelow.place).mono ?_
    rintro _ h'' ⟨rfl, hrot⟩
    -- the rotation has linked the root to the node that came up already
    have hr' := Rearranged.left.1 (hbelow.trans hrot)
    have hself := hr'.place.self
    simp only [returns_setLchild, hself, Option.some.injEq, exists_eq_left', true_and]
    rwa [Function.update_eq_self_iff.2 hself.symm]
  | left hx hy =>
    obtain ⟨⟨p, ha⟩, -, ⟨p', hb⟩, -⟩ := hr.place.tree.linked
    simp only [splayRootToNodeRound, root_node, returns_bind, returns_callCmp, ha, hb, Option.some.injEq, exists_eq_left', hx, hy,
      Int.lt_asymm hx, if_true, if_false, returns_rchildOf, reduceCtorEq, returns_pure]
    refine (leftSingleRotation_spec hr.place).mono ?_
    rintro _ h'' ⟨rfl, hrot⟩
    exact ⟨rfl, hr.trans hrot⟩
  | rightBelow hx hy =>
    obtain ⟨⟨p, ha⟩, -, ⟨p', hb⟩, -⟩ := hr.place.tree.linked
    simp only [splayRootToNodeRound, root_node, returns_bind, returns_callCmp, ha, hb, Option.some.injEq, exists_eq_left', hx,
      Int.lt_asymm hx, Int.not_le.2 hy, if_true, if_false, returns_rchildOf, reduceCtorEq, returns_pure]
    have hbelow := Rearranged.right.2 hr
    refine (rightSingleRotation_spec hbelow.place).mono ?_
    rintro _ h'' ⟨rfl, hrot⟩
    have hr' := Rearranged.right.1 (hbelow.trans hrot)
    have hself := hr'.place.self
    simp only [returns_setRchild, hself, Option.some.injEq, exists_eq_left', true_and]
    rwa [Function.update_eq_self_iff.2 hself.symm]

/-- The loop follows the rotations. -/
theorem comes_of_turned (hr : Rearranged cmp h T h' .top t) (hrun : Relation.ReflTransGen (Turned cmp q) t t') :
    ∃ h'', Rearranged cmp h T h'' .top t' ∧ Comes (splayRootToNodeRound (some q)) t'.root h'' t.root h' := by
  induction hrun using Relation.ReflTransGen.head_induction_on generalizing h' with
  | refl => exact ⟨h', hr, .here⟩
  | head hturn _ ih =>
    obtain ⟨v, h₁, hround, rfl, hr₁⟩ := round_turns hr hturn
    obtain ⟨h'', hr'', hcomes⟩ := ih hr₁
    exact ⟨h'', hr'', .round hround hcomes⟩

end

/-! ## The root at the end -/

/-- The last element below the place of `q` in the sequence, or the first above it. -/
def Neighbour (cmp : A → A → Int) (q : A) (s : List A) (a : A) : Prop :=
  ∃ before after, s = before ++ after ∧ (∀ x ∈ before, cmp x q < 0) ∧ (∀ x ∈ after, 0 < cmp x q) ∧
    (before.getLast? = some a ∨ after.head? = some a)

/-- The same sequence, with the node that compares equal at the root, or a neighbour of its place. -/
def SplayedTo (cmp : A → A → Int) (T : BinTree A Unit) (q : A) (root : Ptr A) (h' : Heap A (MgSplaytree A)) : Prop :=
  ∃ T' a, root = some a ∧ T'.root = some a ∧ OrderedAt cmp h' T' ∧ T'.inorder = T.inorder ∧
    ((∃ x ∈ T.inorder, cmp x q = 0) → cmp a q = 0) ∧ ((∀ x ∈ T.inorder, cmp x q ≠ 0) → Neighbour cmp q T.inorder a)

/-- The probe has a match, or lies below all nodes, or above all. -/
def HasEnd (cmp : A → A → Int) (q : A) (s : List A) : Prop :=
  (∃ x ∈ s, cmp x q = 0) ∨ (∀ x ∈ s, 0 < cmp x q) ∨ ∀ x ∈ s, cmp x q < 0

/-- Where the loop leaves, the root is the match, the first node with all above `q`, or the last with all below. -/
theorem Rests.root_eq (hcmp : TotalPreorder cmp) (hs : StrictSorted cmp t.inorder) (ht : Rests cmp q t) :
    ∃ a, t.root = some a ∧ (a ∈ t.inorder ∧ cmp a q = 0 ∨ (∀ x ∈ t.inorder, 0 < cmp x q) ∧ t.inorder.head? = some a ∨
      (∀ x ∈ t.inorder, cmp x q < 0) ∧ t.inorder.getLast? = some a) := by
  cases ht with
  | @found l r x d hx => exact ⟨x, rfl, .inl ⟨by simp, hx⟩⟩
  | @least r x d hx =>
    refine ⟨x, rfl, .inr (.inl ⟨fun y hy => ?_, rfl⟩)⟩
    rcases List.mem_cons.1 hy with rfl | hy
    · exact hx
    · exact StrictSorted.above (l := []) hcmp hs (Int.le_of_lt hx) y hy
  | @greatest l x d hx =>
    refine ⟨x, rfl, .inr (.inr ⟨fun y hy => ?_, List.getLast?_concat ..⟩)⟩
    rcases List.mem_append.1 hy with hy | hy
    · exact hs.below hcmp (Int.le_of_lt hx) y hy
    · rwa [List.mem_singleton.1 hy]

theorem Rests.hasEnd (hcmp : TotalPreorder cmp) (hs : StrictSorted cmp t.inorder) (ht : Rests cmp q t) : HasEnd cmp q t.inorder := by
  obtain ⟨a, -, ⟨ha, heq⟩ | ⟨hall, -⟩ | ⟨hall, -⟩⟩ := ht.root_eq hcmp hs
  · exact .inl ⟨a, ha, heq⟩
  · exact .inr (.inl hall)
  · exact .inr (.inr hall)

theorem Rests.splayedTo (hcmp : TotalPreorder cmp) (hT : OrderedAt cmp h' t) (hin : t.inorder = T.inorder) (ht : Rests cmp q t) :
    SplayedTo cmp T q t.root h' := by
  obtain ⟨a, hroot, hend⟩ := ht.root_eq hcmp hT.sorted
  rw [hin] at hend
  refine ⟨t, a, hroot, hroot, hT, hin, ?_, fun hnone => ?_⟩
  · rintro ⟨x, hx, heq⟩
    rcases hend with ⟨-, ha⟩ | ⟨hall, -⟩ | ⟨hall, -⟩
    · exact ha
    · exact absurd heq (Int.ne_of_gt (hall x hx))
    · exact absurd heq (Int.ne_of_lt (hall x hx))
  · rcases hend with ⟨ha, heq⟩ | ⟨hall, hhead⟩ | ⟨hall, hlast⟩
    · exact absurd heq (hnone a ha)
    · exact ⟨[], T.inorder, rfl, nofun, hall, .inr hhead⟩
    · exact ⟨T.inorder, [], (List.append_nil _).symm, hall, nofun, .inl hlast⟩

/-- Nothing lies between neighbours of the sequence. -/
theorem not_hasEnd_of_gap {l r : List A} {x y : A} (hcmp : TotalPreorder cmp) (hs : StrictSorted cmp (l ++ y :: x :: r))
    (hy : cmp y q < 0) (hx : 0 < cmp x q) : ¬ HasEnd cmp q (l ++ y :: x :: r) := by
  have hs' : StrictSorted cmp ((l ++ [y]) ++ x :: r) := by rwa [List.append_assoc, List.singleton_append]
  rintro (⟨z, hz, heq⟩ | hall | hall)
  · simp only [List.mem_append, List.mem_cons] at hz
    rcases hz with hz | rfl | rfl | hz
    · exact absurd heq (Int.ne_of_lt (hs.below hcmp (Int.le_of_lt hy) z hz))
    · exact absurd heq (Int.ne_of_lt hy)
    · exact absurd heq (Int.ne_of_gt hx)
    · exact absurd heq (Int.ne_of_gt (hs'.above hcmp (Int.le_of_lt hx) z hz))
  · exact Int.lt_asymm hy (hall y (by simp))
  · exact Int.lt_asymm hx (hall x (by simp))

theorem Stuck.not_hasEnd (hcmp : TotalPreorder cmp) (hs : StrictSorted cmp t.inorder) (ht : Stuck cmp q t) :
    ¬ HasEnd cmp q t.inorder := by
  cases ht with
  | @left l r x y d e hx hy =>
    have hin : (node (node l y e nil) x d r).inorder = l.inorder ++ y :: x :: r.inorder := by simp
    rw [hin] at hs ⊢
    exact not_hasEnd_of_gap hcmp hs hy hx
  | right hx hy => exact not_hasEnd_of_gap hcmp hs hx hy

theorem mgSplaytreeSplayRootToNode_eq [DecidableEq A] (hne : T ≠ nil) (q : A) :
    (fun fuel => mgSplaytreeSplayRootToNode fuel T.root (some q)) = fun fuel => loop (splayRootToNodeRound (some q)) fuel T.root := by
  funext fuel
  have hargs : ¬ (T.root = none ∨ some q = none) := by simpa [root_eq_none] using hne
  rw [mgSplaytreeSplayRootToNode, if_neg hargs]

/-- The call comes back, with the right root, if and only if the probe has a match, or lies below all nodes or above all. -/
theorem mg_splaytree_splay_root_to_node_iff [DecidableEq A] (hcmp : TotalPreorder cmp) (hT : OrderedAt cmp h T) (hne : T ≠ nil)
    (q : A) : Finishes (fun fuel => mgSplaytreeSplayRootToNode fuel T.root (some q)) h (SplayedTo cmp T q) ↔
      (∃ x ∈ T.inorder, cmp x q = 0) ∨ (∀ x ∈ T.inorder, 0 < cmp x q) ∨ ∀ x ∈ T.inorder, cmp x q < 0 := by
  -- the run is determined, so its end decides both directions
  obtain ⟨t, hrun, hend⟩ := exists_end cmp q hne
  obtain ⟨h', hr, hcomes⟩ := comes_of_turned hT.place.rearranged hrun
  have ht : OrderedAt cmp h' t := Rearranged.ordered hT hr
  have hin : t.inorder = T.inorder := hr.inorder
  rw [mgSplaytreeSplayRootToNode_eq hne]
  rcases hend with hrests | hstuck
  · obtain ⟨v, h'', hround, rfl, rfl⟩ := round_rests ht.linked hrests
    rw [hcomes.finishes_iff hround, ← hin]
    exact iff_of_true (hrests.splayedTo hcmp ht hin) (hrests.hasEnd hcmp ht.sorted)
  · obtain ⟨v, h'', hround, rfl, rfl⟩ := round_stuck ht.linked hstuck
    rw [← hin]
    exact iff_of_false (hcomes.not_finishes hround _) (hstuck.not_hasEnd hcmp ht.sorted)

/-- The probe 7 brings the node 6 up. -/
theorem mg_splaytree_splay_root_to_node_iff_six :
    Finishes (fun fuel => mgSplaytreeSplayRootToNode fuel (some 2) (some 7)) apart
      (SplayedTo halfCmp (node nil 2 () (node nil 6 () nil)) 7) :=
  (mg_splaytree_splay_root_to_node_iff halfCmp_preorder apart_ordered nofun 7).2 (.inl ⟨6, by simp, by decide⟩)

/-- The probe 4 lies between the nodes 2 and 6, and the loop comes back to where it was. -/
theorem mg_splaytree_splay_root_to_node_between :
    ¬ ∀ (h : Heap Nat (MgSplaytree Nat)) (cmp : Nat → Nat → Int) (T : BinTree Nat Unit) (q : Nat), TotalPreorder cmp →
      OrderedAt cmp h T → T ≠ nil →
      Finishes (fun fuel => mgSplaytreeSplayRootToNode fuel T.root (some q)) h (SplayedTo cmp T q) := by
  intro hall
  have hne : node nil 2 () (node nil 6 () nil) ≠ (nil : BinTree Nat Unit) := nofun
  have hfin := hall apart _ _ 4 halfCmp_preorder apart_ordered hne
  have hstuck : Stuck halfCmp 4 (node nil 2 () (node nil 6 () nil)) := .right (by decide) (by decide)
  obtain ⟨v, h', hround, rfl, rfl⟩ := round_stuck apart_ordered.linked hstuck
  rw [mgSplaytreeSplayRootToNode_eq hne] at hfin
  exact Comes.here.not_finishes hround _ hfin

end MgStd.SplayTree
