import MgStd.AvlTree.Insert
import MgStd.Lib.Descent
import Mathlib.Data.Nat.Fib.Basic
/-!
# The height of the tree

A balanced tree of height `h` has no fewer nodes than the Fibonacci numbers say,
and a search compares one node of each level at most.
-/

namespace MgStd.AvlTree

open MgStd.Lib BinTree

variable {A : Type} [DecidableEq A] {cmp : A → A → Int} {h : Heap A (MgAvltreeNode A)}
  {c : HeightCtx A} {l r t : HeightTree A} {a q : A} {d : Int}

omit [DecidableEq A] in
/-- Of the subtrees, one is a level lower than the tree, and the other not more than two. -/
theorem Avl.fib_le_size (ht : Avl t) : ∀ {k : Nat}, height t + 3 = k → Nat.fib k ≤ t.size + 1 := by
  induction t with
  | nil =>
    intro k hk
    obtain rfl : k = 2 := by
      rw [height_nil] at hk
      omega
    exact Nat.le_refl 1
  | node l a d r ihl ihr =>
    intro k hk
    obtain ⟨-, hlr, hrl, hl, hr⟩ := ht
    rw [height_node] at hk
    have hlow := neg_one_le_height l
    have hlow' := neg_one_le_height r
    obtain ⟨j, rfl⟩ : ∃ j, k = j + 2 := ⟨k - 2, by omega⟩
    rw [Nat.fib_add_two, size]
    rcases Int.le_total (height l) (height r) with hle | hle
    · have hbig : Nat.fib (j + 1) ≤ r.size + 1 := ihr hr (by omega)
      have hsmall : Nat.fib j ≤ Nat.fib (height l + 3).toNat := Nat.fib_mono (by omega)
      have hleft : Nat.fib (height l + 3).toNat ≤ l.size + 1 := ihl hl (by omega)
      omega
    · have hbig : Nat.fib (j + 1) ≤ l.size + 1 := ihl hl (by omega)
      have hsmall : Nat.fib j ≤ Nat.fib (height r + 3).toNat := Nat.fib_mono (by omega)
      have hright : Nat.fib (height r + 3).toNat ≤ r.size + 1 := ihr hr (by omega)
      omega

omit [DecidableEq A] in
theorem Avl.levels_eq (ht : Avl t) : (t.levels : Int) = height t + 1 := by
  induction t with
  | nil => rfl
  | node l a d r ihl ihr =>
    have hleft := ihl ht.2.2.2.1
    have hright := ihr ht.2.2.2.2
    rw [levels, height_node]
    omega

/-! ## Comparisons -/

/-- The loop of `mg_avltree_search`, with the nodes that it compares with `find_node`: those it stands at, but for NULL. -/
def searchCompared (fuel : Nat) (root findNode : Ptr A) : TreeProg A (List A × Ptr A) :=
  (fun v => (v.1.reduceOption, v.2)) <$> traced (searchRound findNode) fuel root

omit [DecidableEq A] in
theorem mgAvltreeSearch_compared (fuel : Nat) (a q : A) :
    mgAvltreeSearch fuel (some a) (some q) = Prod.snd <$> searchCompared fuel (some a) (some q) := by
  have hargs : ¬ ((some a : Ptr A) = none ∨ (some q : Ptr A) = none) := by simp
  rw [mgAvltreeSearch, if_neg hargs, loop_eq_traced, searchCompared, Functor.map_map]

omit [DecidableEq A] in
/-- One node is compared on each level at most. -/
theorem returns_searchCompared (hl : LinkedAt cmp h t) (ht : Avl t) {fuel : Nat} (hf : t.size < fuel) :
    Returns (searchCompared fuel t.root (some q)) h fun v h' => h' = h ∧ (v.1.length : Int) ≤ height t + 1 := by
  have hwalk : searchCompared fuel t.root (some q) = walked id (searchRound (some q)) fuel t.root := by
    unfold searchCompared walked
    simp only [List.map_id]
  rw [hwalk, ← ht.levels_eq]
  refine (returns_walked (fun t x => x = t.root ∧ LinkedAt cmp h t) (fun t x hx => hx.1) ?_ ?_ ⟨rfl, hl⟩ hf).mono
    fun v h' hv => ⟨hv.1, Int.ofNat_le.2 hv.2⟩
  · rintro _ ⟨rfl, -⟩
    simp [searchRound]
  · rintro l a d r _ ⟨rfl, ⟨p, ha⟩, hl, hr⟩
    simp only [searchRound, root_node, ne_eq, reduceCtorEq, not_false_eq_true, if_true, returns_bind, returns_callCmp,
      returns_ite, returns_lchildOf, returns_rchildOf, returns_pure, ha, Option.some.injEq, exists_eq_left', exists_eq', Sum.inl.injEq,
      forall_eq', hl, hr, false_implies, implies_true, and_true, true_and, true_or, or_true]

/-- After every run of insertions into the empty tree, the height in the root is at
most what the number of nodes allows, and the search for any node compares at
most one node more than that. -/
theorem mg_avltree_height_bound (hcmp : TotalPreorder cmp) (h : Heap A (MgAvltreeNode A)) (zs : List A)
    (hi : Initialised cmp h zs) (fuel : Nat) (hf : zs.length < fuel) :
    Returns (insertEach fuel none zs) h fun root h₁ => ∃ T, root = T.root ∧ AvlAt cmp h₁ T ∧
      ∀ a n, root = some a → h₁ a = some n → ∃ k : Nat, n.data = k ∧ Nat.fib (k + 3) - 1 ≤ T.size ∧
        ∀ q, mgAvltreeSearch fuel root (some q) = Prod.snd <$> searchCompared fuel root (some q) ∧
          Returns (searchCompared fuel root (some q)) h₁ fun v h₂ => h₂ = h₁ ∧ v.1.length ≤ k + 1 := by
  refine (insertEach_spec hcmp RunInv.start hi (show ([] : List A).length + zs.length ≤ fuel by simp; omega)).mono ?_
  rintro _ h₁ ⟨T, rfl, hr⟩
  have hsize := hr.size
  rw [List.nil_append] at hsize
  refine ⟨T, rfl, hr.valid, fun a n hroot hn => ?_⟩
  cases T with
  | nil => cases hroot
  | node l x d r =>
    cases hroot
    have hself := hr.valid.place.self
    cases hself.symm.trans hn
    have hd : d = max (height l) (height r) + 1 := hr.valid.avl.1
    have hlow := neg_one_le_height l
    have hlow' := neg_one_le_height r
    obtain ⟨k, rfl⟩ : ∃ k : Nat, d = k := ⟨d.toNat, by omega⟩
    have hfib := hr.valid.avl.fib_le_size (k := k + 3) (by rw [height_node, ← hd]; omega)
    refine ⟨k, rfl, by omega, fun q => ⟨mgAvltreeSearch_compared fuel a q, ?_⟩⟩
    have hcompared := returns_searchCompared (q := q) hr.valid.place.tree.linked hr.valid.avl (show _ < fuel by omega)
    rw [height_node, ← hd] at hcompared
    refine hcompared.mono ?_
    rintro v h₂ ⟨rfl, hlen⟩
    exact ⟨rfl, by omega⟩

/-- Four nodes in ascending order. -/
theorem mg_avltree_height_bound_four :
    Returns (insertEach 5 none [1, 2, 3, 4]) (fun _ => some ⟨0, none, none, none, fun a b : Nat => (a : Int) - b⟩)
      fun root h₁ => ∃ T : HeightTree Nat, root = T.root ∧ ∀ a n, root = some a → h₁ a = some n →
        ∃ k : Nat, n.data = k ∧ Nat.fib (k + 3) - 1 ≤ T.size := by
  have hcmp := TotalPreorder.of_key fun a : Nat => (a : Int)
  refine (mg_avltree_height_bound hcmp _ [1, 2, 3, 4] (fun z _ => ⟨_, rfl, rfl⟩) 5 (by decide)).mono ?_
  rintro root h₁ ⟨T, hroot, -, hbound⟩
  refine ⟨T, hroot, fun a n ha hn => ?_⟩
  obtain ⟨k, hk, hfib, -⟩ := hbound a n ha hn
  exact ⟨k, hk, hfib⟩

end MgStd.AvlTree
