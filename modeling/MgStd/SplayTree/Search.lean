import MgStd.Lib.OrderedTree
import MgStd.SplayTree.Code
/-!
# The search of the splay tree

`mg_splaytree_search` reaches the node it is to find, but has a value for its
caller only when it goes down to no child.
-/

namespace MgStd.SplayTree

open MgStd.Lib BinTree

variable {A : Type} {cmp : A → A → Int} {h : Heap A (MgSplaytree A)} {T : BinTree A Unit}

/-- The search, had it the `return`s. -/
theorem searchReturned_spec (hl : LinkedAt cmp h T) (q : A) {fuel : Nat} (hf : T.size < fuel) :
    Returns (searchReturned fuel T.root (some q)) h fun r h' => h' = h ∧ r = find cmp q T := by
  induction T generalizing fuel with
  | nil =>
    obtain ⟨fuel, rfl⟩ : ∃ k, fuel = k + 1 := ⟨fuel - 1, by omega⟩
    simp [searchReturned, find]
  | node l a d r ihl ihr =>
    obtain ⟨fuel, rfl⟩ : ∃ k, fuel = k + 1 := ⟨fuel - 1, by omega⟩
    obtain ⟨⟨p, ha⟩, hll, hlr⟩ := hl
    rw [size] at hf
    simp only [searchReturned, root_node, reduceCtorEq, if_false, returns_bind, returns_callCmp, returns_ite, returns_lchildOf,
      returns_rchildOf, returns_pure, ha, Option.some.injEq, exists_eq_left', find]
    refine ⟨fun hgt => ?_, fun hle => ⟨fun hlt => ?_, fun hge => ?_⟩⟩
    · rw [if_neg (by omega), if_pos hgt]
      exact ihl hll (by omega)
    · rw [if_neg (by omega), if_neg hle]
      exact ihr hlr (by omega)
    · rw [if_pos (by omega)]
      exact ⟨trivial, rfl⟩

theorem searchReturned_finds (hcmp : TotalPreorder cmp) (hT : OrderedAt cmp h T) (q : A) {fuel : Nat} (hf : T.size < fuel) :
    Returns (searchReturned fuel T.root (some q)) h fun p h' => h' = h ∧ Finds cmp T q p := by
  refine (searchReturned_spec hT.linked q hf).mono ?_
  rintro _ _ ⟨rfl, rfl⟩
  exact ⟨rfl, finds_find hcmp hT.sorted q⟩

/-- The tree is empty, or its root compares equal to `q`. -/
def AtRoot (cmp : A → A → Int) (q : A) (T : BinTree A Unit) : Prop := ∀ a, T.root = some a → cmp a q = 0

theorem mgSplaytreeSearch_spec (hl : LinkedAt cmp h T) (q : A) {fuel : Nat} (hf : T.size < fuel) :
    Returns (mgSplaytreeSearch fuel T.root (some q)) h fun r h' =>
      h' = h ∧ (AtRoot cmp q T → r = some (find cmp q T)) ∧ (¬ AtRoot cmp q T → r = none) := by
  induction T generalizing fuel with
  | nil =>
    obtain ⟨fuel, rfl⟩ : ∃ k, fuel = k + 1 := ⟨fuel - 1, by omega⟩
    simp [mgSplaytreeSearch, find, AtRoot]
  | node l a d r ihl ihr =>
    obtain ⟨fuel, rfl⟩ : ∃ k, fuel = k + 1 := ⟨fuel - 1, by omega⟩
    obtain ⟨⟨p, ha⟩, hll, hlr⟩ := hl
    rw [size] at hf
    have hroot : AtRoot cmp q (node l a d r) ↔ cmp a q = 0 := by simp [AtRoot]
    simp only [mgSplaytreeSearch, root_node, reduceCtorEq, if_false, returns_bind, returns_callCmp, returns_ite,
      returns_lchildOf, returns_rchildOf, returns_pure, ha, Option.some.injEq, exists_eq_left', find, hroot]
    -- below the root the search comes back, and what it gives is dropped
    refine ⟨fun hgt => ?_, fun hle => ⟨fun hlt => ?_, fun hge => ?_⟩⟩
    · refine (ihl hll (by omega)).mono fun r h' hr => ⟨hr.1, fun h₀ => ?_, fun _ => trivial⟩
      omega
    · refine (ihr hlr (by omega)).mono fun r h' hr => ⟨hr.1, fun h₀ => ?_, fun _ => trivial⟩
      omega
    · have h₀ : cmp a q = 0 := by omega
      simp [h₀]

/-- The search has a right value for its caller if and only if the tree is empty or its root is the node. -/
theorem mg_splaytree_search_iff (hcmp : TotalPreorder cmp) (hl : LinkedAt cmp h T) (hs : StrictSorted cmp T.inorder) (q : A)
    (fuel : Nat) (hf : T.size < fuel) :
    Returns (mgSplaytreeSearch fuel T.root (some q)) h (fun r h' => h' = h ∧ ∃ p, r = some p ∧ Finds cmp T q p) ↔
      ∀ a, T.root = some a → cmp a q = 0 := by
  have hspec := mgSplaytreeSearch_spec hl q hf
  constructor
  · intro hret
    by_contra hroot
    obtain ⟨r, h', -, ⟨-, p, hp, -⟩, -, -, hnone⟩ := hret.and hspec
    rw [hnone hroot] at hp
    cases hp
  · intro hroot
    refine hspec.mono fun r h' hr => ⟨hr.1, find cmp q T, hr.2.1 hroot, finds_find hcmp hs q⟩

/-- Half of an address is its key. -/
def halfCmp (a b : Nat) : Int := a / 2 - b / 2

theorem halfCmp_preorder : TotalPreorder halfCmp := TotalPreorder.of_key fun a : Nat => (a : Int) / 2

/-- The node 2, with the node 4 for its right child. -/
def twoNodes : Heap Nat (MgSplaytree Nat) := fun x =>
  if x = 2 then some ⟨(), none, none, some 4, halfCmp⟩
  else if x = 4 then some ⟨(), some 2, none, none, halfCmp⟩
  else none

theorem twoNodes_ordered : OrderedAt halfCmp twoNodes (node nil 2 () (node nil 4 () nil)) :=
  ⟨⟨⟨rfl, trivial, rfl, trivial, trivial⟩, trivial, by decide⟩, by simp [StrictSorted, halfCmp]⟩

/-- The probe 3 has the key of the root. -/
theorem mg_splaytree_search_iff_root :
    Returns (mgSplaytreeSearch 3 (some 2) (some 3)) twoNodes (fun r h' => h' = twoNodes ∧ ∃ p, r = some p ∧
      Finds halfCmp (node nil 2 () (node nil 4 () nil)) 3 p) :=
  (mg_splaytree_search_iff halfCmp_preorder twoNodes_ordered.linked twoNodes_ordered.sorted 3 3 (by decide)).2
    (by simp [halfCmp])

/-- The search for 4 gives its caller no value. -/
theorem mg_splaytree_search_unreturned :
    ¬ ∀ (h : Heap Nat (MgSplaytree Nat)) (cmp : Nat → Nat → Int) (T : BinTree Nat Unit) (q fuel : Nat), TotalPreorder cmp →
      LinkedAt cmp h T → StrictSorted cmp T.inorder → T.size < fuel →
      Returns (mgSplaytreeSearch fuel T.root (some q)) h fun r _ => ∃ p, r = some p ∧ Finds cmp T q p := by
  intro hall
  have hret := hall twoNodes _ _ 4 3 halfCmp_preorder twoNodes_ordered.linked twoNodes_ordered.sorted (by decide)
  obtain ⟨p, hp, -⟩ := hret.of_eq (show mgSplaytreeSearch 3 (some 2) (some 4) twoNodes = .ok (none, twoNodes) from rfl)
  cases hp

end MgStd.SplayTree
