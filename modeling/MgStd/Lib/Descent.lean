import Mathlib.Data.List.ReduceOption
import MgStd.Lib.BinTree
import MgStd.Lib.Heap
/-!
# Loops that go down a tree

A loop that goes from a node to one of its children, or leaves, stands at no more
nodes than the tree has levels. What decides where it goes is left open.
-/

namespace MgStd.Lib

open BinTree

variable {A D α β σ : Type} {pos : α → Ptr A} {body : α → Prog σ (α ⊕ β)} {s : σ} {x : α} {t : BinTree A D} {n : Nat}

/-- The number of nodes on the longest way down. -/
def BinTree.levels : BinTree A D → Nat
  | nil => 0
  | node l _ _ r => max l.levels r.levels + 1

/-- The loop, with the nodes that it stands at: `pos` says where. -/
def walked (pos : α → Ptr A) (body : α → Prog σ (α ⊕ β)) (n : Nat) (x : α) : Prog σ (List A × β) :=
  (fun v => ((v.1.map pos).reduceOption, v.2)) <$> traced body n x

theorem loop_eq_walked (pos : α → Ptr A) (body : α → Prog σ (α ⊕ β)) (n : Nat) (x : α) :
    loop body n x = Prod.snd <$> walked pos body n x := by
  rw [loop_eq_traced, walked, Functor.map_map]

theorem returns_walked_succ (Q : List A × β → σ → Prop) :
    Returns (walked pos body (n + 1) x) s Q ↔ Returns (body x) s fun r s' =>
      match r with
      | .inl y => Returns (walked pos body n y) s' fun v s'' => Q ((pos x).toList ++ v.1, v.2) s''
      | .inr b => Q ((pos x).toList, b) s' := by
  have hcons : ∀ xs : List (Ptr A), (pos x :: xs).reduceOption = (pos x).toList ++ xs.reduceOption := by
    intro xs
    cases pos x with
    | none => rfl
    | some a => rfl
  rw [walked, returns_map, returns_traced_succ]
  refine iff_of_eq (congrArg (Returns (body x) s) (funext fun r => funext fun s' => ?_))
  cases r with
  | inl y => simp only [walked, returns_map, List.map_cons, hcons]
  | inr b => simp only [List.map_cons, hcons, List.map_nil, List.reduceOption_nil, List.append_nil]

/-- `I` ties a tree to the values of the variables with which the loop stands at its root. -/
theorem returns_walked (I : BinTree A D → α → Prop) (hpos : ∀ t x, I t x → pos x = t.root)
    (hnil : ∀ x, I nil x → Returns (body x) s fun v s' => s' = s ∧ ∃ b, v = .inr b)
    (hnode : ∀ l a d r x, I (node l a d r) x → Returns (body x) s fun v s' => s' = s ∧ ∀ y, v = .inl y → I l y ∨ I r y)
    (hx : I t x) (hn : t.size < n) : Returns (walked pos body n x) s fun v s' => s' = s ∧ v.1.length ≤ t.levels := by
  induction t generalizing x n with
  | nil =>
    obtain ⟨n, rfl⟩ := Nat.exists_eq_succ_of_ne_zero (Nat.ne_of_gt hn)
    rw [returns_walked_succ, hpos nil x hx]
    refine (hnil x hx).mono ?_
    rintro _ _ ⟨rfl, b, rfl⟩
    exact ⟨rfl, Nat.le_refl 0⟩
  | node l a d r ihl ihr =>
    obtain ⟨n, rfl⟩ := Nat.exists_eq_succ_of_ne_zero (Nat.ne_of_gt (Nat.lt_of_le_of_lt (Nat.zero_le _) hn))
    rw [size] at hn
    rw [returns_walked_succ, hpos (node l a d r) x hx]
    refine (hnode l a d r x hx).mono ?_
    rintro (y | b) s' ⟨rfl, hy⟩
    · have hrest : Returns (walked pos body n y) s' fun v s'' => s'' = s' ∧ v.1.length ≤ max l.levels r.levels := by
        rcases hy y rfl with hl | hr
        · exact (ihl hl (by omega)).mono fun v s' hv => ⟨hv.1, Nat.le_trans hv.2 (Nat.le_max_left _ _)⟩
        · exact (ihr hr (by omega)).mono fun v s' hv => ⟨hv.1, Nat.le_trans hv.2 (Nat.le_max_right _ _)⟩
      exact hrest.mono fun v s' hv => ⟨hv.1, Nat.succ_le_succ hv.2⟩
    · exact ⟨rfl, Nat.succ_le_succ (Nat.zero_le _)⟩

end MgStd.Lib
