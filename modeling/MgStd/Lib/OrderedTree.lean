import MgStd.Lib.Links
import MgStd.Lib.SearchTree
/-!
# Search trees in the heap

A tree of linked nodes in strict order, what a search in it has to give, and the
empty place that keeps the order when a new node goes there.
-/

namespace MgStd.Lib

open BinTree

variable {A D : Type} {cmp : A → A → Int} {h : Heap A (Node A D)} {c : Ctx A D} {l r T : BinTree A D} {a q x z : A} {d : D}

/-- The heap holds a tree in strict order; the parent of its root is NULL. -/
structure OrderedAt (cmp : A → A → Int) (h : Heap A (Node A D)) (T : BinTree A D) : Prop where
  place : At cmp h .top T
  sorted : StrictSorted cmp T.inorder

theorem OrderedAt.linked (hT : OrderedAt cmp h T) : LinkedAt cmp h T := hT.place.tree.linked

/-! ## Searching -/

/-- What a search for `q` has to give: the node that compares equal, or NULL when there is none. -/
def Finds (cmp : A → A → Int) (T : BinTree A D) (q : A) : Ptr A → Prop
  | none => ∀ x ∈ T.inorder, cmp x q ≠ 0
  | some x => x ∈ T.inorder ∧ cmp x q = 0

theorem finds_find (hcmp : TotalPreorder cmp) (hs : StrictSorted cmp T.inorder) (q : A) : Finds cmp T q (find cmp q T) := by
  cases hf : find cmp q T with
  | none => exact find_none hcmp hs.sorted hf
  | some x => exact find_some hf

/-! ## The place of a new node -/

/-- What stands before the place is less than `z`, and what stands after it is greater. -/
structure Slot (cmp : A → A → Int) (z : A) (c : Ctx A D) : Prop where
  lt : ∀ x ∈ c.before, cmp x z < 0
  gt : ∀ x ∈ c.after, 0 < cmp x z

theorem slot_top : Slot cmp z (.top : Ctx A D) := ⟨by simp [Ctx.before], by simp [Ctx.after]⟩

theorem Slot.goLeft (hcmp : TotalPreorder cmp) (hc : Slot cmp z c) (hs : StrictSorted cmp (a :: r.inorder)) (ha : 0 < cmp a z) :
    Slot cmp z (.left a d r c) := by
  refine ⟨hc.lt, fun x hx => ?_⟩
  simp only [Ctx.after, List.cons_append, List.mem_cons, List.mem_append] at hx
  rcases hx with rfl | hx | hx
  · exact ha
  · exact hcmp.pos_of_pos_of_le ha (Int.le_of_lt ((List.pairwise_cons.1 hs).1 x hx))
  · exact hc.gt x hx

theorem Slot.goRight (hcmp : TotalPreorder cmp) (hc : Slot cmp z c) (hs : ∀ x ∈ l.inorder, cmp x a < 0) (ha : cmp a z < 0) :
    Slot cmp z (.right l a d c) := by
  refine ⟨fun x hx => ?_, hc.gt⟩
  simp only [Ctx.before, List.mem_append, List.mem_singleton] at hx
  rcases hx with (hx | hx) | rfl
  · exact hc.lt x hx
  · exact hcmp.lt_of_lt_of_le (hs x hx) (Int.le_of_lt ha)
  · exact ha

/-- A new node in its place. -/
theorem Slot.sorted (hcmp : TotalPreorder cmp) (hc : Slot cmp z c) (hs : StrictSorted cmp (c.plug nil).inorder) :
    StrictSorted cmp (c.plug (node nil z d nil)).inorder := by
  rw [Ctx.inorder_plug, inorder_nil, List.append_nil] at hs
  rw [Ctx.inorder_plug, inorder_node, inorder_nil, List.nil_append, List.append_assoc, List.singleton_append]
  exact hs.insert hcmp hc.lt hc.gt

end MgStd.Lib
