import MgStd.Lib.BinTree
import MgStd.Lib.Order
/-!
# Search trees

The node that a search for `q` finds in a tree: it goes down from the root and
stops at the first node that compares equal.
-/

namespace MgStd.Lib.BinTree

variable {A D : Type} {cmp : A → A → Int} {q x : A} {t : BinTree A D}

def find (cmp : A → A → Int) (q : A) : BinTree A D → Option A
  | nil => none
  | node l a _ r => if cmp a q = 0 then some a else if 0 < cmp a q then find cmp q l else find cmp q r

theorem find_some (h : find cmp q t = some x) : x ∈ t.inorder ∧ cmp x q = 0 := by
  induction t with
  | nil => cases h
  | node l a d r ihl ihr =>
    simp only [find] at h
    split at h
    · next heq => cases h; exact ⟨by simp, heq⟩
    · split at h
      · exact ⟨by simp [(ihl h).1], (ihl h).2⟩
      · exact ⟨by simp [(ihr h).1], (ihr h).2⟩

/-- In a tree in order the search misses no node. -/
theorem find_none (hcmp : TotalPreorder cmp) (hs : Sorted cmp t.inorder) (h : find cmp q t = none) :
    ∀ x ∈ t.inorder, cmp x q ≠ 0 := by
  induction t with
  | nil => simp
  | node l a d r ihl ihr =>
    obtain ⟨hl, har, hla⟩ := sorted_append.1 hs
    obtain ⟨har, hr⟩ := sorted_cons.1 har
    simp only [find] at h
    split at h
    · cases h
    · next hne =>
      intro x hx
      simp only [inorder_node, List.mem_append, List.mem_cons] at hx
      split at h
      · next hgt =>
        rcases hx with hx | rfl | hx
        · exact ihl hl h x hx
        · exact hne
        · exact Int.ne_of_gt (hcmp.pos_of_pos_of_le hgt (har x hx))
      · rcases hx with hx | rfl | hx
        · exact Int.ne_of_lt (hcmp.lt_of_le_of_lt (hla x hx a (by simp)) (by omega))
        · exact hne
        · exact ihr hr h x hx

/-- The search finds a node exactly when one compares equal. -/
theorem find_eq_none_iff (hcmp : TotalPreorder cmp) (hs : Sorted cmp t.inorder) :
    find cmp q t = none ↔ ∀ x ∈ t.inorder, cmp x q ≠ 0 := by
  refine ⟨find_none hcmp hs, fun hall => ?_⟩
  cases h : find cmp q t with
  | none => rfl
  | some x => exact absurd (find_some h).2 (hall x (find_some h).1)

end MgStd.Lib.BinTree
