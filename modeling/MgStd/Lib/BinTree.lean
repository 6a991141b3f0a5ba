import Mathlib.Data.List.Nodup
import Mathlib.Data.List.Perm.Basic
/-!
# Binary trees and the place inside them

A tree has an address and a label at each node. A `Ctx` is a tree with a hole,
given from the hole upwards: the frames an algorithm meets that walks to the
root through parent pointers.
-/

namespace MgStd.Lib

inductive BinTree (A D : Type) where
  | nil
  | node (l : BinTree A D) (a : A) (d : D) (r : BinTree A D)

variable {A D : Type}

namespace BinTree

/-- The address of the root; none for the empty tree. -/
def root : BinTree A D → Option A
  | nil => none
  | node _ a _ _ => some a

def inorder : BinTree A D → List A
  | nil => []
  | node l a _ r => l.inorder ++ a :: r.inorder

def size : BinTree A D → Nat
  | nil => 0
  | node l _ _ r => l.size + r.size + 1

@[simp] theorem root_nil : (nil : BinTree A D).root = none := rfl
@[simp] theorem root_node (l : BinTree A D) (a : A) (d : D) (r : BinTree A D) : (node l a d r).root = some a := rfl
@[simp] theorem inorder_nil : (nil : BinTree A D).inorder = [] := rfl
@[simp] theorem inorder_node (l : BinTree A D) (a : A) (d : D) (r : BinTree A D) :
    (node l a d r).inorder = l.inorder ++ a :: r.inorder := rfl

@[simp] theorem length_inorder (t : BinTree A D) : t.inorder.length = t.size := by
  induction t with
  | nil => rfl
  | node l a d r ihl ihr => simp [size, ihl, ihr]; omega

theorem root_eq_none {t : BinTree A D} : t.root = none ↔ t = nil := by
  cases t <;> simp

theorem mem_of_root {t : BinTree A D} {a : A} (h : t.root = some a) : a ∈ t.inorder := by
  cases t with
  | nil => cases h
  | node l b d r => cases h; simp

end BinTree

inductive Ctx (A D : Type) where
  | top
  /-- the hole is the left child of `a` -/
  | left (a : A) (d : D) (r : BinTree A D) (up : Ctx A D)
  /-- the hole is the right child of `a` -/
  | right (l : BinTree A D) (a : A) (d : D) (up : Ctx A D)

namespace Ctx
open BinTree

/-- Put a tree into the hole. -/
def plug : Ctx A D → BinTree A D → BinTree A D
  | top, t => t
  | left a d r up, t => up.plug (node t a d r)
  | right l a d up, t => up.plug (node l a d t)

/-- The address of the node above the hole. -/
def parent : Ctx A D → Option A
  | top => none
  | left a _ _ _ => some a
  | right _ a _ _ => some a

def depth : Ctx A D → Nat
  | top => 0
  | left _ _ _ up => up.depth + 1
  | right _ _ _ up => up.depth + 1

/-- The nodes in order before the hole. -/
def before : Ctx A D → List A
  | top => []
  | left _ _ _ up => up.before
  | right l a _ up => up.before ++ l.inorder ++ [a]

/-- The nodes in order after the hole. -/
def after : Ctx A D → List A
  | top => []
  | left a _ r up => a :: r.inorder ++ up.after
  | right _ _ _ up => up.after

/-- All addresses outside the hole. -/
def nodes : Ctx A D → List A
  | top => []
  | left a _ r up => a :: (r.inorder ++ up.nodes)
  | right l a _ up => a :: (l.inorder ++ up.nodes)

/-- The frames of `c` with `outer` above them. -/
def app : Ctx A D → Ctx A D → Ctx A D
  | top, outer => outer
  | left a d r up, outer => left a d r (up.app outer)
  | right l a d up, outer => right l a d (up.app outer)

@[simp] theorem plug_top (t : BinTree A D) : top.plug t = t := rfl
@[simp] theorem plug_left (a : A) (d : D) (r : BinTree A D) (up : Ctx A D) (t : BinTree A D) :
    (left a d r up).plug t = up.plug (node t a d r) := rfl
@[simp] theorem plug_right (l : BinTree A D) (a : A) (d : D) (up : Ctx A D) (t : BinTree A D) :
    (right l a d up).plug t = up.plug (node l a d t) := rfl
@[simp] theorem parent_top : (top : Ctx A D).parent = none := rfl
@[simp] theorem parent_left (a : A) (d : D) (r : BinTree A D) (up : Ctx A D) : (left a d r up).parent = some a := rfl
@[simp] theorem parent_right (l : BinTree A D) (a : A) (d : D) (up : Ctx A D) : (right l a d up).parent = some a := rfl
@[simp] theorem nodes_top : (top : Ctx A D).nodes = [] := rfl
@[simp] theorem nodes_left (a : A) (d : D) (r : BinTree A D) (up : Ctx A D) :
    (left a d r up).nodes = a :: (r.inorder ++ up.nodes) := rfl
@[simp] theorem nodes_right (l : BinTree A D) (a : A) (d : D) (up : Ctx A D) :
    (right l a d up).nodes = a :: (l.inorder ++ up.nodes) := rfl

theorem inorder_plug (c : Ctx A D) (t : BinTree A D) : (c.plug t).inorder = c.before ++ t.inorder ++ c.after := by
  induction c generalizing t with
  | top => simp [before, after]
  | left a d r up ih => simp [ih, before, after]
  | right l a d up ih => simp [ih, before, after]

theorem nodes_perm (c : Ctx A D) : (c.before ++ c.after).Perm c.nodes := by
  induction c with
  | top => exact .refl _
  | left a d r up ih =>
    have h : (up.before ++ (a :: r.inorder ++ up.after)).Perm ((a :: r.inorder) ++ (up.before ++ up.after)) := by
      rw [← List.append_assoc, ← List.append_assoc]
      exact List.perm_append_comm.append_right _
    exact h.trans (ih.append_left _)
  | right l a d up ih =>
    have h : (up.before ++ l.inorder ++ [a] ++ up.after).Perm ((l.inorder ++ [a]) ++ (up.before ++ up.after)) := by
      rw [← List.append_assoc (l.inorder ++ [a]), List.append_assoc up.before]
      exact List.perm_append_comm.append_right _
    refine h.trans ((ih.append_left _).trans ?_)
    rw [nodes_right, List.append_assoc]
    exact List.perm_middle

theorem inorder_plug_perm (c : Ctx A D) (t : BinTree A D) : (c.plug t).inorder.Perm (t.inorder ++ c.nodes) := by
  rw [inorder_plug, List.append_assoc]
  refine (List.perm_append_comm_assoc _ _ _).trans ?_
  exact (nodes_perm c).append_left _

theorem mem_inorder_plug {c : Ctx A D} {t : BinTree A D} {x : A} :
    x ∈ (c.plug t).inorder ↔ x ∈ t.inorder ∨ x ∈ c.nodes := by
  rw [(inorder_plug_perm c t).mem_iff, List.mem_append]

theorem inorder_plug_inj {c : Ctx A D} {s t : BinTree A D} :
    (c.plug s).inorder = (c.plug t).inorder ↔ s.inorder = t.inorder := by
  simp [inorder_plug]

theorem parent_mem {c : Ctx A D} {a : A} (h : c.parent = some a) : a ∈ c.nodes := by
  cases c <;> simp_all

theorem depth_le (c : Ctx A D) : c.depth ≤ c.nodes.length := by
  induction c with
  | top => simp [depth]
  | left a d r up ih => simp [depth]; omega
  | right l a d up ih => simp [depth]; omega

theorem size_plug (c : Ctx A D) (t : BinTree A D) : (c.plug t).size = t.size + c.nodes.length := by
  rw [← length_inorder, (inorder_plug_perm c t).length_eq, List.length_append, length_inorder]

theorem root_plug (c : Ctx A D) {t s : BinTree A D} (h : t.root = s.root) : (c.plug t).root = (c.plug s).root := by
  cases c with
  | top => exact h
  | left a d r up => exact root_plug up rfl
  | right l a d up => exact root_plug up rfl

theorem root_plug_of_ne_top {c : Ctx A D} (hc : c ≠ top) (t s : BinTree A D) : (c.plug t).root = (c.plug s).root := by
  cases c with
  | top => exact absurd rfl hc
  | left a d r up => exact root_plug up rfl
  | right l a d up => exact root_plug up rfl

/-- Below a node, the root of the whole tree is one of the frames. -/
theorem root_plug_mem {c : Ctx A D} {p : A} (hp : c.parent = some p) (t : BinTree A D) :
    ∃ r ∈ c.nodes, (c.plug t).root = some r := by
  induction c generalizing p t with
  | top => cases hp
  | left a d r up ih =>
    cases hup : up.parent with
    | none => exact ⟨a, by simp, by cases up <;> simp_all⟩
    | some q =>
      obtain ⟨x, hx, hr⟩ := ih hup (node t a d r)
      exact ⟨x, by simp [hx], hr⟩
  | right l a d up ih =>
    cases hup : up.parent with
    | none => exact ⟨a, by simp, by cases up <;> simp_all⟩
    | some q =>
      obtain ⟨x, hx, hr⟩ := ih hup (node l a d t)
      exact ⟨x, by simp [hx], hr⟩

theorem root_plug_ne_none (c : Ctx A D) {t : BinTree A D} (ht : t ≠ nil) : (c.plug t).root ≠ none := by
  cases hp : c.parent with
  | none =>
    obtain rfl : c = top := by cases c <;> simp_all
    rwa [plug_top, Ne, root_eq_none]
  | some p =>
    obtain ⟨x, -, hx⟩ := root_plug_mem hp t
    simp [hx]

/-! ## Contexts in two parts -/

@[simp] theorem app_plug (c outer : Ctx A D) (t : BinTree A D) : (c.app outer).plug t = outer.plug (c.plug t) := by
  induction c generalizing t with
  | top => rfl
  | left a d r up ih => exact ih _
  | right l a d up ih => exact ih _

theorem app_parent {c : Ctx A D} {p : A} (hp : c.parent = some p) (outer : Ctx A D) :
    (c.app outer).parent = some p := by
  cases c with
  | top => cases hp
  | left a d r up => exact hp
  | right l a d up => exact hp

/-- Every node of a tree has a place. -/
theorem exists_place {t : BinTree A D} {z : A} (hz : z ∈ t.inorder) :
    ∃ (c : Ctx A D) (l : BinTree A D) (d : D) (r : BinTree A D), c.plug (node l z d r) = t := by
  induction t with
  | nil => simp at hz
  | node l a d r ihl ihr =>
    simp only [inorder_node, List.mem_append, List.mem_cons] at hz
    rcases hz with hz | rfl | hz
    · obtain ⟨c, l', e, r', rfl⟩ := ihl hz
      exact ⟨c.app (.left a d r .top), l', e, r', by simp⟩
    · exact ⟨.top, l, d, r, rfl⟩
    · obtain ⟨c, l', e, r', rfl⟩ := ihr hz
      exact ⟨c.app (.right l a d .top), l', e, r', by simp⟩

end Ctx

end MgStd.Lib
