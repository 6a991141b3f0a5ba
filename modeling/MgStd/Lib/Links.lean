import Mathlib.Data.List.Nodup
import MgStd.Lib.Heap
import MgStd.Lib.BinTree
/-!
# Trees of linked nodes

A node holds pointers to its parent and its two children, next to a label and
the comparison function of its tree. `At cmp h c t` says that the heap `h`
holds the tree `c.plug t`, seen from the place where `t` hangs. Moving that
place changes nothing (`at_left`, `at_right`), so an algorithm that follows the
pointers up or down keeps `At`, and one that writes to a few nodes is judged by
what it leaves at those nodes.
-/

namespace MgStd.Lib

open BinTree

structure Node (A D : Type) where
  data : D
  parent : Ptr A
  lchild : Ptr A
  rchild : Ptr A
  cmp_func : A → A → Int

variable {A D : Type}

/-! ## Reading and writing one field -/

section Fields

def dataOf (p : Ptr A) : Prog (Heap A (Node A D)) D := do pure (← load p).data
def parentOf (p : Ptr A) : Prog (Heap A (Node A D)) (Ptr A) := do pure (← load p).parent
def lchildOf (p : Ptr A) : Prog (Heap A (Node A D)) (Ptr A) := do pure (← load p).lchild
def rchildOf (p : Ptr A) : Prog (Heap A (Node A D)) (Ptr A) := do pure (← load p).rchild

/-- `p->cmp_func(p, q)`, which looks at both nodes. -/
def callCmp (p q : Ptr A) : Prog (Heap A (Node A D)) Int := do
  let n ← load p
  match p, q with
  | some a, some b => pure (n.cmp_func a b)
  | _, _ => fault .null

variable [DecidableEq A]

def setData (p : Ptr A) (d : D) : Prog (Heap A (Node A D)) Unit := store p fun n => { n with data := d }
def setParent (p q : Ptr A) : Prog (Heap A (Node A D)) Unit := store p fun n => { n with parent := q }
def setLchild (p q : Ptr A) : Prog (Heap A (Node A D)) Unit := store p fun n => { n with lchild := q }
def setRchild (p q : Ptr A) : Prog (Heap A (Node A D)) Unit := store p fun n => { n with rchild := q }

end Fields

section FieldRules
variable {h : Heap A (Node A D)} (a : A)

@[simp] theorem returns_dataOf (Q : D → Heap A (Node A D) → Prop) :
    Returns (dataOf (some a)) h Q ↔ ∃ n, h a = some n ∧ Q n.data h := by simp [dataOf]
@[simp] theorem returns_parentOf (Q : Ptr A → Heap A (Node A D) → Prop) :
    Returns (parentOf (some a)) h Q ↔ ∃ n, h a = some n ∧ Q n.parent h := by simp [parentOf]
@[simp] theorem returns_lchildOf (Q : Ptr A → Heap A (Node A D) → Prop) :
    Returns (lchildOf (some a)) h Q ↔ ∃ n, h a = some n ∧ Q n.lchild h := by simp [lchildOf]
@[simp] theorem returns_rchildOf (Q : Ptr A → Heap A (Node A D) → Prop) :
    Returns (rchildOf (some a)) h Q ↔ ∃ n, h a = some n ∧ Q n.rchild h := by simp [rchildOf]
@[simp] theorem returns_callCmp (b : A) (Q : Int → Heap A (Node A D) → Prop) :
    Returns (callCmp (some a) (some b)) h Q ↔ ∃ n, h a = some n ∧ Q (n.cmp_func a b) h := by simp [callCmp]

variable [DecidableEq A]

@[simp] theorem returns_setData (d : D) (Q : Unit → Heap A (Node A D) → Prop) :
    Returns (setData (some a) d) h Q ↔
      ∃ n, h a = some n ∧ Q () (Function.update h a (some { n with data := d })) := by simp [setData]
@[simp] theorem returns_setParent (q : Ptr A) (Q : Unit → Heap A (Node A D) → Prop) :
    Returns (setParent (some a) q) h Q ↔
      ∃ n, h a = some n ∧ Q () (Function.update h a (some { n with parent := q })) := by simp [setParent]
@[simp] theorem returns_setLchild (q : Ptr A) (Q : Unit → Heap A (Node A D) → Prop) :
    Returns (setLchild (some a) q) h Q ↔
      ∃ n, h a = some n ∧ Q () (Function.update h a (some { n with lchild := q })) := by simp [setLchild]
@[simp] theorem returns_setRchild (q : Ptr A) (Q : Unit → Heap A (Node A D) → Prop) :
    Returns (setRchild (some a) q) h Q ↔
      ∃ n, h a = some n ∧ Q () (Function.update h a (some { n with rchild := q })) := by simp [setRchild]

end FieldRules

/-! ## Trees in the heap -/

variable (cmp : A → A → Int)

/-- The heap holds the tree below a node (or NULL) `p`. -/
def TreeAt (h : Heap A (Node A D)) : Ptr A → BinTree A D → Prop
  | _, .nil => True
  | p, .node l a d r => h a = some ⟨d, p, l.root, r.root, cmp⟩ ∧ TreeAt h (some a) l ∧ TreeAt h (some a) r

/-- The heap holds the frames, with `q` where the hole hangs. -/
def CtxAt (h : Heap A (Node A D)) : Ctx A D → Ptr A → Prop
  | .top, _ => True
  | .left a d r up, q =>
    h a = some ⟨d, up.parent, q, r.root, cmp⟩ ∧ TreeAt cmp h (some a) r ∧ CtxAt h up (some a)
  | .right l a d up, q =>
    h a = some ⟨d, up.parent, l.root, q, cmp⟩ ∧ TreeAt cmp h (some a) l ∧ CtxAt h up (some a)

structure At (h : Heap A (Node A D)) (c : Ctx A D) (t : BinTree A D) : Prop where
  tree : TreeAt cmp h c.parent t
  ctx : CtxAt cmp h c t.root
  nodup : (t.inorder ++ c.nodes).Nodup

variable {cmp} {h h' : Heap A (Node A D)}

@[simp] theorem treeAt_nil (p : Ptr A) : TreeAt cmp h p nil := trivial

@[simp] theorem treeAt_node {p : Ptr A} {l r : BinTree A D} {a : A} {d : D} :
    TreeAt cmp h p (node l a d r) ↔
      h a = some ⟨d, p, l.root, r.root, cmp⟩ ∧ TreeAt cmp h (some a) l ∧ TreeAt cmp h (some a) r := Iff.rfl

@[simp] theorem ctxAt_top (q : Ptr A) : CtxAt cmp h .top q := trivial

@[simp] theorem ctxAt_left {a : A} {d : D} {r : BinTree A D} {up : Ctx A D} {q : Ptr A} :
    CtxAt cmp h (.left a d r up) q ↔
      h a = some ⟨d, up.parent, q, r.root, cmp⟩ ∧ TreeAt cmp h (some a) r ∧ CtxAt cmp h up (some a) := Iff.rfl

@[simp] theorem ctxAt_right {l : BinTree A D} {a : A} {d : D} {up : Ctx A D} {q : Ptr A} :
    CtxAt cmp h (.right l a d up) q ↔
      h a = some ⟨d, up.parent, l.root, q, cmp⟩ ∧ TreeAt cmp h (some a) l ∧ CtxAt cmp h up (some a) := Iff.rfl

/-! ## Frames -/

theorem TreeAt.frame {p : Ptr A} {t : BinTree A D} (ht : TreeAt cmp h p t) (hf : ∀ x ∈ t.inorder, h' x = h x) :
    TreeAt cmp h' p t := by
  induction t generalizing p with
  | nil => trivial
  | node l a d r ihl ihr =>
    obtain ⟨ha, hl, hr⟩ := ht
    exact ⟨(hf a (by simp)).trans ha, ihl hl fun x hx => hf x (by simp [hx]), ihr hr fun x hx => hf x (by simp [hx])⟩

theorem CtxAt.frame {c : Ctx A D} {q : Ptr A} (hc : CtxAt cmp h c q) (hf : ∀ x ∈ c.nodes, h' x = h x) :
    CtxAt cmp h' c q := by
  induction c generalizing q with
  | top => trivial
  | left a d r up ih =>
    obtain ⟨ha, hr, hup⟩ := hc
    exact ⟨(hf a (by simp)).trans ha, hr.frame fun x hx => hf x (by simp [hx]), ih hup fun x hx => hf x (by simp [hx])⟩
  | right l a d up ih =>
    obtain ⟨ha, hl, hup⟩ := hc
    exact ⟨(hf a (by simp)).trans ha, hl.frame fun x hx => hf x (by simp [hx]), ih hup fun x hx => hf x (by simp [hx])⟩

/-! ## What the links say -/

/-- The heap holds the nodes of a tree with their children. Their parents may be anything. -/
def LinkedAt (cmp : A → A → Int) (h : Heap A (Node A D)) : BinTree A D → Prop
  | .nil => True
  | .node l a d r => (∃ p, h a = some ⟨d, p, l.root, r.root, cmp⟩) ∧ LinkedAt cmp h l ∧ LinkedAt cmp h r

theorem TreeAt.linked {p : Ptr A} {t : BinTree A D} (ht : TreeAt cmp h p t) : LinkedAt cmp h t := by
  induction t generalizing p with
  | nil => trivial
  | node l a d r ihl ihr => exact ⟨⟨p, ht.1⟩, ihl ht.2.1, ihr ht.2.2⟩

/-- A heap holds one tree below a node. -/
theorem LinkedAt.unique {s t : BinTree A D} (hs : LinkedAt cmp h s) (ht : LinkedAt cmp h t) (hr : s.root = t.root) : s = t := by
  induction s generalizing t with
  | nil => exact (root_eq_none.1 hr.symm).symm
  | node l a d r ihl ihr =>
    cases t with
    | nil => cases hr
    | node l' a' d' r' =>
      cases hr
      obtain ⟨⟨p, ha⟩, hl, hr⟩ := hs
      obtain ⟨⟨p', ha'⟩, hl', hr'⟩ := ht
      rw [ha] at ha'
      simp only [Option.some.injEq, Node.mk.injEq] at ha'
      obtain ⟨rfl, -, hlr, hrr, -⟩ := ha'
      rw [ihl hl hl' hlr, ihr hr hr' hrr]

/-- The root of a tree has the parent above it, every other node one in the tree. -/
theorem TreeAt.parent_of {p : Ptr A} {t : BinTree A D} {x : A} (ht : TreeAt cmp h p t) (hx : x ∈ t.inorder) :
    ∃ n, h x = some n ∧ (n.parent = p ∨ ∃ y ∈ t.inorder, n.parent = some y) := by
  induction t generalizing p with
  | nil => simp at hx
  | node l a d r ihl ihr =>
    obtain ⟨ha, hl, hr⟩ := ht
    have hbelow : ∀ {s : BinTree A D}, (∀ y ∈ s.inorder, y ∈ (node l a d r).inorder) →
        (∃ n, h x = some n ∧ (n.parent = some a ∨ ∃ y ∈ s.inorder, n.parent = some y)) →
        ∃ n, h x = some n ∧ (n.parent = p ∨ ∃ y ∈ (node l a d r).inorder, n.parent = some y) := by
      rintro s hsub ⟨n, hn, hp | ⟨y, hy, hp⟩⟩
      · exact ⟨n, hn, .inr ⟨a, by simp, hp⟩⟩
      · exact ⟨n, hn, .inr ⟨y, hsub y hy, hp⟩⟩
    simp only [inorder_node, List.mem_append, List.mem_cons] at hx
    rcases hx with hx | rfl | hx
    · exact hbelow (fun y hy => by simp [hy]) (ihl hl hx)
    · exact ⟨_, ha, .inl rfl⟩
    · exact hbelow (fun y hy => by simp [hy]) (ihr hr hx)

/-! ## Moving the place -/

theorem at_left {a : A} {d : D} {r : BinTree A D} {up : Ctx A D} {t : BinTree A D} :
    At cmp h (.left a d r up) t ↔ At cmp h up (node t a d r) := by
  have hp : (t.inorder ++ (Ctx.left a d r up).nodes).Nodup ↔ ((node t a d r).inorder ++ up.nodes).Nodup := by
    rw [Ctx.nodes_left, inorder_node, List.append_assoc, List.cons_append]
  constructor
  · rintro ⟨ht, ⟨ha, hr, hup⟩, hn⟩; exact ⟨⟨ha, ht, hr⟩, hup, hp.1 hn⟩
  · rintro ⟨⟨ha, ht, hr⟩, hup, hn⟩; exact ⟨ht, ⟨ha, hr, hup⟩, hp.2 hn⟩

theorem at_right {l : BinTree A D} {a : A} {d : D} {up : Ctx A D} {t : BinTree A D} :
    At cmp h (.right l a d up) t ↔ At cmp h up (node l a d t) := by
  have hp : (t.inorder ++ (Ctx.right l a d up).nodes).Nodup ↔ ((node l a d t).inorder ++ up.nodes).Nodup := by
    refine List.Perm.nodup_iff ?_
    rw [Ctx.nodes_right, inorder_node, List.append_assoc, List.cons_append]
    have h₁ := (@List.perm_append_comm _ l.inorder (a :: t.inorder)).append_right up.nodes
    simp only [List.append_assoc, List.cons_append] at h₁
    exact List.perm_middle.trans h₁.symm
  constructor
  · rintro ⟨ht, ⟨ha, hl, hup⟩, hn⟩; exact ⟨⟨ha, hl, ht⟩, hup, hp.1 hn⟩
  · rintro ⟨⟨ha, hl, ht⟩, hup, hn⟩; exact ⟨ht, ⟨ha, hl, hup⟩, hp.2 hn⟩

/-- The same tree, from another place. -/
theorem at_plug {c : Ctx A D} {t : BinTree A D} : At cmp h c t ↔ At cmp h .top (c.plug t) := by
  induction c generalizing t with
  | top => rfl
  | left a d r up ih => exact at_left.trans ih
  | right l a d up ih => exact at_right.trans ih

theorem at_app {c outer : Ctx A D} {t : BinTree A D} : At cmp h (c.app outer) t ↔ At cmp h outer (c.plug t) := by
  rw [at_plug, at_plug (c := outer), Ctx.app_plug]

theorem At.frame {c : Ctx A D} {t : BinTree A D} (ha : At cmp h c t) (hf : ∀ x ∈ (c.plug t).inorder, h' x = h x) :
    At cmp h' c t :=
  ⟨ha.tree.frame fun x hx => hf x (Ctx.mem_inorder_plug.2 (.inl hx)),
    ha.ctx.frame fun x hx => hf x (Ctx.mem_inorder_plug.2 (.inr hx)), ha.nodup⟩

/-- No node of the frames is in the hole. -/
theorem At.not_mem {c : Ctx A D} {t : BinTree A D} {p : A} (ha : At cmp h c t) (hp : p ∈ c.nodes) : p ∉ t.inorder :=
  fun hpt => (List.nodup_append'.1 ha.nodup).2.2 hpt hp

theorem At.root_ne {c : Ctx A D} {t : BinTree A D} {p : A} (ha : At cmp h c t) (hp : c.parent = some p) :
    (c.plug t).root ≠ t.root := by
  obtain ⟨r, hr, hroot⟩ := Ctx.root_plug_mem hp t
  exact fun e => ha.not_mem hr (mem_of_root (e ▸ hroot))

/-- The record at the place. -/
theorem At.self {c : Ctx A D} {l r : BinTree A D} {a : A} {d : D} (ha : At cmp h c (node l a d r)) :
    h a = some ⟨d, c.parent, l.root, r.root, cmp⟩ := ha.tree.1

/-! ## Rotations -/

/-- The parts of a rotation share no address: `a` and `b`, the three subtrees
below them, and the frames above. -/
structure Apart (c : Ctx A D) (l m r : BinTree A D) (a b : A) : Prop where
  ab : a ≠ b
  al : a ∉ l.inorder
  am : a ∉ m.inorder
  ar : a ∉ r.inorder
  ac : a ∉ c.nodes
  bl : b ∉ l.inorder
  bm : b ∉ m.inorder
  br : b ∉ r.inorder
  bc : b ∉ c.nodes
  lm : l.inorder.Disjoint m.inorder
  lr : l.inorder.Disjoint r.inorder
  mr : m.inorder.Disjoint r.inorder
  lc : l.inorder.Disjoint c.nodes
  mc : m.inorder.Disjoint c.nodes
  rc : r.inorder.Disjoint c.nodes
  mn : m.inorder.Nodup
  cn : c.nodes.Nodup

theorem At.apart {c : Ctx A D} {l m r : BinTree A D} {a b : A} {d e : D}
    (ha : At cmp h c (node l a d (node m b e r))) : Apart c l m r a b := by
  have hn := ha.nodup
  simp only [inorder_node, List.nodup_append', List.nodup_cons, List.disjoint_append_left,
    List.disjoint_append_right, List.disjoint_cons_left, List.disjoint_cons_right, List.mem_append,
    List.mem_cons, not_or] at hn
  obtain ⟨⟨-, ⟨⟨am, ab, ar⟩, mn, ⟨br, -⟩, bm, mr⟩, al, lm, bl, lr⟩, cn, lc, ac, mc, bc, rc⟩ := hn
  exact ⟨ab, al, am, ar, ac, bl, bm, br, bc, lm, lr, mr, lc, mc, rc, mn, cn⟩

theorem At.apart' {c : Ctx A D} {l m r : BinTree A D} {a b : A} {d e : D}
    (ha : At cmp h c (node (node l b e m) a d r)) : Apart c l m r a b := by
  have hn := ha.nodup
  simp only [inorder_node, List.nodup_append', List.nodup_cons, List.disjoint_append_left,
    List.disjoint_cons_left, List.disjoint_cons_right, List.mem_append, List.mem_cons, not_or] at hn
  obtain ⟨⟨⟨-, ⟨bm, mn⟩, bl, lm⟩, ⟨ar, -⟩, ⟨al, ab, am⟩, lr, br, mr⟩, cn, ⟨lc, bc, mc⟩, ac, rc⟩ := hn
  exact ⟨ab, al, am, ar, ac, bl, bm, br, bc, lm, lr, mr, lc, mc, rc, mn, cn⟩

theorem Apart.parent {c : Ctx A D} {l m r : BinTree A D} {a b p : A} (hx : Apart c l m r a b)
    (hp : c.parent = some p) : p ≠ a ∧ p ≠ b ∧ p ∉ m.inorder := by
  have hpc := Ctx.parent_mem hp
  exact ⟨fun e => hx.ac (e ▸ hpc), fun e => hx.bc (e ▸ hpc), fun hm => hx.mc hm hpc⟩

/-- What a left rotation has to write: `b` takes the place of its parent `a`,
and `a` takes the subtree `m` of `b`. -/
theorem At.rotate_left {c : Ctx A D} {l m r : BinTree A D} {a b : A} {d e : D}
    (ha : At cmp h c (node l a d (node m b e r)))
    (h₁ : h' a = some ⟨d, some b, l.root, m.root, cmp⟩) (h₂ : h' b = some ⟨e, c.parent, some a, r.root, cmp⟩)
    (hl : TreeAt cmp h' (some a) l) (hm : TreeAt cmp h' (some a) m) (hr : TreeAt cmp h' (some b) r)
    (hc : CtxAt cmp h' c (some b)) : At cmp h' c (node (node l a d m) b e r) :=
  ⟨⟨h₂, ⟨h₁, hl, hm⟩, hr⟩, hc, by simpa using ha.nodup⟩

/-- What a right rotation has to write. -/
theorem At.rotate_right {c : Ctx A D} {l m r : BinTree A D} {a b : A} {d e : D}
    (ha : At cmp h c (node (node l b e m) a d r))
    (h₁ : h' a = some ⟨d, some b, m.root, r.root, cmp⟩) (h₂ : h' b = some ⟨e, c.parent, l.root, some a, cmp⟩)
    (hl : TreeAt cmp h' (some b) l) (hm : TreeAt cmp h' (some a) m) (hr : TreeAt cmp h' (some a) r)
    (hc : CtxAt cmp h' c (some b)) : At cmp h' c (node l b e (node m a d r)) :=
  ⟨⟨h₂, hl, h₁, hm, hr⟩, hc, by simpa using ha.nodup⟩

/-! ## Writing to nodes -/

section Write
variable [DecidableEq A]

theorem treeAt_update {t : BinTree A D} {p : Ptr A} {x : A} (v : Option (Node A D)) (hx : x ∉ t.inorder)
    (ht : TreeAt cmp h p t) : TreeAt cmp (Function.update h x v) p t :=
  ht.frame fun y hy => Function.update_of_ne (fun e : y = x => hx (e ▸ hy)) _ _

theorem ctxAt_update {c : Ctx A D} {q : Ptr A} {x : A} (v : Option (Node A D)) (hx : x ∉ c.nodes)
    (hc : CtxAt cmp h c q) : CtxAt cmp (Function.update h x v) c q :=
  hc.frame fun y hy => Function.update_of_ne (fun e : y = x => hx (e ▸ hy)) _ _

/-- A new label at the place. -/
theorem At.relabel {c : Ctx A D} {l r : BinTree A D} {a : A} {d : D} (ha : At cmp h c (node l a d r)) (d' : D) :
    At cmp (Function.update h a (some ⟨d', c.parent, l.root, r.root, cmp⟩)) c (node l a d' r) := by
  obtain ⟨⟨hself, hl, hr⟩, hc, hn⟩ := ha
  have hd := hn
  simp only [inorder_node, List.nodup_append', List.nodup_cons, List.disjoint_append_left,
    List.disjoint_cons_left, List.disjoint_cons_right] at hd
  obtain ⟨⟨-, ⟨har, -⟩, hal, -⟩, -, -, hac, -⟩ := hd
  exact ⟨⟨Function.update_self .., treeAt_update _ hal hl, treeAt_update _ har hr⟩, ctxAt_update _ hac hc, hn⟩

/-- `q`, when it is a node, takes `p` for its parent. -/
def adopt (h : Heap A (Node A D)) (q p : Ptr A) : Heap A (Node A D) :=
  match q with
  | none => h
  | some x => Function.update h x ((h x).map fun n => { n with parent := p })

/-- The node above the hole takes `q` for its child there. -/
def relink (h : Heap A (Node A D)) (c : Ctx A D) (q : Ptr A) : Heap A (Node A D) :=
  match c with
  | .top => h
  | .left a .. => Function.update h a ((h a).map fun n => { n with lchild := q })
  | .right _ a .. => Function.update h a ((h a).map fun n => { n with rchild := q })

theorem adopt_some {x : A} {n : Node A D} {p : Ptr A} (hx : h x = some n) :
    adopt h (some x) p = Function.update h x (some { n with parent := p }) := by simp [adopt, hx]

theorem adopt_of_ne {q p : Ptr A} {x : A} (hx : q ≠ some x) : adopt h q p x = h x := by
  cases q with
  | none => rfl
  | some y => exact Function.update_of_ne (fun e => hx (by rw [e])) _ _

theorem adopt_of_not_mem {t : BinTree A D} {p : Ptr A} {x : A} (hx : x ∉ t.inorder) : adopt h t.root p x = h x :=
  adopt_of_ne fun e => hx (mem_of_root e)

theorem relink_of_ne {c : Ctx A D} {q : Ptr A} {x : A} (hx : c.parent ≠ some x) : relink h c q x = h x := by
  cases c with
  | top => rfl
  | left a d r up => exact Function.update_of_ne (fun e => hx (by rw [e]; rfl)) _ _
  | right l a d up => exact Function.update_of_ne (fun e => hx (by rw [e]; rfl)) _ _

theorem relink_of_not_mem {c : Ctx A D} {q : Ptr A} {x : A} (hx : x ∉ c.nodes) : relink h c q x = h x :=
  relink_of_ne fun e => hx (Ctx.parent_mem e)

theorem treeAt_adopt {t : BinTree A D} {p q : Ptr A} (ht : TreeAt cmp h q t) (hn : t.inorder.Nodup) :
    TreeAt cmp (adopt h t.root p) p t := by
  cases t with
  | nil => trivial
  | node l a d r =>
    simp only [inorder_node, List.nodup_append', List.nodup_cons, List.disjoint_cons_right] at hn
    obtain ⟨-, ⟨har, -⟩, hal, -⟩ := hn
    obtain ⟨ha, hl, hr⟩ := ht
    exact ⟨by simp [adopt, ha], treeAt_update _ hal hl, treeAt_update _ har hr⟩

theorem ctxAt_relink {c : Ctx A D} {p q : Ptr A} (hc : CtxAt cmp h c p) (hn : c.nodes.Nodup) :
    CtxAt cmp (relink h c q) c q := by
  cases c with
  | top => trivial
  | left a d r up =>
    simp only [Ctx.nodes_left, List.nodup_cons, List.mem_append, not_or] at hn
    obtain ⟨⟨har, haup⟩, -⟩ := hn
    obtain ⟨ha, hr, hup⟩ := hc
    exact ⟨by simp [relink, ha], treeAt_update _ har hr, ctxAt_update _ haup hup⟩
  | right l a d up =>
    simp only [Ctx.nodes_right, List.nodup_cons, List.mem_append, not_or] at hn
    obtain ⟨⟨hal, haup⟩, -⟩ := hn
    obtain ⟨ha, hl, hup⟩ := hc
    exact ⟨by simp [relink, ha], treeAt_update _ hal hl, ctxAt_update _ haup hup⟩

theorem treeAt_adopt_of_disjoint {s t : BinTree A D} {p q : Ptr A} (hd : s.inorder.Disjoint t.inorder)
    (hs : TreeAt cmp h q s) : TreeAt cmp (adopt h t.root p) q s :=
  hs.frame fun _ hx => adopt_of_not_mem (hd hx)

theorem ctxAt_adopt {c : Ctx A D} {t : BinTree A D} {p q : Ptr A} (hd : t.inorder.Disjoint c.nodes)
    (hc : CtxAt cmp h c q) : CtxAt cmp (adopt h t.root p) c q :=
  hc.frame fun _ hx => adopt_of_not_mem fun ht => hd ht hx

theorem treeAt_relink {c : Ctx A D} {t : BinTree A D} {p q : Ptr A} (hd : t.inorder.Disjoint c.nodes)
    (ht : TreeAt cmp h p t) : TreeAt cmp (relink h c q) p t :=
  ht.frame fun _ hx => relink_of_not_mem (hd hx)

/-- A new node `z` in an empty place. -/
theorem At.graft {c : Ctx A D} {z : A} {d : D} (ha : At cmp h c nil) (hz : z ∉ c.nodes)
    (hself : h' z = some ⟨d, c.parent, none, none, cmp⟩) (helse : ∀ x, x ≠ z → h' x = relink h c (some z) x) :
    At cmp h' c (node nil z d nil) := by
  refine ⟨⟨hself, trivial, trivial⟩, ?_, by simpa [hz] using ha.nodup⟩
  refine (ctxAt_relink (q := some z) ha.ctx (by simpa using ha.nodup)).frame fun x hx => helse x ?_
  exact fun e => hz (e ▸ hx)

/-- A node with at most one child goes, and its child's tree `x` comes to its place. -/
theorem At.unlink {c : Ctx A D} {l r x : BinTree A D} {z : A} {d : D} (ha : At cmp h c (node l z d r))
    (hx : l = nil ∧ r = x ∨ l = x ∧ r = nil) : At cmp (relink (adopt h x.root c.parent) c x.root) c x := by
  have hn := ha.nodup
  simp only [inorder_node, List.nodup_append', List.nodup_cons, List.disjoint_append_left,
    List.disjoint_cons_left, List.disjoint_cons_right] at hn
  obtain ⟨⟨hln, ⟨-, hrn⟩, -, -⟩, hcn, hlc, -, hrc⟩ := hn
  have hmain : ∀ {x : BinTree A D}, TreeAt cmp h (some z) x → x.inorder.Nodup → x.inorder.Disjoint c.nodes →
      At cmp (relink (adopt h x.root c.parent) c x.root) c x := fun hxt hxn hxc =>
    ⟨treeAt_relink hxc (treeAt_adopt hxt hxn), ctxAt_relink (ctxAt_adopt hxc ha.ctx) hcn,
      List.nodup_append'.2 ⟨hxn, hcn, hxc⟩⟩
  rcases hx with ⟨rfl, rfl⟩ | ⟨rfl, rfl⟩
  · exact hmain ha.tree.2.2 hrn hrc
  · exact hmain ha.tree.2.1 hln hlc

/-- The heap in which `y` has taken the place of the node at `c`, with its subtrees `l` and `r`. -/
def replaced (h : Heap A (Node A D)) (c : Ctx A D) (l r : BinTree A D) (y : A) (n : Node A D) : Heap A (Node A D) :=
  adopt (adopt (relink (Function.update h y (some n)) c (some y)) l.root (some y)) r.root (some y)

theorem replaced_of_not_mem {c : Ctx A D} {l r : BinTree A D} {x y : A} {n : Node A D} (hy : x ≠ y) (hc : x ∉ c.nodes)
    (hl : x ∉ l.inorder) (hr : x ∉ r.inorder) : replaced h c l r y n x = h x := by
  rw [replaced, adopt_of_not_mem hr, adopt_of_not_mem hl, relink_of_not_mem hc, Function.update_of_ne hy]

theorem At.replace {c : Ctx A D} {l r : BinTree A D} {y z : A} {d : D} (ha : At cmp h c (node l z d r))
    (hy : y ∉ (c.plug (node l z d r)).inorder) :
    At cmp (replaced h c l r y ⟨d, c.parent, l.root, r.root, cmp⟩) c (node l y d r) := by
  have hn := ha.nodup
  simp only [inorder_node, List.nodup_append', List.nodup_cons, List.disjoint_append_left,
    List.disjoint_cons_left, List.disjoint_cons_right] at hn
  obtain ⟨⟨hln, ⟨-, hrn⟩, -, hlr⟩, hcn, hlc, -, hrc⟩ := hn
  simp only [Ctx.mem_inorder_plug, inorder_node, List.mem_append, List.mem_cons, not_or] at hy
  obtain ⟨⟨hyl, -, hyr⟩, hyc⟩ := hy
  obtain ⟨-, htl, htr⟩ := ha.tree
  refine ⟨⟨?_, ?_, ?_⟩, ?_, ?_⟩
  · rw [replaced, adopt_of_not_mem hyr, adopt_of_not_mem hyl, relink_of_not_mem hyc, Function.update_self]
  · exact treeAt_adopt_of_disjoint hlr (treeAt_adopt (treeAt_relink hlc (treeAt_update _ hyl htl)) hln)
  · exact treeAt_adopt (treeAt_adopt_of_disjoint (List.disjoint_comm.1 hlr)
      (treeAt_relink hrc (treeAt_update _ hyr htr))) hrn
  · exact ctxAt_adopt hrc (ctxAt_adopt hlc (ctxAt_relink (ctxAt_update _ hyc ha.ctx) hcn))
  · simp only [inorder_node, List.nodup_append', List.nodup_cons, List.disjoint_append_left, List.disjoint_cons_left,
      List.disjoint_cons_right]
    exact ⟨⟨hln, ⟨hyr, hrn⟩, hyl, hlr⟩, hcn, hlc, hyc, hrc⟩

/-- `if (q) q->parent = p`, for the root `q` of a tree. -/
theorem returns_adopt {t : BinTree A D} {q : Ptr A} (ht : TreeAt cmp h q t) (p : Ptr A)
    (Q : Unit → Heap A (Node A D) → Prop) :
    Returns (whenNode t.root (setParent t.root p)) h Q ↔ Q () (adopt h t.root p) := by
  cases t with
  | nil => simp [adopt]
  | node l a d r => simp [adopt, ht.1]

theorem returns_setParent_root {t : BinTree A D} {q : Ptr A} {z : A} (ht : TreeAt cmp h q t) (hz : t.root = some z)
    (p : Ptr A) (Q : Unit → Heap A (Node A D) → Prop) :
    Returns (setParent (some z) p) h Q ↔ Q () (adopt h t.root p) := by
  rw [← returns_adopt ht p Q, hz, whenNode_some]

/-- The same, where the code reads the pointer again. -/
theorem returns_adopt_read {t : BinTree A D} {q : Ptr A} {rd : Prog (Heap A (Node A D)) (Ptr A)}
    (ht : TreeAt cmp h q t) (hrd : ∀ Q, Returns rd h Q ↔ Q t.root h) (p : Ptr A) (Q : Unit → Heap A (Node A D) → Prop) :
    Returns (whenNode t.root do setParent (← rd) p) h Q ↔ Q () (adopt h t.root p) := by
  cases t with
  | nil => simp [adopt]
  | node l a d r => simp [adopt, hrd, ht.1]

end Write

/-! ## Changes that keep the nodes -/

/-- `h'` holds at `c` the tree `t`, the same nodes in the same order as in the
tree `T` of `h`, and differs from `h` at most at these nodes. -/
structure Rearranged (cmp : A → A → Int) (h : Heap A (Node A D)) (T : BinTree A D) (h' : Heap A (Node A D))
    (c : Ctx A D) (t : BinTree A D) : Prop where
  place : At cmp h' c t
  inorder : (c.plug t).inorder = T.inorder
  agree : Agree T.inorder h h'

theorem At.rearranged {c : Ctx A D} {t : BinTree A D} (ha : At cmp h c t) : Rearranged cmp h (c.plug t) h c t :=
  ⟨ha, rfl, .refl _ _⟩

namespace Rearranged
variable {T : BinTree A D} {c c' : Ctx A D} {t t' : BinTree A D} {h'' : Heap A (Node A D)}

theorem trans (hr : Rearranged cmp h T h' c t) (hr' : Rearranged cmp h' (c.plug t) h'' c' t') :
    Rearranged cmp h T h'' c' t' :=
  ⟨hr'.place, hr'.inorder.trans hr.inorder, hr.agree.trans (hr.inorder ▸ hr'.agree)⟩

theorem left {a : A} {d : D} {r : BinTree A D} {up : Ctx A D} :
    Rearranged cmp h T h' (.left a d r up) t ↔ Rearranged cmp h T h' up (node t a d r) :=
  ⟨fun hr => ⟨at_left.1 hr.place, hr.inorder, hr.agree⟩, fun hr => ⟨at_left.2 hr.place, hr.inorder, hr.agree⟩⟩

theorem right {a : A} {d : D} {l : BinTree A D} {up : Ctx A D} :
    Rearranged cmp h T h' (.right l a d up) t ↔ Rearranged cmp h T h' up (node l a d t) :=
  ⟨fun hr => ⟨at_right.1 hr.place, hr.inorder, hr.agree⟩, fun hr => ⟨at_right.2 hr.place, hr.inorder, hr.agree⟩⟩

theorem relabel [DecidableEq A] {l r : BinTree A D} {a : A} {d : D} (hr : Rearranged cmp h T h' c (node l a d r))
    (d' : D) : Rearranged cmp h T (Function.update h' a (some ⟨d', c.parent, l.root, r.root, cmp⟩)) c (node l a d' r) := by
  refine ⟨hr.place.relabel d', ?_, hr.agree.update ?_ _⟩
  · rw [← hr.inorder, Ctx.inorder_plug, Ctx.inorder_plug]; rfl
  · rw [← hr.inorder, Ctx.mem_inorder_plug]; exact .inl (by simp)

end Rearranged

end MgStd.Lib
