import MgStd.RbTree.Rotate
/-!
# Red-black trees

The red-black invariants of a coloured tree, and of the frames above a place in
it: `CtxRb c n` says that the frames are in order around a tree of black height
`n`, so that only the colour at the place itself is left to check.
-/

namespace MgStd.RbTree

open MgStd.Lib BinTree

variable {A : Type}

/-- The colour of the root; NULL counts as black. -/
def color : ColorTree A → MgrbtreeColor
  | .nil => .mgBlack
  | .node _ _ d _ => d

/-- No red node has a red child. -/
def NoRedRed : ColorTree A → Prop
  | .nil => True
  | .node l _ d r => (d = .mgRed → color l = .mgBlack ∧ color r = .mgBlack) ∧ NoRedRed l ∧ NoRedRed r

/-- Every path from the root down to NULL has `n` black nodes. -/
def BlackHeight : ColorTree A → Nat → Prop
  | .nil, n => n = 0
  | .node l _ .mgRed r, n => BlackHeight l n ∧ BlackHeight r n
  | .node l _ .mgBlack r, n => ∃ k, n = k + 1 ∧ BlackHeight l k ∧ BlackHeight r k

structure RedBlack (t : ColorTree A) : Prop where
  root_black : color t = .mgBlack
  no_red_red : NoRedRed t
  black_height : ∃ n, BlackHeight t n

/-- The invariants below the root, at black height `n`. -/
def Rb (t : ColorTree A) (n : Nat) : Prop := NoRedRed t ∧ BlackHeight t n

/-- There is a node above the hole, and it is black. -/
def BlackParent : ColorCtx A → Prop
  | .top => False
  | .left _ d _ _ => d = .mgBlack
  | .right _ _ d _ => d = .mgBlack

def CtxRb : ColorCtx A → Nat → Prop
  | .top, _ => True
  | .left _ .mgBlack s up, n => Rb s n ∧ CtxRb up (n + 1)
  | .left _ .mgRed s up, n => Rb s n ∧ color s = .mgBlack ∧ BlackParent up ∧ CtxRb up n
  | .right s _ .mgBlack up, n => Rb s n ∧ CtxRb up (n + 1)
  | .right s _ .mgRed up, n => Rb s n ∧ color s = .mgBlack ∧ BlackParent up ∧ CtxRb up n

variable {c : ColorCtx A} {l r s t : ColorTree A} {a : A} {n : Nat} {up : ColorCtx A}

@[simp] theorem color_nil : color (nil : ColorTree A) = .mgBlack := rfl
@[simp] theorem color_node (d : MgrbtreeColor) : color (node l a d r) = d := rfl

@[simp] theorem rb_nil : Rb (nil : ColorTree A) n ↔ n = 0 := by simp [Rb, NoRedRed, BlackHeight]

@[simp] theorem rb_red :
    Rb (node l a .mgRed r) n ↔ (color l = .mgBlack ∧ color r = .mgBlack) ∧ Rb l n ∧ Rb r n := by
  simp [Rb, NoRedRed, BlackHeight]; tauto

@[simp] theorem rb_black : Rb (node l a .mgBlack r) n ↔ ∃ k, n = k + 1 ∧ Rb l k ∧ Rb r k := by
  simp [Rb, NoRedRed, BlackHeight]; tauto

@[simp] theorem blackParent_top : ¬ BlackParent (.top : ColorCtx A) := id
@[simp] theorem blackParent_left (d : MgrbtreeColor) : BlackParent (.left a d s up) ↔ d = .mgBlack := Iff.rfl
@[simp] theorem blackParent_right (d : MgrbtreeColor) : BlackParent (.right s a d up) ↔ d = .mgBlack := Iff.rfl

@[simp] theorem ctxRb_top : CtxRb (.top : ColorCtx A) n := trivial
@[simp] theorem ctxRb_left_black : CtxRb (.left a .mgBlack s up) n ↔ Rb s n ∧ CtxRb up (n + 1) := Iff.rfl
@[simp] theorem ctxRb_left_red :
    CtxRb (.left a .mgRed s up) n ↔ Rb s n ∧ color s = .mgBlack ∧ BlackParent up ∧ CtxRb up n := Iff.rfl
@[simp] theorem ctxRb_right_black : CtxRb (.right s a .mgBlack up) n ↔ Rb s n ∧ CtxRb up (n + 1) := Iff.rfl
@[simp] theorem ctxRb_right_red :
    CtxRb (.right s a .mgRed up) n ↔ Rb s n ∧ color s = .mgBlack ∧ BlackParent up ∧ CtxRb up n := Iff.rfl

theorem MgrbtreeColor.eq_black {d : MgrbtreeColor} (h : d ≠ .mgRed) : d = .mgBlack := by
  cases d <;> simp_all

/-! ## A tree and its places -/

theorem redBlack_top : RedBlack t ↔ color t = .mgBlack ∧ ∃ n, Rb t n :=
  ⟨fun h => ⟨h.root_black, h.black_height.imp fun _ hn => ⟨h.no_red_red, hn⟩⟩,
    fun ⟨hc, _, hr, hn⟩ => ⟨hc, hr, _, hn⟩⟩

/-- In order at the place, in order everywhere. -/
theorem redBlack_plug (hc : CtxRb c n) (ht : Rb t n) (hp : color t = .mgRed → BlackParent c) :
    RedBlack (c.plug t) := by
  induction c generalizing t n with
  | top => exact redBlack_top.2 ⟨MgrbtreeColor.eq_black fun e => hp e, n, ht⟩
  | left a d s up ih =>
    cases d with
    | mgBlack => exact ih hc.2 (rb_black.2 ⟨n, rfl, ht, hc.1⟩) (by simp)
    | mgRed =>
      obtain ⟨hs, hsc, hup, hc⟩ := hc
      exact ih hc (rb_red.2 ⟨⟨MgrbtreeColor.eq_black fun e => by simpa using hp e, hsc⟩, ht, hs⟩) fun _ => hup
  | right s a d up ih =>
    cases d with
    | mgBlack => exact ih hc.2 (rb_black.2 ⟨n, rfl, hc.1, ht⟩) (by simp)
    | mgRed =>
      obtain ⟨hs, hsc, hup, hc⟩ := hc
      exact ih hc (rb_red.2 ⟨⟨hsc, MgrbtreeColor.eq_black fun e => by simpa using hp e⟩, hs, ht⟩) fun _ => hup

/-- In order everywhere, in order at each place. -/
theorem RedBlack.place (h : RedBlack (c.plug t)) :
    ∃ n, CtxRb c n ∧ Rb t n ∧ (color t = .mgRed → BlackParent c) := by
  induction c generalizing t with
  | top =>
    obtain ⟨hc, n, hn⟩ := redBlack_top.1 h
    exact ⟨n, trivial, hn, fun e => by simp_all⟩
  | left a d s up ih =>
    obtain ⟨n, hc, ht, hp⟩ := ih h
    cases d with
    | mgBlack =>
      obtain ⟨k, rfl, ht, hs⟩ := rb_black.1 ht
      exact ⟨k, ⟨hs, hc⟩, ht, fun _ => rfl⟩
    | mgRed =>
      obtain ⟨⟨htc, hsc⟩, ht, hs⟩ := rb_red.1 ht
      exact ⟨n, ⟨hs, hsc, hp rfl, hc⟩, ht, fun e => by simp_all⟩
  | right s a d up ih =>
    obtain ⟨n, hc, ht, hp⟩ := ih h
    cases d with
    | mgBlack =>
      obtain ⟨k, rfl, hs, ht⟩ := rb_black.1 ht
      exact ⟨k, ⟨hs, hc⟩, ht, fun _ => rfl⟩
    | mgRed =>
      obtain ⟨⟨hsc, htc⟩, hs, ht⟩ := rb_red.1 ht
      exact ⟨n, ⟨hs, hsc, hp rfl, hc⟩, ht, fun e => by simp_all⟩

end MgStd.RbTree
