import MgStd.RbTree.InsertFixup
/-!
# The removal fix-up

The loop of `mgrbtree_fixup_remove` runs on a tree in which every path through
`node` is one black node short. Each round mends the tree or moves the
shortage up, after at most one rotation that makes the parent red.
-/

namespace MgStd.RbTree

open MgStd.Lib BinTree

variable {A : Type} [DecidableEq A] {cmp : A → A → Int} {h : Heap A (MgrbtreeT A)}
  {c up : ColorCtx A} {s s₁ s₂ t u₁ u₂ v₁ v₂ : ColorTree A} {b p x y : A} {d e : MgrbtreeColor} {n : Nat}

/-- In order at black height `n`, but a red root may have red children. -/
def Short : ColorTree A → Nat → Prop
  | .node l _ .mgRed r, n => Rb l n ∧ Rb r n
  | t, n => Rb t n

omit [DecidableEq A] in
theorem Rb.short (ht : Rb t n) : Short t n := by
  obtain _ | ⟨l, a, _ | _, r⟩ := t
  · exact ht
  · exact ht
  · exact (rb_red.1 ht).2

omit [DecidableEq A] in
theorem Short.rb (ht : Short t n) (hb : color t = .mgBlack) : Rb t n := by
  obtain _ | ⟨l, a, _ | _, r⟩ := t
  · exact ht
  · exact ht
  · cases hb

/-- How many rounds the loop may still take at a place. -/
def removeRounds (c : ColorCtx A) (t : ColorTree A) : Nat :=
  match c, color t with
  | .top, _ => 0
  | _, .mgRed => 0
  | .left _ .mgRed _ _, .mgBlack => 1
  | .right _ _ .mgRed _, .mgBlack => 1
  | c, .mgBlack => c.depth + 2

section
omit [DecidableEq A]

@[simp] theorem removeRounds_top : removeRounds .top t = 0 := rfl

theorem removeRounds_left_red (hb : color t = .mgBlack) : removeRounds (.left p .mgRed s up) t = 1 := by
  simp [removeRounds, hb]

theorem removeRounds_right_red (hb : color t = .mgBlack) : removeRounds (.right s p .mgRed up) t = 1 := by
  simp [removeRounds, hb]

theorem removeRounds_left_black (hb : color t = .mgBlack) :
    removeRounds (.left p .mgBlack s up) t = up.depth + 3 := by
  simp [removeRounds, hb, Ctx.depth]

theorem removeRounds_right_black (hb : color t = .mgBlack) :
    removeRounds (.right s p .mgBlack up) t = up.depth + 3 := by
  simp [removeRounds, hb, Ctx.depth]

theorem removeRounds_le (c : ColorCtx A) (t : ColorTree A) : removeRounds c t ≤ c.depth + 2 := by
  unfold removeRounds
  split <;> omega

theorem removeRounds_red (c : ColorCtx A) (ht : color t = .mgRed) : removeRounds c t = 0 := by
  cases c <;> simp [removeRounds, ht]

theorem removeRounds_left_pos (hb : color t = .mgBlack) : 0 < removeRounds (.left p d s up) t := by
  cases d
  · rw [removeRounds_left_black hb]; omega
  · rw [removeRounds_left_red hb]; omega

theorem removeRounds_right_pos (hb : color t = .mgBlack) : 0 < removeRounds (.right s p d up) t := by
  cases d
  · rw [removeRounds_right_black hb]; omega
  · rw [removeRounds_right_red hb]; omega

end

/-- The frames `up` are in order around a node of colour `d` with subtrees of black height `n`. -/
def Above (d : MgrbtreeColor) (up : ColorCtx A) (n : Nat) : Prop :=
  match d with
  | .mgBlack => CtxRb up (n + 1)
  | .mgRed => BlackParent up ∧ CtxRb up n

omit [DecidableEq A] in
theorem CtxRb.above_left (hc : CtxRb (.left p d s up) n) : Rb s n ∧ Above d up n := by
  cases d with
  | mgBlack => exact hc
  | mgRed => exact ⟨hc.1, hc.2.2⟩

omit [DecidableEq A] in
theorem CtxRb.above_right (hc : CtxRb (.right s p d up) n) : Rb s n ∧ Above d up n := by
  cases d with
  | mgBlack => exact hc
  | mgRed => exact ⟨hc.1, hc.2.2⟩

omit [DecidableEq A] in
theorem Above.redBlack {l r : ColorTree A} (hup : Above d up n) (hl : Rb l n) (hr : Rb r n) (hlc : color l = .mgBlack)
    (hrc : color r = .mgBlack) : RedBlack (up.plug (node l b d r)) := by
  cases d with
  | mgBlack => exact redBlack_plug hup (rb_black.2 ⟨n, rfl, hl, hr⟩) (by simp)
  | mgRed => exact redBlack_plug hup.2 (rb_red.2 ⟨⟨hlc, hrc⟩, hl, hr⟩) fun _ => hup.1

/-! ## The cases -/

theorem removeCase3_spec (ha : At cmp h (.left p d (node (node u₁ x .mgRed u₂) b .mgBlack s₂) up) t) :
    Returns (removeCase3 (up.plug (node t p d (node (node u₁ x .mgRed u₂) b .mgBlack s₂))).root (some p) (some b)) h
      fun r h' => r = ((up.plug (node t p d (node u₁ x .mgBlack (node u₂ b .mgRed s₂)))).root, some x) ∧
        Rearranged cmp h (up.plug (node t p d (node (node u₁ x .mgRed u₂) b .mgBlack s₂))) h'
          (.left p d (node u₁ x .mgBlack (node u₂ b .mgRed s₂)) up) t := by
  have hp := at_left.1 ha
  have hb := at_right.2 hp
  have hx := at_left.2 hb
  have hbx := hx.not_mem (p := b) (by simp)
  simp only [inorder_node, List.mem_append, List.mem_cons, not_or] at hbx
  have hrec := Rearranged.left.1 ((Rearranged.left.2 (hb.rearranged.relabel .mgRed)).relabel .mgBlack)
  have hroot : (up.plug (node t p d (node (node u₁ x .mgRed u₂) b .mgBlack s₂))).root =
    (up.plug (node t p d (node (node u₁ x .mgBlack u₂) b .mgRed s₂))).root := Ctx.root_plug up rfl
  rw [hroot]
  simp [removeCase3, hb.self, hx.self, Ne.symm hbx.2.1]
  refine (rightRote_spec hrec.place).mono ?_
  rintro root' h' ⟨rfl, hrot⟩
  have hp' := at_right.1 hrot.place
  simp [hp'.self]
  exact Rearranged.left.2 (Rearranged.right.1 (hrec.trans hrot))

theorem removeCase4_spec (ha : At cmp h (.left p d (node s₁ b e (node v₁ y .mgRed v₂)) up) t) :
    Returns (removeCase4 (up.plug (node t p d (node s₁ b e (node v₁ y .mgRed v₂)))).root (some p) (some b)) h
      fun root' h' => root' = (up.plug (node (node t p .mgBlack s₁) b d (node v₁ y .mgBlack v₂))).root ∧
        Rearranged cmp h (up.plug (node t p d (node s₁ b e (node v₁ y .mgRed v₂)))) h' up
          (node (node t p .mgBlack s₁) b d (node v₁ y .mgBlack v₂)) := by
  have hp := at_left.1 ha
  have hb := at_right.2 hp
  have hy := at_right.2 hb
  have hpb := hb.not_mem (p := p) (by simp)
  have hby := hy.not_mem (p := b) (by simp)
  simp only [inorder_node, List.mem_append, List.mem_cons, not_or] at hby hpb
  have hrec := (Rearranged.right.1 ((Rearranged.right.1 ((Rearranged.right.2 hb.rearranged).relabel .mgBlack)).relabel
    d)).relabel .mgBlack
  have hroot : (up.plug (node t p d (node s₁ b e (node v₁ y .mgRed v₂)))).root =
    (up.plug (node t p .mgBlack (node s₁ b d (node v₁ y .mgBlack v₂)))).root := Ctx.root_plug up rfl
  rw [hroot]
  simp [removeCase4, hp.self, hb.self, hy.self, hby.2.1, hpb]
  refine (leftRote_spec hrec.place).mono ?_
  rintro root' h' ⟨rfl, hrot⟩
  exact ⟨rfl, hrec.trans hrot⟩

theorem removeCase3'_spec (ha : At cmp h (.right (node s₂ b .mgBlack (node u₂ x .mgRed u₁)) p d up) t) :
    Returns (removeCase3' (up.plug (node (node s₂ b .mgBlack (node u₂ x .mgRed u₁)) p d t)).root (some p) (some b)) h
      fun r h' => r = ((up.plug (node (node (node s₂ b .mgRed u₂) x .mgBlack u₁) p d t)).root, some x) ∧
        Rearranged cmp h (up.plug (node (node s₂ b .mgBlack (node u₂ x .mgRed u₁)) p d t)) h'
          (.right (node (node s₂ b .mgRed u₂) x .mgBlack u₁) p d up) t := by
  have hp := at_right.1 ha
  have hb := at_left.2 hp
  have hx := at_right.2 hb
  have hbx := hx.not_mem (p := b) (by simp)
  simp only [inorder_node, List.mem_append, List.mem_cons, not_or] at hbx
  have hrec := Rearranged.right.1 ((Rearranged.right.2 (hb.rearranged.relabel .mgRed)).relabel .mgBlack)
  have hroot : (up.plug (node (node s₂ b .mgBlack (node u₂ x .mgRed u₁)) p d t)).root =
    (up.plug (node (node s₂ b .mgRed (node u₂ x .mgBlack u₁)) p d t)).root := Ctx.root_plug up rfl
  rw [hroot]
  simp [removeCase3', hb.self, hx.self, Ne.symm hbx.2.1]
  refine (leftRote_spec hrec.place).mono ?_
  rintro root' h' ⟨rfl, hrot⟩
  have hp' := at_left.1 hrot.place
  simp [hp'.self]
  exact Rearranged.right.2 (Rearranged.left.1 (hrec.trans hrot))

theorem removeCase4'_spec (ha : At cmp h (.right (node (node v₂ y .mgRed v₁) b e s₁) p d up) t) :
    Returns (removeCase4' (up.plug (node (node (node v₂ y .mgRed v₁) b e s₁) p d t)).root (some p) (some b)) h
      fun root' h' => root' = (up.plug (node (node v₂ y .mgBlack v₁) b d (node s₁ p .mgBlack t))).root ∧
        Rearranged cmp h (up.plug (node (node (node v₂ y .mgRed v₁) b e s₁) p d t)) h' up
          (node (node v₂ y .mgBlack v₁) b d (node s₁ p .mgBlack t)) := by
  have hp := at_right.1 ha
  have hb := at_left.2 hp
  have hy := at_left.2 hb
  have hpb := hb.not_mem (p := p) (by simp)
  have hby := hy.not_mem (p := b) (by simp)
  simp only [inorder_node, List.mem_append, List.mem_cons, not_or] at hby hpb
  have hrec := (Rearranged.left.1 ((Rearranged.left.1 ((Rearranged.left.2 hb.rearranged).relabel .mgBlack)).relabel
    d)).relabel .mgBlack
  have hroot : (up.plug (node (node (node v₂ y .mgRed v₁) b e s₁) p d t)).root =
    (up.plug (node (node (node v₂ y .mgBlack v₁) b d s₁) p .mgBlack t)).root := Ctx.root_plug up rfl
  rw [hroot]
  simp [removeCase4', hp.self, hb.self, hy.self, hby.2.1, hpb]
  refine (rightRote_spec hrec.place).mono ?_
  rintro root' h' ⟨rfl, hrot⟩
  exact ⟨rfl, hrec.trans hrot⟩

/-! ## One round -/

/-- What a round makes of a shortage at the place `c`. -/
def RemoveResult (cmp : A → A → Int) (h : Heap A (MgrbtreeT A)) (c : ColorCtx A) (t : ColorTree A) :
    (Ptr A × Ptr A × Ptr A) ⊕ (Ptr A × Ptr A) → Heap A (MgrbtreeT A) → Prop
  | .inr (root, x), h' => root = (c.plug t).root ∧ x = t.root ∧ h' = h ∧ (c = .top ∨ color t = .mgRed)
  | .inl (root, nodeParent, x), h' => ∃ c' t' n, root = (c'.plug t').root ∧ nodeParent = c'.parent ∧ x = t'.root ∧
      Rearranged cmp h (c.plug t) h' c' t' ∧ Short t' n ∧ CtxRb c' (n + 1) ∧ removeRounds c' t' < removeRounds c t

theorem removeRound_exit (ha : At cmp h c t) (hc : c = .top ∨ color t = .mgRed) :
    Returns (fixupRemoveRound ((c.plug t).root, c.parent, t.root)) h (RemoveResult cmp h c t) := by
  rcases hc with rfl | hred
  · simp [fixupRemoveRound, RemoveResult]
  · obtain _ | ⟨l, a, d, r⟩ := t
    · cases hred
    obtain rfl : d = .mgRed := hred
    rw [root_node]
    simp [fixupRemoveRound, RemoveResult, ha.self]

/-- Case 1: the brother is red. -/
theorem removeRound_left_red (ha : At cmp h (.left p .mgBlack (node s₁ b .mgRed s₂) up) t) (ht : Rb t n)
    (hb : color t = .mgBlack) (hc : CtxRb (.left p .mgBlack (node s₁ b .mgRed s₂) up) (n + 1)) :
    Returns (fixupRemoveRound ((up.plug (node t p .mgBlack (node s₁ b .mgRed s₂))).root, some p, t.root)) h
      (RemoveResult cmp h (.left p .mgBlack (node s₁ b .mgRed s₂) up) t) := by
  have hp := at_left.1 ha
  have hbr := at_right.2 hp
  have hpb := hbr.not_mem (p := p) (by simp)
  have hne := ha.root_ne rfl
  have hisb := returns_isBlack ha.tree
  simp only [inorder_node, List.mem_append, List.mem_cons, not_or] at hpb
  have hrec := Rearranged.right.1 ((Rearranged.right.2 (hp.rearranged.relabel .mgRed)).relabel .mgBlack)
  have hroot : (up.plug (node t p .mgBlack (node s₁ b .mgRed s₂))).root =
    (up.plug (node t p .mgRed (node s₁ b .mgBlack s₂))).root := Ctx.root_plug up rfl
  simp only [Ctx.plug_left, hroot] at hne
  rw [hroot]
  simp [fixupRemoveRound, hp.self, hbr.self, Ne.symm hpb.2.1, hne, hisb, hb]
  refine (leftRote_spec hrec.place).mono ?_
  rintro root' h' ⟨rfl, hrot⟩
  refine ⟨.left p .mgRed s₁ (.left b .mgBlack s₂ up), t, n, rfl, rfl, rfl, ?_, ht.short, ?_, ?_⟩
  · exact Rearranged.left.2 (Rearranged.left.2 (hrec.trans hrot))
  · obtain ⟨hs, hup⟩ := hc
    simp_all
  · rw [removeRounds_left_red hb, removeRounds_left_black hb]
    omega

/-- Case 2: the brother and its children are black. -/
theorem removeRound_left_black (ha : At cmp h (.left p d (node s₁ b .mgBlack s₂) up) t) (ht : Rb t n)
    (hb : color t = .mgBlack) (hc : CtxRb (.left p d (node s₁ b .mgBlack s₂) up) (n + 1))
    (h₁ : color s₁ = .mgBlack) (h₂ : color s₂ = .mgBlack) :
    Returns (fixupRemoveRound ((up.plug (node t p d (node s₁ b .mgBlack s₂))).root, some p, t.root)) h
      (RemoveResult cmp h (.left p d (node s₁ b .mgBlack s₂) up) t) := by
  have hp := at_left.1 ha
  have hbr := at_right.2 hp
  have hpb := hbr.not_mem (p := p) (by simp)
  have hne := ha.root_ne rfl
  simp only [inorder_node, List.mem_append, List.mem_cons, not_or] at hpb
  have hrec := Rearranged.right.1 ((Rearranged.right.2 hp.rearranged).relabel .mgRed)
  simp only [Ctx.plug_left] at hne
  simp [fixupRemoveRound, hp.self, hbr.self, hpb, hne, returns_isBlack ha.tree, returns_isBlack (at_left.2 hbr).tree,
    returns_isBlack (at_right.2 hbr).tree, hb, h₁, h₂]
  cases d with
  | mgBlack =>
    obtain ⟨hs, hup⟩ := hc
    refine ⟨up, node t p .mgBlack (node s₁ b .mgRed s₂), n + 1, Ctx.root_plug up rfl, rfl, rfl, hrec, ?_, hup, ?_⟩
    · exact Rb.short (by simpa [ht, h₁, h₂] using hs)
    · have hle := removeRounds_le up (node t p .mgBlack (node s₁ b .mgRed s₂))
      rw [removeRounds_left_black hb]
      omega
  | mgRed =>
    obtain ⟨hs, -, -, hup⟩ := hc
    refine ⟨up, node t p .mgRed (node s₁ b .mgRed s₂), n, Ctx.root_plug up rfl, rfl, rfl, hrec, ?_, hup, ?_⟩
    · exact ⟨ht, by simpa [h₁, h₂] using hs⟩
    · rw [removeRounds_red up rfl]
      exact removeRounds_left_pos hb

omit [DecidableEq A] in
/-- A round that mends the tree goes to the root, where the loop ends. -/
theorem removeResult_root {h' : Heap A (MgrbtreeT A)} {l r : ColorTree A}
    (hr : Rearranged cmp h (c.plug t) h' up (node l b d r)) (hT : RedBlack (up.plug (node l b d r)))
    (hpos : 0 < removeRounds c t) :
    Returns (parentOf (up.plug (node l b d r)).root) h' fun q h'' =>
      RemoveResult cmp h c t (.inl ((up.plug (node l b d r)).root, q, (up.plug (node l b d r)).root)) h'' := by
  have htop := at_plug.1 hr.place
  have hmem : b ∈ (up.plug (node l b d r)).inorder := Ctx.mem_inorder_plug.2 (.inl (by simp))
  have hrT : Rearranged cmp h (c.plug t) h' .top (up.plug (node l b d r)) := ⟨htop, hr.inorder, hr.agree⟩
  obtain ⟨-, m, hm⟩ := redBlack_top.1 hT
  generalize up.plug (node l b d r) = T at *
  cases T with
  | nil => simp at hmem
  | node l' a e r' =>
    simp [htop.self]
    exact ⟨.top, node l' a e r', m, rfl, rfl, rfl, hrT, hm.short, trivial, hpos⟩

/-- Case 4: the far child of the black brother is red. -/
theorem removeRound_left_far (ha : At cmp h (.left p d (node s₁ b .mgBlack (node v₁ y .mgRed v₂)) up) t) (ht : Rb t n)
    (hb : color t = .mgBlack) (hc : CtxRb (.left p d (node s₁ b .mgBlack (node v₁ y .mgRed v₂)) up) (n + 1)) :
    Returns (fixupRemoveRound ((up.plug (node t p d (node s₁ b .mgBlack (node v₁ y .mgRed v₂)))).root, some p, t.root)) h
      (RemoveResult cmp h (.left p d (node s₁ b .mgBlack (node v₁ y .mgRed v₂)) up) t) := by
  have hp := at_left.1 ha
  have hbr := at_right.2 hp
  have hne := ha.root_ne rfl
  simp only [Ctx.plug_left] at hne
  simp [fixupRemoveRound, hp.self, hbr.self, hne, returns_isBlack ha.tree, (at_right.2 hbr).self, hb]
  refine (removeCase4_spec ha).mono ?_
  rintro root' h' ⟨rfl, hr⟩
  obtain ⟨hs, hup⟩ := hc.above_left
  obtain ⟨hs₁, -, hv₁, hv₂⟩ : Rb s₁ n ∧ _ ∧ Rb v₁ n ∧ Rb v₂ n := by simpa using hs
  refine removeResult_root hr (hup.redBlack ?_ ?_ rfl rfl) (removeRounds_left_pos hb)
  · exact rb_black.2 ⟨n, rfl, ht, hs₁⟩
  · exact rb_black.2 ⟨n, rfl, hv₁, hv₂⟩

/-- Case 3, and case 4 after it: only the near child of the black brother is red. -/
theorem removeRound_left_near (ha : At cmp h (.left p d (node (node u₁ x .mgRed u₂) b .mgBlack s₂) up) t) (ht : Rb t n)
    (hb : color t = .mgBlack) (hc : CtxRb (.left p d (node (node u₁ x .mgRed u₂) b .mgBlack s₂) up) (n + 1))
    (h₂ : color s₂ = .mgBlack) :
    Returns (fixupRemoveRound ((up.plug (node t p d (node (node u₁ x .mgRed u₂) b .mgBlack s₂))).root, some p, t.root)) h
      (RemoveResult cmp h (.left p d (node (node u₁ x .mgRed u₂) b .mgBlack s₂) up) t) := by
  have hp := at_left.1 ha
  have hbr := at_right.2 hp
  have hne := ha.root_ne rfl
  simp only [Ctx.plug_left] at hne
  simp [fixupRemoveRound, hp.self, hbr.self, hne, returns_isBlack ha.tree, returns_isBlack (at_right.2 hbr).tree,
    (at_left.2 hbr).self, hb, h₂]
  refine (removeCase3_spec ha).mono ?_
  rintro _ h₁ ⟨rfl, hr₁⟩
  refine (removeCase4_spec hr₁.place).mono ?_
  rintro root' h' ⟨rfl, hr⟩
  obtain ⟨hs, hup⟩ := hc.above_left
  obtain ⟨⟨-, hu₁, hu₂⟩, hs₂⟩ : (_ ∧ Rb u₁ n ∧ Rb u₂ n) ∧ Rb s₂ n := by simpa using hs
  refine removeResult_root (hr₁.trans hr) (hup.redBlack ?_ ?_ rfl rfl) (removeRounds_left_pos hb)
  · exact rb_black.2 ⟨n, rfl, ht, hu₁⟩
  · exact rb_black.2 ⟨n, rfl, hu₂, hs₂⟩

/-- Case 1': the brother is red. -/
theorem removeRound_right_red (ha : At cmp h (.right (node s₂ b .mgRed s₁) p .mgBlack up) t) (ht : Rb t n)
    (hb : color t = .mgBlack) (hc : CtxRb (.right (node s₂ b .mgRed s₁) p .mgBlack up) (n + 1)) :
    Returns (fixupRemoveRound ((up.plug (node (node s₂ b .mgRed s₁) p .mgBlack t)).root, some p, t.root)) h
      (RemoveResult cmp h (.right (node s₂ b .mgRed s₁) p .mgBlack up) t) := by
  have hp := at_right.1 ha
  have hbr := at_left.2 hp
  have hbt := ha.not_mem (p := b) (by simp)
  have hpb := hbr.not_mem (p := p) (by simp)
  have hne := ha.root_ne rfl
  have htb : some b ≠ t.root := fun e => hbt (mem_of_root e.symm)
  simp only [inorder_node, List.mem_append, List.mem_cons, not_or] at hpb
  have hrec := Rearranged.left.1 ((Rearranged.left.2 (hp.rearranged.relabel .mgRed)).relabel .mgBlack)
  have hroot : (up.plug (node (node s₂ b .mgRed s₁) p .mgBlack t)).root =
    (up.plug (node (node s₂ b .mgBlack s₁) p .mgRed t)).root := Ctx.root_plug up rfl
  simp only [Ctx.plug_right, hroot] at hne
  rw [hroot]
  simp [fixupRemoveRound, hp.self, hbr.self, Ne.symm hpb.2.1, hne, htb, returns_isBlack ha.tree, hb]
  refine (rightRote_spec hrec.place).mono ?_
  rintro root' h' ⟨rfl, hrot⟩
  refine ⟨.right s₁ p .mgRed (.right s₂ b .mgBlack up), t, n, rfl, rfl, rfl, ?_, ht.short, ?_, ?_⟩
  · exact Rearranged.right.2 (Rearranged.right.2 (hrec.trans hrot))
  · obtain ⟨hs, hup⟩ := hc
    simp_all
  · rw [removeRounds_right_red hb, removeRounds_right_black hb]
    omega

/-- Case 2': the brother and its children are black. -/
theorem removeRound_right_black (ha : At cmp h (.right (node s₂ b .mgBlack s₁) p d up) t) (ht : Rb t n)
    (hb : color t = .mgBlack) (hc : CtxRb (.right (node s₂ b .mgBlack s₁) p d up) (n + 1))
    (h₁ : color s₁ = .mgBlack) (h₂ : color s₂ = .mgBlack) :
    Returns (fixupRemoveRound ((up.plug (node (node s₂ b .mgBlack s₁) p d t)).root, some p, t.root)) h
      (RemoveResult cmp h (.right (node s₂ b .mgBlack s₁) p d up) t) := by
  have hp := at_right.1 ha
  have hbr := at_left.2 hp
  have hbt := ha.not_mem (p := b) (by simp)
  have hpb := hbr.not_mem (p := p) (by simp)
  have hne := ha.root_ne rfl
  have htb : some b ≠ t.root := fun e => hbt (mem_of_root e.symm)
  simp only [inorder_node, List.mem_append, List.mem_cons, not_or] at hpb
  have hrec := Rearranged.left.1 ((Rearranged.left.2 hp.rearranged).relabel .mgRed)
  simp only [Ctx.plug_right] at hne
  simp [fixupRemoveRound, hp.self, hbr.self, hpb, hne, htb, returns_isBlack ha.tree, returns_isBlack (at_left.2 hbr).tree,
    returns_isBlack (at_right.2 hbr).tree, hb, h₁, h₂]
  cases d with
  | mgBlack =>
    obtain ⟨hs, hup⟩ := hc
    refine ⟨up, node (node s₂ b .mgRed s₁) p .mgBlack t, n + 1, Ctx.root_plug up rfl, rfl, rfl, hrec, ?_, hup, ?_⟩
    · exact Rb.short (by simpa [ht, h₁, h₂] using hs)
    · have hle := removeRounds_le up (node (node s₂ b .mgRed s₁) p .mgBlack t)
      rw [removeRounds_right_black hb]
      omega
  | mgRed =>
    obtain ⟨hs, -, -, hup⟩ := hc
    refine ⟨up, node (node s₂ b .mgRed s₁) p .mgRed t, n, Ctx.root_plug up rfl, rfl, rfl, hrec, ?_, hup, ?_⟩
    · exact ⟨by simpa [h₁, h₂] using hs, ht⟩
    · rw [removeRounds_red up rfl]
      exact removeRounds_right_pos hb

/-- Case 4': the far child of the black brother is red. -/
theorem removeRound_right_far (ha : At cmp h (.right (node (node v₂ y .mgRed v₁) b .mgBlack s₁) p d up) t) (ht : Rb t n)
    (hb : color t = .mgBlack) (hc : CtxRb (.right (node (node v₂ y .mgRed v₁) b .mgBlack s₁) p d up) (n + 1)) :
    Returns (fixupRemoveRound ((up.plug (node (node (node v₂ y .mgRed v₁) b .mgBlack s₁) p d t)).root, some p, t.root)) h
      (RemoveResult cmp h (.right (node (node v₂ y .mgRed v₁) b .mgBlack s₁) p d up) t) := by
  have hp := at_right.1 ha
  have hbr := at_left.2 hp
  have hbt := ha.not_mem (p := b) (by simp)
  have hne := ha.root_ne rfl
  have htb : some b ≠ t.root := fun e => hbt (mem_of_root e.symm)
  simp only [Ctx.plug_right] at hne
  simp [fixupRemoveRound, hp.self, hbr.self, hne, htb, returns_isBlack ha.tree, (at_left.2 hbr).self, hb]
  refine (removeCase4'_spec ha).mono ?_
  rintro root' h' ⟨rfl, hr⟩
  obtain ⟨hs, hup⟩ := hc.above_right
  obtain ⟨⟨-, hv₂, hv₁⟩, hs₁⟩ : (_ ∧ Rb v₂ n ∧ Rb v₁ n) ∧ Rb s₁ n := by simpa using hs
  refine removeResult_root hr (hup.redBlack ?_ ?_ rfl rfl) (removeRounds_right_pos hb)
  · exact rb_black.2 ⟨n, rfl, hv₂, hv₁⟩
  · exact rb_black.2 ⟨n, rfl, hs₁, ht⟩

/-- Case 3', and case 4' after it: only the near child of the black brother is red. -/
theorem removeRound_right_near (ha : At cmp h (.right (node s₂ b .mgBlack (node u₂ x .mgRed u₁)) p d up) t) (ht : Rb t n)
    (hb : color t = .mgBlack) (hc : CtxRb (.right (node s₂ b .mgBlack (node u₂ x .mgRed u₁)) p d up) (n + 1))
    (h₂ : color s₂ = .mgBlack) :
    Returns (fixupRemoveRound ((up.plug (node (node s₂ b .mgBlack (node u₂ x .mgRed u₁)) p d t)).root, some p, t.root)) h
      (RemoveResult cmp h (.right (node s₂ b .mgBlack (node u₂ x .mgRed u₁)) p d up) t) := by
  have hp := at_right.1 ha
  have hbr := at_left.2 hp
  have hbt := ha.not_mem (p := b) (by simp)
  have hne := ha.root_ne rfl
  have htb : some b ≠ t.root := fun e => hbt (mem_of_root e.symm)
  simp only [Ctx.plug_right] at hne
  simp [fixupRemoveRound, hp.self, hbr.self, hne, htb, returns_isBlack ha.tree, returns_isBlack (at_left.2 hbr).tree,
    (at_right.2 hbr).self, hb, h₂]
  refine (removeCase3'_spec ha).mono ?_
  rintro _ h₁ ⟨rfl, hr₁⟩
  refine (removeCase4'_spec hr₁.place).mono ?_
  rintro root' h' ⟨rfl, hr⟩
  obtain ⟨hs, hup⟩ := hc.above_right
  obtain ⟨hs₂, -, hu₂, hu₁⟩ : Rb s₂ n ∧ _ ∧ Rb u₂ n ∧ Rb u₁ n := by simpa using hs
  refine removeResult_root (hr₁.trans hr) (hup.redBlack ?_ ?_ rfl rfl) (removeRounds_right_pos hb)
  · exact rb_black.2 ⟨n, rfl, hs₂, hu₂⟩
  · exact rb_black.2 ⟨n, rfl, hu₁, ht⟩

/-- One round of the loop. -/
theorem fixupRemoveRound_spec (ha : At cmp h c t) (ht : Short t n) (hc : CtxRb c (n + 1)) :
    Returns (fixupRemoveRound ((c.plug t).root, c.parent, t.root)) h (RemoveResult cmp h c t) := by
  cases hb : color t with
  | mgRed => exact removeRound_exit ha (.inr hb)
  | mgBlack =>
    have ht := ht.rb hb
    cases c with
    | top => exact removeRound_exit ha (.inl rfl)
    | left p d s up =>
      obtain ⟨hs, -⟩ := hc.above_left
      obtain _ | ⟨s₁, b, _ | _, s₂⟩ := s
      · simp at hs
      · cases h₂ : color s₂ with
        | mgRed =>
          obtain _ | ⟨v₁, y, _ | _, v₂⟩ := s₂
          · cases h₂
          · cases h₂
          · exact removeRound_left_far ha ht hb hc
        | mgBlack =>
          cases h₁ : color s₁ with
          | mgBlack => exact removeRound_left_black ha ht hb hc h₁ h₂
          | mgRed =>
            obtain _ | ⟨u₁, x, _ | _, u₂⟩ := s₁
            · cases h₁
            · cases h₁
            · exact removeRound_left_near ha ht hb hc h₂
      · cases d with
        | mgBlack => exact removeRound_left_red ha ht hb hc
        | mgRed => exact absurd hc.2.1 (by simp)
    | right s p d up =>
      obtain ⟨hs, -⟩ := hc.above_right
      obtain _ | ⟨s₂, b, _ | _, s₁⟩ := s
      · simp at hs
      · cases h₂ : color s₂ with
        | mgRed =>
          obtain _ | ⟨v₂, y, _ | _, v₁⟩ := s₂
          · cases h₂
          · cases h₂
          · exact removeRound_right_far ha ht hb hc
        | mgBlack =>
          cases h₁ : color s₁ with
          | mgBlack => exact removeRound_right_black ha ht hb hc h₁ h₂
          | mgRed =>
            obtain _ | ⟨u₂, x, _ | _, u₁⟩ := s₁
            · cases h₁
            · cases h₁
            · exact removeRound_right_near ha ht hb hc h₂
      · cases d with
        | mgBlack => exact removeRound_right_red ha ht hb hc
        | mgRed => exact absurd hc.2.1 (by simp)

/-! ## The loop -/

/-- The loop stands at a place that is one black node short in a tree that holds the nodes of `T` in their order. -/
def RemoveInv (cmp : A → A → Int) (h : Heap A (MgrbtreeT A)) (T : ColorTree A) (k : Nat) (x : Ptr A × Ptr A × Ptr A)
    (h₁ : Heap A (MgrbtreeT A)) : Prop :=
  ∃ c₁ t₁ n₁, x = ((c₁.plug t₁).root, c₁.parent, t₁.root) ∧ Rearranged cmp h T h₁ c₁ t₁ ∧ Short t₁ n₁ ∧
    CtxRb c₁ (n₁ + 1) ∧ removeRounds c₁ t₁ = k

theorem fixupRemove_loop (ha : At cmp h c t) (ht : Short t n) (hc : CtxRb c (n + 1)) {fuel : Nat}
    (hf : c.depth + 2 < fuel) :
    Returns (loop fixupRemoveRound fuel ((c.plug t).root, c.parent, t.root)) h fun r h' => ∃ c₁ t₁ n₁,
      r = ((c₁.plug t₁).root, t₁.root) ∧ Rearranged cmp h (c.plug t) h' c₁ t₁ ∧ Short t₁ n₁ ∧ CtxRb c₁ (n₁ + 1) ∧
        (c₁ = .top ∨ color t₁ = .mgRed) := by
  have hle := removeRounds_le c t
  refine returns_loop (RemoveInv cmp h (c.plug t)) ?_ fuel (removeRounds c t) _ h ⟨c, t, n, rfl, ha.rearranged, ht, hc, rfl⟩
    (by omega)
  rintro k x h₁ ⟨c₁, t₁, n₁, rfl, hr, ht₁, hc₁, rfl⟩
  refine (fixupRemoveRound_spec hr.place ht₁ hc₁).mono ?_
  rintro (⟨root', np, x⟩ | ⟨root', x⟩) h₂ hres
  · obtain ⟨c₂, t₂, n₂, rfl, rfl, rfl, hr₂, ht₂, hc₂, hlt⟩ := hres
    exact ⟨_, hlt, c₂, t₂, n₂, rfl, hr.trans hr₂, ht₂, hc₂, rfl⟩
  · obtain ⟨rfl, rfl, rfl, hend⟩ := hres
    exact ⟨c₁, t₁, n₁, rfl, hr, ht₁, hc₁, hend⟩

omit [DecidableEq A] in
/-- The last place, once it is black. -/
theorem redBlack_mended (ht : Short t n) (hc : CtxRb c (n + 1)) (hend : c = .top ∨ color t = .mgRed) :
    RedBlack (c.plug (blacken t)) := by
  obtain _ | ⟨l, a, _ | _, r⟩ := t
  · obtain rfl : c = .top := by simpa using hend
    exact redBlack_top.2 ⟨rfl, n, ht⟩
  · obtain rfl : c = .top := by simpa using hend
    exact redBlack_top.2 ⟨rfl, n, ht⟩
  · exact redBlack_plug hc (rb_black.2 ⟨n, rfl, ht⟩) (by simp [blacken])

/-- `mgrbtree_fixup_remove` at a place that is one black node short: it only
needs `node_parent` where the place is NULL. -/
theorem mgrbtreeFixupRemove_spec (ha : At cmp h c t) (ht : Short t n) (hc : CtxRb c (n + 1)) {np : Ptr A}
    (hnp : t = nil → np = c.parent) {fuel : Nat} (hf : c.depth + 2 < fuel) :
    Returns (mgrbtreeFixupRemove fuel (c.plug t).root np t.root) h fun root' h' => ∃ T, root' = T.root ∧
      Rearranged cmp h (c.plug t) h' .top T ∧ RedBlack T := by
  have hloop : Returns (loop fixupRemoveRound fuel ((c.plug t).root, c.parent, t.root)) h fun r h' =>
      Returns (whenNode r.2 (setData r.2 .mgBlack)) h' fun _ h'' =>
        ∃ T, r.1 = T.root ∧ Rearranged cmp h (c.plug t) h'' .top T ∧ RedBlack T := by
    refine (fixupRemove_loop ha ht hc hf).mono ?_
    rintro _ h₁ ⟨c₁, t₁, n₁, rfl, hr, ht₁, hc₁, hend⟩
    have hrb := redBlack_mended ht₁ hc₁ hend
    cases t₁ with
    | nil =>
      simp
      exact ⟨c₁.plug nil, rfl, ⟨at_plug.1 hr.place, hr.inorder, hr.agree⟩, hrb⟩
    | node l a d r =>
      have hblack := hr.relabel .mgBlack
      simp [hr.place.self]
      refine ⟨c₁.plug (node l a .mgBlack r), Ctx.root_plug c₁ rfl, ?_, hrb⟩
      exact ⟨at_plug.1 hblack.place, hblack.inorder, hblack.agree⟩
  cases t with
  | nil => simpa [mgrbtreeFixupRemove, hnp rfl] using hloop
  | node l a d r => simpa [mgrbtreeFixupRemove, ha.self] using hloop

end MgStd.RbTree
