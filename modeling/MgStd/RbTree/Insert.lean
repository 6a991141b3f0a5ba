import MgStd.Lib.SearchTree
import MgStd.RbTree.InsertFixup
/-!
# Insertion and search

The walk down from the root ends at the one place where the new node keeps the
sequence in order; the fix-up then makes the tree red-black again without
changing the sequence.
-/

namespace MgStd.RbTree

open MgStd.Lib BinTree

variable {A : Type} [DecidableEq A] {cmp : A → A → Int} {h : Heap A (MgrbtreeT A)}
  {c : ColorCtx A} {l r : ColorTree A} {a z : A} {d : MgrbtreeColor}

/-! ## The walk to the new place -/

/-- The place where the walk of `mgrbtree_insert` arrives: what stands before
it is not greater than `z`, and what stands after it is. -/
structure InsertPlace (cmp : A → A → Int) (z : A) (c : ColorCtx A) : Prop where
  le : ∀ x ∈ c.before, cmp x z ≤ 0
  gt : ∀ x ∈ c.after, 0 < cmp x z

omit [DecidableEq A] in
theorem InsertPlace.goLeft (hcmp : TotalPreorder cmp) (hi : InsertPlace cmp z c) (hs : Sorted cmp (a :: r.inorder))
    (ha : 0 < cmp a z) : InsertPlace cmp z (.left a d r c) := by
  refine ⟨hi.le, fun x hx => ?_⟩
  simp only [Ctx.after, List.cons_append, List.mem_cons, List.mem_append] at hx
  rcases hx with rfl | hx | hx
  · exact ha
  · exact hcmp.pos_of_pos_of_le ha ((sorted_cons.1 hs).1 x hx)
  · exact hi.gt x hx

omit [DecidableEq A] in
theorem InsertPlace.goRight (hcmp : TotalPreorder cmp) (hi : InsertPlace cmp z c)
    (hs : ∀ x ∈ l.inorder, cmp x a ≤ 0) (ha : cmp a z ≤ 0) : InsertPlace cmp z (.right l a d c) := by
  refine ⟨fun x hx => ?_, hi.gt⟩
  simp only [Ctx.before, List.mem_append, List.mem_singleton] at hx
  rcases hx with (hx | hx) | rfl
  · exact hi.le x hx
  · exact hcmp.trans x a z (hs x hx) ha
  · exact ha

/-- The walk of `mgrbtree_insert` stands at `t`, below `n_parent`. -/
def WalkInv (cmp : A → A → Int) (h : Heap A (MgrbtreeT A)) (T : ColorTree A) (z : A) (k : Nat) (x : Ptr A × Ptr A)
    (h' : Heap A (MgrbtreeT A)) : Prop :=
  h' = h ∧ ∃ c t, c.plug t = T ∧ x = (c.parent, t.root) ∧ InsertPlace cmp z c ∧ t.size = k

omit [DecidableEq A] in
theorem insertWalk_spec {T : ColorTree A} (hcmp : TotalPreorder cmp) (ha : At cmp h .top T) (hs : Sorted cmp T.inorder)
    {fuel : Nat} (hf : T.size < fuel) :
    Returns (loop (insertWalkRound (some z)) fuel (none, T.root)) h fun p h' =>
      h' = h ∧ ∃ c, c.plug nil = T ∧ p = c.parent ∧ InsertPlace cmp z c := by
  refine returns_loop (WalkInv cmp h T z) ?_ fuel T.size _ h ⟨rfl, .top, T, rfl, rfl, ⟨by simp [Ctx.before], by simp [Ctx.after]⟩, rfl⟩ hf
  rintro k x _ ⟨rfl, c, t, rfl, rfl, hi, rfl⟩
  cases t with
  | nil => simpa [insertWalkRound] using ⟨c, rfl, rfl, hi⟩
  | node l a d r =>
    have hself := (at_plug.2 ha).self
    rw [Ctx.inorder_plug, List.append_assoc] at hs
    obtain ⟨-, hs, -⟩ := sorted_append.1 hs
    obtain ⟨hs, -, -⟩ := sorted_append.1 hs
    obtain ⟨-, hsr, hsl⟩ := sorted_append.1 hs
    simp only [insertWalkRound, root_node, ne_eq, reduceCtorEq, not_false_eq_true, if_true, returns_bind, returns_callCmp,
      returns_ite, returns_lchildOf, returns_rchildOf, returns_pure, hself, Option.some.injEq, exists_eq_left']
    constructor
    · intro hlt
      refine ⟨l.size, by simp only [size]; omega, rfl, .left a d r c, l, rfl, rfl, hi.goLeft hcmp hsr hlt, rfl⟩
    · intro hle
      refine ⟨r.size, by simp only [size]; omega, rfl, .right l a d c, r, rfl, rfl, hi.goRight hcmp ?_ (by omega), rfl⟩
      exact fun x hx => hsl x hx a (by simp)

/-! ## The new node -/

theorem insertLink_spec {m : MgrbtreeT A} (hcmp : TotalPreorder cmp) (ha : At cmp h c nil) (hi : InsertPlace cmp z c)
    (hz : h z = some m) (hm : m.cmp_func = cmp) (hzc : z ∉ c.nodes) :
    Returns (insertLink (c.plug nil).root (some z) c.parent) h fun root' h' =>
      root' = (c.plug (node nil z .mgRed nil)).root ∧ At cmp h' c (node nil z .mgRed nil) ∧
        Agree (z :: (c.plug nil).inorder) h h' := by
  cases c with
  | top =>
    simp [insertLink, hz]
    refine ⟨ha.graft hzc ?_ ?_, ?_⟩
    · simp [hm]
    · intro x hx
      simp [hx, relink]
    · exact fun x hx => by simp_all
  | left p d s up =>
    have hp := (at_left.1 ha).self
    have hzp : z ≠ p := fun e => hzc (by simp [e])
    have hlt : cmp z p < 0 := (hcmp.swap z p).2 (hi.gt p (by simp [Ctx.after]))
    simp [insertLink, hz, hm, hlt, Int.not_le.2 hlt, hp, hzp, hzp.symm]
    refine ⟨Ctx.root_plug up rfl, ha.graft hzc ?_ ?_, ?_⟩
    · simp
    · intro x hx
      by_cases hxp : x = p <;> simp [hx, hxp, relink, hp, hzp.symm]
    · intro x hx
      simp [Ctx.mem_inorder_plug] at hx
      simp [hx]
  | right s p d up =>
    have hp := (at_right.1 ha).self
    have hzp : z ≠ p := fun e => hzc (by simp [e])
    have hle : 0 ≤ cmp z p := (hcmp.le_iff p z).1 (hi.le p (by simp [Ctx.before]))
    simp [insertLink, hz, hm, hle, Int.not_lt.2 hle, hp, hzp, hzp.symm]
    refine ⟨Ctx.root_plug up rfl, ha.graft hzc ?_ ?_, ?_⟩
    · simp
    · intro x hx
      by_cases hxp : x = p <;> simp [hx, hxp, relink, hp, hzp.symm]
    · intro x hx
      simp [Ctx.mem_inorder_plug] at hx
      simp [hx]

/-- The heap holds a red-black tree in order; the parent of its root is NULL. -/
structure RbAt (cmp : A → A → Int) (h : Heap A (MgrbtreeT A)) (T : ColorTree A) : Prop where
  place : At cmp h .top T
  red_black : RedBlack T
  sorted : Sorted cmp T.inorder

omit [DecidableEq A] in
theorem rbAt_nil : RbAt cmp h (nil : ColorTree A) :=
  ⟨⟨trivial, trivial, List.nodup_nil⟩, redBlack_top.2 ⟨rfl, 0, rb_nil.2 rfl⟩, List.Pairwise.nil⟩

/-- `T'` has the nodes of `T` and `z`, which stands right after the nodes that do not exceed it. -/
def Inserted (cmp : A → A → Int) (T : ColorTree A) (z : A) (T' : ColorTree A) : Prop :=
  ∃ L R, T.inorder = L ++ R ∧ T'.inorder = L ++ z :: R ∧ (∀ x ∈ L, cmp x z ≤ 0) ∧ ∀ x ∈ R, 0 < cmp x z

omit [DecidableEq A] in
theorem Inserted.perm {T T' : ColorTree A} (hi : Inserted cmp T z T') : T'.inorder.Perm (z :: T.inorder) := by
  obtain ⟨L, R, hT, hT', -⟩ := hi
  rw [hT, hT']
  exact List.perm_middle

omit [DecidableEq A] in
theorem Inserted.sorted {T T' : ColorTree A} (hcmp : TotalPreorder cmp) (hi : Inserted cmp T z T')
    (hs : Sorted cmp T.inorder) : Sorted cmp T'.inorder := by
  obtain ⟨L, R, hT, hT', hl, hr⟩ := hi
  rw [hT']
  exact (hT ▸ hs).insert hcmp hl hr

/-- `mgrbtree_insert` of an allocated node that is not in the tree. -/
theorem mgrbtreeInsert_spec {T : ColorTree A} {m : MgrbtreeT A} (hcmp : TotalPreorder cmp) (hT : RbAt cmp h T)
    (hz : h z = some m) (hm : m.cmp_func = cmp) (hzT : z ∉ T.inorder) {fuel : Nat} (hf : T.size < fuel) :
    Returns (mgrbtreeInsert fuel T.root (some z)) h fun root' h' => ∃ T', root' = T'.root ∧ RbAt cmp h' T' ∧
      Inserted cmp T z T' ∧ Agree (z :: T.inorder) h h' := by
  obtain ⟨ha, hrb, hs⟩ := hT
  refine (insertWalk_spec hcmp ha hs hf).bind ?_
  rintro _ _ ⟨rfl, c, rfl, rfl, hi⟩
  have hzc : z ∉ c.nodes := fun hc => hzT (Ctx.mem_inorder_plug.2 (.inr hc))
  refine (insertLink_spec hcmp (at_plug.2 ha) hi hz hm hzc).bind ?_
  rintro _ h₁ ⟨rfl, ha₁, hag₁⟩
  obtain ⟨n, hc, hn, -⟩ := hrb.place
  have hdepth : c.depth < fuel := by
    have h₁ := c.depth_le
    have h₂ := c.size_plug nil
    omega
  refine (fixupInsertMgrbtreeT_spec ha₁ rfl (by simpa using hn) hc hdepth).mono ?_
  rintro _ h' ⟨T', rfl, hr, hrb'⟩
  have hins : Inserted cmp (c.plug nil) z T' :=
    ⟨c.before, c.after, by simp [Ctx.inorder_plug], by simpa [Ctx.inorder_plug] using hr.inorder, hi.le, hi.gt⟩
  refine ⟨T', rfl, ⟨hr.place, hrb', hins.sorted hcmp hs⟩, hins, hag₁.trans (hr.agree.mono fun x hx => ?_)⟩
  simpa [Ctx.inorder_plug, or_left_comm] using hx

/-! ## Search -/

/-- The loop of `mgrbtree_search` stands at `t`, where the rest of the search path lies. -/
def SearchInv (cmp : A → A → Int) (h : Heap A (MgrbtreeT A)) (T : ColorTree A) (q : A) (k : Nat) (x : Ptr A)
    (h' : Heap A (MgrbtreeT A)) : Prop :=
  h' = h ∧ ∃ (c : ColorCtx A) (t : ColorTree A), c.plug t = T ∧ x = t.root ∧
    find cmp q t = find cmp q T ∧ t.size = k

omit [DecidableEq A] in
theorem mgrbtreeSearch_spec {T : ColorTree A} (ha : At cmp h .top T) (q : A) {fuel : Nat} (hf : T.size < fuel) :
    Returns (mgrbtreeSearch fuel T.root (some q)) h fun r h' => h' = h ∧ r = find cmp q T := by
  refine returns_loop (SearchInv cmp h T q) ?_ fuel T.size _ h ⟨rfl, .top, T, rfl, rfl, rfl, rfl⟩ hf
  rintro k x _ ⟨rfl, c, t, rfl, rfl, heq, rfl⟩
  rw [← heq]
  cases t with
  | nil => simp [searchRound, find]
  | node l a d r =>
    have hself := (at_plug.2 ha).self
    simp only [searchRound, root_node, ne_eq, reduceCtorEq, not_false_eq_true, if_true, returns_bind, returns_callCmp,
      returns_ite, returns_lchildOf, returns_rchildOf, returns_pure, hself, Option.some.injEq, exists_eq_left']
    simp only [find] at heq ⊢
    refine ⟨fun h₀ => by simp [h₀], fun h₀ => ⟨fun hgt => ?_, fun hle => ?_⟩⟩
    · exact ⟨l.size, by simp only [size]; omega, rfl, .left a d r c, l, rfl, rfl, by simpa [h₀, hgt] using heq, rfl⟩
    · exact ⟨r.size, by simp only [size]; omega, rfl, .right l a d c, r, rfl, rfl, by simpa [h₀, hle] using heq, rfl⟩

/-! ## Runs -/

/-- A caller that inserts the nodes `zs` one after the other. -/
def insertEach (fuel : Nat) : Ptr A → List A → TreeProg A (Ptr A)
  | root, [] => pure root
  | root, z :: zs => do
    let root ← mgrbtreeInsert fuel root (some z)
    insertEach fuel root zs

/-- The nodes `zs` are initialised, with the comparison function `cmp`. -/
def Initialised (cmp : A → A → Int) (h : Heap A (MgrbtreeT A)) (zs : List A) : Prop :=
  ∀ z ∈ zs, ∃ m, h z = some m ∧ m.cmp_func = cmp

omit [DecidableEq A] in
theorem Initialised.frame {S zs : List A} {h' : Heap A (MgrbtreeT A)} (hi : Initialised cmp h zs) (hag : Agree S h h')
    (hd : ∀ z ∈ zs, z ∉ S) : Initialised cmp h' zs := fun z hz => by
  rw [hag z (hd z hz)]
  exact hi z hz

/-- A run of insertions into a red-black tree in order. -/
theorem insertEach_spec {T : ColorTree A} {zs : List A} (hcmp : TotalPreorder cmp) (hT : RbAt cmp h T)
    (hn : (zs ++ T.inorder).Nodup) (hi : Initialised cmp h zs) {fuel : Nat} (hf : T.size + zs.length ≤ fuel) :
    Returns (insertEach fuel T.root zs) h fun root' h' => ∃ T', root' = T'.root ∧ RbAt cmp h' T' ∧
      T'.inorder.Perm (zs ++ T.inorder) ∧ Agree (zs ++ T.inorder) h h' := by
  induction zs generalizing T h with
  | nil => simpa [insertEach] using ⟨T, rfl, hT, .refl _, .refl _ _⟩
  | cons z zs ih =>
    rw [List.cons_append, List.nodup_cons] at hn
    obtain ⟨hzn, hn⟩ := hn
    obtain ⟨m, hz, hm⟩ := hi z (by simp)
    simp only [List.mem_append, not_or] at hzn
    refine (mgrbtreeInsert_spec hcmp hT hz hm hzn.2 (by simp at hf; omega)).bind ?_
    rintro _ h₁ ⟨T₁, rfl, hT₁, hins, hag⟩
    have hperm : (zs ++ T₁.inorder).Perm (z :: zs ++ T.inorder) := (hins.perm.append_left zs).trans List.perm_middle
    have hsize : T₁.size = T.size + 1 := by simpa using hins.perm.length_eq
    have hi₁ : Initialised cmp h₁ zs := by
      refine Initialised.frame (fun x hx => hi x (by simp [hx])) hag fun x hx => ?_
      have hxT : x ∉ T.inorder := (List.nodup_append'.1 hn).2.2 hx
      have hxz : x ≠ z := fun e => hzn.1 (e ▸ hx)
      simp [hxT, hxz]
    refine (ih hT₁ (hperm.nodup_iff.2 (List.nodup_cons.2 ⟨by simp [hzn], hn⟩)) hi₁ (by simp at hf; omega)).mono ?_
    rintro root' h' ⟨T', rfl, hT', hp', hag'⟩
    refine ⟨T', rfl, hT', hp'.trans hperm, (hag.mono ?_).trans (hag'.mono fun x hx => hperm.mem_iff.1 hx)⟩
    intro x hx
    rcases List.mem_cons.1 hx with rfl | hx
    · simp
    · simp [hx]

/-- Every insertion of a run from the empty tree returns a red-black tree in
order, with the new node at its place and no other change of the sequence; a
search finds a node that compares equal when there is one. -/
theorem mgrbtree_insert_run (hcmp : TotalPreorder cmp) (h : Heap A (MgrbtreeT A)) (zs : List A) (hn : zs.Nodup)
    (hi : Initialised cmp h zs) (fuel : Nat) (hf : zs.length < fuel) :
    Returns (insertEach fuel none zs) h fun root h₁ => ∃ T, root = T.root ∧ RbAt cmp h₁ T ∧
      (∀ x, x ∈ T.inorder ↔ x ∈ zs) ∧
      (∀ z ∉ zs, Initialised cmp h [z] → Returns (mgrbtreeInsert fuel root (some z)) h₁ fun root' h₂ =>
        ∃ T', root' = T'.root ∧ RbAt cmp h₂ T' ∧ Inserted cmp T z T') ∧
      ∀ q, Returns (mgrbtreeSearch fuel root (some q)) h₁ fun r h₂ => h₂ = h₁ ∧
        (∀ x, r = some x → x ∈ zs ∧ cmp x q = 0) ∧ (r = none ↔ ∀ x ∈ zs, cmp x q ≠ 0) := by
  refine (insertEach_spec hcmp rbAt_nil (by simpa using hn) hi (by simp [size]; omega)).mono ?_
  rintro _ h₁ ⟨T, rfl, hT, hperm, hag⟩
  simp only [inorder_nil, List.append_nil] at hperm hag
  have hsize : T.size < fuel := by
    have := hperm.length_eq
    rw [length_inorder] at this
    omega
  refine ⟨T, rfl, hT, fun x => hperm.mem_iff, fun z hz hiz => ?_, fun q => ?_⟩
  · obtain ⟨m, hm, hmc⟩ := (hiz.frame hag (by simpa using hz)) z (by simp)
    refine (mgrbtreeInsert_spec hcmp hT hm hmc (fun hzT => hz (hperm.mem_iff.1 hzT)) hsize).mono ?_
    rintro root' h₂ ⟨T', rfl, hT', hins, -⟩
    exact ⟨T', rfl, hT', hins⟩
  · refine (mgrbtreeSearch_spec hT.place q hsize).mono ?_
    rintro _ _ ⟨rfl, rfl⟩
    refine ⟨rfl, fun x hx => ⟨hperm.mem_iff.1 (find_some hx).1, (find_some hx).2⟩, ?_⟩
    rw [find_eq_none_iff hcmp hT.sorted]
    simp only [hperm.mem_iff]

/-- `2` and `3` compare equal. -/
theorem mgrbtree_insert_run_three :
    Returns (insertEach 4 none [3, 1, 2])
      (fun _ => some ⟨.mgBlack, none, none, none, fun a b : Nat => (a : Int) / 2 - b / 2⟩)
      fun root h₁ => ∃ T : ColorTree Nat, root = T.root ∧ RbAt (fun a b : Nat => (a : Int) / 2 - b / 2) h₁ T ∧
        ∀ x, x ∈ T.inorder ↔ x ∈ [3, 1, 2] := by
  have hcmp := TotalPreorder.of_key fun a : Nat => (a : Int) / 2
  refine (mgrbtree_insert_run hcmp _ [3, 1, 2] (by decide) (fun z _ => ⟨_, rfl, rfl⟩) 4 (by decide)).mono ?_
  rintro root h₁ ⟨T, hroot, hT, hmem, -⟩
  exact ⟨T, hroot, hT, hmem⟩

end MgStd.RbTree
