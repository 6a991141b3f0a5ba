import MgStd.AvlTree.Balance
/-!
# Insertion and search

The recursion of `mg_avltree_insert` on the tree at some place. A call gives
back the new tree of the place; the link above may still be the old one, and
the caller writes it.
-/

namespace MgStd.AvlTree

open MgStd.Lib BinTree

variable {A : Type} [DecidableEq A] {cmp : A → A → Int} {h : Heap A (MgAvltreeNode A)}
  {c : HeightCtx A} {l r t t' : HeightTree A} {a z : A} {d : Int}

/-- `l'` is `l` with `z` at its place in the strict order. -/
def Fits (cmp : A → A → Int) (z : A) (l l' : List A) : Prop :=
  ∃ L R, l = L ++ R ∧ l' = L ++ z :: R ∧ (∀ x ∈ L, cmp x z < 0) ∧ ∀ x ∈ R, 0 < cmp x z

section Fits
omit [DecidableEq A]

theorem Fits.perm {l l' : List A} (hf : Fits cmp z l l') : l'.Perm (z :: l) := by
  obtain ⟨L, R, rfl, rfl, -⟩ := hf
  exact List.perm_middle

theorem Fits.strictSorted {l l' : List A} (hcmp : TotalPreorder cmp) (hf : Fits cmp z l l') (hs : StrictSorted cmp l) :
    StrictSorted cmp l' := by
  obtain ⟨L, R, rfl, rfl, hL, hR⟩ := hf
  exact hs.insert hcmp hL hR

theorem Fits.left {l l' : List A} (hcmp : TotalPreorder cmp) (hf : Fits cmp z l l') (haz : 0 < cmp a z)
    (hr : ∀ x ∈ r.inorder, cmp a x < 0) : Fits cmp z (l ++ a :: r.inorder) (l' ++ a :: r.inorder) := by
  obtain ⟨L, R, rfl, rfl, hL, hR⟩ := hf
  refine ⟨L, R ++ a :: r.inorder, by simp, by simp, hL, fun x hx => ?_⟩
  simp only [List.mem_append, List.mem_cons] at hx
  rcases hx with hx | rfl | hx
  · exact hR x hx
  · exact haz
  · exact hcmp.pos_of_pos_of_le haz (Int.le_of_lt (hr x hx))

theorem Fits.right {r r' : List A} (hcmp : TotalPreorder cmp) (hf : Fits cmp z r r') (haz : cmp a z < 0)
    (hl : ∀ x ∈ l.inorder, cmp x a < 0) : Fits cmp z (l.inorder ++ a :: r) (l.inorder ++ a :: r') := by
  obtain ⟨L, R, rfl, rfl, hL, hR⟩ := hf
  refine ⟨l.inorder ++ a :: L, R, by simp, by simp, fun x hx => ?_, hR⟩
  simp only [List.mem_append, List.mem_cons] at hx
  rcases hx with hx | rfl | hx
  · exact hcmp.lt_of_lt_of_le (hl x hx) (Int.le_of_lt haz)
  · exact haz
  · exact hL x hx

end Fits

/-- What a call leaves at the place `c` of the tree `t`. -/
structure Placed (cmp : A → A → Int) (h : Heap A (MgAvltreeNode A)) (c : HeightCtx A) (t : HeightTree A) (z : A)
    (t' : HeightTree A) (h' : Heap A (MgAvltreeNode A)) : Prop where
  tree : TreeAt cmp h' (t.root.bind fun _ => c.parent) t'
  ctx : ∃ q, CtxAt cmp h' c q
  grown : Grown cmp z t t'
  fits : Fits cmp z t.inorder t'.inorder
  agree : Agree (z :: (c.plug t).inorder) h h'

/-- The call that reaches NULL. -/
theorem insert_nil {m : MgAvltreeNode A} (ha : At cmp h c nil) (hz : h z = some m) (hm : m.cmp_func = cmp)
    (hzc : z ∉ c.nodes) {fuel : Nat} :
    Returns (mgAvltreeInsert (fuel + 1) none (some z)) h fun root' h' => ∃ t', root' = t'.root ∧ Placed cmp h c nil z t' h' := by
  simp [mgAvltreeInsert, hz, updateHeight, mgAvltreeHeight, hm]
  refine ⟨node nil z 0 nil, rfl, ⟨by simp, ⟨none, ctxAt_update _ hzc ha.ctx⟩, ⟨by simp, by simp, by simp⟩,
    ⟨[], [], by simp, by simp, by simp, by simp⟩, fun x hx => ?_⟩⟩
  simp only [List.mem_cons, not_or] at hx
  exact Function.update_of_ne hx.1 _ _

omit [DecidableEq A] in
theorem Fits.root_nil (hf : Fits cmp z (nil : HeightTree A).inorder t'.inorder) : t'.root = some z := by
  have hlen := hf.perm.length_eq
  have hmem : z ∈ t'.inorder := hf.perm.mem_iff.2 (by simp)
  obtain _ | ⟨l, a, d, r⟩ := t'
  · simp at hmem
  · have hl : l.size = 0 := by simp at hlen; omega
    have hr : r.size = 0 := by simp at hlen; omega
    rw [← length_inorder, List.length_eq_zero_iff] at hl hr
    simp [hl, hr] at hmem
    simp [hmem]

/-- The caller's links to the new left subtree. -/
theorem linkLeft_spec {h₁ : Heap A (MgAvltreeNode A)} (ha : At cmp h c (node t a d r)) (hp : Placed cmp h (.left a d r c) t z t' h₁)
    (hz : z ∉ (c.plug (node t a d r)).inorder) {Q : Unit → Heap A (MgAvltreeNode A) → Prop}
    (hq : ∀ h₂, At cmp h₂ c (node t' a d r) → Agree (z :: (c.plug (node t a d r)).inorder) h h₂ → Q () h₂) :
    Returns (linkLeft (some a) t'.root (some z)) h₁ Q := by
  obtain ⟨q, h₁a, hr, hc⟩ := hp.ctx
  have hn := ha.nodup
  have hperm : (t'.inorder ++ a :: (r.inorder ++ c.nodes)).Perm (z :: (t.inorder ++ a :: (r.inorder ++ c.nodes))) :=
    hp.fits.perm.append_right _
  have hzn : z ∉ t.inorder ++ a :: (r.inorder ++ c.nodes) := by
    simpa [Ctx.mem_inorder_plug, or_assoc] using hz
  have hn' : (t'.inorder ++ a :: (r.inorder ++ c.nodes)).Nodup :=
    hperm.nodup_iff.2 (List.nodup_cons.2 ⟨hzn, by simpa using hn⟩)
  have hd := hn'
  simp only [List.nodup_append', List.nodup_cons, List.disjoint_cons_right, List.disjoint_append_right, List.mem_append,
    not_or] at hd
  obtain ⟨htn, ⟨⟨har, hac⟩, -⟩, hat, htr, htc⟩ := hd
  have htree : TreeAt cmp (Function.update h₁ a (some ⟨d, c.parent, t'.root, r.root, cmp⟩)) (t.root.bind fun _ => some a) t' :=
    treeAt_update _ hat hp.tree
  have hagree : Agree (z :: (c.plug (node t a d r)).inorder) h
      (Function.update h₁ a (some ⟨d, c.parent, t'.root, r.root, cmp⟩)) :=
    hp.agree.update (by simp [Ctx.mem_inorder_plug]) _
  rw [linkLeft, returns_bind, returns_setLchild]
  refine ⟨_, h₁a, ?_⟩
  rw [returns_bind, returns_lchildOf]
  refine ⟨_, Function.update_self .., ?_⟩
  rw [returns_ite]
  dsimp only
  refine ⟨fun hroot => ?_, fun hroot => ?_⟩
  · -- `z` may just have been made, with no parent yet
    refine (returns_setParent_root htree hroot _ _).2 (hq _
      ⟨⟨?_, treeAt_adopt htree htn, ?_⟩, ctxAt_adopt htc (ctxAt_update _ hac hc), by simpa using hn'⟩ ?_)
    · rw [adopt_of_not_mem hat, Function.update_self]
    · exact treeAt_adopt_of_disjoint (List.disjoint_comm.1 htr) (treeAt_update _ har hr)
    · intro x hx
      rw [adopt_of_ne, hagree x hx]
      intro e
      rw [hroot] at e
      cases e
      simp at hx
  · rw [returns_pure]
    refine hq _ ⟨⟨by simp, ?_, treeAt_update _ har hr⟩, ctxAt_update _ hac hc, by simpa using hn'⟩ hagree
    cases t with
    | nil => exact absurd hp.fits.root_nil hroot
    | node _ _ _ _ => exact htree

/-- The caller's links to the new right subtree. -/
theorem linkRight_spec {h₁ : Heap A (MgAvltreeNode A)} (ha : At cmp h c (node l a d t)) (hp : Placed cmp h (.right l a d c) t z t' h₁)
    (hz : z ∉ (c.plug (node l a d t)).inorder) {Q : Unit → Heap A (MgAvltreeNode A) → Prop}
    (hq : ∀ h₂, At cmp h₂ c (node l a d t') → Agree (z :: (c.plug (node l a d t)).inorder) h h₂ → Q () h₂) :
    Returns (linkRight (some a) t'.root (some z)) h₁ Q := by
  obtain ⟨q, h₁a, hl, hc⟩ := hp.ctx
  have hn := (at_right.2 ha).nodup
  have hperm : (t'.inorder ++ a :: (l.inorder ++ c.nodes)).Perm (z :: (t.inorder ++ a :: (l.inorder ++ c.nodes))) :=
    hp.fits.perm.append_right _
  have hzn : z ∉ t.inorder ++ a :: (l.inorder ++ c.nodes) := by
    simp only [Ctx.mem_inorder_plug, inorder_node, List.mem_append, List.mem_cons] at hz ⊢
    tauto
  have hn' : (t'.inorder ++ a :: (l.inorder ++ c.nodes)).Nodup := hperm.nodup_iff.2 (List.nodup_cons.2 ⟨hzn, hn⟩)
  have hd := hn'
  simp only [List.nodup_append', List.nodup_cons, List.disjoint_cons_right, List.disjoint_append_right, List.mem_append,
    not_or] at hd
  obtain ⟨htn, ⟨⟨hal, hac⟩, -⟩, hat, htl, htc⟩ := hd
  have htree : TreeAt cmp (Function.update h₁ a (some ⟨d, c.parent, l.root, t'.root, cmp⟩)) (t.root.bind fun _ => some a) t' :=
    treeAt_update _ hat hp.tree
  have hagree : Agree (z :: (c.plug (node l a d t)).inorder) h
      (Function.update h₁ a (some ⟨d, c.parent, l.root, t'.root, cmp⟩)) :=
    hp.agree.update (by simp [Ctx.mem_inorder_plug]) _
  rw [linkRight, returns_bind, returns_setRchild]
  refine ⟨_, h₁a, ?_⟩
  rw [returns_bind, returns_rchildOf]
  refine ⟨_, Function.update_self .., ?_⟩
  rw [returns_ite]
  dsimp only
  refine ⟨fun hroot => ?_, fun hroot => ?_⟩
  · refine (returns_setParent_root htree hroot _ _).2 (hq _ (at_right.1 ⟨treeAt_adopt htree htn, ⟨?_, ?_, ?_⟩, hn'⟩) ?_)
    · rw [adopt_of_not_mem hat, Function.update_self]
    · exact treeAt_adopt_of_disjoint (List.disjoint_comm.1 htl) (treeAt_update _ hal hl)
    · exact ctxAt_adopt htc (ctxAt_update _ hac hc)
    · intro x hx
      rw [adopt_of_ne, hagree x hx]
      intro e
      rw [hroot] at e
      cases e
      simp at hx
  · rw [returns_pure]
    refine hq _ (at_right.1 ⟨?_, ⟨by simp, treeAt_update _ hal hl, ctxAt_update _ hac hc⟩, hn'⟩) hagree
    cases t with
    | nil => exact absurd hp.fits.root_nil hroot
    | node _ _ _ _ => exact htree

/-! ## The recursion -/

omit [DecidableEq A] in
/-- A call is done when the subtree that has grown is balanced. -/
theorem Placed.of_rearranged {h₁ h' : Heap A (MgAvltreeNode A)} {s' T : HeightTree A} (hne : t ≠ nil)
    (hag : Agree (z :: (c.plug t).inorder) h h₁) (hr : Rearranged cmp h₁ (c.plug s') h' c T) (hg : Grown cmp z t T)
    (hf : Fits cmp z t.inorder s'.inorder) : Placed cmp h c t z T h' := by
  have hseq : T.inorder = s'.inorder := Ctx.inorder_plug_inj.1 hr.inorder
  refine ⟨?_, ⟨_, hr.place.ctx⟩, hg, hseq ▸ hf, hag.trans (hr.agree.mono fun x hx => ?_)⟩
  · cases t with
    | nil => exact absurd rfl hne
    | node _ _ _ _ => exact hr.place.tree
  · rcases Ctx.mem_inorder_plug.1 hx with hx | hx
    · rw [hf.perm.mem_iff] at hx
      rcases List.mem_cons.1 hx with rfl | hx
      · simp
      · exact List.mem_cons_of_mem _ (Ctx.mem_inorder_plug.2 (.inl hx))
    · exact List.mem_cons_of_mem _ (Ctx.mem_inorder_plug.2 (.inr hx))

/-- The insertion of a new key. -/
theorem insert_new {m : MgAvltreeNode A} (hcmp : TotalPreorder cmp) (ha : At cmp h c t) (ht : Avl t)
    (hs : StrictSorted cmp t.inorder) (hnew : ∀ x ∈ t.inorder, cmp x z ≠ 0) (hz : h z = some m) (hm : m.cmp_func = cmp)
    (hzT : z ∉ (c.plug t).inorder) {fuel : Nat} (hf : t.size < fuel) :
    Returns (mgAvltreeInsert fuel t.root (some z)) h fun root' h' => ∃ t', root' = t'.root ∧ Placed cmp h c t z t' h' := by
  induction t generalizing c fuel with
  | nil =>
    obtain ⟨fuel, rfl⟩ : ∃ k, fuel = k + 1 := ⟨fuel - 1, by omega⟩
    exact insert_nil ha hz hm fun hc => hzT (Ctx.mem_inorder_plug.2 (.inr hc))
  | node l a d r ihl ihr =>
    obtain ⟨fuel, rfl⟩ : ∃ k, fuel = k + 1 := ⟨fuel - 1, by omega⟩
    obtain ⟨hsl, hsr, hla⟩ := List.pairwise_append.1 hs
    obtain ⟨har, hsr⟩ := List.pairwise_cons.1 hsr
    obtain ⟨-, -, -, hlA, hrA⟩ := id ht
    rw [size] at hf
    simp [mgAvltreeInsert, ha.self]
    refine ⟨fun haz => ?_, fun haz => ⟨fun haz' => ?_, fun haz' => ?_⟩⟩
    · refine (ihl (at_left.2 ha) hlA hsl (fun x hx => hnew x (by simp [hx])) hzT (by omega)).mono ?_
      rintro _ h₁ ⟨t', rfl, hp⟩
      refine linkLeft_spec ha hp hzT fun h₂ ha₂ hag => ?_
      refine ((returns_bind ..).1 (balanceLeft_spec ha₂ ht hp.grown haz)).mono fun _ _ hu => hu.mono ?_
      rintro _ h' ⟨T, rfl, hr, hg⟩
      exact ⟨T, rfl, .of_rearranged (by simp) hag hr hg (hp.fits.left hcmp haz har)⟩
    · refine (ihr (at_right.2 ha) hrA hsr (fun x hx => hnew x (by simp [hx])) hzT (by omega)).mono ?_
      rintro _ h₁ ⟨t', rfl, hp⟩
      refine linkRight_spec ha hp hzT fun h₂ ha₂ hag => ?_
      refine ((returns_bind ..).1 (balanceRight_spec ha₂ ht hp.grown haz')).mono fun _ _ hu => hu.mono ?_
      rintro _ h' ⟨T, rfl, hr, hg⟩
      exact ⟨T, rfl, .of_rearranged (by simp) hag hr hg (hp.fits.right hcmp haz' fun x hx => hla x hx a (by simp))⟩
    · exact absurd (by omega) (hnew a (by simp))

/-! ## A key that is there -/

/-- The caller's links to the left subtree it had. -/
theorem linkLeft_same (ha : At cmp h c (node l a d r)) (Q : Unit → Heap A (MgAvltreeNode A) → Prop) :
    Returns (linkLeft (some a) l.root (some z)) h Q ↔ Q () h := by
  have hself := ha.self
  cases l with
  | nil => simp [linkLeft, hself, update_same]
  | node l₁ b e l₂ =>
    have hb := (at_left.2 ha).self
    rw [root_node] at hself ⊢
    simp [linkLeft, hself, update_same]
    by_cases hbz : b = z
    · subst hbz
      simp [hb, update_same]
    · simp [hbz]

theorem linkRight_same (ha : At cmp h c (node l a d r)) (Q : Unit → Heap A (MgAvltreeNode A) → Prop) :
    Returns (linkRight (some a) r.root (some z)) h Q ↔ Q () h := by
  have hself := ha.self
  cases r with
  | nil => simp [linkRight, hself, update_same]
  | node r₁ b e r₂ =>
    have hb := (at_right.2 ha).self
    rw [root_node] at hself ⊢
    simp [linkRight, hself, update_same]
    by_cases hbz : b = z
    · subst hbz
      simp [hb, update_same]
    · simp [hbz]

/-- A balanced node with the right height stays as it is. -/
theorem settle_same (ha : At cmp h c (node l a d r)) (ht : Avl (node l a d r)) :
    Returns (do updateHeight (← balanceLeft (some a) (some z))) h (fun q h' => q = some a ∧ h' = h) ∧
      Returns (do updateHeight (← balanceRight (some a) (some z))) h fun q h' => q = some a ∧ h' = h := by
  obtain ⟨hd, hlr, hrl, hlA, hrA⟩ := id ht
  have hl := returns_mgAvltreeHeight (at_left.2 ha).tree
  have hr := returns_mgAvltreeHeight (at_right.2 ha).tree
  have h₁ : height l - height r ≠ 2 := by omega
  have h₂ : height r - height l ≠ 2 := by omega
  have hself := ha.self
  rw [hd] at hself
  constructor
  · simp [balanceLeft, updateHeight, hself, hl, hr, hlA.stored_eq, hrA.stored_eq, h₁]
  · simp [balanceRight, updateHeight, hself, hl, hr, hlA.stored_eq, hrA.stored_eq, h₂]

/-- The insertion of a key that is there writes back what it read. -/
theorem insert_present (hcmp : TotalPreorder cmp) (ha : At cmp h c t) (ht : Avl t) (hs : StrictSorted cmp t.inorder)
    (hold : ∃ x ∈ t.inorder, cmp x z = 0) {fuel : Nat} (hf : t.size < fuel) :
    Returns (mgAvltreeInsert fuel t.root (some z)) h fun root' h' => root' = t.root ∧ h' = h := by
  induction t generalizing c fuel with
  | nil => simp at hold
  | node l a d r ihl ihr =>
    obtain ⟨fuel, rfl⟩ : ∃ k, fuel = k + 1 := ⟨fuel - 1, by omega⟩
    obtain ⟨hsl, hsr, -⟩ := List.pairwise_append.1 hs
    obtain ⟨-, hsr⟩ := List.pairwise_cons.1 hsr
    obtain ⟨-, -, -, hlA, hrA⟩ := id ht
    obtain ⟨x, hx, hxz⟩ := hold
    rw [size] at hf
    simp [mgAvltreeInsert, ha.self]
    refine ⟨fun haz => ?_, fun haz haz' => ?_⟩
    · have hxl : x ∈ l.inorder := hs.mem_before hcmp haz hx hxz
      refine (ihl (at_left.2 ha) hlA hsl ⟨x, hxl, hxz⟩ (by omega)).mono ?_
      rintro _ h ⟨rfl, rfl⟩
      rw [linkLeft_same ha, ← returns_bind]
      exact (settle_same ha ht).1
    · have hxr : x ∈ r.inorder := hs.mem_after hcmp haz' hx hxz
      refine (ihr (at_right.2 ha) hrA hsr ⟨x, hxr, hxz⟩ (by omega)).mono ?_
      rintro _ h ⟨rfl, rfl⟩
      rw [linkRight_same ha, ← returns_bind]
      exact (settle_same ha ht).2

/-! ## Search -/

/-- The loop of `mg_avltree_search` stands at `t`, where the rest of the search path lies. -/
def SearchInv (cmp : A → A → Int) (h : Heap A (MgAvltreeNode A)) (T : HeightTree A) (q : A) (k : Nat) (x : Ptr A)
    (h' : Heap A (MgAvltreeNode A)) : Prop :=
  h' = h ∧ ∃ (c : HeightCtx A) (t : HeightTree A), c.plug t = T ∧ x = t.root ∧ find cmp q t = find cmp q T ∧ t.size = k

omit [DecidableEq A] in
theorem searchLoop_spec {T : HeightTree A} (ha : At cmp h c T) (q : A) {fuel : Nat} (hf : T.size < fuel) :
    Returns (loop (searchRound (some q)) fuel T.root) h fun r h' => h' = h ∧ r = find cmp q T := by
  refine returns_loop (SearchInv cmp h T q) ?_ fuel T.size _ h ⟨rfl, .top, T, rfl, rfl, rfl, rfl⟩ hf
  rintro k x _ ⟨rfl, ci, t, rfl, rfl, heq, rfl⟩
  rw [← heq]
  cases t with
  | nil => simp [searchRound, find]
  | node l a d r =>
    have hself := (at_app.2 ha).self
    simp only [searchRound, root_node, ne_eq, reduceCtorEq, not_false_eq_true, if_true, returns_bind, returns_callCmp,
      returns_ite, returns_lchildOf, returns_rchildOf, returns_pure, hself, Option.some.injEq, exists_eq_left']
    simp only [find] at heq ⊢
    refine ⟨fun h₀ => by simp [h₀], fun h₀ => ⟨fun hgt => ?_, fun hle => ?_⟩⟩
    · exact ⟨l.size, by simp only [size]; omega, rfl, .left a d r ci, l, rfl, rfl, by simpa [h₀, hgt] using heq, rfl⟩
    · exact ⟨r.size, by simp only [size]; omega, rfl, .right l a d ci, r, rfl, rfl, by simpa [h₀, hle] using heq, rfl⟩

omit [DecidableEq A] in
theorem mgAvltreeSearch_spec {T : HeightTree A} (ha : At cmp h c T) (q : A) {fuel : Nat} (hf : T.size < fuel) :
    Returns (mgAvltreeSearch fuel T.root (some q)) h fun r h' => h' = h ∧ r = find cmp q T := by
  cases T with
  | nil => simp [mgAvltreeSearch, find]
  | node l a d r => simpa [mgAvltreeSearch] using searchLoop_spec ha q hf

omit [DecidableEq A] in
theorem mgAvltreeSearchRecursive_spec {T : HeightTree A} (ha : At cmp h c T) (q : A) {fuel : Nat} (hf : T.size < fuel) :
    Returns (mgAvltreeSearchRecursive fuel T.root (some q)) h fun r h' => h' = h ∧ r = find cmp q T := by
  cases T with
  | nil => simp [mgAvltreeSearchRecursive, find]
  | node l a d r =>
    rw [size] at hf
    have hl := mgAvltreeSearch_spec (at_left.2 ha) q (show l.size < fuel by omega)
    have hr := mgAvltreeSearch_spec (at_right.2 ha) q (show r.size < fuel by omega)
    simp only [find]
    simp [mgAvltreeSearchRecursive, ha.self]
    refine ⟨fun h₀ => by simp [h₀], fun h₀ => ⟨fun hgt => ?_, fun hle => ?_⟩⟩
    · simpa [h₀, hgt] using hl
    · simpa [h₀, Int.not_lt.2 hle] using hr

/-! ## Runs -/

/-- A caller that inserts the nodes `zs` one after the other. -/
def insertEach (fuel : Nat) : Ptr A → List A → TreeProg A (Ptr A)
  | root, [] => pure root
  | root, z :: zs => do
    let root ← mgAvltreeInsert fuel root (some z)
    insertEach fuel root zs

/-- The heap holds a balanced tree in strict order; the parent of its root is NULL. -/
structure AvlAt (cmp : A → A → Int) (h : Heap A (MgAvltreeNode A)) (T : HeightTree A) : Prop where
  place : At cmp h .top T
  avl : Avl T
  sorted : StrictSorted cmp T.inorder

/-- The nodes `zs` are initialised, with the comparison function `cmp`. -/
def Initialised (cmp : A → A → Int) (h : Heap A (MgAvltreeNode A)) (zs : List A) : Prop :=
  ∀ z ∈ zs, ∃ m, h z = some m ∧ m.cmp_func = cmp

/-- `mg_avltree_insert` of an initialised node with a new key. -/
theorem mgAvltreeInsert_new {T : HeightTree A} {m : MgAvltreeNode A} (hcmp : TotalPreorder cmp) (hT : AvlAt cmp h T)
    (hnew : ∀ x ∈ T.inorder, cmp x z ≠ 0) (hz : h z = some m) (hm : m.cmp_func = cmp) {fuel : Nat} (hf : T.size < fuel) :
    Returns (mgAvltreeInsert fuel T.root (some z)) h fun root' h' => ∃ T', root' = T'.root ∧ AvlAt cmp h' T' ∧
      Fits cmp z T.inorder T'.inorder ∧ Agree (z :: T.inorder) h h' := by
  have hzT : z ∉ T.inorder := fun hzT => hnew z hzT (hcmp.refl z)
  refine (insert_new hcmp hT.place hT.avl hT.sorted hnew hz hm hzT hf).mono ?_
  rintro _ h' ⟨T', rfl, hp⟩
  refine ⟨T', rfl, ⟨⟨?_, trivial, ?_⟩, hp.grown.avl, hp.fits.strictSorted hcmp hT.sorted⟩, hp.fits, hp.agree⟩
  · have htree := hp.tree
    cases T <;> exact htree
  · have hn := hT.place.nodup
    simp only [Ctx.nodes_top, List.append_nil] at hn ⊢
    exact hp.fits.perm.nodup_iff.2 (List.nodup_cons.2 ⟨hzT, hn⟩)

/-- The state of a run that has inserted `zs`, from the heap `h₀`. -/
structure RunInv (cmp : A → A → Int) (h₀ : Heap A (MgAvltreeNode A)) (zs : List A) (T : HeightTree A)
    (h : Heap A (MgAvltreeNode A)) : Prop where
  valid : AvlAt cmp h T
  nodes : ∀ x, x ∈ T.inorder ↔ FirstOfKey cmp zs x
  size : T.size ≤ zs.length
  agree : Agree T.inorder h₀ h

omit [DecidableEq A] in
theorem RunInv.start : RunInv cmp h [] (nil : HeightTree A) h :=
  ⟨⟨⟨trivial, trivial, by simp⟩, trivial, List.Pairwise.nil⟩, fun x => by simp [not_firstOfKey_nil], Nat.le_refl 0, .refl _ _⟩

omit [DecidableEq A] in
theorem RunInv.present_iff {h₀ : Heap A (MgAvltreeNode A)} {zs : List A} {T : HeightTree A} (hcmp : TotalPreorder cmp)
    (hr : RunInv cmp h₀ zs T h) (q : A) : (∃ x ∈ T.inorder, cmp x q = 0) ↔ ∃ x ∈ zs, cmp x q = 0 :=
  Firsts.present_iff hcmp hr.nodes q

/-- One insertion of a run. -/
theorem RunInv.step {h₀ : Heap A (MgAvltreeNode A)} {zs : List A} {T : HeightTree A} {m : MgAvltreeNode A}
    (hcmp : TotalPreorder cmp) (hr : RunInv cmp h₀ zs T h) (hz : h₀ z = some m) (hm : m.cmp_func = cmp) {fuel : Nat}
    (hf : zs.length < fuel) :
    Returns (mgAvltreeInsert fuel T.root (some z)) h fun root' h' => ∃ T', root' = T'.root ∧ RunInv cmp h₀ (zs ++ [z]) T' h' ∧
      ((∃ x ∈ zs, cmp x z = 0) → root' = T.root ∧ h' = h) := by
  have hsize := hr.size
  by_cases hold : ∃ x ∈ T.inorder, cmp x z = 0
  · refine (insert_present hcmp hr.valid.place hr.valid.avl hr.valid.sorted hold (by omega)).mono ?_
    rintro _ _ ⟨rfl, rfl⟩
    have hnodes := Firsts.old hr.nodes ((hr.present_iff hcmp z).1 hold)
    exact ⟨T, rfl, ⟨hr.valid, hnodes, by simp; omega, hr.agree⟩, fun _ => ⟨rfl, rfl⟩⟩
  · have hnew : ∀ x ∈ T.inorder, cmp x z ≠ 0 := fun x hx h => hold ⟨x, hx, h⟩
    have hzT : z ∉ T.inorder := fun hzT => hnew z hzT (hcmp.refl z)
    rw [hr.present_iff hcmp] at hold
    refine (mgAvltreeInsert_new hcmp hr.valid hnew ((hr.agree z hzT).trans hz) hm (by omega)).mono ?_
    rintro _ h' ⟨T', rfl, hT', hfits, hag⟩
    have hmem : ∀ x, x ∈ T'.inorder ↔ x = z ∨ x ∈ T.inorder := fun x => by rw [hfits.perm.mem_iff, List.mem_cons]
    have hlen := hfits.perm.length_eq
    refine ⟨T', rfl, ⟨hT', Firsts.new hr.nodes (fun y hy h => hold ⟨y, hy, h⟩) hmem, ?_, ?_⟩, fun h => absurd h hold⟩
    · simp at hlen ⊢
      omega
    · refine (hr.agree.mono fun x hx => (hmem x).2 (.inr hx)).trans (hag.mono fun x hx => ?_)
      exact (hmem x).2 (List.mem_cons.1 hx)

/-- A run of insertions. -/
theorem insertEach_spec {h₀ : Heap A (MgAvltreeNode A)} {pre zs : List A} {T : HeightTree A} (hcmp : TotalPreorder cmp)
    (hr : RunInv cmp h₀ pre T h) (hi : Initialised cmp h₀ zs) {fuel : Nat} (hf : pre.length + zs.length ≤ fuel) :
    Returns (insertEach fuel T.root zs) h fun root' h' => ∃ T', root' = T'.root ∧ RunInv cmp h₀ (pre ++ zs) T' h' := by
  induction zs generalizing pre T h with
  | nil => simpa [insertEach] using ⟨T, rfl, hr⟩
  | cons z zs ih =>
    obtain ⟨m, hz, hm⟩ := hi z (by simp)
    rw [List.length_cons] at hf
    refine (hr.step hcmp hz hm (by omega)).bind ?_
    rintro _ h₁ ⟨T₁, rfl, hr₁, -⟩
    have hrest := ih hr₁ (fun x hx => hi x (by simp [hx])) (by simp; omega)
    simpa using hrest

/-- After every run of insertions into the empty tree, the tree is balanced and
in strict order with right heights and parents, and its nodes are the first of
each key; a further node of a key that is there changes nothing, and both
searches find the node of the probe's key. -/
theorem mg_avltree_insert_run (hcmp : TotalPreorder cmp) (h : Heap A (MgAvltreeNode A)) (zs : List A)
    (hi : Initialised cmp h zs) (fuel : Nat) (hf : zs.length < fuel) :
    Returns (insertEach fuel none zs) h fun root h₁ => ∃ T, root = T.root ∧ AvlAt cmp h₁ T ∧
      (∀ x, x ∈ T.inorder ↔ FirstOfKey cmp zs x) ∧
      (∀ z, (∃ x ∈ zs, cmp x z = 0) → Returns (mgAvltreeInsert fuel root (some z)) h₁ fun root' h₂ =>
        root' = root ∧ h₂ = h₁) ∧
      ∀ q, ∃ r, (∀ x, r = some x → FirstOfKey cmp zs x ∧ cmp x q = 0) ∧ (r = none ↔ ∀ x ∈ zs, cmp x q ≠ 0) ∧
        Returns (mgAvltreeSearch fuel root (some q)) h₁ (fun r' h₂ => h₂ = h₁ ∧ r' = r) ∧
        Returns (mgAvltreeSearchRecursive fuel root (some q)) h₁ fun r' h₂ => h₂ = h₁ ∧ r' = r := by
  refine (insertEach_spec hcmp RunInv.start hi (show ([] : List A).length + zs.length ≤ fuel by simp; omega)).mono ?_
  rintro _ h₁ ⟨T, rfl, hr⟩
  have hsize := hr.size
  rw [List.nil_append] at hr hsize
  refine ⟨T, rfl, hr.valid, hr.nodes, fun z hold => ?_, fun q => ⟨find cmp q T, fun x hx => ?_, ?_, ?_, ?_⟩⟩
  · exact insert_present hcmp hr.valid.place hr.valid.avl hr.valid.sorted ((hr.present_iff hcmp z).2 hold) (by omega)
  · exact ⟨(hr.nodes x).1 (find_some hx).1, (find_some hx).2⟩
  · have hpres := hr.present_iff hcmp q
    rw [find_eq_none_iff hcmp hr.valid.sorted.sorted]
    constructor
    · exact fun hall x hx hxq => (hpres.2 ⟨x, hx, hxq⟩).elim fun y hy => hall y hy.1 hy.2
    · exact fun hall x hx hxq => (hpres.1 ⟨x, hx, hxq⟩).elim fun y hy => hall y hy.1 hy.2
  · exact mgAvltreeSearch_spec hr.valid.place q (by omega)
  · exact mgAvltreeSearchRecursive_spec hr.valid.place q (by omega)

/-- `2` and `3` have one key. -/
theorem mg_avltree_insert_run_four :
    Returns (insertEach 5 none [2, 4, 6, 3])
      (fun _ => some ⟨0, none, none, none, fun a b : Nat => (a : Int) / 2 - b / 2⟩)
      fun root h₁ => ∃ T : HeightTree Nat, root = T.root ∧ AvlAt (fun a b : Nat => (a : Int) / 2 - b / 2) h₁ T ∧
        ∀ x, x ∈ T.inorder ↔ FirstOfKey (fun a b : Nat => (a : Int) / 2 - b / 2) [2, 4, 6, 3] x := by
  have hcmp := TotalPreorder.of_key fun a : Nat => (a : Int) / 2
  refine (mg_avltree_insert_run hcmp _ [2, 4, 6, 3] (fun z _ => ⟨_, rfl, rfl⟩) 5 (by decide)).mono ?_
  rintro root h₁ ⟨T, hroot, hT, hmem, -⟩
  exact ⟨T, hroot, hT, hmem⟩

end MgStd.AvlTree
