import MgStd.Lib.OrderedTree
import MgStd.Bstree.Code
/-!
# Insertion and search

The recursion of `mg_Bstree_insert` stops at a node of the same key, or hangs
the new node in the empty place of its key. The loop and the recursion that
search go the same way.
-/

namespace MgStd.Bstree

open MgStd.Lib BinTree

variable {A : Type} {cmp : A → A → Int} {h h' : Heap A (MgBsTree A)} {c : Ctx A Unit} {l r t T : BinTree A Unit}
  {a q x z : A} {d : Unit} {fuel : Nat}

/-! ## Search -/

theorem searchLoop_spec (hl : LinkedAt cmp h t) (q : A) (hf : t.size < fuel) :
    Returns (loop (searchRound (some q)) fuel t.root) h fun p h' => h' = h ∧ p = find cmp q t := by
  induction t generalizing fuel with
  | nil =>
    obtain ⟨fuel, rfl⟩ : ∃ k, fuel = k + 1 := ⟨fuel - 1, by simp [size] at hf; omega⟩
    simp [returns_loop_succ, searchRound, find]
  | node l a d r ihl ihr =>
    obtain ⟨fuel, rfl⟩ : ∃ k, fuel = k + 1 := ⟨fuel - 1, by simp [size] at hf; omega⟩
    obtain ⟨⟨p, ha⟩, hll, hlr⟩ := hl
    simp only [size] at hf
    rw [returns_loop_succ, root_node]
    simp only [searchRound, reduceCtorEq, if_false, returns_bind, returns_callCmp, ha, Option.some.injEq, exists_eq_left', returns_ite,
      returns_lchildOf, returns_rchildOf, returns_pure, find]
    refine ⟨fun h₀ => by simp [h₀], fun h₀ => ⟨fun hgt => ?_, fun hle => ?_⟩⟩
    · rw [if_neg h₀, if_pos hgt]
      exact ihl hll (by omega)
    · rw [if_neg h₀, if_neg hle]
      exact ihr hlr (by omega)

theorem mgBstreeSearchRecursive_spec (hl : LinkedAt cmp h t) (q : A) (result : Ptr A) (hf : t.size < fuel) :
    Returns (mgBstreeSearchRecursive fuel t.root (some q) result) h fun p h' => h' = h ∧ p = (find cmp q t).or result := by
  induction t generalizing fuel with
  | nil =>
    obtain ⟨fuel, rfl⟩ : ∃ k, fuel = k + 1 := ⟨fuel - 1, by simp [size] at hf; omega⟩
    simp [mgBstreeSearchRecursive, find]
  | node l a d r ihl ihr =>
    obtain ⟨fuel, rfl⟩ : ∃ k, fuel = k + 1 := ⟨fuel - 1, by simp [size] at hf; omega⟩
    obtain ⟨⟨p, ha⟩, hll, hlr⟩ := hl
    simp only [size] at hf
    rw [mgBstreeSearchRecursive, root_node, if_pos (by simp)]
    simp only [returns_bind, returns_callCmp, ha, Option.some.injEq, exists_eq_left', returns_ite, returns_lchildOf,
      returns_rchildOf, returns_pure, find]
    refine ⟨fun h₀ => by simp [h₀], fun h₀ => ⟨fun hgt => ?_, fun hle => ?_⟩⟩
    · rw [if_neg h₀, if_pos hgt]
      exact ihl hll (by omega)
    · rw [if_neg h₀, if_neg hle]
      exact ihr hlr (by omega)

/-! ## Insertion -/

variable [DecidableEq A]

/-- A key that is there: nothing changes. -/
theorem mgBstreeInsert_present (hl : LinkedAt cmp h t) (hx : find cmp z t = some x) (hf : t.size < fuel) :
    Returns (mgBstreeInsert fuel t.root (some z)) h fun v h' => v = some 0 ∧ h' = h := by
  induction t generalizing fuel with
  | nil => cases hx
  | node l a d r ihl ihr =>
    obtain ⟨fuel, rfl⟩ : ∃ k, fuel = k + 1 := ⟨fuel - 1, by simp [size] at hf; omega⟩
    obtain ⟨⟨p, ha⟩, hll, hlr⟩ := hl
    simp only [size] at hf
    simp only [find] at hx
    have hroot : ∀ {s : BinTree A Unit}, find cmp z s = some x → s.root ≠ none := fun {s} hs e => by
      rw [root_eq_none.1 e] at hs
      cases hs
    rw [mgBstreeInsert, if_neg (by simp), root_node, if_neg (by simp)]
    simp only [returns_bind, returns_callCmp, ha, Option.some.injEq, exists_eq_left', returns_ite, returns_lchildOf, returns_rchildOf,
      returns_pure, and_self, implies_true, and_true]
    refine ⟨fun hlt => ?_, fun hge hgt => ?_⟩
    · rw [if_neg (by omega), if_neg (by omega)] at hx
      exact ⟨fun e => absurd e (hroot hx), fun _ => ihr hlr hx (by omega)⟩
    · rw [if_neg (by omega), if_pos hgt] at hx
      exact ⟨fun e => absurd e (hroot hx), fun _ => ihl hll hx (by omega)⟩

/-- A new node with its links. -/
def Fresh (cmp : A → A → Int) (h : Heap A (MgBsTree A)) (z : A) : Prop := h z = some ⟨(), none, none, none, cmp⟩

/-- A new key: the node goes to its empty place `c`. -/
structure Hung (cmp : A → A → Int) (h : Heap A (MgBsTree A)) (T : BinTree A Unit) (z : A) (c : Ctx A Unit)
    (h' : Heap A (MgBsTree A)) : Prop where
  inorder : c.plug nil = T
  place : At cmp h' c (node nil z () nil)
  slot : Slot cmp z c
  agree : Agree (z :: T.inorder) h h'

/-- A node that was linked into its place, and nothing else written. -/
theorem Hung.of_links (hp : At cmp h c nil) (hzT : z ∉ (c.plug nil : BinTree A Unit).inorder) (hs : Slot cmp z c)
    (hself : h' z = some ⟨(), c.parent, none, none, cmp⟩) (helse : ∀ x, x ≠ z → h' x = relink h c (some z) x) :
    Hung cmp h (c.plug nil) z c h' := by
  have hnodes : z ∉ c.nodes := fun hzn => hzT (Ctx.mem_inorder_plug.2 (.inr hzn))
  refine ⟨rfl, hp.graft hnodes hself helse, hs, fun x hx => ?_⟩
  rw [List.mem_cons, not_or, Ctx.mem_inorder_plug, not_or] at hx
  rw [helse x hx.1, relink_of_not_mem hx.2.2]

theorem hang_right (ha : At cmp h c (node l a d nil)) (hz : Fresh cmp h z) (hzT : z ∉ (c.plug (node l a d nil)).inorder)
    (hs : Slot cmp z (.right l a d c)) :
    Returns (mgBstreeInsertRight (some a) (some z)) h fun _ h' => Hung cmp h (c.plug (node l a d nil)) z (.right l a d c) h' := by
  have hself := ha.self
  have haz : a ≠ z := fun e => hzT (by simp [Ctx.mem_inorder_plug, e])
  simp only [mgBstreeInsertRight, returns_bind, returns_setRchild, returns_setParent, hself, Option.some.injEq, exists_eq_left', ne_eq,
    haz.symm, not_false_eq_true, Function.update_of_ne, show h z = _ from hz]
  refine Hung.of_links (at_right.2 ha) hzT hs (Function.update_self ..) fun x hx => ?_
  rw [Function.update_of_ne hx]
  simp [relink, hself]

theorem hang_left (ha : At cmp h c (node nil a d r)) (hz : Fresh cmp h z) (hzT : z ∉ (c.plug (node nil a d r)).inorder)
    (hs : Slot cmp z (.left a d r c)) :
    Returns (mgBstreeInsertLeft (some a) (some z)) h fun _ h' => Hung cmp h (c.plug (node nil a d r)) z (.left a d r c) h' := by
  have hself := ha.self
  have haz : a ≠ z := fun e => hzT (by simp [Ctx.mem_inorder_plug, e])
  simp only [mgBstreeInsertLeft, returns_bind, returns_setLchild, returns_setParent, hself, Option.some.injEq, exists_eq_left', ne_eq,
    haz.symm, not_false_eq_true, Function.update_of_ne, show h z = _ from hz]
  refine Hung.of_links (at_left.2 ha) hzT hs (Function.update_self ..) fun x hx => ?_
  rw [Function.update_of_ne hx]
  simp [relink, hself]

/-- A key that is not there: the node goes to its place, and the caller gets no value. -/
theorem mgBstreeInsert_absent (hcmp : TotalPreorder cmp) (ha : At cmp h c t) (hne : t ≠ nil) (hst : StrictSorted cmp t.inorder)
    (hall : ∀ x ∈ t.inorder, cmp x z ≠ 0) (hz : Fresh cmp h z) (hzT : z ∉ (c.plug t).inorder) (hs : Slot cmp z c)
    (hf : t.size < fuel) :
    Returns (mgBstreeInsert fuel t.root (some z)) h fun v h' => v = none ∧ ∃ c', Hung cmp h (c.plug t) z c' h' := by
  induction t generalizing c fuel with
  | nil => exact absurd rfl hne
  | node l a d r ihl ihr =>
    obtain ⟨fuel, rfl⟩ : ∃ k, fuel = k + 1 := ⟨fuel - 1, by simp [size] at hf; omega⟩
    simp only [size] at hf
    have haz := hall a (by simp)
    obtain ⟨hsl, hsar, hla⟩ := List.pairwise_append.1 hst
    rw [mgBstreeInsert, if_neg (by simp), root_node, if_neg (by simp)]
    simp only [returns_bind, returns_callCmp, ha.self, Option.some.injEq, exists_eq_left', returns_ite, returns_lchildOf,
      returns_rchildOf, returns_pure, root_eq_none]
    refine ⟨fun hlt => ⟨?_, fun hr => ?_⟩, fun hge => ⟨fun hgt => ⟨?_, fun hl => ?_⟩, fun hle => absurd (by omega) haz⟩⟩
    · rintro rfl
      exact (hang_right ha hz hzT (hs.goRight hcmp (fun x hx => hla x hx a (by simp)) hlt)).mono fun _ _ h => ⟨trivial, _, h⟩
    · exact ihr (at_right.2 ha) hr (List.pairwise_cons.1 hsar).2 (fun x hx => hall x (by simp [hx])) hzT
        (hs.goRight hcmp (fun x hx => hla x hx a (by simp)) hlt) (by omega)
    · rintro rfl
      exact (hang_left ha hz hzT (hs.goLeft hcmp hsar hgt)).mono fun _ _ h => ⟨trivial, _, h⟩
    · exact ihl (at_left.2 ha) hl hsl (fun x hx => hall x (by simp [hx])) hzT (hs.goLeft hcmp hsar hgt) (by omega)

/-- What an insertion leaves. -/
inductive Inserted (cmp : A → A → Int) (h : Heap A (MgBsTree A)) (T : BinTree A Unit) (z : A) :
    BinTree A Unit → Heap A (MgBsTree A) → Prop
  | present (hold : ∃ x ∈ T.inorder, cmp x z = 0) : Inserted cmp h T z T h
  | absent (c : Ctx A Unit) (h' : Heap A (MgBsTree A)) (hall : ∀ x ∈ T.inorder, cmp x z ≠ 0) (hung : Hung cmp h T z c h') :
      Inserted cmp h T z (c.plug (node nil z () nil)) h'

/-- `mg_Bstree_insert` keeps the order and the links. -/
theorem mgBstreeInsert_spec (hcmp : TotalPreorder cmp) (hT : OrderedAt cmp h T) (hroot : T.root = some a)
    (hz : (∀ x ∈ T.inorder, cmp x z ≠ 0) → Fresh cmp h z) (hf : T.size < fuel) :
    Returns (mgBstreeInsert fuel (some a) (some z)) h fun _ h' => ∃ T', T'.root = some a ∧ OrderedAt cmp h' T' ∧
      Inserted cmp h T z T' h' := by
  rw [← hroot]
  cases hfind : find cmp z T with
  | some x =>
    refine (mgBstreeInsert_present hT.linked hfind hf).mono ?_
    rintro _ _ ⟨rfl, rfl⟩
    exact ⟨T, rfl, hT, .present ⟨x, find_some hfind⟩⟩
  | none =>
    have hall := find_none hcmp hT.sorted.sorted hfind
    have hzT : z ∉ T.inorder := fun hzT => hall z hzT (hcmp.refl z)
    have hne : T ≠ nil := by
      rintro rfl
      cases hroot
    refine (mgBstreeInsert_absent hcmp hT.place hne hT.sorted hall (hz hall) hzT slot_top hf).mono ?_
    rintro _ h' ⟨-, c, hung⟩
    have hin := hung.inorder
    rw [Ctx.plug_top] at hin
    refine ⟨c.plug (node nil z () nil), ?_, ⟨at_plug.1 hung.place, hung.slot.sorted hcmp (hin ▸ hT.sorted)⟩, .absent c h' hall hung⟩
    have hc : c ≠ .top := by
      rintro rfl
      exact hne hin.symm
    exact (Ctx.root_plug_of_ne_top hc _ nil).trans (congrArg BinTree.root hin)

/-! ## The result -/

/-- The call linked `z` into the tree that the heap holds below the root of `T`. -/
def Links (cmp : A → A → Int) (T : BinTree A Unit) (z : A) (h' : Heap A (MgBsTree A)) : Prop :=
  z ∉ T.inorder ∧ ∃ T', T'.root = T.root ∧ LinkedAt cmp h' T' ∧ z ∈ T'.inorder

/-- The caller gets a value that tells whether the node was linked or its key was there. -/
def Reports (cmp : A → A → Int) (T : BinTree A Unit) (z : A) (v : Returned Int) (h' : Heap A (MgBsTree A)) : Prop :=
  ∃ k, v = some k ∧ (k ≠ 0 ↔ Links cmp T z h') ∧ (k = 0 ↔ ∃ x ∈ T.inorder, cmp x z = 0)

/-- The result of an insertion is what it is to be exactly when the key is there. -/
theorem mg_bstree_insert_result_iff (hcmp : TotalPreorder cmp) (hT : OrderedAt cmp h T) (hroot : T.root = some a)
    (hz : Fresh cmp h z) (hf : T.size < fuel) :
    Returns (mgBstreeInsert fuel (some a) (some z)) h (Reports cmp T z) ↔ ∃ x ∈ T.inorder, cmp x z = 0 := by
  rw [← hroot]
  apply Returns.iff_of
  cases hfind : find cmp z T with
  | some x =>
    have hx := find_some hfind
    refine (mgBstreeInsert_present hT.linked hfind hf).mono ?_
    rintro _ _ ⟨rfl, rfl⟩
    refine iff_of_true ⟨0, rfl, ?_, iff_of_true rfl ⟨x, hx⟩⟩ ⟨x, hx⟩
    apply iff_of_false (fun hne => hne rfl)
    rintro ⟨hzT, T', hroot', hlinked, hzT'⟩
    exact hzT (hT.linked.unique hlinked hroot'.symm ▸ hzT')
  | none =>
    have hall := find_none hcmp hT.sorted.sorted hfind
    have hzT : z ∉ T.inorder := fun hzT => hall z hzT (hcmp.refl z)
    have hne : T ≠ nil := by
      rintro rfl
      cases hroot
    refine (mgBstreeInsert_absent hcmp hT.place hne hT.sorted hall hz hzT slot_top hf).mono ?_
    rintro _ h' ⟨rfl, -⟩
    apply iff_of_false
    · rintro ⟨k, hk, -⟩
      cases hk
    · rintro ⟨x, hx, hxz⟩
      exact hall x hx hxz

/-- A heap of new nodes, in the order of their numbers. -/
def newNodes : Heap Nat (MgBsTree Nat) := fun _ => some ⟨(), none, none, none, fun a b => (a : Int) - b⟩

/-- Half of an address is its key. -/
def halfCmp (a b : Nat) : Int := a / 2 - b / 2

theorem halfCmp_preorder : TotalPreorder halfCmp := TotalPreorder.of_key fun a : Nat => (a : Int) / 2

def allNew : Heap Nat (MgBsTree Nat) := fun _ => some ⟨(), none, none, none, halfCmp⟩

/-- The nodes 4 and 6 inserted below 2. -/
def chained : Heap Nat (MgBsTree Nat) :=
  Function.update (Function.update (Function.update (Function.update allNew
    2 (some ⟨(), none, none, some 4, halfCmp⟩)) 4 (some ⟨(), some 2, none, none, halfCmp⟩))
    4 (some ⟨(), some 2, none, some 6, halfCmp⟩)) 6 (some ⟨(), some 4, none, none, halfCmp⟩)

theorem chained_ordered : OrderedAt halfCmp chained (node nil 2 () (node nil 4 () (node nil 6 () nil))) :=
  ⟨⟨⟨rfl, trivial, rfl, trivial, rfl, trivial, trivial⟩, trivial, by decide⟩, by simp [StrictSorted, halfCmp]⟩

/-- The node 5 has the key of 4, which stands below the root. -/
theorem mg_bstree_insert_result_iff_same :
    Returns (mgBstreeInsert 5 (some 2) (some 5)) chained
      (Reports halfCmp (node nil 2 () (node nil 4 () (node nil 6 () nil))) 5) :=
  (mg_bstree_insert_result_iff halfCmp_preorder chained_ordered rfl (by rfl) (by decide)).2 ⟨4, by simp, by decide⟩

/-- The key 2 goes below the root of key 1, and the caller gets no value. -/
theorem mg_bstree_insert_unreturned :
    Returns (mgBstreeInsert 2 (some 1) (some 2)) newNodes (fun v h' =>
      v = none ∧ Links (fun a b : Nat => (a : Int) - b) (node nil 1 () nil) 2 h') ∧
    ¬ Returns (mgBstreeInsert 2 (some 1) (some 2)) newNodes (Reports (fun a b : Nat => (a : Int) - b) (node nil 1 () nil) 2) := by
  have hret : Returns (mgBstreeInsert 2 (some 1) (some 2)) newNodes fun v h' =>
      v = none ∧ Links (fun a b : Nat => (a : Int) - b) (node nil 1 () nil) 2 h' := by
    refine ⟨_, _, rfl, rfl, by simp, node nil 1 () (node nil 2 () nil), rfl, ?_, by simp⟩
    exact ⟨⟨none, rfl⟩, trivial, ⟨some 1, rfl⟩, trivial, trivial⟩
  refine ⟨hret, fun h => ?_⟩
  obtain ⟨_, _, -, ⟨rfl, -⟩, k, hk, -⟩ := hret.and h
  cases hk

/-! ## Runs -/

/-- A caller that inserts the nodes `zs` one after the other. -/
def insertEach (fuel : Nat) (root : Ptr A) : List A → TreeProg A Unit
  | [] => pure ()
  | z :: zs => do
    let _ ← mgBstreeInsert fuel root (some z)
    insertEach fuel root zs

/-- The state of a run from the heap `h₀`: the root `a` and then `zs` were inserted. -/
structure RunInv (cmp : A → A → Int) (h₀ : Heap A (MgBsTree A)) (a : A) (zs : List A) (T : BinTree A Unit)
    (h : Heap A (MgBsTree A)) : Prop where
  root : T.root = some a
  valid : OrderedAt cmp h T
  nodes : Firsts cmp (a :: zs) T.inorder
  size : T.size ≤ zs.length + 1
  agree : Agree T.inorder h₀ h

theorem RunInv.step {h₀ : Heap A (MgBsTree A)} {zs : List A} (hcmp : TotalPreorder cmp) (hr : RunInv cmp h₀ a zs T h)
    (hz : Fresh cmp h₀ z) (hf : zs.length + 1 < fuel) :
    Returns (mgBstreeInsert fuel (some a) (some z)) h fun _ h' => ∃ T', RunInv cmp h₀ a (zs ++ [z]) T' h' := by
  have hsize := hr.size
  have hfresh : (∀ x ∈ T.inorder, cmp x z ≠ 0) → Fresh cmp h z := fun hall =>
    (hr.agree z fun hzT => hall z hzT (hcmp.refl z)).trans hz
  refine (mgBstreeInsert_spec hcmp hr.valid hr.root hfresh (by omega)).mono ?_
  rintro _ h' ⟨T', hroot, hT', hins⟩
  cases hins with
  | present hold =>
    exact ⟨T, hr.root, hT', hr.nodes.old ((hr.nodes.present_iff hcmp z).1 hold), by simp; omega, hr.agree⟩
  | absent c _ hall hung =>
    have hmem : ∀ x, x ∈ (c.plug (node nil z () nil)).inorder ↔ x = z ∨ x ∈ T.inorder := fun x => by
      rw [← hung.inorder, Ctx.mem_inorder_plug, Ctx.mem_inorder_plug]
      simp
    have hlen : (c.plug (node nil z () nil)).size = T.size + 1 := by
      rw [← hung.inorder, Ctx.size_plug, Ctx.size_plug]
      simp only [BinTree.size]
      omega
    have hnew : ∀ y ∈ a :: zs, cmp y z ≠ 0 := fun y hy hyz =>
      ((hr.nodes.present_iff hcmp z).2 ⟨y, hy, hyz⟩).elim fun x hx => hall x hx.1 hx.2
    refine ⟨_, hroot, hT', hr.nodes.new hnew hmem, by simp; omega, ?_⟩
    refine (hr.agree.mono fun x hx => (hmem x).2 (.inr hx)).trans (hung.agree.mono fun x hx => ?_)
    exact (hmem x).2 (List.mem_cons.1 hx)

theorem insertEach_spec {h₀ : Heap A (MgBsTree A)} {pre zs : List A} (hcmp : TotalPreorder cmp) (hr : RunInv cmp h₀ a pre T h)
    (hi : ∀ z ∈ zs, Fresh cmp h₀ z) (hf : pre.length + zs.length < fuel) :
    Returns (insertEach fuel (some a) zs) h fun _ h' => ∃ T', RunInv cmp h₀ a (pre ++ zs) T' h' := by
  induction zs generalizing pre T h with
  | nil => simpa [insertEach] using ⟨T, hr⟩
  | cons z zs ih =>
    rw [List.length_cons] at hf
    refine (hr.step hcmp (hi z (by simp)) (by omega)).bind ?_
    rintro _ h₁ ⟨T₁, hr₁⟩
    have hrest := ih hr₁ (fun x hx => hi x (by simp [hx])) (by simp; omega)
    simpa using hrest

/-- After every run of insertions below the root `a`, the tree is in strict order with right parents, and its nodes are `a` and
the first of each other key; a further node of a key that is there changes nothing, and for every probe both searches come to
the same node, or to none, with `*result` as it was. -/
theorem mg_bstree_insert_run (hcmp : TotalPreorder cmp) (h : Heap A (MgBsTree A)) (a : A) (ha : Fresh cmp h a) (zs : List A)
    (hi : ∀ z ∈ zs, Fresh cmp h z) (fuel : Nat) (hf : zs.length + 1 < fuel) :
    Returns (insertEach fuel (some a) zs) h fun _ h₁ => ∃ T, T.root = some a ∧ OrderedAt cmp h₁ T ∧
      (∀ x, x ∈ T.inorder ↔ FirstOfKey cmp (a :: zs) x) ∧
      (∀ z, (∃ x ∈ a :: zs, cmp x z = 0) → Returns (mgBstreeInsert fuel (some a) (some z)) h₁ fun v h₂ => v = some 0 ∧ h₂ = h₁) ∧
      ∀ q, ∃ r, (∀ x, r = some x → FirstOfKey cmp (a :: zs) x ∧ cmp x q = 0) ∧ (r = none ↔ ∀ x ∈ a :: zs, cmp x q ≠ 0) ∧
        Returns (mgBstreeSearch fuel (some a) (some q)) h₁ (fun p h₂ => h₂ = h₁ ∧ p = r) ∧
        ∀ result, Returns (mgBstreeSearchRecursive fuel (some a) (some q) result) h₁ fun p h₂ => h₂ = h₁ ∧ p = r.or result := by
  have hstart : RunInv cmp h a [] (node nil a () nil) h :=
    ⟨rfl, ⟨⟨⟨ha, trivial, trivial⟩, trivial, by simp⟩, by simp [StrictSorted]⟩,
      Firsts.new (l := []) (m := []) (fun x => by simp [not_firstOfKey_nil]) (by simp) (by simp), by simp [size], .refl _ _⟩
  refine (insertEach_spec hcmp hstart hi (show ([] : List A).length + zs.length < fuel by simp; omega)).mono ?_
  rintro _ h₁ ⟨T, hr⟩
  rw [List.nil_append] at hr
  have hsize := hr.size
  have hroot := hr.root
  have hnodes := hr.nodes
  refine ⟨T, hroot, hr.valid, hnodes, fun z hold => ?_, fun q => ⟨find cmp q T, fun x hx => ?_, ?_, ?_, fun result => ?_⟩⟩
  · cases hfind : find cmp z T with
    | none =>
      obtain ⟨x, hx, hxz⟩ := (hnodes.present_iff hcmp z).2 hold
      exact absurd hxz (find_none hcmp hr.valid.sorted.sorted hfind x hx)
    | some x => rw [← hroot]; exact mgBstreeInsert_present hr.valid.linked hfind (by omega)
  · exact ⟨(hnodes x).1 (find_some hx).1, (find_some hx).2⟩
  · have hpres := hnodes.present_iff hcmp q
    rw [find_eq_none_iff hcmp hr.valid.sorted.sorted]
    constructor
    · exact fun hall x hx hxq => (hpres.2 ⟨x, hx, hxq⟩).elim fun y hy => hall y hy.1 hy.2
    · exact fun hall x hx hxq => (hpres.1 ⟨x, hx, hxq⟩).elim fun y hy => hall y hy.1 hy.2
  · rw [← hroot]; exact searchLoop_spec hr.valid.linked q (by omega)
  · rw [← hroot]; exact mgBstreeSearchRecursive_spec hr.valid.linked q result (by omega)

/-- `2` and `3` have one key. -/
theorem mg_bstree_insert_run_four :
    Returns (insertEach 5 (some 2) [4, 6, 3]) (fun _ => some ⟨(), none, none, none, fun a b : Nat => (a : Int) / 2 - b / 2⟩)
      fun _ h₁ => ∃ T, T.root = some 2 ∧ OrderedAt (fun a b : Nat => (a : Int) / 2 - b / 2) h₁ T ∧
        ∀ x, x ∈ T.inorder ↔ FirstOfKey (fun a b : Nat => (a : Int) / 2 - b / 2) [2, 4, 6, 3] x := by
  have hcmp := TotalPreorder.of_key fun a : Nat => (a : Int) / 2
  refine (mg_bstree_insert_run hcmp _ 2 (by rfl) [4, 6, 3] (fun z _ => by rfl) 5 (by decide)).mono ?_
  rintro _ h₁ ⟨T, hroot, hT, hmem, -⟩
  exact ⟨T, hroot, hT, hmem⟩

end MgStd.Bstree
