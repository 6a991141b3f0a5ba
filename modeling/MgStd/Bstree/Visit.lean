import MgStd.Lib.Traversals
import MgStd.Bstree.Delete
/-!
# Visits

All three visitors go on with `mg_Bstree_visit`, and that is a macro for
`mg_Bstree_visit_LMR`: below the root the nodes come in order, whichever visitor
was called.
-/

namespace MgStd.Bstree

open MgStd.Lib BinTree

variable {A : Type} {cmp : A → A → Int} {h : Heap A (MgBsTree A)} {l r t : BinTree A Unit} {a : A} {d : Unit}
  {calls calls' : List A} {fuel : Nat}

/-! ## Calls -/

/-- `op_func` for the nodes of a list. -/
def callEach {σ : Type} (op_func : Ptr A → Prog σ Unit) : List A → Prog σ Unit
  | [] => pure ()
  | x :: xs => do
    op_func (some x)
    callEach op_func xs

/-- A visitor over `h` calls `op_func` on the nodes `calls` in that order, whatever `op_func` does, and does no more. -/
def Calls (visit : (σ : Type) → (Ptr A → Prog σ Unit) → Prog (Heap A (MgBsTree A) × σ) Unit) (h : Heap A (MgBsTree A))
    (calls : List A) : Prop :=
  ∀ (σ : Type) (op_func : Ptr A → Prog σ Unit) (s : σ) (Q : Unit → Heap A (MgBsTree A) × σ → Prop),
    Returns (visit σ op_func) (h, s) Q ↔ Returns (callEach op_func calls) s fun u s' => Q u (h, s')

/-- An `op_func` that notes the nodes. -/
def note (p : Ptr A) : Prog (List (Ptr A)) Unit := modify fun seen => seen ++ [p]

theorem callEach_append {σ : Type} (op_func : Ptr A → Prog σ Unit) (xs ys : List A) (s : σ) (Q : Unit → σ → Prop) :
    Returns (callEach op_func (xs ++ ys)) s Q ↔ Returns (callEach op_func xs) s fun _ s' => Returns (callEach op_func ys) s' Q := by
  induction xs generalizing s with
  | nil => simp [callEach]
  | cons x xs ih => simp only [List.cons_append, callEach, returns_bind, ih]

theorem callEach_note (xs : List A) (seen : List (Ptr A)) (Q : Unit → List (Ptr A) → Prop) :
    Returns (callEach note xs) seen Q ↔ Q () (seen ++ xs.map some) := by
  induction xs generalizing seen with
  | nil => simp [callEach]
  | cons x xs ih => simp only [callEach, note, returns_bind, returns_modify, ih, List.map_cons, List.append_assoc, List.singleton_append]

/-- The calls can be observed. -/
theorem Calls.unique {visit : (σ : Type) → (Ptr A → Prog σ Unit) → Prog (Heap A (MgBsTree A) × σ) Unit}
    (hc : Calls visit h calls) (hc' : Calls visit h calls') : calls = calls' := by
  have hnote := (hc _ note [] fun _ s => s.2 = calls.map some).2 ((callEach_note _ _ _).2 rfl)
  have hseen := (callEach_note _ _ _).1 ((hc' _ _ _ _).1 hnote)
  exact (List.map_injective_iff.2 (fun _ _ => Option.some.inj) hseen).symm

theorem Calls.iff_eq {visit : (σ : Type) → (Ptr A → Prog σ Unit) → Prog (Heap A (MgBsTree A) × σ) Unit}
    (hc : Calls visit h calls) : Calls visit h calls' ↔ calls = calls' :=
  ⟨hc.unique, fun e => e ▸ hc⟩

/-! ## The visitors -/

theorem calls_LMR (hl : LinkedAt cmp h t) (hf : t.size < fuel) :
    Calls (fun _ op_func => mgBstreeVisitLMR op_func fuel t.root) h t.inorder := by
  intro σ op_func s Q
  induction t generalizing fuel s Q with
  | nil =>
    obtain ⟨fuel, rfl⟩ : ∃ k, fuel = k + 1 := ⟨fuel - 1, by simp [size] at hf; omega⟩
    simp [mgBstreeVisitLMR, callEach]
  | node l a d r ihl ihr =>
    obtain ⟨fuel, rfl⟩ : ∃ k, fuel = k + 1 := ⟨fuel - 1, by simp [size] at hf; omega⟩
    obtain ⟨⟨p, ha⟩, hll, hlr⟩ := hl
    simp only [size] at hf
    have hfl : l.size < fuel := by omega
    have hfr : r.size < fuel := by omega
    have hleft := fun s Q => ihl hll hfl s Q
    have hright := fun s Q => ihr hlr hfr s Q
    dsimp only at hleft hright ⊢
    rw [mgBstreeVisitLMR, root_node, if_pos (by simp), inorder_node, callEach_append]
    simp only [onTree, onArg, callEach, returns_bind, returns_zoom, returns_lchildOf, returns_rchildOf, ha, Option.some.injEq,
      exists_eq_left', hleft, hright]

/-- The calls of `mg_Bstree_visit_MLR`. -/
def callsMLR : BinTree A Unit → List A
  | nil => []
  | node l a _ r => a :: (l.inorder ++ r.inorder)

/-- The calls of `mg_Bstree_visit_LRM`. -/
def callsLRM : BinTree A Unit → List A
  | nil => []
  | node l a _ r => l.inorder ++ r.inorder ++ [a]

theorem calls_MLR (hl : LinkedAt cmp h t) (hf : t.size ≤ fuel) :
    Calls (fun _ op_func => mgBstreeVisitMLR op_func fuel t.root) h (callsMLR t) := by
  intro σ op_func s Q
  cases t with
  | nil => simp [mgBstreeVisitMLR, callsMLR, callEach]
  | node l a d r =>
    obtain ⟨⟨p, ha⟩, hll, hlr⟩ := hl
    simp only [size] at hf
    have hfl : l.size < fuel := by omega
    have hfr : r.size < fuel := by omega
    have hleft := calls_LMR hll hfl
    have hright := calls_LMR hlr hfr
    unfold Calls at hleft hright
    dsimp only at hleft hright ⊢
    rw [mgBstreeVisitMLR, root_node, if_pos (by simp), callsMLR]
    simp only [onTree, onArg, callEach, callEach_append, returns_bind, returns_zoom, returns_lchildOf, returns_rchildOf, ha,
      Option.some.injEq, exists_eq_left', hleft, hright]

theorem calls_LRM (hl : LinkedAt cmp h t) (hf : t.size ≤ fuel) :
    Calls (fun _ op_func => mgBstreeVisitLRM op_func fuel t.root) h (callsLRM t) := by
  intro σ op_func s Q
  cases t with
  | nil => simp [mgBstreeVisitLRM, callsLRM, callEach]
  | node l a d r =>
    obtain ⟨⟨p, ha⟩, hll, hlr⟩ := hl
    simp only [size] at hf
    have hfl : l.size < fuel := by omega
    have hfr : r.size < fuel := by omega
    have hleft := calls_LMR hll hfl
    have hright := calls_LMR hlr hfr
    unfold Calls at hleft hright
    dsimp only at hleft hright ⊢
    rw [mgBstreeVisitLRM, root_node, if_pos (by simp), callsLRM]
    simp only [onTree, onArg, callEach, callEach_append, returns_bind, returns_zoom, returns_lchildOf, returns_rchildOf, ha,
      Option.some.injEq, exists_eq_left', hleft, hright, returns_pure]

/-! ## Orders -/

theorem noLeft_iff (hl : LinkedAt cmp h t) : t.NoLeft ↔ ∀ x ∈ t.inorder, ∃ n, h x = some n ∧ n.lchild = none := by
  induction t with
  | nil => simp [NoLeft]
  | node l a d r ihl ihr =>
    obtain ⟨⟨p, ha⟩, hll, hlr⟩ := hl
    rw [NoLeft, ihr hlr]
    constructor
    · rintro ⟨rfl, hr⟩
      exact List.forall_mem_cons.2 ⟨⟨_, ha, rfl⟩, hr⟩
    · intro hall
      obtain ⟨n, hn, hnull⟩ := hall a (by simp)
      rw [ha, Option.some.injEq] at hn
      subst hn
      exact ⟨root_eq_none.1 hnull, fun x hx => hall x (by simp [hx])⟩

theorem noRight_iff (hl : LinkedAt cmp h t) : t.NoRight ↔ ∀ x ∈ t.inorder, ∃ n, h x = some n ∧ n.rchild = none := by
  induction t with
  | nil => simp [NoRight]
  | node l a d r ihl ihr =>
    obtain ⟨⟨p, ha⟩, hll, hlr⟩ := hl
    rw [NoRight, ihl hll]
    constructor
    · rintro ⟨rfl, hleft⟩ x hx
      rcases List.mem_append.1 hx with hx | hx
      · exact hleft x hx
      · obtain rfl := List.mem_singleton.1 hx
        exact ⟨_, ha, rfl⟩
    · intro hall
      obtain ⟨n, hn, hnull⟩ := hall a (by simp)
      rw [ha, Option.some.injEq] at hn
      subst hn
      exact ⟨root_eq_none.1 hnull, fun x hx => hall x (by simp [hx])⟩

/-- The nodes below the root are those of the subtrees. -/
theorem forall_below {P : A → Prop} (hn : (node l a d r).inorder.Nodup) :
    (∀ x ∈ (node l a d r).inorder, (node l a d r).root ≠ some x → P x) ↔ (∀ x ∈ l.inorder, P x) ∧ ∀ x ∈ r.inorder, P x := by
  obtain ⟨ha, -⟩ := nodup_node hn
  have hne : ∀ {x}, x ∈ l.inorder ++ r.inorder → some a ≠ some x := fun {x} hx e => ha (Option.some.inj e ▸ hx)
  constructor
  · intro hall
    refine ⟨fun x hx => hall x (by simp [hx]) (hne (by simp [hx])), fun x hx => hall x (by simp [hx]) (hne (by simp [hx]))⟩
  · rintro ⟨hleft, hright⟩ x hx hxa
    rw [inorder_node, List.mem_append, List.mem_cons] at hx
    rcases hx with hx | rfl | hx
    · exact hleft x hx
    · exact absurd rfl hxa
    · exact hright x hx

theorem callsMLR_eq (hn : t.inorder.Nodup) (hl : LinkedAt cmp h t) :
    callsMLR t = t.preorder ↔ ∀ x ∈ t.inorder, t.root ≠ some x → ∃ n, h x = some n ∧ n.lchild = none := by
  cases t with
  | nil => simp [callsMLR, preorder]
  | node l a d r =>
    obtain ⟨-, hll, hlr⟩ := hl
    obtain ⟨-, hnl, hnr⟩ := nodup_node hn
    rw [forall_below hn, ← noLeft_iff hll, ← noLeft_iff hlr, ← inorder_eq_preorder hnl, ← inorder_eq_preorder hnr,
      callsMLR, preorder, List.cons_inj_right]
    exact List.append_eq_append_iff_of_size_eq_left (preorder_perm l).length_eq.symm

theorem callsLRM_eq (hn : t.inorder.Nodup) (hl : LinkedAt cmp h t) :
    callsLRM t = t.postorder ↔ ∀ x ∈ t.inorder, t.root ≠ some x → ∃ n, h x = some n ∧ n.rchild = none := by
  cases t with
  | nil => simp [callsLRM, postorder]
  | node l a d r =>
    obtain ⟨-, hll, hlr⟩ := hl
    obtain ⟨-, hnl, hnr⟩ := nodup_node hn
    rw [forall_below hn, ← noRight_iff hll, ← noRight_iff hlr, ← inorder_eq_postorder hnl, ← inorder_eq_postorder hnr,
      callsLRM, postorder, List.append_cancel_right_eq]
    exact List.append_eq_append_iff_of_size_eq_left (postorder_perm l).length_eq.symm

theorem callsMLR_perm (t : BinTree A Unit) : (callsMLR t).Perm t.inorder := by
  cases t with
  | nil => exact .refl _
  | node l a d r => exact List.perm_middle.symm

theorem callsLRM_perm (t : BinTree A Unit) : (callsLRM t).Perm t.inorder := by
  cases t with
  | nil => exact .refl _
  | node l a d r =>
    rw [callsLRM, inorder_node, List.append_assoc]
    exact List.perm_append_comm.append_left _

/-- Both visitors call `op_func` once for every node. `mg_Bstree_visit_MLR` calls it in preorder exactly when no node below the
root has a left child, `mg_Bstree_visit_LRM` in postorder exactly when none has a right child: together, when all nodes below the
root are leaves. -/
theorem mg_bstree_visits_iff (hl : LinkedAt cmp h t) (hn : t.inorder.Nodup) (hf : t.size ≤ fuel) :
    ((Calls (fun _ op_func => mgBstreeVisitMLR op_func fuel t.root) h t.preorder ∧
      Calls (fun _ op_func => mgBstreeVisitLRM op_func fuel t.root) h t.postorder) ↔
        ∀ x ∈ t.inorder, t.root ≠ some x → Leaf h x) ∧
    (Calls (fun _ op_func => mgBstreeVisitMLR op_func fuel t.root) h t.preorder ↔
      ∀ x ∈ t.inorder, t.root ≠ some x → ∃ n, h x = some n ∧ n.lchild = none) ∧
    (Calls (fun _ op_func => mgBstreeVisitLRM op_func fuel t.root) h t.postorder ↔
      ∀ x ∈ t.inorder, t.root ≠ some x → ∃ n, h x = some n ∧ n.rchild = none) ∧
    ∃ mlr lrm, Calls (fun _ op_func => mgBstreeVisitMLR op_func fuel t.root) h mlr ∧ mlr.Perm t.inorder ∧
      Calls (fun _ op_func => mgBstreeVisitLRM op_func fuel t.root) h lrm ∧ lrm.Perm t.inorder := by
  have hmlr := (calls_MLR hl hf).iff_eq.trans (callsMLR_eq hn hl)
  have hlrm := (calls_LRM hl hf).iff_eq.trans (callsLRM_eq hn hl)
  refine ⟨?_, hmlr, hlrm, _, _, calls_MLR hl hf, callsMLR_perm t, calls_LRM hl hf, callsLRM_perm t⟩
  rw [hmlr, hlrm]
  constructor
  · rintro ⟨hleft, hright⟩ x hx hxr
    obtain ⟨n, hxn, hnl⟩ := hleft x hx hxr
    obtain ⟨n', hxn', hnr⟩ := hright x hx hxr
    rw [hxn, Option.some.injEq] at hxn'
    subst hxn'
    exact ⟨n, hxn, hnl, hnr⟩
  · intro hleaf
    refine ⟨fun x hx hxr => ?_, fun x hx hxr => ?_⟩
    · obtain ⟨n, hxn, hnl, -⟩ := hleaf x hx hxr
      exact ⟨n, hxn, hnl⟩
    · obtain ⟨n, hxn, -, hnr⟩ := hleaf x hx hxr
      exact ⟨n, hxn, hnr⟩

/-- The keys 3, 2 and 1 in this order: each node is the left child of the one before. -/
def chainHeap : Heap Nat (MgBsTree Nat)
  | 3 => some ⟨(), none, some 2, none, fun a b => (a : Int) - b⟩
  | 2 => some ⟨(), some 3, some 1, none, fun a b => (a : Int) - b⟩
  | 1 => some ⟨(), some 2, none, none, fun a b => (a : Int) - b⟩
  | _ => none

/-- The tree of `chainHeap`. -/
def chainTree : BinTree Nat Unit := node (node (node nil 1 () nil) 2 () nil) 3 () nil

theorem linkedAt_chain : LinkedAt (fun a b : Nat => (a : Int) - b) chainHeap chainTree :=
  ⟨⟨none, rfl⟩, ⟨⟨some 3, rfl⟩, ⟨⟨some 2, rfl⟩, trivial, trivial⟩, trivial⟩, trivial⟩

/-- Here the postorder is right: no node has a right child. -/
theorem mg_bstree_visits_iff_chain :
    Calls (fun _ op_func => mgBstreeVisitLRM op_func 3 chainTree.root) chainHeap chainTree.postorder := by
  apply (mg_bstree_visits_iff linkedAt_chain (by decide) (by decide)).2.2.1.2
  intro x hx _
  have hx' : x = 1 ∨ x = 2 ∨ x = 3 := by simpa [chainTree] using hx
  rcases hx' with rfl | rfl | rfl <;> exact ⟨_, rfl, rfl⟩

/-- `mg_Bstree_visit_MLR` visits 1 before its parent 2. -/
theorem mg_bstree_visit_child_first : LinkedAt (fun a b : Nat => (a : Int) - b) chainHeap chainTree ∧ chainTree.inorder.Nodup ∧
    ¬ Calls (fun _ op_func => mgBstreeVisitMLR op_func 3 chainTree.root) chainHeap chainTree.preorder := by
  refine ⟨linkedAt_chain, by decide, fun hc => ?_⟩
  have heq := (calls_MLR linkedAt_chain (show chainTree.size ≤ 3 by decide)).unique hc
  exact absurd heq (by decide)

end MgStd.Bstree
