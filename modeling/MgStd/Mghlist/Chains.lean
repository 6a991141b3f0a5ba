import MgStd.Lib.BackChain
import MgStd.Mghlist.Code
/-!
# Lists as chains of nodes

`Lists` gives each head the sequence of its nodes, and `Rep` says that a memory
holds these sequences as chains. Every operation of mglist.c inserts a node at
one cell, removes one, or hangs a whole chain on another head.
-/

namespace MgStd.Mghlist

open MgStd.Lib List

variable {H N : Type}

/-! ## Reads and writes -/

/-- The cell is in a record that is there. -/
def Mem.has (m : Mem H N) : Cell H N → Bool
  | .first h => m.headAlloc h
  | .next n => m.nodeAlloc n

section
variable {m : Mem H N} {h : H} {n : N} {q : Ptr N} {c : Cell H N}

@[simp] theorem returns_headOf (Q : H → Mem H N → Prop) :
    Returns (headOf (some h)) m Q ↔ m.headAlloc h = true ∧ Q h m := by
  unfold headOf
  by_cases ha : m.headAlloc h = true <;> simp [ha]

@[simp] theorem returns_nodeOf (Q : N → Mem H N → Prop) :
    Returns (nodeOf (some n)) m Q ↔ m.nodeAlloc n = true ∧ Q n m := by
  unfold nodeOf
  by_cases ha : m.nodeAlloc n = true <;> simp [ha]

@[simp] theorem returns_firstOf (Q : Ptr N → Mem H N → Prop) :
    Returns (firstOf (some h)) m Q ↔ m.headAlloc h = true ∧ Q (m.cell (.first h)) m := by
  unfold firstOf
  simp

@[simp] theorem returns_nextOf (Q : Ptr N → Mem H N → Prop) :
    Returns (nextOf (some n)) m Q ↔ m.nodeAlloc n = true ∧ Q (m.cell (.next n)) m := by
  unfold nextOf
  simp

@[simp] theorem returns_pprevOf (Q : Option (Cell H N) → Mem H N → Prop) :
    Returns (pprevOf (some n)) m Q ↔ m.nodeAlloc n = true ∧ Q (m.pprev n) m := by
  unfold pprevOf
  simp

@[simp] theorem nextCell_some : nextCell (some n) = some (.next n : Cell H N) := rfl

@[simp] theorem firstCell_some : firstCell (some h) = some (.first h : Cell H N) := rfl

variable [DecidableEq N]

@[simp] theorem returns_setPprev (p : Option (Cell H N)) (Q : Unit → Mem H N → Prop) : Returns (setPprev (some n) p) m Q ↔
    m.nodeAlloc n = true ∧ Q () { m with pprev := Function.update m.pprev n p } := by
  unfold setPprev
  simp

variable [DecidableEq H]

@[simp] theorem returns_setFirst (Q : Unit → Mem H N → Prop) : Returns (setFirst (some h) q) m Q ↔
    m.headAlloc h = true ∧ Q () { m with cell := Function.update m.cell (.first h) q } := by
  unfold setFirst write
  simp

@[simp] theorem returns_setNext (Q : Unit → Mem H N → Prop) : Returns (setNext (some n) q) m Q ↔
    m.nodeAlloc n = true ∧ Q () { m with cell := Function.update m.cell (.next n) q } := by
  unfold setNext write
  simp

@[simp] theorem returns_setCell (Q : Unit → Mem H N → Prop) : Returns (setCell (some c) q) m Q ↔
    m.has c = true ∧ Q () { m with cell := Function.update m.cell c q } := by
  cases c <;> simp [setCell, Mem.has]

end

/-! ## What a memory represents -/

/-- The nodes of each head, in order; `none` for a head that is not in use. -/
abbrev Lists (H N : Type) := H → Option (List N)

/-- `x` is on the chain of `h`. -/
def On (L : Lists H N) (x : N) (h : H) : Prop := ∃ xs, L h = some xs ∧ x ∈ xs

/-- The memory holds each list as a chain of allocated nodes. -/
structure Rep (m : Mem H N) (L : Lists H N) : Prop where
  chain : ∀ h xs, L h = some xs → BackChain .next m.cell m.pprev (.first h) xs
  head : ∀ h xs, L h = some xs → m.headAlloc h = true
  node : ∀ h xs, L h = some xs → ∀ x ∈ xs, m.nodeAlloc x = true

/-- The node is on a chain, or its `pprev` says that it is not. -/
def Known (m : Mem H N) (L : Lists H N) (n : N) : Prop := (∃ h, On L n h) ∨ m.pprev n = none

variable {m m' : Mem H N} {L L' : Lists H N} {h : H} {n x y : N} {d : Cell H N} {xs as ys zs : List N}

theorem next_injective : Function.Injective (Cell.next : N → Cell H N) := fun _ _ h => Cell.next.inj h

theorem first_ne_next (y : N) : (Cell.first h : Cell H N) ≠ .next y := nofun

theorem Rep.nodup (hr : Rep m L) (hL : L h = some xs) : xs.Nodup :=
  (hr.chain h xs hL).nodup next_injective fun y _ => first_ne_next y

/-- The chains are disjoint. -/
theorem Rep.apart (hr : Rep m L) {h₁ h₂ : H} (h₁x : On L x h₁) (h₂x : On L x h₂) : h₁ = h₂ := by
  obtain ⟨xs, hL₁, hx₁⟩ := h₁x
  obtain ⟨ys, hL₂, hx₂⟩ := h₂x
  obtain ⟨as, bs, rfl⟩ := append_of_mem hx₁
  obtain ⟨cs, ds, rfl⟩ := append_of_mem hx₂
  have hcells := (hr.chain h₁ _ hL₁).apart next_injective first_ne_next first_ne_next (hr.chain h₂ _ hL₂)
  exact Cell.first.inj hcells

/-- A node on a chain is hashed. -/
theorem Rep.pprev_isSome (hr : Rep m L) (hx : On L x h) : ∃ c, m.pprev x = some c ∧ m.has c = true := by
  obtain ⟨xs, hL, hmem⟩ := hx
  obtain ⟨as, bs, rfl⟩ := append_of_mem hmem
  refine ⟨_, (hr.chain h _ hL).pprev_eq, ?_⟩
  rcases endCell_mem Cell.next (Cell.first h) as with he | ⟨y, hy, he⟩
  · rw [he]
    exact hr.head h _ hL
  · rw [he]
    exact hr.node h _ hL y (mem_append_left _ hy)

@[simp] theorem update_first_next [DecidableEq H] [DecidableEq N] (f : Cell H N → Ptr N) (h : H) (q : Ptr N) (y : N) :
    Function.update f (.first h) q (.next y) = f (.next y) :=
  Function.update_of_ne (first_ne_next y).symm _ _

/-! ## Where a chain is cut -/

theorem end_eq_next (he : endCell .next (.first h) as = (.next y : Cell H N)) : y ∈ as := by
  rcases endCell_mem Cell.next (Cell.first h) as with hf | ⟨z, hz, hf⟩
  · rw [hf] at he
    cases he
  · rw [hf] at he
    exact Cell.next.inj he ▸ hz

theorem end_eq_first {h' : H} (he : endCell .next (.first h) as = (.first h' : Cell H N)) : h' = h := by
  rcases endCell_mem Cell.next (Cell.first h) as with hf | ⟨z, -, hf⟩
  · rw [hf] at he
    exact (Cell.first.inj he).symm
  · rw [hf] at he
    cases he

variable [DecidableEq H]

/-- The chain of one head is edited, those of the others are as they were. -/
theorem Rep.edit (hr : Rep m L) (halloc : m.headAlloc h = true) (hhead : m'.headAlloc = m.headAlloc) (hnode : m'.nodeAlloc = m.nodeAlloc)
    (hchain : BackChain .next m'.cell m'.pprev (.first h) zs) (hzs : ∀ z ∈ zs, m.nodeAlloc z = true)
    (hcell : ∀ h' ws, h' ≠ h → L h' = some ws → m'.cell (.first h') = m.cell (.first h'))
    (hother : ∀ y h', h' ≠ h → On L y h' → m'.cell (.next y) = m.cell (.next y) ∧ m'.pprev y = m.pprev y) :
    Rep m' (Function.update L h (some zs)) := by
  refine ⟨fun h' ws hws => ?_, fun h' ws hws => ?_, fun h' ws hws w hw => ?_⟩
  all_goals by_cases he : h' = h
  all_goals first
    | rw [he, Function.update_self] at hws
      cases hws
    | rw [Function.update_of_ne he] at hws
  · exact he ▸ hchain
  · exact (hr.chain h' ws hws).congr (hcell h' ws he hws) fun y hy => hother y h' he ⟨ws, hws, hy⟩
  · rw [hhead, he]
    exact halloc
  · rw [hhead]
    exact hr.head h' ws hws
  · rw [hnode]
    exact hzs w hw
  · rw [hnode]
    exact hr.node h' ws hws w hw

/-- A head that is given up. -/
theorem Rep.forget (hr : Rep m L) : Rep m (Function.update L h none) := by
  have hold : ∀ {h' xs}, Function.update L h none h' = some xs → L h' = some xs := by
    intro h' xs hxs
    by_cases he : h' = h
    · rw [he, Function.update_self] at hxs
      cases hxs
    · rwa [Function.update_of_ne he] at hxs
  exact ⟨fun h' xs hxs => hr.chain h' xs (hold hxs), fun h' xs hxs => hr.head h' xs (hold hxs),
    fun h' xs hxs => hr.node h' xs (hold hxs)⟩

theorem on_update (hL : L h = some xs) (hmem : x ∈ xs → x ∈ zs) {h' : H} (hx : On L x h') :
    On (Function.update L h (some zs)) x h' := by
  obtain ⟨ws, hws, hx⟩ := hx
  by_cases he : h' = h
  · rw [he, hL] at hws
    cases hws
    exact ⟨zs, by rw [he, Function.update_self], hmem hx⟩
  · exact ⟨ws, by rw [Function.update_of_ne he, hws], hx⟩

/-! ## Insertion -/

/-- `n` was put between the cell `d` and the node that it pointed to. -/
structure Inserted (m m' : Mem H N) (d : Cell H N) (n : N) : Prop where
  into : m'.cell d = some n
  next : m'.cell (.next n) = m.cell d
  back : m'.pprev n = some d
  after : ∀ y, m.cell d = some y → m'.pprev y = some (.next n)
  cells : ∀ c, c ≠ d → c ≠ .next n → m'.cell c = m.cell c
  backs : ∀ y, y ≠ n → m.cell d ≠ some y → m'.pprev y = m.pprev y
  heads : m'.headAlloc = m.headAlloc
  nodes : m'.nodeAlloc = m.nodeAlloc

section
variable (hr : Rep m L) (hL : L h = some (as ++ ys)) (hnew : ∀ h', ¬ On L n h')
  (hi : Inserted m m' (endCell .next (.first h) as) n)
include hr hL hnew hi

omit [DecidableEq H] in
/-- Behind the new node the chain is what it was. -/
theorem Rep.insert_rest : BackChain .next m'.cell m'.pprev (.next n) ys := by
  have hrest := (hr.chain h _ hL).rest
  have hnd := nodup_append.1 (hr.nodup hL)
  have hne : ∀ y ∈ ys, y ≠ n := fun y hy e => hnew h ⟨_, hL, mem_append_right _ (e ▸ hy)⟩
  refine hrest.rehang (hi.next.trans hrest.cell_eq) (fun y hy => ?_) (fun y hy => ?_) fun y hy => ?_
  · exact hi.after y (hrest.cell_eq.trans hy)
  · refine hi.cells _ (fun e => ?_) fun e => hne y hy (Cell.next.inj e)
    exact hnd.2.2 y (end_eq_next e.symm) y hy rfl
  · refine hi.backs y (hne y (mem_of_mem_tail hy)) fun e => ?_
    rw [hrest.cell_eq] at e
    cases ys with
    | nil => cases e
    | cons w ws =>
      cases e
      exact (nodup_cons.1 hnd.2.1).1 hy

omit [DecidableEq H] in
theorem Rep.insert_chain : BackChain .next m'.cell m'.pprev (.first h) (as ++ n :: ys) := by
  have hchain := hr.chain h _ hL
  have hnd := nodup_append.1 (hr.nodup hL)
  refine hchain.graft ⟨hi.into, hi.back, hr.insert_rest hL hnew hi⟩ (fun as' z bs he => ?_) fun z hz => ?_
  · refine hi.cells _ (fun e => ?_) fun e => ?_
    · rw [he] at e hnd
      exact endCell_ne next_injective first_ne_next hnd.1 e
    · have hmem := end_eq_next e
      exact hnew h ⟨_, hL, mem_append_left _ (he ▸ mem_append_left _ hmem)⟩
  · have hzn : z ≠ n := fun e => hnew h ⟨_, hL, mem_append_left _ (e ▸ hz)⟩
    refine hi.backs z hzn fun e => ?_
    rw [hchain.rest.cell_eq] at e
    exact hnd.2.2 z hz z (mem_of_mem_head? e) rfl

theorem Rep.insert (halloc : m.nodeAlloc n = true) : Rep m' (Function.update L h (some (as ++ n :: ys))) := by
  refine hr.edit (hr.head h _ hL) hi.heads hi.nodes (hr.insert_chain hL hnew hi) (fun z hz => ?_) (fun h' _ hne _ => ?_) fun y h' hne hy => ?_
  · rw [mem_append, mem_cons, or_left_comm] at hz
    rcases hz with rfl | hz
    · exact halloc
    · exact hr.node h _ hL z (mem_append.2 hz)
  · exact hi.cells _ (fun e => hne (end_eq_first e.symm)) (first_ne_next n)
  · -- what is on another chain was not written
    have hyn : y ≠ n := fun e => hnew h' (e ▸ hy)
    have hyh : y ∉ as ++ ys := fun hmem => hne (hr.apart hy ⟨_, hL, hmem⟩)
    refine ⟨hi.cells _ (fun e => ?_) fun e => hyn (Cell.next.inj e), hi.backs y hyn fun e => ?_⟩
    · exact hyh (mem_append_left _ (end_eq_next e.symm))
    · rw [(hr.chain h _ hL).rest.cell_eq] at e
      exact hyh (mem_append_right _ (mem_of_mem_head? e))

omit hnew in
theorem Rep.insert_known (hx : Known m L x ∨ x = n) : Known m' (Function.update L h (some (as ++ n :: ys))) x := by
  have hsub : ∀ {y}, y ∈ as ++ ys → y ∈ as ++ n :: ys := by
    intro y hy
    rw [mem_append] at hy ⊢
    exact hy.imp_right (mem_cons_of_mem n)
  by_cases hxn : x = n
  · exact .inl ⟨h, _, Function.update_self .., by simp [hxn]⟩
  rcases hx with (⟨h', hx⟩ | hx) | hx
  · exact .inl ⟨h', on_update hL hsub hx⟩
  · by_cases hdx : m.cell (endCell .next (.first h) as) = some x
    · -- the node behind the new one is on the chain
      rw [(hr.chain h _ hL).rest.cell_eq] at hdx
      exact .inl ⟨h, on_update hL hsub ⟨_, hL, mem_append_right _ (mem_of_mem_head? hdx)⟩⟩
    · exact .inr ((hi.backs x hxn hdx).trans hx)
  · exact absurd hx hxn

end

/-! ## Removal -/

/-- `x`, which the cell `d` pointed to, was taken out, and says so. -/
structure Removed (m m' : Mem H N) (d : Cell H N) (x : N) : Prop where
  leads : m'.cell d = m.cell (.next x)
  after : ∀ y, m.cell (.next x) = some y → m'.pprev y = some d
  unhashed : m'.pprev x = none
  cells : ∀ c, c ≠ d → c ≠ .next x → m'.cell c = m.cell c
  backs : ∀ y, y ≠ x → m.cell (.next x) ≠ some y → m'.pprev y = m.pprev y
  heads : m'.headAlloc = m.headAlloc
  nodes : m'.nodeAlloc = m.nodeAlloc

section
variable (hr : Rep m L) (hL : L h = some (as ++ x :: ys)) (hd : Removed m m' (endCell .next (.first h) as) x)
include hr hL hd

omit [DecidableEq H] in
theorem Rep.remove_chain : BackChain .next m'.cell m'.pprev (.first h) (as ++ ys) := by
  have hchain := hr.chain h _ hL
  have hnd := nodup_append.1 (hr.nodup hL)
  have hxys := nodup_cons.1 hnd.2.1
  have htail := hchain.rest.2.2
  refine hchain.graft (htail.rehang ?_ (fun y hy => ?_) (fun y hy => ?_) fun y hy => ?_) (fun as' z bs he => ?_) fun z hz => ?_
  · exact hd.leads.trans htail.cell_eq
  · exact hd.after y (htail.cell_eq.trans hy)
  · refine hd.cells _ (fun e => ?_) fun e => hxys.1 (Cell.next.inj e ▸ hy)
    exact hnd.2.2 y (end_eq_next e.symm) y (mem_cons_of_mem x hy) rfl
  · refine hd.backs y (fun e => hxys.1 (e ▸ mem_of_mem_tail hy)) fun e => ?_
    rw [htail.cell_eq] at e
    cases ys with
    | nil => cases e
    | cons w ws =>
      cases e
      exact (nodup_cons.1 hxys.2).1 hy
  · refine hd.cells _ (fun e => ?_) fun e => ?_
    · rw [he] at e hnd
      exact endCell_ne next_injective first_ne_next hnd.1 e
    · have hmem := end_eq_next e
      exact hnd.2.2 x (he ▸ mem_append_left _ hmem) x mem_cons_self rfl
  · refine hd.backs z (fun e => hnd.2.2 z hz x mem_cons_self e) fun e => ?_
    rw [htail.cell_eq] at e
    exact hnd.2.2 z hz z (mem_cons_of_mem x (mem_of_mem_head? e)) rfl

theorem Rep.remove : Rep m' (Function.update L h (some (as ++ ys))) := by
  have hsub : ∀ z ∈ as ++ ys, z ∈ as ++ x :: ys := by
    intro z hz
    rw [mem_append] at hz ⊢
    exact hz.imp_right (mem_cons_of_mem x)
  refine hr.edit (hr.head h _ hL) hd.heads hd.nodes (hr.remove_chain hL hd) (fun z hz => hr.node h _ hL z (hsub z hz)) (fun h' _ hne _ => ?_)
    fun y h' hne hy => ?_
  · exact hd.cells _ (fun e => hne (end_eq_first e.symm)) (first_ne_next x)
  · have hyh : y ∉ as ++ x :: ys := fun hmem => hne (hr.apart hy ⟨_, hL, hmem⟩)
    have hyx : y ≠ x := fun e => hyh (e ▸ by simp)
    refine ⟨hd.cells _ (fun e => ?_) fun e => hyx (Cell.next.inj e), hd.backs y hyx fun e => ?_⟩
    · exact hyh (mem_append_left _ (end_eq_next e.symm))
    · rw [(hr.chain h _ hL).rest.2.2.cell_eq] at e
      exact hyh (mem_append_right _ (mem_cons_of_mem x (mem_of_mem_head? e)))

theorem Rep.remove_known {y : N} (hy : Known m L y) : Known m' (Function.update L h (some (as ++ ys))) y := by
  have htail := (hr.chain h _ hL).rest.2.2
  by_cases hyx : y = x
  · exact .inr (hyx ▸ hd.unhashed)
  rcases hy with ⟨h', hy⟩ | hy
  · refine .inl ⟨h', on_update hL (fun hmem => ?_) hy⟩
    rw [mem_append, mem_cons, or_left_comm] at hmem
    exact mem_append.2 (hmem.resolve_left hyx)
  · by_cases hxy : m.cell (.next x) = some y
    · rw [htail.cell_eq] at hxy
      exact .inl ⟨h, _, Function.update_self .., mem_append_right _ (mem_of_mem_head? hxy)⟩
    · exact .inr ((hd.backs y hyx hxy).trans hy)

end

end MgStd.Mghlist
