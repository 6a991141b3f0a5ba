import MgStd.Lib.Runs
import MgStd.Mghlist.Chains
/-!
# Hash chains refine sequences

Each operation of `Op` does to the chains what `apply` does to the sequences of
the heads, and a node is unhashed exactly when it is on no chain. Where an
operation finds the cell that it redirects is told by the back links.
-/

namespace MgStd.Mghlist

open MgStd.Lib List

variable {H N : Type}

inductive Op (H N : Type)
  | initHead (ptr : H)
  | initNode (h : N)
  | addHead (n : N) (h : H)
  | addBefore (n next : N)
  | addAfter (n next : N)
  | del (n : N)
  | delInit (n : N)
  | moveList (old new : H)

section
variable [DecidableEq H] [DecidableEq N]

def Op.exec : Op H N → Prog (Mem H N) Unit
  | .initHead ptr => initMgHlistHead (some ptr)
  | .initNode h => initMgHlistNode (some h)
  | .addHead n h => mghlistAddHead (some n) (some h)
  | .addBefore n next => mghlistAddBefore (some n) (some next)
  | .addAfter n next => mghlistAddAfter (some n) (some next)
  | .del n => mghlistDel (some n)
  | .delInit n => mghlistDelInit (some n)
  | .moveList old new => mghlistMoveList (some old) (some new)

end

/-! ## The operations on sequences -/

/-- The nodes whose state the operation settles. -/
def Op.node : Op H N → Option N
  | .initHead _ | .moveList _ _ => none
  | .initNode n | .addHead n _ | .addBefore n _ | .addAfter _ n | .del n | .delInit n => some n

/-- `n` before `x`, where it comes. -/
def insertBefore [DecidableEq N] (n x : N) : List N → List N
  | [] => []
  | y :: ys => if y = x then n :: y :: ys else y :: insertBefore n x ys

/-- `n` after `x`, where it comes. -/
def insertAfter [DecidableEq N] (n x : N) : List N → List N
  | [] => []
  | y :: ys => if y = x then y :: n :: ys else y :: insertAfter n x ys

variable [DecidableEq H] [DecidableEq N]

def Op.apply (L : Lists H N) : Op H N → Lists H N
  | .initHead ptr => Function.update L ptr (some [])
  | .initNode _ => L
  | .addHead n h => Function.update L h ((L h).map (n :: ·))
  | .addBefore n next => fun h => (L h).map (insertBefore n next)
  | .addAfter n next => fun h => (L h).map (insertAfter next n)
  | .del n | .delInit n => fun h => (L h).map (·.erase n)
  | .moveList old new => Function.update (Function.update L new (L old)) old (some [])

/-- What an operation asks for: a node that is added or initialised is on no chain, one that is deleted, or next to one
that is added, is on a chain; a chain is moved into an empty head. `mghlist_del_init` takes both kinds of nodes. -/
def Op.Pre (m : Mem H N) (L : Lists H N) : Op H N → Prop
  | .initHead ptr => m.headAlloc ptr = true ∧ (L ptr = none ∨ L ptr = some [])
  | .initNode n => m.nodeAlloc n = true ∧ ∀ h, ¬ On L n h
  | .addHead n h => (m.nodeAlloc n = true ∧ ∀ h', ¬ On L n h') ∧ ∃ xs, L h = some xs
  | .addBefore n next | .addAfter next n => (m.nodeAlloc n = true ∧ ∀ h, ¬ On L n h) ∧ ∃ h, On L next h
  | .del n => ∃ h, On L n h
  | .delInit n => m.nodeAlloc n = true ∧ Known m L n
  | .moveList old new => (∃ xs, L old = some xs) ∧ L new = some []

variable {m m' : Mem H N} {L : Lists H N} {h : H} {n x y : N} {xs as ys : List N}

omit [DecidableEq H] in
theorem insertBefore_split (hx : x ∉ as) : insertBefore n x (as ++ x :: ys) = as ++ n :: x :: ys := by
  induction as with
  | nil => exact if_pos rfl
  | cons y as ih =>
    rw [mem_cons, not_or] at hx
    rw [cons_append, insertBefore, if_neg (Ne.symm hx.1), ih hx.2, cons_append]

theorem insertBefore_of_notMem (hx : x ∉ xs) : insertBefore n x xs = xs := by
  induction xs with
  | nil => rfl
  | cons y xs ih =>
    rw [mem_cons, not_or] at hx
    rw [insertBefore, if_neg (Ne.symm hx.1), ih hx.2]

theorem insertAfter_split (hx : x ∉ as) : insertAfter n x (as ++ x :: ys) = as ++ x :: n :: ys := by
  induction as with
  | nil => exact if_pos rfl
  | cons y as ih =>
    rw [mem_cons, not_or] at hx
    rw [cons_append, insertAfter, if_neg (Ne.symm hx.1), ih hx.2, cons_append]

theorem insertAfter_of_notMem (hx : x ∉ xs) : insertAfter n x xs = xs := by
  induction xs with
  | nil => rfl
  | cons y xs ih =>
    rw [mem_cons, not_or] at hx
    rw [insertAfter, if_neg (Ne.symm hx.1), ih hx.2]

omit [DecidableEq N] in
/-- An edit at a node changes the one list that it is on. -/
theorem Rep.map_eq (hr : Rep m L) (hL : L h = some xs) (hx : x ∈ xs) {f : List N → List N} (hf : ∀ ys, x ∉ ys → f ys = ys) :
    (fun h' => (L h').map f) = Function.update L h (some (f xs)) := by
  funext h'
  by_cases he : h' = h
  · rw [he, hL, Function.update_self, Option.map_some]
  · rw [Function.update_of_ne he]
    cases hh : L h' with
    | none => rfl
    | some ys =>
      have hnot : x ∉ ys := fun hy => he (hr.apart ⟨ys, hh, hy⟩ ⟨xs, hL, hx⟩)
      rw [Option.map_some, hf ys hnot]

omit [DecidableEq H] [DecidableEq N] in
/-- A node on a chain, and what is around it. -/
theorem Rep.split (hr : Rep m L) (hx : On L x h) : ∃ as ys, L h = some (as ++ x :: ys) ∧ x ∉ as ∧ x ∉ ys ∧
    m.pprev x = some (endCell .next (.first h) as) ∧ m.cell (endCell .next (.first h) as) = some x ∧
    m.cell (.next x) = ys.head? := by
  obtain ⟨xs, hL, hmem⟩ := hx
  obtain ⟨as, ys, rfl⟩ := append_of_mem hmem
  have hnd := nodup_append.1 (hr.nodup hL)
  have hrest := (hr.chain h _ hL).rest
  exact ⟨as, ys, hL, fun ha => hnd.2.2 x ha x mem_cons_self rfl, (nodup_cons.1 hnd.2.1).1, hrest.2.1, hrest.1,
    hrest.2.2.cell_eq⟩

/-! ## The operations on chains -/

/-- `if (p) p->pprev = c` -/
def setBack (pprev : N → Option (Cell H N)) (p : Ptr N) (c : Cell H N) : N → Option (Cell H N) :=
  match p with
  | none => pprev
  | some y => Function.update pprev y (some c)

omit [DecidableEq H] in
theorem setBack_self {pprev : N → Option (Cell H N)} {p : Ptr N} {c : Cell H N} (hp : p = some y) :
    setBack pprev p c y = some c := by
  subst hp
  exact Function.update_self ..

omit [DecidableEq H] in
theorem setBack_of_ne {pprev : N → Option (Cell H N)} {p : Ptr N} {c : Cell H N} (hp : p ≠ some y) :
    setBack pprev p c y = pprev y := by
  cases p with
  | none => rfl
  | some z => exact Function.update_of_ne (fun e => hp (congrArg some e.symm)) _ _

omit [DecidableEq H] in
theorem returns_setBack {β : Type} {p : Ptr N} {c : Cell H N} (hp : ∀ y, p = some y → m.nodeAlloc y = true)
    (k : Prog (Mem H N) β) (Q : β → Mem H N → Prop) :
    Returns (if p.isSome = true then do setPprev p (some c); k else k) m Q ↔
      Returns k { m with pprev := setBack m.pprev p c } Q := by
  cases p with
  | none => simp [setBack]
  | some y => simp [setBack, hp y rfl]

/-- What `n` in front of the node at `d` leaves in the memory. -/
def inserted (m : Mem H N) (d : Cell H N) (n : N) : Mem H N :=
  { m with
    cell := Function.update (Function.update m.cell (.next n) (m.cell d)) d (some n)
    pprev := Function.update (setBack m.pprev (m.cell d) (.next n)) n (some d) }

theorem inserted_spec {d : Cell H N} (hd : d ≠ .next n) (hn : m.cell d ≠ some n) : Inserted m (inserted m d n) d n where
  into := Function.update_self ..
  next := (Function.update_of_ne hd.symm _ _).trans (Function.update_self ..)
  back := Function.update_self ..
  after y hy := (Function.update_of_ne (fun (e : y = n) => hn (e ▸ hy)) _ _).trans (setBack_self hy)
  cells _ hc hcn := (Function.update_of_ne hc _ _).trans (Function.update_of_ne hcn _ _)
  backs _ hy hdy := (Function.update_of_ne hy _ _).trans (setBack_of_ne hdy)
  heads := rfl
  nodes := rfl

/-- A new node is neither behind a cell of a chain nor has such a cell. -/
theorem Rep.insert_at (hr : Rep m L) (hL : L h = some (as ++ ys)) (hnew : ∀ h', ¬ On L n h') (halloc : m.nodeAlloc n = true) :
    Rep (inserted m (endCell .next (.first h) as) n) (Function.update L h (some (as ++ n :: ys))) ∧
    ∀ x, Known m L x ∨ x = n → Known (inserted m (endCell .next (.first h) as) n)
      (Function.update L h (some (as ++ n :: ys))) x := by
  have hnot : n ∉ as ++ ys := fun hmem => hnew h ⟨_, hL, hmem⟩
  have hi : Inserted m (inserted m (endCell .next (.first h) as) n) (endCell .next (.first h) as) n := by
    apply inserted_spec
    · exact fun e => hnot (mem_append_left _ (end_eq_next e))
    · intro e
      rw [(hr.chain h _ hL).rest.cell_eq] at e
      exact hnot (mem_append_right _ (mem_of_mem_head? e))
  exact ⟨hr.insert hL hnew hi halloc, fun x hx => hr.insert_known hL hi hx⟩

/-- The outcome of an operation on the memory. -/
def Done (m : Mem H N) (L L' : Lists H N) (node : Option N) (m' : Mem H N) : Prop :=
  Rep m' L' ∧ ∀ x, Known m L x ∨ node = some x → Known m' L' x

theorem Rep.insert_done (hr : Rep m L) (hL : L h = some (as ++ ys)) (hnew : ∀ h', ¬ On L n h') (halloc : m.nodeAlloc n = true) :
    Done m L (Function.update L h (some (as ++ n :: ys))) (some n) (inserted m (endCell .next (.first h) as) n) := by
  obtain ⟨hrep, hknown⟩ := hr.insert_at hL hnew halloc
  exact ⟨hrep, fun x hx => hknown x (hx.imp_right fun e => (Option.some.inj e).symm)⟩

theorem Rep.addHead (hr : Rep m L) (hL : L h = some xs) (hnew : ∀ h', ¬ On L n h') (halloc : m.nodeAlloc n = true) :
    Returns (mghlistAddHead (some n) (some h)) m fun _ m' =>
      Done m L (Function.update L h (some (n :: xs))) (some n) m' := by
  have hhead := hr.head h _ hL
  have hfirst : ∀ y, m.cell (.first h) = some y → m.nodeAlloc y = true := by
    intro y hy
    rw [(hr.chain h _ hL).cell_eq] at hy
    exact hr.node h _ hL y (mem_of_mem_head? hy)
  have hdone := hr.insert_done (show L h = some ([] ++ xs) from hL) hnew halloc
  unfold mghlistAddHead
  simp only [returns_bind, returns_firstOf, returns_setNext, nextCell_some]
  refine ⟨hhead, halloc, ?_⟩
  rw [returns_setBack]
  · simp only [returns_bind, returns_setFirst, returns_setPprev, firstCell_some]
    exact ⟨hhead, halloc, hdone⟩
  · exact hfirst

theorem Rep.addBefore (hr : Rep m L) (hx : On L x h) (hnew : ∀ h', ¬ On L n h') (halloc : m.nodeAlloc n = true) :
    Returns (mghlistAddBefore (some n) (some x)) m fun _ m' =>
      Done m L (fun h' => (L h').map (insertBefore n x)) (some n) m' := by
  obtain ⟨as, ys, hL, has, hys, hback, hcell, hnext⟩ := hr.split hx
  obtain ⟨c, hc, hhas⟩ := hr.pprev_isSome hx
  rw [hback, Option.some.injEq] at hc
  have hxn : n ≠ x := fun e => hnew h (e ▸ hx)
  have hxalloc : m.nodeAlloc x = true := hr.node h _ hL x (by simp)
  have hdone := hr.insert_done hL hnew halloc
  rw [hr.map_eq hL (by simp) fun ys => insertBefore_of_notMem, insertBefore_split has]
  unfold mghlistAddBefore
  simp only [returns_bind, returns_pprevOf, returns_setPprev, returns_setNext, nextCell_some, hback,
    Function.update_of_ne hxn, Function.update_self, returns_setCell]
  refine ⟨hxalloc, halloc, halloc, hxalloc, halloc, hc ▸ hhas, ?_⟩
  unfold inserted at hdone
  rwa [hcell, setBack, Function.update_comm hxn.symm] at hdone

theorem Rep.addAfter (hr : Rep m L) (hx : On L x h) (hnew : ∀ h', ¬ On L n h') (halloc : m.nodeAlloc n = true) :
    Returns (mghlistAddAfter (some x) (some n)) m fun _ m' =>
      Done m L (fun h' => (L h').map (insertAfter n x)) (some n) m' := by
  obtain ⟨as, ys, hL, has, hys, hback, hcell, hnext⟩ := hr.split hx
  have hxn : n ≠ x := fun e => hnew h (e ▸ hx)
  have hnode := hr.node h _ hL
  have hxalloc : m.nodeAlloc x = true := hnode x (by simp)
  have hcells : (Cell.next n : Cell H N) ≠ .next x := fun e => hxn (Cell.next.inj e)
  have hfirst : ∀ y, m.cell (.next x) = some y → m.nodeAlloc y = true := by
    intro y hy
    rw [hnext] at hy
    exact hnode y (mem_append_right _ (mem_cons_of_mem x (mem_of_mem_head? hy)))
  have hdone := hr.insert_done (show L h = some ((as ++ [x]) ++ ys) by rw [hL, append_assoc]; rfl) hnew halloc
  rw [endCell_concat, append_assoc] at hdone
  rw [hr.map_eq hL (by simp) fun ys => insertAfter_of_notMem, insertAfter_split has]
  unfold mghlistAddAfter
  simp only [returns_bind, returns_nextOf, returns_setPprev, returns_setNext, nextCell_some, Function.update_self,
    Function.update_of_ne hcells]
  refine ⟨hxalloc, halloc, hxalloc, halloc, halloc, ?_⟩
  unfold inserted at hdone
  cases hy : m.cell (.next x) with
  | none =>
    rw [hy] at hdone
    simpa [setBack] using hdone
  | some y =>
    -- the write to `y` comes last here
    have hny : n ≠ y := fun e => hnew h ⟨_, hL, e ▸ mem_append_right _ (mem_cons_of_mem x (mem_of_mem_head? (hnext ▸ hy)))⟩
    rw [hy, setBack, Function.update_comm hny.symm] at hdone
    simp only [Option.isSome_some, if_true, returns_bind, returns_nextOf, Function.update_of_ne hcells, Function.update_self,
      returns_setPprev]
    exact ⟨halloc, hfirst y hy, hdone⟩

/-- What the removal of `x` leaves in the memory, with the fields of `x` set to NULL. -/
def removed (m : Mem H N) (d : Cell H N) (x : N) : Mem H N :=
  { m with
    cell := Function.update (Function.update m.cell d (m.cell (.next x))) (.next x) none
    pprev := Function.update (setBack m.pprev (m.cell (.next x)) d) x none }

theorem removed_spec {d : Cell H N} (hd : d ≠ .next x) (hx : m.cell (.next x) ≠ some x) : Removed m (removed m d x) d x where
  leads := (Function.update_of_ne hd _ _).trans (Function.update_self ..)
  after y hy := (Function.update_of_ne (fun (e : y = x) => hx (e ▸ hy)) _ _).trans (setBack_self hy)
  unhashed := Function.update_self ..
  cells _ hc hcx := (Function.update_of_ne hcx _ _).trans (Function.update_of_ne hc _ _)
  backs _ hy hxy := (Function.update_of_ne hy _ _).trans (setBack_of_ne hxy)
  heads := rfl
  nodes := rfl

/-- `__mghlist_del`, and the fields of the node set to NULL. -/
theorem Rep.unlink (hr : Rep m L) (hx : On L x h) :
    Returns (do mghlistUnlink (some x); setNext (some x) none; setPprev (some x) none) m fun _ m' =>
      Done m L (fun h' => (L h').map (·.erase x)) (some x) m' := by
  obtain ⟨as, ys, hL, has, hys, hback, hcell, hnext⟩ := hr.split hx
  obtain ⟨c, hc, hhas⟩ := hr.pprev_isSome hx
  rw [hback, Option.some.injEq] at hc
  have hnode := hr.node h _ hL
  have hxalloc : m.nodeAlloc x = true := hnode x (by simp)
  have hrest : ∀ y, m.cell (.next x) = some y → y ∈ ys := fun y hy => mem_of_mem_head? (hnext ▸ hy)
  have hspec : Removed m (removed m (endCell .next (.first h) as) x) (endCell .next (.first h) as) x :=
    removed_spec (fun e => has (end_eq_next e)) fun e => hys (hrest x e)
  have herase : (as ++ x :: ys).erase x = as ++ ys := by
    rw [erase_append_right _ has, erase_cons_head]
  rw [hr.map_eq hL (by simp) fun ys => erase_of_not_mem, herase]
  unfold mghlistUnlink
  simp only [returns_bind, returns_nextOf, returns_pprevOf, hback, returns_setCell]
  refine ⟨hxalloc, hxalloc, hc ▸ hhas, ?_⟩
  have hdone : Done m L (Function.update L h (some (as ++ ys))) (some x) (removed m (endCell .next (.first h) as) x) := by
    refine ⟨hr.remove hL hspec, fun y hy => ?_⟩
    rcases hy with hy | hy
    · exact hr.remove_known hL hspec hy
    · exact .inr (Option.some.inj hy ▸ hspec.unhashed)
  unfold removed at hdone
  cases hy : m.cell (.next x) with
  | none => simpa [hxalloc, hy, setBack] using hdone
  | some y => simpa [hxalloc, hnode y (mem_append_right _ (mem_cons_of_mem x (hrest y hy))), hy, setBack] using hdone

theorem Rep.del (hr : Rep m L) (hx : On L x h) : Returns (mghlistDel (some x)) m fun _ m' =>
    Done m L (fun h' => (L h').map (·.erase x)) (some x) m' := hr.unlink hx

theorem Rep.delInit (hr : Rep m L) (halloc : m.nodeAlloc x = true) (hx : Known m L x) :
    Returns (mghlistDelInit (some x)) m fun _ m' => Done m L (fun h' => (L h').map (·.erase x)) (some x) m' := by
  unfold mghlistDelInit mghlistUnhashed initMgHlistNode
  simp only [returns_bind, returns_pprevOf, returns_pure]
  refine ⟨halloc, ?_⟩
  by_cases hon : ∃ h, On L x h
  · obtain ⟨h, hx⟩ := hon
    obtain ⟨c, hc, -⟩ := hr.pprev_isSome hx
    have hunlink := hr.unlink hx
    rw [returns_bind] at hunlink
    simpa [hc] using hunlink
  · -- nothing is done to a node that is on no chain
    have hnull := hx.resolve_left hon
    have hsame : (fun h' => (L h').map (·.erase x)) = L := by
      funext h'
      cases hh : L h' with
      | none => rfl
      | some xs => rw [Option.map_some, erase_of_not_mem fun hmem => hon ⟨h', xs, hh, hmem⟩]
    rw [hsame, hnull]
    simp only [Option.isNone_none, not_true_eq_false, if_false, returns_pure]
    refine ⟨hr, fun y hy => hy.elim id fun e => ?_⟩
    exact Option.some.inj e ▸ hx

/-- The chain of `old` hung on `new`. -/
def moved (m : Mem H N) (old new : H) : Mem H N :=
  { m with
    cell := Function.update (Function.update m.cell (.first new) (m.cell (.first old))) (.first old) none
    pprev := setBack m.pprev (m.cell (.first old)) (.first new) }

theorem moved_next (old new : H) : (moved m old new).cell (.next y) = m.cell (.next y) := by
  unfold moved
  simp only [update_first_next]

section
variable {old new : H} (hr : Rep m L) (hL : L old = some xs) (hnew : L new = some [])
include hr hL hnew

omit [DecidableEq H] [DecidableEq N] in
/-- What is on a chain that is moved is on no chain that is not. -/
theorem Rep.moved_only (hy : m.cell (.first old) = some y) : y ∈ xs ∧ old ≠ new := by
  rw [(hr.chain old _ hL).cell_eq] at hy
  have hmem := mem_of_mem_head? hy
  refine ⟨hmem, fun e => ?_⟩
  rw [← e, hL, Option.some.injEq] at hnew
  exact not_mem_nil (hnew ▸ hmem)

theorem Rep.moved_chain : BackChain .next (moved m old new).cell (moved m old new).pprev (.first new) xs := by
  have hchain := hr.chain old _ hL
  have hnd := hr.nodup hL
  refine hchain.rehang ?_ (fun y hy => setBack_self (hchain.cell_eq.trans hy)) (fun y _ => ?_) fun y hy => ?_
  · by_cases he : old = new
    · -- only an empty chain is moved to its own head
      have hnil : xs = [] := Option.some.inj (hL.symm.trans (he ▸ hnew))
      rw [hnil, ← he]
      exact Function.update_self ..
    · refine (Function.update_of_ne (fun e => he (Cell.first.inj e).symm) _ _).trans ?_
      exact (Function.update_self ..).trans hchain.cell_eq
  · exact moved_next old new
  · refine setBack_of_ne fun e => ?_
    rw [hchain.cell_eq] at e
    cases xs with
    | nil => cases e
    | cons w ws =>
      cases e
      exact (nodup_cons.1 hnd).1 hy

theorem Rep.moved : Rep (moved m old new) (Function.update (Function.update L new (some xs)) old (some [])) := by
  have hfirst : Rep (Mghlist.moved m old new) (Function.update (Function.update L old none) new (some xs)) := by
    refine (hr.forget (h := old)).edit (hr.head new _ hnew) rfl rfl (hr.moved_chain hL hnew) (hr.node old _ hL)
      (fun h' ws hne hws => ?_) fun y h' _ hy => ?_
    · have hold : h' ≠ old := fun e => by
        rw [e, Function.update_self] at hws
        cases hws
      refine (Function.update_of_ne (fun e => hold (Cell.first.inj e)) _ _).trans ?_
      exact Function.update_of_ne (fun e => hne (Cell.first.inj e)) _ _
    · refine ⟨moved_next old new, setBack_of_ne fun e => ?_⟩
      -- the first node of `old` is on no other chain
      obtain ⟨hmem, -⟩ := hr.moved_only hL hnew e
      obtain ⟨ws, hws, hy⟩ := hy
      have hold : h' ≠ old := fun e => by
        rw [e, Function.update_self] at hws
        cases hws
      rw [Function.update_of_ne hold] at hws
      exact hold (hr.apart ⟨ws, hws, hy⟩ ⟨xs, hL, hmem⟩)
  have hlists : Function.update (Function.update (Function.update L old none) new (some xs)) old (some []) =
      Function.update (Function.update L new (some xs)) old (some []) := by
    by_cases he : new = old
    · rw [he, Function.update_idem, Function.update_idem, Function.update_idem]
    · rw [Function.update_comm he, Function.update_idem, Function.update_comm (Ne.symm he)]
  rw [← hlists]
  refine hfirst.edit (hr.head old _ hL) rfl rfl (Function.update_self ..) nofun (fun _ _ _ _ => rfl) fun _ _ _ _ => ⟨rfl, rfl⟩

theorem Rep.moved_known (hx : Known m L x) :
    Known (Mghlist.moved m old new) (Function.update (Function.update L new (some xs)) old (some [])) x := by
  have hon : x ∈ xs → old ≠ new → On (Function.update (Function.update L new (some xs)) old (some [])) x new := by
    intro hmem hne
    exact ⟨xs, by rw [Function.update_of_ne hne.symm, Function.update_self], hmem⟩
  rcases hx with ⟨h', ys, hys, hmem⟩ | hx
  · have hne : h' ≠ new := by
      rintro rfl
      rw [hnew, Option.some.injEq] at hys
      exact not_mem_nil (hys ▸ hmem)
    by_cases he : h' = old
    · rw [he, hL, Option.some.injEq] at hys
      exact .inl ⟨new, hon (hys ▸ hmem) (he ▸ hne)⟩
    · exact .inl ⟨h', ys, by rw [Function.update_of_ne he, Function.update_of_ne hne, hys], hmem⟩
  · by_cases hfirst : m.cell (.first old) = some x
    · obtain ⟨hmem, hne⟩ := hr.moved_only hL hnew hfirst
      exact .inl ⟨new, hon hmem hne⟩
    · exact .inr ((setBack_of_ne hfirst).trans hx)

theorem Rep.moveList : Returns (mghlistMoveList (some old) (some new)) m fun _ m' =>
    Done m L (Function.update (Function.update L new (some xs)) old (some [])) none m' := by
  have hdone : Done m L (Function.update (Function.update L new (some xs)) old (some [])) none (Mghlist.moved m old new) :=
    ⟨hr.moved hL hnew, fun x hx => hr.moved_known hL hnew (hx.resolve_right nofun)⟩
  have hold := hr.head old _ hL
  have hnewAlloc := hr.head new _ hnew
  unfold Mghlist.moved at hdone
  unfold mghlistMoveList
  simp only [returns_bind, returns_firstOf, returns_setFirst, Function.update_self]
  refine ⟨hold, hnewAlloc, hnewAlloc, ?_⟩
  cases hy : m.cell (.first old) with
  | none =>
    rw [hy] at hdone
    simpa [setBack, hold] using hdone
  | some y =>
    rw [hy] at hdone
    simpa [setBack, hold, hnewAlloc, hr.node old _ hL y (hr.moved_only hL hnew hy).1] using hdone

end

theorem Rep.initHead (hr : Rep m L) (halloc : m.headAlloc h = true) (hL : L h = none ∨ L h = some []) :
    Returns (initMgHlistHead (some h)) m fun _ m' => Done m L (Function.update L h (some [])) none m' := by
  unfold initMgHlistHead
  rw [returns_setFirst]
  refine ⟨halloc, hr.edit halloc rfl rfl (Function.update_self ..) nofun (fun h' _ hne _ => ?_) (fun y h' _ _ => ?_), fun x hx => ?_⟩
  · exact Function.update_of_ne (fun e => hne (Cell.first.inj e)) _ _
  · exact ⟨update_first_next m.cell h none y, rfl⟩
  · refine (hx.resolve_right nofun).imp (fun ⟨h', xs, hxs, hmem⟩ => ⟨h', xs, ?_, hmem⟩) id
    rw [Function.update_of_ne, hxs]
    rintro rfl
    rcases hL with hL | hL
    · rw [hL] at hxs
      cases hxs
    · rw [hL, Option.some.injEq] at hxs
      exact not_mem_nil (hxs ▸ hmem)

omit [DecidableEq H] [DecidableEq N] in
/-- Writing a node that is on no chain. -/
theorem Rep.write_free (hr : Rep m L) (hx : ∀ h, ¬ On L x h) (hhead : m'.headAlloc = m.headAlloc)
    (hnode : m'.nodeAlloc = m.nodeAlloc) (hcell : ∀ c, c ≠ .next x → m'.cell c = m.cell c)
    (hback : ∀ y, y ≠ x → m'.pprev y = m.pprev y) : Rep m' L := by
  have hne : ∀ h xs, L h = some xs → ∀ y ∈ xs, y ≠ x := fun h xs hL y hy e => hx h ⟨xs, hL, e ▸ hy⟩
  refine ⟨fun h xs hL => ?_, fun h xs hL => hhead ▸ hr.head h xs hL, fun h xs hL => hnode ▸ hr.node h xs hL⟩
  refine (hr.chain h xs hL).congr (hcell _ (first_ne_next x)) fun y hy => ?_
  exact ⟨hcell _ fun e => hne h xs hL y hy (Cell.next.inj e), hback y (hne h xs hL y hy)⟩

theorem Rep.initNode (hr : Rep m L) (halloc : m.nodeAlloc x = true) (hx : ∀ h, ¬ On L x h) :
    Returns (initMgHlistNode (some x)) m fun _ m' => Done m L L (some x) m' := by
  unfold initMgHlistNode
  simp only [returns_bind, returns_setNext, returns_setPprev]
  refine ⟨halloc, halloc, hr.write_free hx rfl rfl (fun c hc => Function.update_of_ne hc _ _)
    (fun y hy => Function.update_of_ne hy _ _), fun y hy => ?_⟩
  by_cases he : y = x
  · exact .inr (he ▸ Function.update_self ..)
  · exact (hy.resolve_right fun e => he (Option.some.inj e).symm).imp_right fun hnull => (Function.update_of_ne he _ _).trans hnull

/-! ## Runs -/

/-- One call keeps the chains well formed and does to them what it does to the sequences. -/
theorem Rep.exec (hr : Rep m L) {op : Op H N} (hpre : op.Pre m L) : Returns op.exec m fun _ m' =>
    Done m L (op.apply L) op.node m' := by
  cases op with
  | initHead ptr => exact hr.initHead hpre.1 hpre.2
  | initNode n => exact hr.initNode hpre.1 hpre.2
  | addHead n h =>
    obtain ⟨⟨halloc, hnew⟩, xs, hL⟩ := hpre
    simp only [Op.apply, hL, Option.map_some]
    exact hr.addHead hL hnew halloc
  | addBefore n next =>
    obtain ⟨⟨halloc, hnew⟩, h, hx⟩ := hpre
    exact hr.addBefore hx hnew halloc
  | addAfter n next =>
    obtain ⟨⟨halloc, hnew⟩, h, hx⟩ := hpre
    exact hr.addAfter hx hnew halloc
  | del n =>
    obtain ⟨h, hx⟩ := hpre
    exact hr.del hx
  | delInit n => exact hr.delInit hpre.1 hpre.2
  | moveList old new =>
    obtain ⟨⟨xs, hL⟩, hnew⟩ := hpre
    simp only [Op.apply, hL]
    exact hr.moveList hL hnew

omit [DecidableEq H] [DecidableEq N] in
/-- The visits of a traversal that still has `xs` before it. -/
theorem returns_forEach {c : Cell H N} (hchain : BackChain .next m.cell m.pprev c xs)
    (halloc : ∀ x ∈ xs, m.nodeAlloc x = true) : ∀ fuel visited, xs.length < fuel →
      Returns (loop forEachRound fuel (xs.head?, visited)) m fun v m' => v = visited ++ xs.map some ∧ m' = m := by
  induction xs generalizing c with
  | nil =>
    intro fuel visited hf
    obtain ⟨fuel, rfl⟩ : ∃ k, fuel = k + 1 := ⟨fuel - 1, by omega⟩
    rw [returns_loop_succ]
    simp [forEachRound]
  | cons x xs ih =>
    intro fuel visited hf
    obtain ⟨fuel, rfl⟩ : ∃ k, fuel = k + 1 := ⟨fuel - 1, by omega⟩
    rw [forall_mem_cons] at halloc
    rw [length_cons] at hf
    rw [returns_loop_succ, head?_cons]
    simp only [forEachRound, Option.isSome_some, if_true, returns_bind, returns_nextOf, returns_pure]
    refine ⟨halloc.1, ?_⟩
    rw [hchain.2.2.cell_eq]
    refine (ih hchain.2.2 halloc.2 fuel _ (by omega)).mono fun v m' h => ?_
    rw [h.1, map_cons, append_assoc]
    exact ⟨rfl, h.2⟩

/-- What the chains answer: the traversal of every head, and the tests. -/
structure Reads (m : Mem H N) (L : Lists H N) : Prop where
  forEach : ∀ h xs, L h = some xs → Finishes (mghlistForEach · (some h)) m fun v m' => v = xs.map some ∧ m' = m
  empty : ∀ h xs, L h = some xs → Returns (mghlistEmpty (some h)) m fun b m' => b = decide (xs = []) ∧ m' = m
  unhashed : ∀ n, m.nodeAlloc n = true → Known m L n →
    Returns (mghlistUnhashed (some n)) m fun b m' => (b = true ↔ ∀ h, ¬ On L n h) ∧ m' = m

omit [DecidableEq H] [DecidableEq N] in
theorem Rep.reads (hr : Rep m L) : Reads m L := by
  refine ⟨fun h xs hL => ?_, fun h xs hL => ?_, fun n halloc hn => ?_⟩
  · refine Finishes.of_lt (n := xs.length) fun fuel hf => ?_
    unfold mghlistForEach
    rw [returns_bind, returns_firstOf, (hr.chain h xs hL).cell_eq]
    exact ⟨hr.head h xs hL, returns_forEach (hr.chain h xs hL) (hr.node h xs hL) fuel [] hf⟩
  · unfold mghlistEmpty
    simp only [returns_bind, returns_firstOf, returns_pure, (hr.chain h xs hL).cell_eq]
    refine ⟨hr.head h xs hL, ?_, trivial⟩
    cases xs <;> simp
  · unfold mghlistUnhashed
    simp only [returns_bind, returns_pprevOf, returns_pure]
    refine ⟨halloc, ?_, trivial⟩
    rw [Option.isNone_iff_eq_none]
    constructor
    · intro hnull h hx
      obtain ⟨c, hc, -⟩ := hr.pprev_isSome hx
      rw [hnull] at hc
      cases hc
    · intro hoff
      exact hn.resolve_left (not_exists.2 hoff)

/-- A call on the memory, and the operation on the sequences beside it. -/
def step : Mem H N × Lists H N → Op H N → Option (Except Fault (Mem H N × Lists H N))
  | (m, L), op =>
    match op.exec m with
    | .ok (_, m') => some (.ok (m', op.apply L))
    | .error e => some (.error e)

/-- From any memory that holds `L₀` as chains, after any run of calls: the chains are those of the sequences that the
operations give, a head is traversed as its sequence, and a node that was on a chain, had no back link or was an operation's
is unhashed exactly if it is on no chain. Each call that is allowed returns. -/
theorem mghlist_refines {m₀ : Mem H N} {L₀ : Lists H N} (hr : Rep m₀ L₀) {ops : List (Op H N)}
    (hrun : Run step (fun s op => op.Pre s.1 s.2) (m₀, L₀) ops (m, L)) :
    L = ops.foldl Op.apply L₀ ∧ Rep m L ∧ Reads m L ∧
    (∀ n, Known m₀ L₀ n ∨ (∃ op ∈ ops, op.node = some n) → Known m L n) ∧
    ∀ op : Op H N, op.Pre m L → Returns op.exec m fun _ m' =>
      Rep m' (op.apply L) ∧ step (m, L) op = some (.ok (m', op.apply L)) := by
  obtain ⟨hrep, hknown⟩ : Rep m L ∧ ∀ n, Known m₀ L₀ n ∨ (∃ op ∈ ops, op.node = some n) → Known m L n := by
    refine hrun.inv_past (fun ops s => Rep s.1 s.2 ∧ ∀ n, Known m₀ L₀ n ∨ (∃ op ∈ ops, op.node = some n) → Known s.1 s.2 n)
      ⟨hr, fun n hn => hn.resolve_right (by simp)⟩ fun past s op u hs hpre hu => ?_
    obtain ⟨_, m', hexec, hrep, hkeep⟩ := hs.1.exec hpre
    rw [step, hexec] at hu
    cases hu
    refine ⟨hrep, fun n hn => hkeep n ?_⟩
    rcases hn with hn | ⟨op', hop', hn⟩
    · exact .inl (hs.2 n (.inl hn))
    · rcases mem_append.1 hop' with hop' | hop'
      · exact .inl (hs.2 n (.inr ⟨op', hop', hn⟩))
      · exact .inr (mem_singleton.1 hop' ▸ hn)
  refine ⟨hrun.foldl Prod.snd Op.apply fun s op u _ hu => ?_, hrep, hrep.reads, hknown, fun op hpre => ?_⟩
  · obtain ⟨m, L⟩ := s
    rw [step] at hu
    split at hu <;> cases hu
    rfl
  · obtain ⟨a, m', hexec, hrep', -⟩ := hrep.exec hpre
    exact ⟨a, m', hexec, hrep', by rw [step, hexec]⟩

/-! ## A run -/

instance (L : Lists H N) (x : N) (h : H) : Decidable (On L x h) :=
  decidable_of_iff (x ∈ (L h).getD []) (by
    unfold On
    cases L h with
    | none => simp
    | some xs => simp)

section
variable {k n : Nat} (m : Mem (Fin k) (Fin n)) (L : Lists (Fin k) (Fin n))

instance (x : Fin n) : Decidable (Known m L x) := inferInstanceAs (Decidable ((∃ h, On L x h) ∨ m.pprev x = none))

instance decidableHeads (h : Fin k) : Decidable (∃ xs, L h = some xs) :=
  decidable_of_iff ((L h).isSome = true) Option.isSome_iff_exists

instance (op : Op (Fin k) (Fin n)) : Decidable (op.Pre m L) := by
  cases op <;> unfold Op.Pre <;> infer_instance

end

/-- Two heads; nodes go to every place, the first and the last are deleted and the rest moves to the other head. -/
def testOps : List (Op (Fin 2) (Fin 6)) :=
  [.initHead 0, .initHead 1, .addHead 0 0, .addHead 1 0, .addBefore 2 1, .addAfter 0 3, .del 2, .delInit 3, .delInit 3,
    .moveList 0 1, .addAfter 0 4]

def blank : Mem (Fin 2) (Fin 6) := ⟨fun _ => true, fun _ => true, fun _ => none, fun _ => none⟩

omit [DecidableEq H] [DecidableEq N] in
theorem rep_none (m : Mem H N) : Rep m fun _ => none := ⟨nofun, nofun, nofun⟩

theorem mghlist_refines_test : ∃ m L, Run step (fun s op => op.Pre s.1 s.2) (blank, fun _ => none) testOps (m, L) ∧
    Finishes (mghlistForEach · (some (1 : Fin 2))) m (fun v m' => v = [some 1, some 0, some 4] ∧ m' = m) ∧
    Returns (mghlistEmpty (some (0 : Fin 2))) m (fun b m' => b = true ∧ m' = m) ∧ Known m L 3 := by
  obtain ⟨⟨m, L⟩, hs, hL⟩ : ∃ s, exec step (fun s op => decide (op.Pre s.1 s.2)) (blank, fun _ => none) testOps = some s ∧
      s.2 0 = some [] ∧ s.2 1 = some [1, 0, 4] := ⟨_, rfl, rfl, rfl⟩
  have hrun := run_of_exec (fun _ _ h => of_decide_eq_true h) hs
  obtain ⟨-, -, hreads, hknown, -⟩ := mghlist_refines (rep_none blank) hrun
  exact ⟨m, L, hrun, hreads.forEach 1 _ hL.2, hreads.empty 0 _ hL.1, hknown 3 (.inl (.inr rfl))⟩

end MgStd.Mghlist
