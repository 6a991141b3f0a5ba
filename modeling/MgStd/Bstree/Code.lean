import MgStd.Lib.Links
/-!
# mgbstree.c

The functions of `mgbstree.c` over a heap of nodes. The recursions and the
loops have `fuel` rounds.

`mg_Bstree_insert` has no `return` after it linked the node, so that its caller
has a value only when the key is there (or the root is NULL).
-/

namespace MgStd.Bstree

open MgStd.Lib

/-- `MG_BS_TREE`: a node has no label. -/
abbrev MgBsTree (A : Type) := Node A Unit

abbrev TreeProg (A α : Type) := Prog (Heap A (MgBsTree A)) α

variable {A : Type} [DecidableEq A]

def mgBstreeInitNode (node : Ptr A) (cmp : A → A → Int) : TreeProg A Unit :=
  store node fun _ => ⟨(), none, none, none, cmp⟩

/-- The child's own link to its parent is not written; without a parent only the parameter is. -/
def mgBstreeSetParentChild (node child : Ptr A) : TreeProg A Unit := do
  if (← parentOf node) = none then pure ()
  else if node = (← lchildOf (← parentOf node)) then setLchild (← parentOf node) child
  else setRchild (← parentOf node) child

/-! ## Insertion -/

def mgBstreeInsertRight (root right : Ptr A) : TreeProg A Unit := do
  setRchild root right
  setParent right root

def mgBstreeInsertLeft (root left : Ptr A) : TreeProg A Unit := do
  setLchild root left
  setParent left root

def mgBstreeInsert : Nat → Ptr A → Ptr A → TreeProg A (Returned Int)
  | 0, _, _ => fault .fuel
  | fuel + 1, root, node => do
    if node = none then pure (some 0)
    else if root = none then do
      mgBstreeInitNode node (← load node).cmp_func
      pure (some 1)
    else do
      let cmp_result ← callCmp root node
      if cmp_result < 0 then do
        if (← rchildOf root) = none then do
          mgBstreeInsertRight root node
          pure none
        else do mgBstreeInsert fuel (← rchildOf root) node
      else if 0 < cmp_result then do
        if (← lchildOf root) = none then do
          mgBstreeInsertLeft root node
          pure none
        else do mgBstreeInsert fuel (← lchildOf root) node
      else pure (some 0)

/-! ## Deletion -/

def leftRound : Ptr A → TreeProg A (Ptr A ⊕ Ptr A)
  | tmp => do
    if tmp ≠ none then pure (.inl (← lchildOf tmp)) else pure (.inr tmp)

def mgBstreeDel (fuel : Nat) (root node : Ptr A) : TreeProg A Unit := do
  if root = none ∨ node = none then pure ()
  else if (← lchildOf node) = none ∨ (← rchildOf node) = none then do
    if (← lchildOf node) ≠ none then mgBstreeSetParentChild node (← lchildOf node)
    else if (← rchildOf node) ≠ none then mgBstreeSetParentChild node (← rchildOf node)
    else mgBstreeSetParentChild node none
  else do
    let tmp ← rchildOf node
    mgBstreeSetParentChild node (← rchildOf node)
    let tmp ← loop leftRound fuel (← lchildOf tmp)
    setLchild (← parentOf tmp) (← lchildOf node)

/-! ## Search -/

def searchRound (node : Ptr A) : Ptr A → TreeProg A (Ptr A ⊕ Ptr A)
  | p => do
    if p = none then pure (.inr p)
    else do
      let cmp_result ← callCmp p node
      if cmp_result = 0 then pure (.inr p)
      else if 0 < cmp_result then pure (.inl (← lchildOf p))
      else pure (.inl (← rchildOf p))

def mgBstreeSearch (fuel : Nat) (root node : Ptr A) : TreeProg A (Ptr A) := loop (searchRound node) fuel root

/-- `*result` goes in, and comes out. -/
def mgBstreeSearchRecursive : Nat → Ptr A → Ptr A → Ptr A → TreeProg A (Ptr A)
  | 0, _, _, _ => fault .fuel
  | fuel + 1, root, node, result => do
    if root ≠ none then do
      let cmp_result ← callCmp root node
      if cmp_result = 0 then pure root
      else if 0 < cmp_result then do mgBstreeSearchRecursive fuel (← lchildOf root) node result
      else do mgBstreeSearchRecursive fuel (← rchildOf root) node result
    else pure result

/-! ## Visits

`op_func` works on the memory at `arg`, the second component of the state. -/

section
variable {σ : Type}

def onTree {α : Type} (m : TreeProg A α) : Prog (Heap A (MgBsTree A) × σ) α := zoom Prod.fst (fun h s => (h, s.2)) m

def onArg {α : Type} (m : Prog σ α) : Prog (Heap A (MgBsTree A) × σ) α := zoom Prod.snd (fun t s => (s.1, t)) m

def mgBstreeVisitLMR (op_func : Ptr A → Prog σ Unit) : Nat → Ptr A → Prog (Heap A (MgBsTree A) × σ) Unit
  | 0, _ => fault .fuel
  | fuel + 1, root => do
    if root ≠ none then do
      mgBstreeVisitLMR op_func fuel (← onTree (lchildOf root))
      onArg (op_func root)
      mgBstreeVisitLMR op_func fuel (← onTree (rchildOf root))
    else pure ()

/-- A macro of the header. -/
abbrev mgBstreeVisit (op_func : Ptr A → Prog σ Unit) (fuel : Nat) (root : Ptr A) : Prog (Heap A (MgBsTree A) × σ) Unit :=
  mgBstreeVisitLMR op_func fuel root

def mgBstreeVisitMLR (op_func : Ptr A → Prog σ Unit) (fuel : Nat) (root : Ptr A) : Prog (Heap A (MgBsTree A) × σ) Unit := do
  if root ≠ none then do
    onArg (op_func root)
    mgBstreeVisit op_func fuel (← onTree (lchildOf root))
    mgBstreeVisit op_func fuel (← onTree (rchildOf root))
  else pure ()

def mgBstreeVisitLRM (op_func : Ptr A → Prog σ Unit) (fuel : Nat) (root : Ptr A) : Prog (Heap A (MgBsTree A) × σ) Unit := do
  if root ≠ none then do
    mgBstreeVisit op_func fuel (← onTree (lchildOf root))
    mgBstreeVisit op_func fuel (← onTree (rchildOf root))
    onArg (op_func root)
  else pure ()

end

end MgStd.Bstree
