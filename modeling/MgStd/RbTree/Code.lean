import MgStd.Lib.Links
/-!
# mgrbtree.c

The functions of `mgrbtree.c` over a heap of nodes. Each `while` loop is a
`loop` whose body is the body of the C loop; `fuel` bounds its rounds.
-/

namespace MgStd.RbTree

open MgStd.Lib

inductive MgrbtreeColor where
  | mgBlack
  | mgRed
  deriving DecidableEq, Repr

/-- `mgrbtree_t`: the label of a node is its colour. -/
abbrev MgrbtreeT (A : Type) := Node A MgrbtreeColor

abbrev TreeProg (A α : Type) := Prog (Heap A (MgrbtreeT A)) α

variable {A : Type} [DecidableEq A]

def mgrbtreeInit (node : Ptr A) (cmp_func : A → A → Int) : TreeProg A Unit :=
  store node fun _ => ⟨.mgBlack, none, none, none, cmp_func⟩

/-- `MG_RBTREE_IS_LCHILD` -/
def isLchild (node : Ptr A) : TreeProg A Bool := do
  let parent ← parentOf node
  if parent = none then pure false else pure (decide ((← lchildOf parent) = node))

/-- `MG_RBTREE_IS_RCHILD` -/
def isRchild (node : Ptr A) : TreeProg A Bool := do
  let parent ← parentOf node
  if parent = none then pure false else pure (decide ((← rchildOf parent) = node))

/-- `p && p->color == mg_red` -/
def isRed (p : Ptr A) : TreeProg A Bool := do
  if p = none then pure false else pure (decide ((← dataOf p) = .mgRed))

/-- `!p || p->color == mg_black` -/
def isBlack (p : Ptr A) : TreeProg A Bool := do
  if p = none then pure true else pure (decide ((← dataOf p) = .mgBlack))

/-! ## Rotations -/

def mgrbtreeLeftRote (root node : Ptr A) : TreeProg A (Ptr A) := do
  if node = none then pure root
  else if (← rchildOf node) = none then pure root
  else do
    let rchild ← rchildOf node
    setRchild node (← lchildOf rchild)
    let m ← lchildOf rchild
    whenNode m (setParent m node)
    setParent rchild (← parentOf node)
    let root ←
      if (← parentOf node) = none then do
        setParent rchild none
        pure rchild
      else do
        if ← isLchild node then do
          setLchild (← parentOf node) rchild
          pure root
        else do
          setRchild (← parentOf node) rchild
          pure root
    setLchild rchild node
    setParent node rchild
    pure root

def mgrbtreeRightRote (root node : Ptr A) : TreeProg A (Ptr A) := do
  if node = none then pure root
  else if (← lchildOf node) = none then pure root
  else do
    let lchild ← lchildOf node
    setLchild node (← rchildOf lchild)
    let m ← rchildOf lchild
    whenNode m (setParent m node)
    setParent lchild (← parentOf node)
    let root ←
      if (← parentOf node) = none then pure lchild
      else do
        if ← isLchild node then do
          setLchild (← parentOf node) lchild
          pure root
        else do
          setRchild (← parentOf node) lchild
          pure root
    setRchild lchild node
    setParent node lchild
    pure root

/-! ## Insertion -/

/-- Case 3: the parent is a left child and `node` too. -/
def insertCase3 (root node : Ptr A) : TreeProg A (Ptr A) := do
  setData (← parentOf node) .mgBlack
  whenNode (← parentOf (← parentOf node)) do setData (← parentOf (← parentOf node)) .mgRed
  mgrbtreeRightRote root (← parentOf (← parentOf node))

/-- Case 6: the parent is a right child and `node` too. -/
def insertCase6 (root node : Ptr A) : TreeProg A (Ptr A) := do
  setData (← parentOf node) .mgBlack
  whenNode (← parentOf (← parentOf node)) do setData (← parentOf (← parentOf node)) .mgRed
  mgrbtreeLeftRote root (← parentOf (← parentOf node))

/-- Cases 1 and 4: the uncle is red too. -/
def insertRecolor (root node uncle : Ptr A) : TreeProg A (Ptr A × Ptr A) := do
  setData (← parentOf node) .mgBlack
  setData uncle .mgBlack
  setData (← parentOf (← parentOf node)) .mgRed
  pure (root, ← parentOf (← parentOf node))

/-- One round of the loop of `fixup_insert_mgrbtree_t`, on `root` and `node`. -/
def fixupInsertRound : Ptr A × Ptr A → TreeProg A ((Ptr A × Ptr A) ⊕ Ptr A)
  | (root, node) => do
    if ← isRed (← parentOf node) then
      if ← isLchild (← parentOf node) then do
        let uncle ← rchildOf (← parentOf (← parentOf node))
        if ← isRed uncle then do
          -- case 1
          pure (.inl (← insertRecolor root node uncle))
        else do
          let (root, node) ←
            if ← isRchild node then do
              -- case 2
              let np ← parentOf node
              let root ← mgrbtreeLeftRote root np
              pure (root, ← lchildOf node)
            else pure (root, node)
          pure (.inl (← insertCase3 root node, node))
      else
        if (← parentOf (← parentOf node)) ≠ none then do
          let uncle ← lchildOf (← parentOf (← parentOf node))
          if ← isRed uncle then do
            -- case 4
            pure (.inl (← insertRecolor root node uncle))
          else do
            let (root, node) ←
              if ← isLchild node then do
                -- case 5
                let np ← parentOf node
                let root ← mgrbtreeRightRote root np
                pure (root, ← rchildOf node)
              else pure (root, node)
            pure (.inl (← insertCase6 root node, node))
        else pure (.inl (root, node))
    else pure (.inr root)

def fixupInsertMgrbtreeT (fuel : Nat) (root node : Ptr A) : TreeProg A (Ptr A) := do
  let root ← loop fixupInsertRound fuel (root, node)
  setData root .mgBlack
  pure root

/-- The walk of `mgrbtree_insert` to the parent of `node`, on `n_parent` and `x_tmp`. -/
def insertWalkRound (node : Ptr A) : Ptr A × Ptr A → TreeProg A ((Ptr A × Ptr A) ⊕ Ptr A)
  | (nParent, xTmp) => do
    if xTmp ≠ none then
      if 0 < (← callCmp xTmp node) then pure (.inl (xTmp, ← lchildOf xTmp))
      else pure (.inl (xTmp, ← rchildOf xTmp))
    else pure (.inr nParent)

/-- `node` becomes a red leaf below `n_parent`; gives the root. -/
def insertLink (root node nParent : Ptr A) : TreeProg A (Ptr A) := do
  setParent node nParent
  let root ←
    if nParent = none then pure node
    else do
      if (← callCmp node nParent) < 0 then do
        setLchild nParent node
        pure root
      else do
        setRchild nParent node
        pure root
  setRchild node none
  setLchild node none
  setData node .mgRed
  pure root

def mgrbtreeInsert (fuel : Nat) (root node : Ptr A) : TreeProg A (Ptr A) := do
  let nParent ← loop (insertWalkRound node) fuel (none, root)
  let root ← insertLink root node nParent
  fixupInsertMgrbtreeT fuel root node

/-! ## Search -/

def searchRound (node : Ptr A) : Ptr A → TreeProg A (Ptr A ⊕ Ptr A)
  | searchNode => do
    if searchNode ≠ none then
      if (← callCmp searchNode node) = 0 then pure (.inr searchNode)
      else if 0 < (← callCmp searchNode node) then pure (.inl (← lchildOf searchNode))
      else pure (.inl (← rchildOf searchNode))
    else pure (.inr searchNode)

def mgrbtreeSearch (fuel : Nat) (root node : Ptr A) : TreeProg A (Ptr A) :=
  loop (searchRound node) fuel root

/-! ## Removal -/

/-- Case 3: the far child of the brother is black and the near one is not; gives
the root and the new brother. -/
def removeCase3 (root nodeParent brother : Ptr A) : TreeProg A (Ptr A × Ptr A) := do
  setData brother .mgRed
  whenNode (← lchildOf brother) do setData (← lchildOf brother) .mgBlack
  let root ← mgrbtreeRightRote root brother
  pure (root, ← rchildOf nodeParent)

/-- Case 4: the far child of the brother is red. -/
def removeCase4 (root nodeParent brother : Ptr A) : TreeProg A (Ptr A) := do
  whenNode (← rchildOf brother) do setData (← rchildOf brother) .mgBlack
  setData brother (← dataOf nodeParent)
  setData nodeParent .mgBlack
  mgrbtreeLeftRote root nodeParent

/-- Case 3', the mirror image of case 3. -/
def removeCase3' (root nodeParent brother : Ptr A) : TreeProg A (Ptr A × Ptr A) := do
  setData brother .mgRed
  whenNode (← rchildOf brother) do setData (← rchildOf brother) .mgBlack
  let root ← mgrbtreeLeftRote root brother
  pure (root, ← lchildOf nodeParent)

/-- Case 4', the mirror image of case 4. -/
def removeCase4' (root nodeParent brother : Ptr A) : TreeProg A (Ptr A) := do
  whenNode (← lchildOf brother) do setData (← lchildOf brother) .mgBlack
  setData brother (← dataOf nodeParent)
  setData nodeParent .mgBlack
  mgrbtreeRightRote root nodeParent

/-- One round of the loop of `mgrbtree_fixup_remove`, on `root`, `node_parent`
and `node`. -/
def fixupRemoveRound :
    Ptr A × Ptr A × Ptr A → TreeProg A ((Ptr A × Ptr A × Ptr A) ⊕ (Ptr A × Ptr A))
  | (root, nodeParent, node) => do
    if ← (if root ≠ node then isBlack node else pure false) then
      if (← lchildOf nodeParent) = node then do
        let brother ← rchildOf nodeParent
        if brother ≠ none then
          if (← dataOf brother) = .mgRed then do
            -- case 1
            setData nodeParent .mgRed
            setData brother .mgBlack
            let root ← mgrbtreeLeftRote root nodeParent
            pure (.inl (root, nodeParent, node))
          else if ← (do if ← isBlack (← rchildOf brother) then isBlack (← lchildOf brother) else pure false) then do
            -- case 2
            setData brother .mgRed
            pure (.inl (root, ← parentOf nodeParent, nodeParent))
          else do
            let (root, brother) ←
              if ← isBlack (← rchildOf brother) then removeCase3 root nodeParent brother
              else pure (root, brother)
            let root ← removeCase4 root nodeParent brother
            pure (.inl (root, ← parentOf root, root))
        else pure (.inl (root, nodeParent, node))
      else do
        let brother ← lchildOf nodeParent
        if brother ≠ none then
          if (← dataOf brother) = .mgRed then do
            -- case 1'
            setData nodeParent .mgRed
            setData brother .mgBlack
            let root ← mgrbtreeRightRote root nodeParent
            pure (.inl (root, nodeParent, node))
          else if ← (do if ← isBlack (← lchildOf brother) then isBlack (← rchildOf brother) else pure false) then do
            -- case 2'
            setData brother .mgRed
            pure (.inl (root, ← parentOf nodeParent, nodeParent))
          else do
            let (root, brother) ←
              if ← isBlack (← lchildOf brother) then removeCase3' root nodeParent brother
              else pure (root, brother)
            let root ← removeCase4' root nodeParent brother
            pure (.inl (root, ← parentOf root, root))
        else pure (.inl (root, nodeParent, node))
    else pure (.inr (root, node))

def mgrbtreeFixupRemove (fuel : Nat) (root nodeParent node : Ptr A) : TreeProg A (Ptr A) := do
  let nodeParent ← if node ≠ none then parentOf node else pure nodeParent
  let (root, node) ← loop fixupRemoveRound fuel (root, nodeParent, node)
  whenNode node (setData node .mgBlack)
  pure root

/-- The walk to the leftmost node from `y`. -/
def leftmostRound : Ptr A → TreeProg A (Ptr A ⊕ Ptr A)
  | y => do
    if (← lchildOf y) ≠ none then pure (.inl (← lchildOf y)) else pure (.inr y)

/-- The walk to the rightmost node from `y`. -/
def rightmostRound : Ptr A → TreeProg A (Ptr A ⊕ Ptr A)
  | y => do
    if (← rchildOf y) ≠ none then pure (.inl (← rchildOf y)) else pure (.inr y)

/-- `y` goes, and its child `x` hangs in its place; gives the root and `x_parent`. -/
def spliceOut (root y x : Ptr A) : TreeProg A (Ptr A × Ptr A) := do
  whenNode x do setParent x (← parentOf y)
  if (← parentOf y) = none then pure (x, none)
  else do
    if ← isLchild y then do
      setLchild (← parentOf y) x
      pure (root, ← parentOf y)
    else do
      setRchild (← parentOf y) x
      pure (root, ← parentOf y)

/-- The children of `node` change to `y`, and `node` is reset. -/
def handOver (y node : Ptr A) : TreeProg A Unit := do
  whenNode (← lchildOf node) do setParent (← lchildOf node) y
  whenNode (← rchildOf node) do setParent (← rchildOf node) y
  mgrbtreeInit node (← load node).cmp_func

/-- `y` takes the place, the links and the colour of `node`. -/
def takePlace (root y node : Ptr A) : TreeProg A (Ptr A) := do
  setParent y (← parentOf node)
  setLchild y (← lchildOf node)
  setRchild y (← rchildOf node)
  setData y (← dataOf node)
  let root ←
    if (← parentOf node) ≠ none then do
      if ← isLchild node then do
        setLchild (← parentOf node) y
        pure root
      else do
        setRchild (← parentOf node) y
        pure root
    else pure y
  handOver y node
  pure root

/-- `__mgrbtree_remove_node_` -/
def removeNode (fuel : Nat) (root node : Ptr A) : TreeProg A (Ptr A) := do
  if node = none ∨ root = none then pure root
  else do
    let y ←
      if (← lchildOf node) = none ∨ (← rchildOf node) = none then pure node
      else do loop leftmostRound fuel (← rchildOf node)
    let x ← if (← lchildOf y) ≠ none then lchildOf y else rchildOf y
    let (root, xParent) ← spliceOut root y x
    let delColor ← dataOf y
    let root ← if y ≠ node then takePlace root y node else pure root
    if delColor = .mgBlack then mgrbtreeFixupRemove fuel root xParent x else pure root

def mgrbtreeRemoveNode (fuel : Nat) (root node : Ptr A) : TreeProg A (Ptr A) :=
  removeNode fuel root node

def mgrbtreeRemove (fuel : Nat) (root node : Ptr A) : TreeProg A (Ptr A) := do
  let searchNode ← mgrbtreeSearch fuel root node
  let root ← removeNode fuel root searchNode
  setRchild node searchNode
  pure root

/-! ## Ends of the tree -/

def mgrbtreeMinNode (fuel : Nat) (root : Ptr A) : TreeProg A (Ptr A) :=
  if root = none then pure none else loop leftmostRound fuel root

def mgrbtreeMaxNode (fuel : Nat) (root : Ptr A) : TreeProg A (Ptr A) :=
  if root = none then pure none else loop rightmostRound fuel root

end MgStd.RbTree
