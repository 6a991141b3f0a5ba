import MgStd.Lib.Links
/-!
# mgavltree.c

The functions of `mgavltree.c` over a heap of nodes. The recursion of
`mg_avltree_insert` has `fuel` levels.
-/

namespace MgStd.AvlTree

open MgStd.Lib

/-- `MG_AVLTREE_NODE`: the label of a node is its `avltree_height`. -/
abbrev MgAvltreeNode (A : Type) := Node A Int

abbrev TreeProg (A α : Type) := Prog (Heap A (MgAvltreeNode A)) α

variable {A : Type} [DecidableEq A]

def mgAvltreeInit (node : Ptr A) (cmp_func : A → A → Int) : TreeProg A Unit :=
  store node fun _ => ⟨0, none, none, none, cmp_func⟩

/-- `MG_AVLTREE_HEIGHT` -/
def mgAvltreeHeight (p : Ptr A) : TreeProg A Int := do
  if p = none then pure (-1) else dataOf p

/-! ## Search -/

def searchRound (findNode : Ptr A) : Ptr A → TreeProg A (Ptr A ⊕ Ptr A)
  | x => do
    if x ≠ none then do
      let result ← callCmp x findNode
      if result = 0 then pure (.inr x)
      else if 0 < result then pure (.inl (← lchildOf x))
      else pure (.inl (← rchildOf x))
    else pure (.inr x)

def mgAvltreeSearch (fuel : Nat) (root findNode : Ptr A) : TreeProg A (Ptr A) :=
  if root = none ∨ findNode = none then pure none else loop (searchRound findNode) fuel root

/-- The function hands over to `mg_avltree_search` below the root. -/
def mgAvltreeSearchRecursive (fuel : Nat) (root findNode : Ptr A) : TreeProg A (Ptr A) :=
  if root = none ∨ findNode = none then pure none
  else do
    let result ← callCmp root findNode
    if result = 0 then pure root
    else if 0 < result then do mgAvltreeSearch fuel (← lchildOf root) findNode
    else do mgAvltreeSearch fuel (← rchildOf root) findNode

/-! ## Rotations -/

/-- The links of `left_left_rotation`; gives `nl`. -/
def leftLeftLinks (node : Ptr A) : TreeProg A (Ptr A) := do
  let parent ← parentOf node
  let nl ← lchildOf node
  setLchild node (← rchildOf nl)
  setRchild nl node
  whenNode (← lchildOf node) do setParent (← lchildOf node) node
  setParent nl (← parentOf node)
  setParent node nl
  if parent ≠ none then
    if (← lchildOf parent) = node then setLchild parent nl else setRchild parent nl
  pure nl

def leftLeftRotation (node : Ptr A) : TreeProg A (Ptr A) := do
  let nl ← leftLeftLinks node
  setData node (max (← mgAvltreeHeight (← lchildOf node)) (← mgAvltreeHeight (← rchildOf node)) + 1)
  setData nl (max (← mgAvltreeHeight (← lchildOf nl)) (← mgAvltreeHeight node) + 1)
  pure nl

/-- The links of `right_right_rotation`; gives `nr`. -/
def rightRightLinks (node : Ptr A) : TreeProg A (Ptr A) := do
  let parent ← parentOf node
  let nr ← rchildOf node
  setRchild node (← lchildOf nr)
  setLchild nr node
  whenNode (← rchildOf node) do setParent (← rchildOf node) node
  setParent nr (← parentOf node)
  setParent node nr
  if parent ≠ none then
    if (← lchildOf parent) = node then setLchild parent nr else setRchild parent nr
  pure nr

def rightRightRotation (node : Ptr A) : TreeProg A (Ptr A) := do
  let nr ← rightRightLinks node
  setData node (max (← mgAvltreeHeight (← lchildOf node)) (← mgAvltreeHeight (← rchildOf node)) + 1)
  setData nr (max (← mgAvltreeHeight (← rchildOf nr)) (← mgAvltreeHeight node) + 1)
  pure nr

def leftRightRotation (node : Ptr A) : TreeProg A (Ptr A) := do
  setLchild node (← rightRightRotation (← lchildOf node))
  leftLeftRotation node

def rightLeftRotation (node : Ptr A) : TreeProg A (Ptr A) := do
  setRchild node (← leftLeftRotation (← rchildOf node))
  rightRightRotation node

/-! ## Insertion -/

/-- The end of `mg_avltree_insert`. -/
def updateHeight (root : Ptr A) : TreeProg A (Ptr A) := do
  setData root (max (← mgAvltreeHeight (← lchildOf root)) (← mgAvltreeHeight (← rchildOf root)) + 1)
  pure root

/-- `root->lchild = lchild`, and a new `node` there gets its parent. -/
def linkLeft (root lchild node : Ptr A) : TreeProg A Unit := do
  setLchild root lchild
  if (← lchildOf root) = node then setParent node root

/-- `root->rchild = rchild`, and a new `node` there gets its parent. -/
def linkRight (root rchild node : Ptr A) : TreeProg A Unit := do
  setRchild root rchild
  if (← rchildOf root) = node then setParent node root

/-- `node` went to the left of `root`. -/
def balanceLeft (root node : Ptr A) : TreeProg A (Ptr A) := do
  if (← mgAvltreeHeight (← lchildOf root)) - (← mgAvltreeHeight (← rchildOf root)) = 2 then do
    let rs ← callCmp (← lchildOf root) node
    if 0 < rs then leftLeftRotation root else leftRightRotation root
  else pure root

/-- `node` went to the right of `root`. -/
def balanceRight (root node : Ptr A) : TreeProg A (Ptr A) := do
  if (← mgAvltreeHeight (← rchildOf root)) - (← mgAvltreeHeight (← lchildOf root)) = 2 then do
    let rd ← callCmp (← rchildOf root) node
    if rd < 0 then rightRightRotation root else rightLeftRotation root
  else pure root

def mgAvltreeInsert : Nat → Ptr A → Ptr A → TreeProg A (Ptr A)
  | 0, _, _ => fault .fuel
  | fuel + 1, root, node => do
    if node = none then pure root
    else if root = none then do
      setData node 0
      setParent node none
      setLchild node none
      setRchild node none
      updateHeight node
    else do
      let result ← callCmp root node
      if 0 < result then do
        linkLeft root (← mgAvltreeInsert fuel (← lchildOf root) node) node
        updateHeight (← balanceLeft root node)
      else if result < 0 then do
        linkRight root (← mgAvltreeInsert fuel (← rchildOf root) node) node
        updateHeight (← balanceRight root node)
      else pure root

/-! ## Ends of the tree -/

def minRound : Ptr A → TreeProg A (Ptr A ⊕ Ptr A)
  | root => do
    if (← lchildOf root) ≠ none then pure (.inl (← lchildOf root)) else pure (.inr root)

def maxRound : Ptr A → TreeProg A (Ptr A ⊕ Ptr A)
  | root => do
    if (← rchildOf root) ≠ none then pure (.inl (← rchildOf root)) else pure (.inr root)

def mgAvltreeMinNode (fuel : Nat) (root : Ptr A) : TreeProg A (Ptr A) :=
  if root = none then pure none else loop minRound fuel root

def mgAvltreeMaxNode (fuel : Nat) (root : Ptr A) : TreeProg A (Ptr A) :=
  if root = none then pure none else loop maxRound fuel root

end MgStd.AvlTree
