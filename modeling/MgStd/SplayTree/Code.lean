import MgStd.Lib.Links
/-!
# mgsplaytree.c

The functions of `mgsplaytree.c` over a heap of nodes. The recursion of
`mg_splaytree_search` and the loops have `fuel` rounds.

A recursive call in `mg_splaytree_search` is not returned, so that the caller
has a value only when the search ends at the root. The functions that search
take the search as a parameter.
-/

namespace MgStd.SplayTree

open MgStd.Lib

/-- `mg_splaytree_t`: a node has no label. -/
abbrev MgSplaytree (A : Type) := Node A Unit

abbrev TreeProg (A α : Type) := Prog (Heap A (MgSplaytree A)) α

variable {A : Type} [DecidableEq A]

def mgSplaytreeNodeInit (node : Ptr A) (cmp_func : A → A → Int) : TreeProg A Unit :=
  store node fun _ => ⟨(), none, none, none, cmp_func⟩

def minRound : Ptr A → TreeProg A (Ptr A ⊕ Ptr A)
  | root => do
    if (← lchildOf root) ≠ none then pure (.inl (← lchildOf root)) else pure (.inr root)

def mgSplaytreeMinNode (fuel : Nat) (root : Ptr A) : TreeProg A (Ptr A) :=
  if root = none then pure none else loop minRound fuel root

/-! ## Search -/

def mgSplaytreeSearch : Nat → Ptr A → Ptr A → TreeProg A (Returned (Ptr A))
  | 0, _, _ => fault .fuel
  | fuel + 1, root, node => do
    if root = none then pure (some none)
    else do
      let cmp_result ← callCmp root node
      if 0 < cmp_result then do
        let _ ← mgSplaytreeSearch fuel (← lchildOf root) node
        pure none
      else if cmp_result < 0 then do
        let _ ← mgSplaytreeSearch fuel (← rchildOf root) node
        pure none
      else pure (some root)

/-- `mg_splaytree_search` as it would be with its recursive calls returned. -/
def searchReturned : Nat → Ptr A → Ptr A → TreeProg A (Ptr A)
  | 0, _, _ => fault .fuel
  | fuel + 1, root, node => do
    if root = none then pure none
    else do
      let cmp_result ← callCmp root node
      if 0 < cmp_result then do searchReturned fuel (← lchildOf root) node
      else if cmp_result < 0 then do searchReturned fuel (← rchildOf root) node
      else pure root

/-! ## Splaying -/

def rightSingleRotation (node : Ptr A) : TreeProg A (Ptr A) := do
  let parent ← parentOf node
  if (← lchildOf node) = none then pure node
  else do
    let nl ← lchildOf node
    setLchild node (← rchildOf nl)
    setRchild nl node
    whenNode (← lchildOf node) do setParent (← lchildOf node) node
    setParent nl (← parentOf node)
    setParent node nl
    if parent ≠ none then
      if (← lchildOf parent) = node then setLchild parent nl else setRchild parent nl
    pure nl

def leftSingleRotation (node : Ptr A) : TreeProg A (Ptr A) := do
  let parent ← parentOf node
  if (← rchildOf node) = none then pure node
  else do
    let nr ← rchildOf node
    setRchild node (← lchildOf nr)
    setLchild nr node
    whenNode (← rchildOf node) do setParent (← rchildOf node) node
    setParent nr (← parentOf node)
    setParent node nr
    if parent ≠ none then
      if (← lchildOf parent) = node then setLchild parent nr else setRchild parent nr
    pure nr

def splayRound : Ptr A → TreeProg A (Ptr A ⊕ Ptr A)
  | seach_node => do
    let parent ← parentOf seach_node
    if parent = none then pure (.inr seach_node)
    else if (← lchildOf parent) = seach_node then pure (.inl (← rightSingleRotation parent))
    else pure (.inl (← leftSingleRotation parent))

/-- One round of the loop of `mg_splaytree_splay_root_to_node`, on `root`. -/
def splayRootToNodeRound (node : Ptr A) : Ptr A → TreeProg A (Ptr A ⊕ Ptr A)
  | root => do
    let cmp_result ← callCmp root node
    if 0 < cmp_result then
      if (← lchildOf root) = none then pure (.inr root)
      else do
        let cmp_result ← callCmp (← lchildOf root) node
        if 0 ≤ cmp_result then pure (.inl (← rightSingleRotation root))
        else do
          setLchild root (← leftSingleRotation (← lchildOf root))
          pure (.inl root)
    else if cmp_result < 0 then
      if (← rchildOf root) = none then pure (.inr root)
      else do
        let cmp_result ← callCmp (← rchildOf root) node
        if cmp_result ≤ 0 then pure (.inl (← leftSingleRotation root))
        else do
          setRchild root (← rightSingleRotation (← rchildOf root))
          pure (.inl root)
    else pure (.inr root)

def mgSplaytreeSplayRootToNode (fuel : Nat) (root node : Ptr A) : TreeProg A (Ptr A) :=
  if root = none ∨ node = none then pure root else loop (splayRootToNodeRound node) fuel root

section Searching
variable (search : Ptr A → Ptr A → TreeProg A (Ptr A)) (fuel : Nat)

def mgSplaytreeSplayNodeToRoot (root node : Ptr A) : TreeProg A (Ptr A) := do
  let seach_node ← search root node
  if seach_node = none then pure root else loop splayRound fuel seach_node

def mgSplaytreeFind (root node : Ptr A) : TreeProg A (Ptr A) := mgSplaytreeSplayNodeToRoot search fuel root node

/-! ## Insertion -/

def mgSplaytreeInsert (root node : Ptr A) : TreeProg A (Ptr A) := do
  if node = none then pure root
  else do
    let root ← mgSplaytreeSplayNodeToRoot search fuel root node
    if root = none then pure node
    else do
      let cmp_result ← callCmp root node
      if 0 < cmp_result then do
        setRchild node root
        setParent root node
        setParent node none
        setLchild node none
        pure node
      else if cmp_result < 0 then do
        setLchild node root
        setParent root node
        setParent node none
        setRchild node none
        pure node
      else pure root

/-! ## Removal -/

/-- The root that is left when `root` is taken out. -/
def joinChildren (root : Ptr A) : TreeProg A (Ptr A) := do
  if (← lchildOf root) ≠ none ∧ (← rchildOf root) ≠ none then do
    let min ← mgSplaytreeMinNode fuel (← rchildOf root)
    setLchild min (← lchildOf root)
    setParent (← lchildOf root) min
    rchildOf root
  else if (← lchildOf root) = none then rchildOf root
  else lchildOf root

/-- Gives the root, and what `nfree` is called with, call by call. The probe's `rchild` keeps the node until then. -/
def mgSplaytreeRemove (root node : Ptr A) : TreeProg A (Ptr A × List (Ptr A)) := do
  if root = none ∨ node = none then pure (root, [])
  else do
    let root ← mgSplaytreeSplayNodeToRoot search fuel root node
    let cmp_result ← callCmp root node
    if cmp_result ≠ 0 then do
      setRchild node none
      pure (root, [← rchildOf node])
    else do
      setRchild node root
      let root ← joinChildren fuel root
      pure (root, [← rchildOf node])

end Searching

end MgStd.SplayTree
