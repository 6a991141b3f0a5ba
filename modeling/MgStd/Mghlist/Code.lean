import Mathlib.Logic.Function.Basic
import MgStd.Lib.Heap
/-!
# mglist.c: hash chains

A `struct mghlist_head` has one pointer, a `struct mghlist_node` has a pointer
and the address of a pointer. That address is of one of two kinds, a `Cell`:
`&h->first` of a head or `&n->next` of a node.
-/

namespace MgStd.Mghlist

open MgStd.Lib

inductive Cell (H N : Type)
  | first (h : H)
  | next (n : N)
  deriving DecidableEq

/-- The heads and nodes that are allocated, what their cells hold, and the back links of the nodes. -/
structure Mem (H N : Type) where
  headAlloc : H → Bool
  nodeAlloc : N → Bool
  cell : Cell H N → Ptr N
  pprev : N → Option (Cell H N)

variable {H N : Type}

/-- `MG_LIST_POISON1`, `MG_LIST_POISON2` -/
def MG_LIST_POISON {α : Type} : Option α := none

def headOf (p : Ptr H) : Prog (Mem H N) H := do
  match p with
  | none => fault .null
  | some h => if (← get).headAlloc h then pure h else fault .dangling

def nodeOf (p : Ptr N) : Prog (Mem H N) N := do
  match p with
  | none => fault .null
  | some n => if (← get).nodeAlloc n then pure n else fault .dangling

/-- `p->first` -/
def firstOf (p : Ptr H) : Prog (Mem H N) (Ptr N) := do
  let h ← headOf p
  pure ((← get).cell (.first h))

/-- `p->next` -/
def nextOf (p : Ptr N) : Prog (Mem H N) (Ptr N) := do
  let n ← nodeOf p
  pure ((← get).cell (.next n))

/-- `p->pprev` -/
def pprevOf (p : Ptr N) : Prog (Mem H N) (Option (Cell H N)) := do
  let n ← nodeOf p
  pure ((← get).pprev n)

section
variable [DecidableEq H] [DecidableEq N]

/-- A write of one cell. -/
def write (c : Cell H N) (q : Ptr N) : Prog (Mem H N) Unit :=
  modify fun m => { m with cell := Function.update m.cell c q }

def setFirst (p : Ptr H) (q : Ptr N) : Prog (Mem H N) Unit := do
  write (.first (← headOf p)) q

def setNext (p q : Ptr N) : Prog (Mem H N) Unit := do
  write (.next (← nodeOf p)) q

def setPprev (p : Ptr N) (c : Option (Cell H N)) : Prog (Mem H N) Unit := do
  let n ← nodeOf p
  modify fun m => { m with pprev := Function.update m.pprev n c }

/-- `*pprev = q` -/
def setCell (pprev : Option (Cell H N)) (q : Ptr N) : Prog (Mem H N) Unit :=
  match pprev with
  | none => fault .null
  | some (.first h) => setFirst (some h) q
  | some (.next n) => setNext (some n) q

def initMgHlistHead (ptr : Ptr H) : Prog (Mem H N) Unit := do
  setFirst ptr none

def initMgHlistNode (h : Ptr N) : Prog (Mem H N) Unit := do
  setNext h none
  setPprev h none

end

def mghlistUnhashed (h : Ptr N) : Prog (Mem H N) Bool := do
  pure (← pprevOf h).isNone

def mghlistEmpty (h : Ptr H) : Prog (Mem H N) Bool := do
  pure (← firstOf h).isNone

/-- The address `&n->next`. -/
def nextCell (n : Ptr N) : Option (Cell H N) := n.map .next

/-- The address `&h->first`. -/
def firstCell (h : Ptr H) : Option (Cell H N) := h.map .first

section
variable [DecidableEq H] [DecidableEq N]

/-- `__mghlist_del` -/
def mghlistUnlink (n : Ptr N) : Prog (Mem H N) Unit := do
  let next ← nextOf n
  let pprev ← pprevOf n
  setCell pprev next
  if next.isSome then setPprev next pprev

def mghlistDel (n : Ptr N) : Prog (Mem H N) Unit := do
  mghlistUnlink n
  setNext n MG_LIST_POISON
  setPprev n MG_LIST_POISON

def mghlistDelInit (n : Ptr N) : Prog (Mem H N) Unit := do
  if ¬ (← mghlistUnhashed n) then
    mghlistUnlink n
    initMgHlistNode n

def mghlistAddHead (n : Ptr N) (h : Ptr H) : Prog (Mem H N) Unit := do
  let first ← firstOf h
  setNext n first
  if first.isSome then setPprev first (nextCell n)
  setFirst h n
  setPprev n (firstCell h)

/-- `next` must not be NULL. -/
def mghlistAddBefore (n next : Ptr N) : Prog (Mem H N) Unit := do
  setPprev n (← pprevOf next)
  setNext n next
  setPprev next (nextCell n)
  setCell (← pprevOf n) n

/-- Insertion of `next`, behind `n`. -/
def mghlistAddAfter (n next : Ptr N) : Prog (Mem H N) Unit := do
  setNext next (← nextOf n)
  setNext n next
  setPprev next (nextCell n)
  if (← nextOf next).isSome then setPprev (← nextOf next) (nextCell next)

def mghlistMoveList (old new : Ptr H) : Prog (Mem H N) Unit := do
  setFirst new (← firstOf old)
  if (← firstOf new).isSome then setPprev (← firstOf new) (firstCell new)
  setFirst old none

end

/-- One round of `mghlist_for_each`, on `pos` and the nodes visited before it. -/
def forEachRound : Ptr N × List (Ptr N) → Prog (Mem H N) ((Ptr N × List (Ptr N)) ⊕ List (Ptr N))
  | (pos, visited) => do
    if pos.isSome then pure (.inl (← nextOf pos, visited ++ [pos]))
    else pure (.inr visited)

/-- The nodes that `mghlist_for_each` visits. -/
def mghlistForEach (fuel : Nat) (head : Ptr H) : Prog (Mem H N) (List (Ptr N)) := do
  loop forEachRound fuel (← firstOf head, [])

end MgStd.Mghlist
