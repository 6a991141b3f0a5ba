import Mathlib.Logic.Function.Basic
import MgStd.Lib.Heap
/-!
# mglist.c: circular lists

A `struct mglist_head` is a record of two pointers; `Mem` holds the fields of
all records, by their addresses. A list is known by its head, a record of its
own that is not an element.
-/

namespace MgStd.Mglist

open MgStd.Lib

/-- The records that are allocated, and their fields. -/
structure Mem (A : Type) where
  alloc : A → Bool
  prev : A → Ptr A
  next : A → Ptr A

variable {A : Type}

/-- `MG_LIST_POISON1`, `MG_LIST_POISON2` -/
def MG_LIST_POISON : Ptr A := none

/-- The address of a record that is there. -/
def record (p : Ptr A) : Prog (Mem A) A := do
  match p with
  | none => fault .null
  | some a => if (← get).alloc a then pure a else fault .dangling

def nextOf (p : Ptr A) : Prog (Mem A) (Ptr A) := do
  let a ← record p
  pure ((← get).next a)

def prevOf (p : Ptr A) : Prog (Mem A) (Ptr A) := do
  let a ← record p
  pure ((← get).prev a)

variable [DecidableEq A]

def setNext (p q : Ptr A) : Prog (Mem A) Unit := do
  let a ← record p
  modify fun m => { m with next := Function.update m.next a q }

def setPrev (p q : Ptr A) : Prog (Mem A) Unit := do
  let a ← record p
  modify fun m => { m with prev := Function.update m.prev a q }

def initMgListHead (list : Ptr A) : Prog (Mem A) Unit := do
  setNext list list
  setPrev list list

/-- `__mglist_add` -/
def mglistAddBetween (new prev next : Ptr A) : Prog (Mem A) Unit := do
  setPrev next new
  setNext new next
  setPrev new prev
  setNext prev new

def mglistAdd (new head : Ptr A) : Prog (Mem A) Unit := do
  mglistAddBetween new head (← nextOf head)

def mglistAddTail (new head : Ptr A) : Prog (Mem A) Unit := do
  mglistAddBetween new (← prevOf head) head

/-- `__mglist_del` -/
def mglistDelBetween (prev next : Ptr A) : Prog (Mem A) Unit := do
  setPrev next prev
  setNext prev next

/-- `__mglist_del_entry` -/
def mglistDelEntry (entry : Ptr A) : Prog (Mem A) Unit := do
  mglistDelBetween (← prevOf entry) (← nextOf entry)

def mglistDel (entry : Ptr A) : Prog (Mem A) Unit := do
  mglistDelBetween (← prevOf entry) (← nextOf entry)
  setNext entry MG_LIST_POISON
  setPrev entry MG_LIST_POISON

def mglistReplace (old new : Ptr A) : Prog (Mem A) Unit := do
  setNext new (← nextOf old)
  setPrev (← nextOf new) new
  setPrev new (← prevOf old)
  setNext (← prevOf new) new

def mglistReplaceInit (old new : Ptr A) : Prog (Mem A) Unit := do
  mglistReplace old new
  initMgListHead old

def mglistDelInit (entry : Ptr A) : Prog (Mem A) Unit := do
  mglistDelEntry entry
  initMgListHead entry

def mglistMove (list head : Ptr A) : Prog (Mem A) Unit := do
  mglistDelEntry list
  mglistAdd list head

def mglistMoveTail (list head : Ptr A) : Prog (Mem A) Unit := do
  mglistDelEntry list
  mglistAddTail list head

def mglistIsLast (list head : Ptr A) : Prog (Mem A) Bool := do
  pure (decide ((← nextOf list) = head))

def mglistEmpty (head : Ptr A) : Prog (Mem A) Bool := do
  pure (decide ((← nextOf head) = head))

def mglistEmptyCareful (head : Ptr A) : Prog (Mem A) Bool := do
  let next ← nextOf head
  if next = head then pure (decide (next = (← prevOf head))) else pure false

def mglistRotateLeft (head : Ptr A) : Prog (Mem A) Unit := do
  if ¬ (← mglistEmpty head) then
    let first ← nextOf head
    mglistMoveTail first head

def mglistIsSingular (head : Ptr A) : Prog (Mem A) Bool := do
  if ¬ (← mglistEmpty head) then pure (decide ((← nextOf head) = (← prevOf head))) else pure false

/-- `__mglist_cut_position` -/
def mglistCutPositionAt (list head entry : Ptr A) : Prog (Mem A) Unit := do
  let newFirst ← nextOf entry
  setNext list (← nextOf head)
  setPrev (← nextOf list) list
  setPrev list entry
  setNext entry list
  setNext head newFirst
  setPrev newFirst head

def mglistCutPosition (list head entry : Ptr A) : Prog (Mem A) Unit := do
  if ¬ (← mglistEmpty head) then
    let singular ← mglistIsSingular head
    let first ← nextOf head
    if ¬ (singular ∧ first ≠ entry ∧ head ≠ entry) then
      if entry = head then initMgListHead list else mglistCutPositionAt list head entry

/-- `__mglist_splice` -/
def mglistSpliceBetween (list prev next : Ptr A) : Prog (Mem A) Unit := do
  let first ← nextOf list
  let last ← prevOf list
  setPrev first prev
  setNext prev first
  setNext last next
  setPrev next last

def mglistSplice (list head : Ptr A) : Prog (Mem A) Unit := do
  if ¬ (← mglistEmpty list) then
    mglistSpliceBetween list head (← nextOf head)

def mglistSpliceInit (list head : Ptr A) : Prog (Mem A) Unit := do
  if ¬ (← mglistEmpty list) then
    mglistSpliceBetween list head (← nextOf head)
    initMgListHead list

def mglistSpliceTailInit (list head : Ptr A) : Prog (Mem A) Unit := do
  if ¬ (← mglistEmpty list) then
    mglistSpliceBetween list (← prevOf head) head
    initMgListHead list

/-- One round of `mglist_for_each` and `mglist_for_each_prev`, on `pos` and the records visited before it. -/
def forEachRound (link : Ptr A → Prog (Mem A) (Ptr A)) (head : Ptr A) :
    Ptr A × List (Ptr A) → Prog (Mem A) ((Ptr A × List (Ptr A)) ⊕ List (Ptr A))
  | (pos, visited) => do
    if pos = head then pure (.inr visited)
    else pure (.inl (← link pos, visited ++ [pos]))

/-- The records that `mglist_for_each` visits. -/
def mglistForEach (fuel : Nat) (head : Ptr A) : Prog (Mem A) (List (Ptr A)) := do
  loop (forEachRound nextOf head) fuel (← nextOf head, [])

/-- The records that `mglist_for_each_prev` visits. -/
def mglistForEachPrev (fuel : Nat) (head : Ptr A) : Prog (Mem A) (List (Ptr A)) := do
  loop (forEachRound prevOf head) fuel (← prevOf head, [])

/-- The structs that have a `struct mglist_head` as a member, by their addresses: `mglist_entry` leads from the member to the
struct, `&pos->member` back. -/
structure Container (A P : Type) where
  mglistEntry : Ptr A → P
  member : P → Ptr A
  member_entry : ∀ ptr, member (mglistEntry ptr) = ptr

section
variable {P : Type} (c : Container A P)

def mglistFirstEntry (ptr : Ptr A) : Prog (Mem A) P := do
  pure (c.mglistEntry (← nextOf ptr))

def mglistLastEntry (ptr : Ptr A) : Prog (Mem A) P := do
  pure (c.mglistEntry (← prevOf ptr))

def mglistNextEntry (pos : P) : Prog (Mem A) P := do
  pure (c.mglistEntry (← nextOf (c.member pos)))

def mglistPrevEntry (pos : P) : Prog (Mem A) P := do
  pure (c.mglistEntry (← prevOf (c.member pos)))

end

/-- What a loop over a list does with its records: it reads a link, or runs its body on one, which comes back with `b`. -/
inductive Event (A β : Type)
  | read (p : Ptr A)
  | body (p : Ptr A) (b : β)
  deriving DecidableEq

section
variable {P β : Type}

/-- One round of the safe loops, on `pos`, `n` and the events before it; `node` is the record that a cursor points to. -/
def safeRound (link : P → Prog (Mem A) P) (node : P → Ptr A) (head : Ptr A) (body : P → Prog (Mem A) β) :
    P × P × List (Event A β) → Prog (Mem A) ((P × P × List (Event A β)) ⊕ List (Event A β))
  | (pos, n, events) => do
    if node pos = head then pure (.inr events)
    else
      let b ← body pos
      -- pos = n, n = pos->next
      pure (.inl (n, ← link n, events ++ [.body (node pos) b, .read (node n)]))

def safeLoop (first : Prog (Mem A) P) (link : P → Prog (Mem A) P) (node : P → Ptr A) (body : P → Prog (Mem A) β) (fuel : Nat)
    (head : Ptr A) : Prog (Mem A) (List (Event A β)) := do
  let pos ← first
  let n ← link pos
  loop (safeRound link node head body) fuel (pos, n, [.read head, .read (node pos)])

def mglistForEachSafe (body : Ptr A → Prog (Mem A) β) (fuel : Nat) (head : Ptr A) : Prog (Mem A) (List (Event A β)) :=
  safeLoop (nextOf head) nextOf id body fuel head

def mglistForEachPrevSafe (body : Ptr A → Prog (Mem A) β) (fuel : Nat) (head : Ptr A) : Prog (Mem A) (List (Event A β)) :=
  safeLoop (prevOf head) prevOf id body fuel head

def mglistForEachEntrySafe (c : Container A P) (body : P → Prog (Mem A) β) (fuel : Nat) (head : Ptr A) :
    Prog (Mem A) (List (Event A β)) :=
  safeLoop (mglistFirstEntry c head) (mglistNextEntry c) c.member body fuel head

def mglistForEachEntrySafeReverse (c : Container A P) (body : P → Prog (Mem A) β) (fuel : Nat) (head : Ptr A) :
    Prog (Mem A) (List (Event A β)) :=
  safeLoop (mglistLastEntry c head) (mglistPrevEntry c) c.member body fuel head

end

end MgStd.Mglist
