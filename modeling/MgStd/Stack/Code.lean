import MgStd.FastSort.Code
import MgStd.Lib.Heap
/-!
# mgstack.c

`data` is an array of pointers, of which the first `data_num` are on the stack.
The operations are those on a stack that is there; what `malloc` and `realloc`
do is a parameter.
-/

namespace MgStd.Stack

open MgStd.Lib FastSort

variable {A : Type}

/-- `stack_comp`, on the places of two slots of `data` -/
abbrev StackComp (A : Type) := Cmp (Arr (Ptr A))

structure MgStack (A : Type) where
  dataNum : Int
  allocNum : Int
  sorted : Bool
  limitNum : Bool
  data : Arr (Ptr A)
  comp : Option (StackComp A)

def DEFAULT_NUM_MAX : Int := 64

/-- `sizeof(void *)` -/
def sizeofPtr : Int := 8

def mgStackSwap (i j : Int) : Prog (Arr (Ptr A)) Unit := do
  let tmp ← getElt i
  setElt i (← getElt j)
  setElt j tmp

/-- `_stack_ptr_comp` -/
def stackPtrComp : StackComp A := fun data1 data2 => pure (toInt (data2 - data1))

/-- `mallocs` tells which of the two allocations succeed. -/
def mgStackInit (mallocs : Bool × Bool) (dataMax : Int) (comp : Option (StackComp A)) : Option (MgStack A) :=
  if mallocs.1 then
    let num := if dataMax = 0 then DEFAULT_NUM_MAX else dataMax
    if mallocs.2 then
      some {
        dataNum := 0
        allocNum := num
        sorted := false
        limitNum := decide (dataMax ≠ 0)
        data := ⟨num, fun _ => none⟩
        comp := some (comp.getD stackPtrComp) }
    else none
  else none

/-- A part of the stack: `stack->data`. -/
def onData {α : Type} (m : Prog (Arr (Ptr A)) α) : Prog (MgStack A) α :=
  zoom (·.data) (fun data stack => { stack with data }) m

/-- The end of `mg_stack_push`, with room for one more. -/
def pushSlot (data : Ptr A) : Prog (MgStack A) Int := do
  onData (setElt (← get).dataNum data)
  modify fun stack => { stack with dataNum := stack.dataNum + 1, sorted := false }
  pure 0

/-- `realloc` to `num` slots: NULL, or the block with what the new slots happen to hold. -/
abbrev Realloc (A : Type) := Option (Int → Ptr A)

def mgStackPush (data : Ptr A) (realloc : Realloc A) : Prog (MgStack A) Int := do
  match data with
  | none => pure (-1)
  | some _ =>
    let stack ← get
    if stack.dataNum = stack.allocNum then
      if stack.limitNum then pure (-2)
      else
        let num := toInt (stack.allocNum * 2)
        match realloc with
        | none => pure (-3)
        | some past =>
          let ndata : Arr (Ptr A) := ⟨num, fun k => if k < stack.data.size then stack.data.elt k else past k⟩
          modify fun stack => { stack with data := ndata, allocNum := num }
          pushSlot data
    else pushSlot data

def mgStackPop : Prog (MgStack A) (Ptr A) := do
  if (← get).dataNum ≤ 0 then pure none
  else
    modify fun stack => { stack with dataNum := stack.dataNum - 1 }
    onData (getElt (← get).dataNum)

def mgStackSort (fuel : Nat) : Prog (MgStack A) Unit := do
  let stack ← get
  if stack.dataNum ≤ 1 ∨ stack.comp.isNone ∨ stack.sorted then pure ()
  else
    onData (mgfastsort stack.comp (some mgStackSwap) fuel 0 (stack.dataNum - 1) sizeofPtr)
    modify fun stack => { stack with sorted := true }

end MgStd.Stack
