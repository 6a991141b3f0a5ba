import Mathlib.Algebra.Group.Int.Defs
import Mathlib.Algebra.Group.Nat.Defs
import Mathlib.Logic.Function.Basic
import MgStd.Lib.Prog
/-!
# mgfastsort.c

The sort sees neither the array nor its elements: it hands the places of
elements to `cmp` and the indices of elements to `swap`. A place is counted in
bytes from the start of the list.
-/

namespace MgStd.FastSort

open MgStd.Lib

/-- The value of an `int` computation: 32 bits, what does not fit wraps around. -/
def toInt (x : Int) : Int := x.bmod (2 ^ 32)

/-- `i*type_lenth`: the place of the element `i` -/
def offset (i typeLenth : Int) : Int := toInt (i * typeLenth)

/-- `mg_fast_sort_cmp_func` -/
abbrev Cmp (σ : Type) := Int → Int → Prog σ Int

/-- `mg_fast_sort_swap` -/
abbrev Swap (σ : Type) := Int → Int → Prog σ Unit

variable {σ : Type}

/-- The first inner loop moves `i` up past the elements that are not greater than the key. -/
def upRound (cmp : Cmp σ) (key listSortEnd typeLenth : Int) (i : Int) : Prog σ (Int ⊕ Int) := do
  if i < listSortEnd then
    if (← cmp (offset i typeLenth) key) ≤ 0 then pure (.inl (i + 1)) else pure (.inr i)
  else pure (.inr i)

/-- The second inner loop moves `j` down past the elements that are not less than the key. -/
def downRound (cmp : Cmp σ) (key listSortStart typeLenth : Int) (j : Int) : Prog σ (Int ⊕ Int) := do
  if j > listSortStart then
    if (← cmp (offset j typeLenth) key) ≥ 0 then pure (.inl (j - 1)) else pure (.inr j)
  else pure (.inr j)

/-- The outer loop, on `i` and `j`; it leaves with `j`. -/
def partRound (cmp : Cmp σ) (swap : Swap σ) (fuel : Nat) (listSortStart listSortEnd typeLenth : Int) :
    Int × Int → Prog σ ((Int × Int) ⊕ Int)
  | (i, j) => do
    let key := offset listSortStart typeLenth
    if i < j then
      let i ← loop (upRound cmp key listSortEnd typeLenth) fuel i
      let j ← loop (downRound cmp key listSortStart typeLenth) fuel j
      if i < j then swap i j
      pure (.inl (i, j))
    else pure (.inr j)

/-- `fuel` bounds the depth of the recursion and the rounds of each loop. -/
def mgfastsort (cmp : Option (Cmp σ)) (swap : Option (Swap σ)) : Nat → Int → Int → Int → Prog σ Unit
  | 0, _, _, _ => fault .fuel
  | fuel + 1, listSortStart, listSortEnd, typeLenth => do
    match cmp, swap with
    | some cmp', some swap' =>
      if listSortStart ≥ listSortEnd then pure ()
      else
        let j ← loop (partRound cmp' swap' fuel listSortStart listSortEnd typeLenth) fuel (listSortStart, listSortEnd)
        swap' listSortStart j
        mgfastsort cmp swap fuel listSortStart (toInt (j - 1)) typeLenth
        mgfastsort cmp swap fuel (toInt (j + 1)) listSortEnd typeLenth
    | _, _ => pure ()

/-! ## Arrays of elements -/

/-- A list of `size` elements. -/
structure Arr (V : Type) where
  size : Int
  elt : Int → V

variable {V : Type}

/-- The element at a place, if one begins there. -/
def eltAt (typeLenth place : Int) : Prog (Arr V) V := do
  let a ← get
  if place % typeLenth = 0 ∧ 0 ≤ place / typeLenth ∧ place / typeLenth < a.size then pure (a.elt (place / typeLenth))
  else fault .bounds

/-- `list[i]` -/
def getElt (i : Int) : Prog (Arr V) V := do
  let a ← get
  if 0 ≤ i ∧ i < a.size then pure (a.elt i) else fault .bounds

/-- `list[i] = v` -/
def setElt (i : Int) (v : V) : Prog (Arr V) Unit := do
  let a ← get
  if 0 ≤ i ∧ i < a.size then modify fun a => { a with elt := Function.update a.elt i v } else fault .bounds

end MgStd.FastSort
