import Mathlib.Algebra.Group.Nat.Defs
import Mathlib.Logic.Function.Basic
import MgStd.Lib.Prog
/-!
# mgbitmap.c

The fields and the numbers are `uint16_t`: they are natural numbers here, and
`u16` is what is left of a sum. The length of `map` is a parameter; the code's
own is `MAP_LEN`. A word beyond it is a fault.
-/

namespace MgStd.Bitmap

open MgStd.Lib

def MAP_LEN : Nat := 4096

/-- The value as a `uint16_t`. -/
def u16 (n : Nat) : Nat := n % 2 ^ 16

structure Mgbitmap (len : Nat) where
  last : Nat
  min : Nat
  max : Nat
  map : Fin len → BitVec 16

variable {len : Nat}

/-- `malloc` gives a block with some content, or NULL. -/
def mgbitmapInit (malloc : Option (Fin len → BitVec 16)) (min max : Nat) : Option (Mgbitmap len) :=
  if min > max then none
  else malloc.map fun map => ⟨min, min, max, map⟩

/-- `offset >> 0x03 - 1` -/
def wordOf (offset : Nat) : Nat := offset >>> (0x03 - 1)

/-- `1<<(offset & 0x0F)` -/
def maskOf (offset : Nat) : BitVec 16 := 1#16 <<< (offset &&& 0x0F)

def readWord (i : Nat) : Prog (Mgbitmap len) (BitVec 16) := do
  if h : i < len then pure ((← get).map ⟨i, h⟩) else fault .bounds

def writeWord (i : Nat) (w : BitVec 16) : Prog (Mgbitmap len) Unit :=
  if h : i < len then modify fun bm => { bm with map := Function.update bm.map ⟨i, h⟩ w } else fault .bounds

def testAndSetBit (offset : Nat) : Prog (Mgbitmap len) Bool := do
  let w ← readWord (wordOf offset)
  if w &&& maskOf offset ≠ 0 then pure false
  else do
    writeWord (wordOf offset) (w ||| maskOf offset)
    pure true

/-- One round of the loop of `mgbitmap_alloc`, on `offset` and `count`: it goes on, leaves the loop by its
condition or the `break` (with `offset`), or returns from the function. -/
def allocRound : Nat × Nat → Prog (Mgbitmap len) ((Nat × Nat) ⊕ Nat)
  | (offset, count) => do
    let bm ← get
    if offset = 0 then do
      modify fun bm => { bm with last := offset }
      pure (.inr offset)
    else if count = bm.max - bm.min then pure (.inr bm.max)
    else do
      let next := u16 (offset + 1)
      let offset := if next ≥ bm.max then u16 (bm.min + 1) else next
      if ← testAndSetBit offset then do
        modify fun bm => { bm with last := offset }
        pure (.inr offset)
      else pure (.inl (offset, u16 (count + 1)))

def mgbitmapAlloc (fuel : Nat) : Prog (Mgbitmap len) Nat := do
  loop allocRound fuel ((← get).last, 0)

def mgbitmapFree (offset : Nat) : Prog (Mgbitmap len) Unit := do
  let w ← readWord (wordOf offset)
  writeWord (wordOf offset) (w &&& ~~~ maskOf offset)

end MgStd.Bitmap
