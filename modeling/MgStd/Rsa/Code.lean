import Mathlib.Algebra.Group.Nat.Defs
import Mathlib.Algebra.Group.Int.Defs
import Mathlib.Data.Int.Notation
/-!
# mgRSA.c

An `int` has 32 bits. What leaves its range, or divides by zero, is undefined and
stops the program here. A run of `main` is what it reads, and what it prints last.
-/

namespace MgStd.Rsa

inductive Trap
  | overflow
  | divide
  /-- the loop has gone round more often than it is allowed to -/
  | fuel
  deriving DecidableEq, Repr

/-- The value of an `int` expression. -/
def int (n : Int) : Except Trap Int := if - 2 ^ 31 ≤ n ∧ n < 2 ^ 31 then .ok n else .error .overflow

def rem (a c : Int) : Except Trap Int :=
  if c = 0 then .error .divide else if a = - 2 ^ 31 ∧ c = -1 then .error .overflow else .ok (a.tmod c)

/-- The rounds of `while(b!=1)` that are to come, with the value of `r`. -/
def candpLoop (a c : Int) : Nat → Int → Except Trap Int
  | 0, r => .ok r
  | b + 1, r => do
    let r ← int (r * a)
    let r ← rem r c
    candpLoop a c b r

def candp (a b c : Int) : Except Trap Int := do
  let b ← int (b + 1)
  -- below 1, `b--` goes on to the end of the range
  if b < 1 then .error .overflow else candpLoop a c (b - 1).toNat 1

/-- `while(((e*d)%t)!=1)   d++;` -/
def searchLoop (e t : Int) : Nat → Int → Except Trap Int
  | 0, _ => .error .fuel
  | n + 1, d => do
    let ed ← int (e * d)
    let r ← rem ed t
    if r ≠ 1 then do
      let d ← int (d + 1)
      searchLoop e t n d
    else .ok d

/-- `d` only has 2^31 values to go through. -/
def search (e t : Int) : Except Trap Int := searchLoop e t (2 ^ 31) 1

/-- `switch(r)`, with the `m` or the `c` that is read before `candp` is called. -/
def output (n e d r x : Int) : Except Trap (Option Int) :=
  match r with
  | 1 => do
    let c ← candp x e n
    .ok (some c)
  | 2 => do
    let m ← candp x d n
    .ok (some m)
  | _ => .ok none

/-- `again` is read if `e` is refused. -/
def main (p q e again r x : Int) : Except Trap (Option Int) := do
  let n ← int (p * q)
  let t ← int ((← int (p - 1)) * (← int (q - 1)))
  let e := if e < 1 ∨ t < e then again else e
  let d ← search e t
  output n e d r x

end MgStd.Rsa
