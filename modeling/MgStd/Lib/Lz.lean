import Mathlib.Data.List.Basic
/-!
# Copies from what came before

A sequence of bytes as literal bytes and copies of bytes that lie behind its end. A
copy may be longer than its distance, and then repeats what it has copied itself.
-/

namespace MgStd.Lib

open List

inductive Token
  | lit (b : UInt8)
  | copy (len dist : Nat)
  deriving DecidableEq, Repr

variable {out : List UInt8} {t : Token} {ts us : List Token} {m n d : Nat}

/-- `n` bytes are appended, each the one that lies `d` behind the end. -/
def copyBack (d : Nat) : Nat → List UInt8 → List UInt8
  | 0, out => out
  | n + 1, out => copyBack d n (out ++ [out.getD (out.length - d) 0])

def Token.expand (out : List UInt8) : Token → List UInt8
  | .lit b => out ++ [b]
  | .copy len dist => copyBack dist len out

/-- What the tokens append to `out`, with `out`. -/
def expand (out : List UInt8) (ts : List Token) : List UInt8 := ts.foldl Token.expand out

/-- How many bytes a token stands for. -/
def Token.size : Token → Nat
  | .lit _ => 1
  | .copy len _ => len

/-- Copies are from bytes that exist, at most `window` behind the end. -/
def Token.Valid (window : Nat) (out : List UInt8) : Token → Prop
  | .lit _ => True
  | .copy _ dist => 0 < dist ∧ dist ≤ out.length ∧ dist ≤ window

/-- All tokens are valid where they stand. -/
def Valid (window : Nat) : List UInt8 → List Token → Prop
  | _, [] => True
  | out, t :: ts => t.Valid window out ∧ Valid window (t.expand out) ts

@[simp] theorem expand_nil (out : List UInt8) : expand out [] = out := rfl

@[simp] theorem expand_cons (out : List UInt8) (t : Token) (ts : List Token) :
    expand out (t :: ts) = expand (t.expand out) ts := rfl

@[simp] theorem length_copyBack (d n : Nat) (out : List UInt8) : (copyBack d n out).length = out.length + n := by
  induction n generalizing out with
  | zero => rfl
  | succ n ih =>
    rw [copyBack, ih, length_append, length_singleton]
    omega

/-- A copy in two pieces. -/
theorem copyBack_add (d m n : Nat) (out : List UInt8) : copyBack d (m + n) out = copyBack d n (copyBack d m out) := by
  induction m generalizing out with
  | zero => rw [Nat.zero_add, copyBack]
  | succ m ih => rw [Nat.add_right_comm, copyBack, copyBack, ih]

theorem prefix_copyBack (d n : Nat) (out : List UInt8) : out <+: copyBack d n out := by
  induction n generalizing out with
  | zero => exact prefix_rfl
  | succ n ih => exact (prefix_append _ _).trans (ih _)

theorem prefix_expand (out : List UInt8) (ts : List Token) : out <+: expand out ts := by
  induction ts generalizing out with
  | nil => exact prefix_rfl
  | cons t ts ih =>
    rw [expand_cons]
    refine IsPrefix.trans ?_ (ih _)
    cases t with
    | lit b => exact prefix_append _ _
    | copy len dist => exact prefix_copyBack dist len out

/-- A copy goes on where a part of it ends. -/
theorem Token.Valid.rest {window len dist : Nat} (h : (Token.copy len dist).Valid window out) (m n : Nat) :
    (Token.copy n dist).Valid window (copyBack dist m out) := by
  refine ⟨h.1, ?_, h.2.2⟩
  rw [length_copyBack]
  exact Nat.le_add_right_of_le h.2.1

end MgStd.Lib
