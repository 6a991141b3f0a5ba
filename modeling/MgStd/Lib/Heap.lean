import Mathlib.Logic.Function.Basic
import MgStd.Lib.Prog
/-!
# Memory made of records

A heap maps each address to the record it holds, or to nothing while it is not
allocated. A pointer is an address or NULL.
-/

namespace MgStd.Lib

abbrev Heap (A N : Type) := A → Option N

/-- A pointer; `none` is NULL. -/
abbrev Ptr (A : Type) := Option A

variable {A N α : Type}

/-- The record `p` points to. -/
def load (p : Ptr A) : Prog (Heap A N) N := fun h =>
  match p with
  | none => .error .null
  | some a =>
    match h a with
    | none => .error .dangling
    | some n => .ok (n, h)

/-- Change the record `p` points to. -/
def store [DecidableEq A] (p : Ptr A) (f : N → N) : Prog (Heap A N) Unit := fun h =>
  match p with
  | none => .error .null
  | some a =>
    match h a with
    | none => .error .dangling
    | some n => .ok ((), Function.update h a (some (f n)))

/-- `if (p) m` -/
def whenNode {σ : Type} (p : Ptr A) (m : Prog σ Unit) : Prog σ Unit :=
  match p with
  | none => pure ()
  | some _ => m

@[simp] theorem whenNode_null {σ : Type} (m : Prog σ Unit) : whenNode (none : Ptr A) m = pure () := rfl
@[simp] theorem whenNode_some {σ : Type} (a : A) (m : Prog σ Unit) : whenNode (some a) m = m := rfl

@[simp] theorem returns_load_null (h : Heap A N) (Q : N → Heap A N → Prop) : ¬ Returns (load none) h Q := by
  rintro ⟨a, s', hm, -⟩; cases hm

@[simp] theorem returns_load (a : A) (h : Heap A N) (Q : N → Heap A N → Prop) :
    Returns (load (some a)) h Q ↔ ∃ n, h a = some n ∧ Q n h := by
  constructor
  · rintro ⟨n, h', hm, hq⟩
    simp only [load] at hm
    split at hm
    · cases hm
    · next n' hn => cases hm; exact ⟨n, hn, hq⟩
  · rintro ⟨n, hn, hq⟩
    exact ⟨n, h, by simp [load, hn], hq⟩

section
variable [DecidableEq A]

@[simp] theorem returns_store_null (f : N → N) (h : Heap A N) (Q : Unit → Heap A N → Prop) :
    ¬ Returns (store none f) h Q := by
  rintro ⟨a, s', hm, -⟩; cases hm

@[simp] theorem returns_store (a : A) (f : N → N) (h : Heap A N) (Q : Unit → Heap A N → Prop) :
    Returns (store (some a) f) h Q ↔ ∃ n, h a = some n ∧ Q () (Function.update h a (some (f n))) := by
  constructor
  · rintro ⟨n, h', hm, hq⟩
    simp only [store] at hm
    split at hm
    · cases hm
    · next n' hn => cases hm; exact ⟨n', hn, hq⟩
  · rintro ⟨n, hn, hq⟩
    exact ⟨(), _, by simp only [store, hn], hq⟩

/-- Writing the record that is there changes nothing. -/
theorem update_same {h : Heap A N} {a : A} {n : N} (ha : h a = some n) : Function.update h a (some n) = h := by
  rw [← ha, Function.update_eq_self]

end

/-! ## Frames -/

/-- `h'` differs from `h` at most at the addresses in `S`. -/
def Agree (S : List A) (h h' : Heap A N) : Prop := ∀ x, x ∉ S → h' x = h x

theorem Agree.refl (S : List A) (h : Heap A N) : Agree S h h := fun _ _ => rfl

theorem Agree.trans {S : List A} {h₁ h₂ h₃ : Heap A N} (h : Agree S h₁ h₂) (h' : Agree S h₂ h₃) : Agree S h₁ h₃ :=
  fun x hx => (h' x hx).trans (h x hx)

theorem Agree.mono {S T : List A} {h h' : Heap A N} (hst : ∀ x ∈ S, x ∈ T) (ha : Agree S h h') : Agree T h h' :=
  fun x hx => ha x fun hs => hx (hst x hs)

theorem Agree.update [DecidableEq A] {S : List A} {h h' : Heap A N} (ha : Agree S h h') {a : A} (has : a ∈ S)
    (n : Option N) : Agree S h (Function.update h' a n) := by
  intro x hx
  have hne : x ≠ a := fun e => hx (e ▸ has)
  rw [Function.update_of_ne hne, ha x hx]

end MgStd.Lib
