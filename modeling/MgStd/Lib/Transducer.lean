import Mathlib.Data.List.Basic
/-!
# Transducers

A function that reads one element, with a state, writes one element and goes on
in another state. Its run over a sequence does not depend on how the sequence is
cut into pieces, and the run of a function that undoes each step undoes the run.
-/

namespace MgStd.Lib.Transducer

open List

variable {σ α β : Type} {f : σ → α → β × σ} {g : σ → β → α × σ}

/-- What is written for `xs`, and the state afterwards. -/
def run (f : σ → α → β × σ) : σ → List α → List β × σ
  | s, [] => ([], s)
  | s, x :: xs => ((f s x).1 :: (run f (f s x).2 xs).1, (run f (f s x).2 xs).2)

@[simp] theorem run_nil (s : σ) : run f s [] = ([], s) := rfl

theorem run_cons (s : σ) (x : α) (xs : List α) :
    run f s (x :: xs) = ((f s x).1 :: (run f (f s x).2 xs).1, (run f (f s x).2 xs).2) := rfl

theorem run_append (s : σ) (xs ys : List α) :
    run f s (xs ++ ys) = ((run f s xs).1 ++ (run f (run f s xs).2 ys).1, (run f (run f s xs).2 ys).2) := by
  induction xs generalizing s with
  | nil => rfl
  | cons x xs ih => rw [cons_append, run_cons, run_cons, ih]; rfl

@[simp] theorem length_run (s : σ) (xs : List α) : (run f s xs).1.length = xs.length := by
  induction xs generalizing s with
  | nil => rfl
  | cons x xs ih => rw [run_cons, length_cons, length_cons, ih]

/-- One run after the other over the pieces of a sequence. -/
theorem run_pieces (s : σ) (pieces : List (List α)) :
    (run (run f) s pieces).1.flatten = (run f s pieces.flatten).1 ∧ (run (run f) s pieces).2 = (run f s pieces.flatten).2 := by
  induction pieces generalizing s with
  | nil => exact ⟨rfl, rfl⟩
  | cons piece pieces ih =>
    obtain ⟨hout, hstate⟩ := ih (run f s piece).2
    rw [run_cons, flatten_cons, flatten_cons, run_append]
    exact ⟨by rw [hout], hstate⟩

/-- `g` reads what `f` has written, and goes on in the same state. -/
def Undoes (g : σ → β → α × σ) (f : σ → α → β × σ) : Prop := ∀ s x, g s (f s x).1 = (x, (f s x).2)

theorem Undoes.run (h : Undoes g f) (s : σ) (xs : List α) : run g s (run f s xs).1 = (xs, (run f s xs).2) := by
  induction xs generalizing s with
  | nil => rfl
  | cons x xs ih => rw [run_cons, run_cons, h, ih]

end MgStd.Lib.Transducer
