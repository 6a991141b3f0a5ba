import Mathlib.Logic.Basic
/-!
# Runs of a machine

A machine takes labelled steps. In a state a label may not be possible, may
fault, or leads to one next state. A `Run` is a sequence of steps none of which
faults, each taken in a state where `ok` allows it, so that a theorem about every
`Run` holds for every order of the labels.
-/

namespace MgStd.Lib

variable {σ ℓ ε : Type}

/-- The labels `ls` lead from `s` to the state at the end; `ok` held of every step when it was taken. -/
inductive Run (step : σ → ℓ → Option (Except ε σ)) (ok : σ → ℓ → Prop) (s : σ) : List ℓ → σ → Prop
  | nil : Run step ok s [] s
  | snoc {ls : List ℓ} {t u : σ} {l : ℓ} : Run step ok s ls t → ok t l → step t l = some (.ok u) →
      Run step ok s (ls ++ [l]) u

variable {step : σ → ℓ → Option (Except ε σ)} {ok : σ → ℓ → Prop} {s t : σ} {ls : List ℓ}

/-- What every allowed step keeps holds after every run. -/
theorem Run.inv (I : σ → Prop) (hs : I s) (hstep : ∀ t l u, I t → ok t l → step t l = some (.ok u) → I u)
    (h : Run step ok s ls t) : I t := by
  induction h with
  | nil => exact hs
  | snoc _ hok hu ih => exact hstep _ _ _ ih hok hu

/-- The same where every allowed step is possible and does not fault. -/
theorem Run.inv_total (I : σ → Prop) (hs : I s) (hstep : ∀ t l, I t → ok t l → ∃ u, step t l = some (.ok u) ∧ I u)
    (h : Run step ok s ls t) : I t := by
  refine h.inv I hs fun t l u ht hok hu => ?_
  obtain ⟨u', hu', hI⟩ := hstep t l ht hok
  rw [hu] at hu'
  cases hu'
  exact hI

/-- Where `I` holds, `ok'` allows what `ok` allows; steps allowed by both keep `I`. -/
theorem Run.mono_inv {ok' : σ → ℓ → Prop} (I : σ → Prop) (hs : I s) (hok : ∀ t l, I t → ok t l → ok' t l)
    (hstep : ∀ t l u, I t → ok t l → ok' t l → step t l = some (.ok u) → I u) (h : Run step ok s ls t) :
    Run step ok' s ls t ∧ I t := by
  induction h with
  | nil => exact ⟨.nil, hs⟩
  | snoc _ hl hu ih =>
    have hl' := hok _ _ ih.2 hl
    exact ⟨.snoc ih.1 hl' hu, hstep _ _ _ ih.2 hl hl' hu⟩

/-- What every step keeps, together with what the steps so far have done. -/
theorem Run.inv_past (I : List ℓ → σ → Prop) (hs : I [] s)
    (hstep : ∀ ls t l u, I ls t → ok t l → step t l = some (.ok u) → I (ls ++ [l]) u) (h : Run step ok s ls t) : I ls t := by
  induction h with
  | nil => exact hs
  | snoc _ hok hu ih => exact hstep _ _ _ _ ih hok hu

/-- What every step changes by `f` is changed by the fold of the labels. -/
theorem Run.foldl {τ : Type} (view : σ → τ) (f : τ → ℓ → τ)
    (hstep : ∀ t l u, ok t l → step t l = some (.ok u) → view u = f (view t) l) (h : Run step ok s ls t) :
    view t = ls.foldl f (view s) := by
  induction h with
  | nil => rfl
  | snoc _ hok hu ih => rw [List.foldl_append, ← ih, hstep _ _ _ hok hu, List.foldl_cons, List.foldl_nil]

theorem Run.cons {t' : σ} {l : ℓ} (hl : ok s l) (hstep : step s l = some (.ok t)) (h : Run step ok t ls t') :
    Run step ok s (l :: ls) t' := by
  induction h with
  | nil => exact .snoc .nil hl hstep
  | snoc _ hok hu ih => rw [← List.cons_append]; exact .snoc ih hok hu

/-! ## Computing a run -/

/-- The state after the labels, if all of them pass the check and none is impossible or faults. -/
def exec (step : σ → ℓ → Option (Except ε σ)) (check : σ → ℓ → Bool) : σ → List ℓ → Option σ
  | s, [] => some s
  | s, l :: ls =>
    if check s l then
      match step s l with
      | some (.ok t) => exec step check t ls
      | _ => none
    else none

/-- What was computed is a run. -/
theorem run_of_exec {check : σ → ℓ → Bool} (hok : ∀ s l, check s l = true → ok s l)
    (h : exec step check s ls = some t) : Run step ok s ls t := by
  induction ls generalizing s with
  | nil => cases h; exact .nil
  | cons l ls ih =>
    simp only [exec] at h
    split at h
    · next hl =>
      split at h
      · next u hu => exact .cons (hok s l hl) hu (ih h)
      · cases h
    · cases h

def faultOf : Option (Except ε σ) → Option ε
  | some (.error e) => some e
  | _ => none

/-- A run that was computed up to a fault. -/
theorem run_fault {l : ℓ} {e : ε} (h : (exec step (fun _ _ => true) s ls).bind (fun t => faultOf (step t l)) = some e) :
    ∃ t, Run step (fun _ _ => True) s ls t ∧ step t l = some (.error e) := by
  obtain ⟨t, ht, he⟩ := Option.bind_eq_some_iff.1 h
  refine ⟨t, run_of_exec (fun _ _ _ => trivial) ht, ?_⟩
  unfold faultOf at he
  split at he
  · next hs => cases he; exact hs
  · cases he

end MgStd.Lib
