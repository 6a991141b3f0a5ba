import Mathlib.Data.List.Induction
import Mathlib.Data.List.Nodup
import MgStd.Lib.Heap
/-!
# Chains with links back to cells

A cell holds a pointer to a record, and every record has a cell of its own,
`next`. A chain starts from a cell and ends where a cell holds NULL; each record
of it knows, in `pprev`, the cell that points to it. This makes chains from
different first cells disjoint.
-/

namespace MgStd.Lib

open List

variable {C N : Type} {next : N → C} {cell cell' : C → Ptr N} {pprev pprev' : N → Option C} {c d : C} {x : N}
  {xs ys : List N}

/-- The chain that starts from the cell `c`. -/
def BackChain (next : N → C) (cell : C → Ptr N) (pprev : N → Option C) : C → List N → Prop
  | c, [] => cell c = none
  | c, x :: xs => cell c = some x ∧ pprev x = some c ∧ BackChain next cell pprev (next x) xs

/-- The cell at which the first `xs` of a chain end. -/
def endCell (next : N → C) : C → List N → C
  | c, [] => c
  | _, x :: xs => endCell next (next x) xs

@[simp] theorem backChain_nil : BackChain next cell pprev c [] ↔ cell c = none := Iff.rfl

@[simp] theorem backChain_cons : BackChain next cell pprev c (x :: xs) ↔
    cell c = some x ∧ pprev x = some c ∧ BackChain next cell pprev (next x) xs := Iff.rfl

@[simp] theorem endCell_nil : endCell next c [] = c := rfl

@[simp] theorem endCell_cons : endCell next c (x :: xs) = endCell next (next x) xs := rfl

@[simp] theorem endCell_concat : endCell next c (xs ++ [x]) = next x := by
  induction xs generalizing c with
  | nil => rfl
  | cons y xs ih => exact ih

/-- The end is the first cell, or that of a record that was passed. -/
theorem endCell_mem (next : N → C) (c : C) (xs : List N) : endCell next c xs = c ∨ ∃ y ∈ xs, endCell next c xs = next y := by
  rcases eq_nil_or_concat' xs with rfl | ⟨as, y, rfl⟩
  · exact .inl rfl
  · exact .inr ⟨y, by simp, endCell_concat⟩

/-- A chain leads on from the end of any part of it. -/
theorem BackChain.rest (h : BackChain next cell pprev c (xs ++ ys)) : BackChain next cell pprev (endCell next c xs) ys := by
  induction xs generalizing c with
  | nil => exact h
  | cons x xs ih => exact ih h.2.2

theorem BackChain.cell_eq (h : BackChain next cell pprev c xs) : cell c = xs.head? := by
  cases xs with
  | nil => exact h
  | cons x xs => exact h.1

theorem BackChain.pprev_eq (h : BackChain next cell pprev c (xs ++ x :: ys)) : pprev x = some (endCell next c xs) :=
  h.rest.2.1

/-- Different parts of a chain end at different cells. -/
theorem endCell_ne (hinj : Function.Injective next) (hc : ∀ y, c ≠ next y) (hnd : (xs ++ x :: ys).Nodup) :
    endCell next c xs ≠ endCell next c (xs ++ x :: ys) := by
  have hend : ∃ z ∈ x :: ys, endCell next c (xs ++ x :: ys) = next z := by
    rcases eq_nil_or_concat' (x :: ys) with he | ⟨as, z, he⟩
    · cases he
    · exact ⟨z, by simp [he], by rw [he, ← append_assoc, endCell_concat]⟩
  obtain ⟨z, hz, hze⟩ := hend
  rw [hze]
  intro he
  rcases endCell_mem next c xs with h | ⟨y, hy, h⟩
  · exact hc z (h.symm.trans he)
  · obtain rfl := hinj (h.symm.trans he)
    exact (nodup_append.1 hnd).2.2 y hy y hz rfl

/-! ## Edits -/

/-- The end of a chain replaced, where the cells and back links before it are as they were. -/
theorem BackChain.graft {zs : List N} (h : BackChain next cell pprev c (xs ++ ys))
    (hz : BackChain next cell' pprev' (endCell next c xs) zs)
    (hcell : ∀ as x bs, xs = as ++ x :: bs → cell' (endCell next c as) = cell (endCell next c as))
    (hpprev : ∀ y ∈ xs, pprev' y = pprev y) : BackChain next cell' pprev' c (xs ++ zs) := by
  induction xs generalizing c with
  | nil => exact hz
  | cons x xs ih =>
    refine ⟨(hcell [] x xs rfl).trans h.1, (hpprev x mem_cons_self).trans h.2.1, ih h.2.2 hz (fun as y bs he => ?_) ?_⟩
    · exact hcell (x :: as) y bs (by rw [he, cons_append])
    · exact fun y hy => hpprev y (mem_cons_of_mem x hy)

/-- A chain that is hung on another cell. -/
theorem BackChain.rehang (h : BackChain next cell pprev c xs) (hcell : cell' d = xs.head?)
    (hpprev : ∀ y, xs.head? = some y → pprev' y = some d)
    (hrest : ∀ y ∈ xs, cell' (next y) = cell (next y)) (hback : ∀ y ∈ xs.tail, pprev' y = pprev y) :
    BackChain next cell' pprev' d xs := by
  cases xs with
  | nil => exact hcell
  | cons x xs =>
    refine ⟨hcell, hpprev x rfl, ?_⟩
    clear hcell hpprev
    replace h := h.2.2
    induction xs generalizing x with
    | nil => exact (hrest x mem_cons_self).trans h
    | cons y xs ih =>
      rw [tail_cons, forall_mem_cons] at hback
      rw [forall_mem_cons] at hrest
      exact ⟨hrest.1.trans h.1, hback.1.trans h.2.1, ih y hrest.2 hback.2 h.2.2⟩

theorem BackChain.congr (h : BackChain next cell pprev c xs) (hc : cell' c = cell c)
    (hxs : ∀ y ∈ xs, cell' (next y) = cell (next y) ∧ pprev' y = pprev y) : BackChain next cell' pprev' c xs := by
  refine h.rehang (hc.trans h.cell_eq) (fun y hy => ?_) (fun y hy => (hxs y hy).1) fun y hy => (hxs y (mem_of_mem_tail hy)).2
  cases xs with
  | nil => cases hy
  | cons x xs =>
    obtain rfl : x = y := Option.some.inj hy
    exact (hxs x mem_cons_self).2.trans h.2.1

/-! ## Disjointness -/

/-- A record comes once, if the chain does not start inside of itself. -/
theorem BackChain.nodup (hinj : Function.Injective next) (h : BackChain next cell pprev c xs) (hc : ∀ y ∈ xs, c ≠ next y) :
    xs.Nodup := by
  induction xs generalizing c with
  | nil => exact nodup_nil
  | cons x xs ih =>
    have hx : x ∉ xs := by
      intro hmem
      -- its back link is `c`, and that of its second place is inside of the chain
      obtain ⟨as, bs, rfl⟩ := append_of_mem hmem
      have hback := h.2.2.pprev_eq
      rw [h.2.1, Option.some.injEq] at hback
      rcases endCell_mem next (next x) as with he | ⟨y, hy, he⟩
      · exact hc x mem_cons_self (hback.trans he)
      · exact hc y (mem_cons_of_mem x (mem_append_left _ hy)) (hback.trans he)
    exact nodup_cons.2 ⟨hx, ih h.2.2 fun y hy he => hx (hinj he ▸ hy)⟩

/-- Back from a common record, two chains have the same records and start from the same cell. -/
theorem BackChain.apart (hinj : Function.Injective next) {bs cs : List N} (hd : ∀ y, d ≠ next y) (hc : ∀ y, c ≠ next y) :
    BackChain next cell pprev c (xs ++ x :: bs) → BackChain next cell pprev d (ys ++ x :: cs) → c = d := by
  induction xs using reverseRecOn generalizing x ys bs cs with
  | nil =>
    intro h h'
    have hback := h.pprev_eq.symm.trans h'.pprev_eq
    rw [endCell_nil, Option.some.injEq] at hback
    rcases endCell_mem next d ys with he | ⟨y, -, he⟩
    · exact hback.trans he
    · exact absurd (hback.trans he) (hc y)
  | append_singleton xs y ih =>
    intro h h'
    have hback := h.pprev_eq.symm.trans h'.pprev_eq
    rw [endCell_concat, Option.some.injEq] at hback
    rcases eq_nil_or_concat' ys with rfl | ⟨as, z, rfl⟩
    · exact absurd hback.symm (hd y)
    · rw [endCell_concat] at hback
      obtain rfl := hinj hback
      rw [append_assoc] at h h'
      exact ih h h'

end MgStd.Lib
