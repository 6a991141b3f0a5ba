import Mathlib.Data.List.Induction
import Mathlib.Data.List.Pairwise
/-!
# Comparison functions

A C comparison function returns an `int` whose sign says how its arguments
compare. `TotalPreorder cmp` says that the signs come from a total preorder.
-/

namespace MgStd.Lib

variable {A : Type}

structure TotalPreorder (cmp : A → A → Int) : Prop where
  swap : ∀ a b, cmp a b < 0 ↔ 0 < cmp b a
  trans : ∀ a b c, cmp a b ≤ 0 → cmp b c ≤ 0 → cmp a c ≤ 0

/-- The order of integer keys. -/
theorem TotalPreorder.of_key (key : A → Int) : TotalPreorder fun a b => key a - key b :=
  ⟨fun a b => by omega, fun a b c => by omega⟩

namespace TotalPreorder
variable {cmp : A → A → Int} (hc : TotalPreorder cmp)
include hc

theorem le_iff (a b : A) : cmp a b ≤ 0 ↔ 0 ≤ cmp b a := by
  have := hc.swap b a
  omega

theorem eq_symm {a b : A} (h : cmp a b = 0) : cmp b a = 0 := by
  have h₁ := hc.swap a b
  have h₂ := hc.swap b a
  omega

theorem refl (a : A) : cmp a a = 0 := by
  have := hc.swap a a
  omega

theorem lt_of_lt_of_le {a b c : A} (h₁ : cmp a b < 0) (h₂ : cmp b c ≤ 0) : cmp a c < 0 := by
  by_contra h
  have h₃ : cmp c a ≤ 0 := (hc.le_iff c a).2 (by omega)
  have h₄ := hc.trans b c a h₂ h₃
  have h₅ := hc.swap a b
  omega

theorem lt_of_le_of_lt {a b c : A} (h₁ : cmp a b ≤ 0) (h₂ : cmp b c < 0) : cmp a c < 0 := by
  by_contra h
  have h₃ : cmp c a ≤ 0 := (hc.le_iff c a).2 (by omega)
  have h₄ := hc.trans c a b h₃ h₁
  have h₅ := hc.swap b c
  omega

theorem pos_of_pos_of_le {a b c : A} (h₁ : 0 < cmp a c) (h₂ : cmp a b ≤ 0) : 0 < cmp b c :=
  (hc.swap c b).1 (hc.lt_of_lt_of_le ((hc.swap c a).2 h₁) h₂)

theorem eq_trans {a b c : A} (h₁ : cmp a b = 0) (h₂ : cmp b c = 0) : cmp a c = 0 := by
  have h₃ := hc.trans a b c (by omega) (by omega)
  have h₄ := hc.trans c b a (Int.le_of_eq (hc.eq_symm h₂)) (Int.le_of_eq (hc.eq_symm h₁))
  have h₅ := hc.le_iff c a
  omega

end TotalPreorder

/-! ## Sequences in order -/

/-- In non-decreasing order. -/
def Sorted (cmp : A → A → Int) (l : List A) : Prop := l.Pairwise fun a b => cmp a b ≤ 0

/-- In strictly increasing order. -/
def StrictSorted (cmp : A → A → Int) (l : List A) : Prop := l.Pairwise fun a b => cmp a b < 0

theorem sorted_append {cmp : A → A → Int} {l r : List A} :
    Sorted cmp (l ++ r) ↔ Sorted cmp l ∧ Sorted cmp r ∧ ∀ x ∈ l, ∀ y ∈ r, cmp x y ≤ 0 := List.pairwise_append

theorem sorted_cons {cmp : A → A → Int} {a : A} {l : List A} :
    Sorted cmp (a :: l) ↔ (∀ x ∈ l, cmp a x ≤ 0) ∧ Sorted cmp l := List.pairwise_cons

/-- A place for a new element in a sequence in order. -/
theorem Sorted.insert {cmp : A → A → Int} (hc : TotalPreorder cmp) {z : A} {l r : List A} (hs : Sorted cmp (l ++ r))
    (hl : ∀ x ∈ l, cmp x z ≤ 0) (hr : ∀ x ∈ r, 0 < cmp x z) : Sorted cmp (l ++ z :: r) := by
  obtain ⟨hsl, hsr, hlr⟩ := sorted_append.1 hs
  have hzr : ∀ x ∈ r, cmp z x ≤ 0 := fun x hx => Int.le_of_lt ((hc.swap z x).2 (hr x hx))
  refine sorted_append.2 ⟨hsl, sorted_cons.2 ⟨hzr, hsr⟩, fun x hx y hy => ?_⟩
  rcases List.mem_cons.1 hy with rfl | hy
  · exact hl x hx
  · exact hlr x hx y hy

theorem StrictSorted.sorted {cmp : A → A → Int} {l : List A} (h : StrictSorted cmp l) : Sorted cmp l :=
  h.imp fun h => Int.le_of_lt h

section
variable {cmp : A → A → Int} {l r : List A} {x y z : A}

theorem StrictSorted.erase (hs : StrictSorted cmp (l ++ x :: r)) : StrictSorted cmp (l ++ r) :=
  hs.sublist ((List.sublist_cons_self x r).append_left l)

theorem StrictSorted.lt_of_mem (hs : StrictSorted cmp (l ++ x :: r)) :
    (∀ y ∈ l, cmp y x < 0) ∧ ∀ y ∈ r, cmp x y < 0 := by
  obtain ⟨-, hr, hl⟩ := List.pairwise_append.1 hs
  exact ⟨fun y hy => hl y hy x List.mem_cons_self, (List.pairwise_cons.1 hr).1⟩

/-- What stands before an element that does not exceed `z` is less than `z`. -/
theorem StrictSorted.below (hc : TotalPreorder cmp) (hs : StrictSorted cmp (l ++ x :: r)) (hx : cmp x z ≤ 0) :
    ∀ y ∈ l, cmp y z < 0 := fun y hy => hc.lt_of_lt_of_le (hs.lt_of_mem.1 y hy) hx

theorem StrictSorted.above (hc : TotalPreorder cmp) (hs : StrictSorted cmp (l ++ x :: r)) (hx : 0 ≤ cmp x z) :
    ∀ y ∈ r, 0 < cmp y z := by
  intro y hy
  have hzx : cmp z x ≤ 0 := (hc.le_iff z x).2 hx
  exact (hc.swap z y).1 (hc.lt_of_le_of_lt hzx (hs.lt_of_mem.2 y hy))

/-- What compares equal to `z` stands on the side of `z`. -/
theorem StrictSorted.mem_before (hc : TotalPreorder cmp) (hs : StrictSorted cmp (l ++ x :: r)) (hx : 0 < cmp x z)
    (hy : y ∈ l ++ x :: r) (hyz : cmp y z = 0) : y ∈ l := by
  rcases List.mem_append.1 hy with hy | hy
  · exact hy
  rcases List.mem_cons.1 hy with rfl | hy
  · exact absurd hyz (Int.ne_of_gt hx)
  · exact absurd hyz (Int.ne_of_gt (hs.above hc (Int.le_of_lt hx) y hy))

theorem StrictSorted.mem_after (hc : TotalPreorder cmp) (hs : StrictSorted cmp (l ++ x :: r)) (hx : cmp x z < 0)
    (hy : y ∈ l ++ x :: r) (hyz : cmp y z = 0) : y ∈ r := by
  rcases List.mem_append.1 hy with hy | hy
  · exact absurd hyz (Int.ne_of_lt (hs.below hc (Int.le_of_lt hx) y hy))
  rcases List.mem_cons.1 hy with rfl | hy
  · exact absurd hyz (Int.ne_of_lt hx)
  · exact hy

/-- A place for a new element in a strict order. -/
theorem StrictSorted.insert (hc : TotalPreorder cmp) (hs : StrictSorted cmp (l ++ r)) (hl : ∀ x ∈ l, cmp x z < 0)
    (hr : ∀ x ∈ r, 0 < cmp x z) : StrictSorted cmp (l ++ z :: r) := by
  obtain ⟨hsl, hsr, hlr⟩ := List.pairwise_append.1 hs
  have hzr : ∀ x ∈ r, cmp z x < 0 := fun x hx => (hc.swap z x).2 (hr x hx)
  refine List.pairwise_append.2 ⟨hsl, List.pairwise_cons.2 ⟨hzr, hsr⟩, fun x hx y hy => ?_⟩
  rcases List.mem_cons.1 hy with rfl | hy
  · exact hl x hx
  · exact hlr x hx y hy

/-- In a strict order no two elements compare equal. -/
theorem StrictSorted.eq_of (hc : TotalPreorder cmp) (hs : StrictSorted cmp l) (hx : x ∈ l) (hy : y ∈ l) (h : cmp x y = 0) :
    x = y := by
  obtain ⟨s, t, rfl⟩ := List.append_of_mem hx
  obtain ⟨hbefore, hafter⟩ := hs.lt_of_mem
  rcases List.mem_append.1 hy with hy | hy
  · have := hbefore y hy
    have := hc.eq_symm h
    omega
  · rcases List.mem_cons.1 hy with rfl | hy
    · rfl
    · have := hafter y hy
      omega

end

/-! ## The first of each key -/

/-- `x` stands in `l` before every other element that compares equal. -/
def FirstOfKey (cmp : A → A → Int) (l : List A) (x : A) : Prop :=
  ∃ pre post, l = pre ++ x :: post ∧ ∀ y ∈ pre, cmp y x ≠ 0

section
variable {cmp : A → A → Int} {l : List A} {x y z : A}

theorem FirstOfKey.mem (h : FirstOfKey cmp l x) : x ∈ l := by
  obtain ⟨pre, post, rfl, -⟩ := h
  simp

theorem not_firstOfKey_nil : ¬ FirstOfKey cmp [] x := fun h => by simpa using h.mem

theorem firstOfKey_concat : FirstOfKey cmp (l ++ [z]) x ↔ FirstOfKey cmp l x ∨ x = z ∧ ∀ y ∈ l, cmp y z ≠ 0 := by
  constructor
  · rintro ⟨pre, post, heq, hpre⟩
    obtain rfl | ⟨post, w, rfl⟩ := List.eq_nil_or_concat post
    · obtain ⟨rfl, hx⟩ := List.append_inj' heq rfl
      cases hx
      exact .inr ⟨rfl, hpre⟩
    · rw [List.concat_eq_append, ← List.cons_append, ← List.append_assoc] at heq
      obtain ⟨rfl, -⟩ := List.append_inj' heq rfl
      exact .inl ⟨pre, post, rfl, hpre⟩
  · rintro (⟨pre, post, rfl, hpre⟩ | ⟨rfl, hl⟩)
    · exact ⟨pre, post ++ [z], by simp, hpre⟩
    · exact ⟨l, [], rfl, hl⟩

theorem exists_firstOfKey (hc : TotalPreorder cmp) (hy : y ∈ l) : ∃ x, FirstOfKey cmp l x ∧ cmp x y = 0 := by
  induction l using List.reverseRecOn generalizing y with
  | nil => simp at hy
  | append_singleton l z ih =>
    have hl : ∀ y ∈ l, ∃ x, FirstOfKey cmp (l ++ [z]) x ∧ cmp x y = 0 := fun y hy =>
      (ih hy).imp fun x hx => ⟨firstOfKey_concat.2 (.inl hx.1), hx.2⟩
    rcases List.mem_append.1 hy with hy | hy
    · exact hl y hy
    · obtain rfl := List.mem_singleton.1 hy
      by_cases hold : ∃ w ∈ l, cmp w y = 0
      · obtain ⟨w, hw, hwy⟩ := hold
        obtain ⟨x, hx, hxw⟩ := hl w hw
        exact ⟨x, hx, hc.eq_trans hxw hwy⟩
      · exact ⟨y, firstOfKey_concat.2 (.inr ⟨rfl, fun w hw hwy => hold ⟨w, hw, hwy⟩⟩), hc.refl y⟩

/-- The elements of `m` are the first of each key in `l`. -/
def Firsts (cmp : A → A → Int) (l m : List A) : Prop := ∀ x, x ∈ m ↔ FirstOfKey cmp l x

theorem Firsts.present_iff {m : List A} (hc : TotalPreorder cmp) (hf : Firsts cmp l m) (q : A) :
    (∃ x ∈ m, cmp x q = 0) ↔ ∃ x ∈ l, cmp x q = 0 := by
  constructor
  · rintro ⟨x, hx, hxq⟩
    exact ⟨x, ((hf x).1 hx).mem, hxq⟩
  · rintro ⟨y, hy, hyq⟩
    obtain ⟨x, hx, hxy⟩ := exists_firstOfKey hc hy
    exact ⟨x, (hf x).2 hx, hc.eq_trans hxy hyq⟩

theorem Firsts.old {m : List A} (hf : Firsts cmp l m) (hz : ∃ y ∈ l, cmp y z = 0) : Firsts cmp (l ++ [z]) m := by
  intro x
  obtain ⟨y, hy, hyz⟩ := hz
  rw [hf x, firstOfKey_concat, or_iff_left]
  exact fun hx => hx.2 y hy hyz

theorem Firsts.new {m m' : List A} (hf : Firsts cmp l m) (hz : ∀ y ∈ l, cmp y z ≠ 0) (hm : ∀ x, x ∈ m' ↔ x = z ∨ x ∈ m) :
    Firsts cmp (l ++ [z]) m' := by
  intro x
  rw [hm, hf x, firstOfKey_concat]
  tauto

end

end MgStd.Lib
