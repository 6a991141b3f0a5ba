import Mathlib.Data.Int.ModEq
import Mathlib.Algebra.BigOperators.Group.List.Basic
/-!
# One's complement sums

Numbers up to `m`, the word of all ones, are added with end-around carry. Up to
the two words for zero this is addition modulo `m`: a word is known from its
residue, and from whether it is zero.
-/

namespace MgStd.Lib

open List

variable {m a b r r' s : Nat} {xs : List Nat}

/-- The carry is added at the low end. -/
def endAround (m a b : Nat) : Nat := if a + b ≤ m then a + b else a + b - m

def onesSum (m : Nat) (xs : List Nat) : Nat := xs.foldl (endAround m) 0

/-- The word `r` stands for the number `s`. -/
structure OnesWord (m r s : Nat) : Prop where
  le : r ≤ m
  mod : r ≡ s [MOD m]
  zero : r = 0 ↔ s = 0

/-- The two words of residue zero. -/
theorem OnesWord.eq_of_ones (h : OnesWord m r s) (hones : OnesWord m m s) : r = m := by
  have hself : m ≡ 0 [MOD m] := Nat.modEq_zero_iff_dvd.2 (Nat.dvd_refl m)
  have hr : r ≡ 0 [MOD m] := (h.mod.trans hones.mod.symm).trans hself
  have hle := h.le
  by_contra hne
  have hr0 : r = 0 := Nat.eq_zero_of_dvd_of_lt (Nat.modEq_zero_iff_dvd.1 hr) (Nat.lt_of_le_of_ne hle hne)
  have hm0 : m = 0 := hones.zero.2 (h.zero.1 hr0)
  omega

theorem OnesWord.unique (h : OnesWord m r s) (h' : OnesWord m r' s) : r = r' := by
  rcases Nat.lt_or_eq_of_le h.le with hlt | rfl
  · rcases Nat.lt_or_eq_of_le h'.le with hlt' | rfl
    · exact (h.mod.trans h'.mod.symm).eq_of_lt_of_lt hlt hlt'
    · exact h.eq_of_ones h'
  · exact (h'.eq_of_ones h).symm

theorem endAround_word (ha : a ≤ m) (hb : b ≤ m) : OnesWord m (endAround m a b) (a + b) := by
  unfold endAround
  split
  · next hle => exact ⟨hle, Nat.ModEq.refl _, Iff.rfl⟩
  · next hlt =>
    refine ⟨by omega, ?_, by omega⟩
    rw [Nat.modEq_iff_dvd' (by omega), show a + b - (a + b - m) = m by omega]

theorem OnesWord.add (h : OnesWord m r s) (ha : a ≤ m) : OnesWord m (endAround m r a) (s + a) := by
  have hadd := endAround_word h.le ha
  have hzero := h.zero
  refine ⟨hadd.le, hadd.mod.trans (h.mod.add_right a), hadd.zero.trans ?_⟩
  omega

theorem onesWord_foldl (h : OnesWord m r s) (hxs : ∀ x ∈ xs, x ≤ m) : OnesWord m (xs.foldl (endAround m) r) (s + xs.sum) := by
  induction xs generalizing r s with
  | nil => exact h
  | cons x xs ih =>
    rw [foldl_cons, sum_cons, ← Nat.add_assoc]
    exact ih (h.add (hxs x mem_cons_self)) fun y hy => hxs y (mem_cons_of_mem x hy)

/-- The one's complement sum is the word of the sum. -/
theorem onesWord_onesSum (hxs : ∀ x ∈ xs, x ≤ m) : OnesWord m (onesSum m xs) xs.sum := by
  have hzero : OnesWord m 0 0 := ⟨Nat.zero_le m, Nat.ModEq.refl 0, Iff.rfl⟩
  have hsum := onesWord_foldl hzero hxs
  rwa [Nat.zero_add] at hsum

/-- What the complement of a word adds to its number makes the word of all ones. -/
theorem onesWord_complement (h : OnesWord m r s) (hm : 0 < m) : OnesWord m m (s + (m - r)) := by
  have hle := h.le
  have hzero := h.zero
  refine ⟨Nat.le_refl m, ?_, ?_⟩
  · have hadd : r + (m - r) ≡ s + (m - r) [MOD m] := h.mod.add_right _
    rwa [Nat.add_sub_cancel' hle] at hadd
  · constructor
    · omega
    · omega

/-- The high part of a number added to the low part. -/
def foldCarry (m s : Nat) : Nat := s / (m + 1) + s % (m + 1)

theorem foldCarry_mod : foldCarry m s ≡ s [MOD m] := by
  have hsplit := Nat.div_add_mod s (m + 1)
  have hmod : s / (m + 1) + s % (m + 1) ≡ (m + 1) * (s / (m + 1)) + s % (m + 1) [MOD m] := by
    refine Nat.ModEq.add_right _ ?_
    rw [Nat.add_mul, Nat.one_mul]
    exact (Nat.modEq_iff_dvd' (Nat.le_add_left _ _)).2 (by rw [Nat.add_sub_cancel]; exact Nat.dvd_mul_right m _)
  rwa [hsplit] at hmod

theorem foldCarry_zero : foldCarry m s = 0 ↔ s = 0 := by
  have hsplit := Nat.div_add_mod s (m + 1)
  unfold foldCarry
  constructor
  · intro h
    rw [(Nat.add_eq_zero_iff.1 h).1, (Nat.add_eq_zero_iff.1 h).2] at hsplit
    exact hsplit.symm
  · rintro rfl
    rw [Nat.zero_div, Nat.zero_mod]

/-- Folding twice is enough for a number of two words, up to a carry that the first fold leaves. -/
theorem foldCarry_twice (h : s < (m + 1) * (m + 1)) (hm : 0 < m) :
    OnesWord m ((foldCarry m s + foldCarry m s / (m + 1)) % (m + 1)) s := by
  have hhigh : s / (m + 1) ≤ m := Nat.lt_succ_iff.1 (Nat.div_lt_of_lt_mul h)
  have hlow : s % (m + 1) ≤ m := Nat.lt_succ_iff.1 (Nat.mod_lt s (Nat.succ_pos m))
  have hword := endAround_word hhigh hlow
  have hmod : foldCarry m s ≡ s [MOD m] := foldCarry_mod
  have hzero : foldCarry m s = 0 ↔ s = 0 := foldCarry_zero
  have hfold : (foldCarry m s + foldCarry m s / (m + 1)) % (m + 1) = endAround m (s / (m + 1)) (s % (m + 1)) := by
    unfold foldCarry endAround
    split
    · next hle => rw [Nat.div_eq_of_lt (Nat.lt_succ_of_le hle), Nat.add_zero, Nat.mod_eq_of_lt (Nat.lt_succ_of_le hle)]
    · next hgt =>
      have hone : (s / (m + 1) + s % (m + 1)) / (m + 1) = 1 := by
        rw [Nat.div_eq_iff (Nat.succ_pos m)]
        omega
      rw [hone, Nat.mod_eq_sub_mod (by omega), Nat.mod_eq_of_lt (by omega)]
      omega
  rw [hfold]
  exact ⟨hword.le, hword.mod.trans hmod, hword.zero.trans hzero⟩

end MgStd.Lib
