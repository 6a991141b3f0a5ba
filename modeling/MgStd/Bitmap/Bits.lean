import MgStd.Bitmap.Code
/-!
# Single bits

The word and the mask of a number pick a bit of their own for each number, and
testing, setting and clearing it leave the other bits alone.
-/

namespace MgStd.Bitmap

open MgStd.Lib

variable {len : Nat} {bm bm' : Mgbitmap len} {m n i : Nat}

theorem wordOf_eq (n : Nat) : wordOf n = n / 4 := Nat.shiftRight_eq_div_pow n 2

theorem bitOf_eq (n : Nat) : n &&& 0x0F = n % 16 := Nat.and_two_pow_sub_one_eq_mod n 4

/-- Two different numbers have different bits. -/
theorem address_inj (hword : wordOf m = wordOf n) (hbit : m &&& 0x0F = n &&& 0x0F) : m = n := by
  rw [wordOf_eq, wordOf_eq] at hword
  rw [bitOf_eq, bitOf_eq] at hbit
  omega

theorem getLsbD_maskOf (hi : i < 16) : (maskOf n).getLsbD i = decide (i = n % 16) := by
  unfold maskOf
  rw [bitOf_eq, BitVec.getLsbD_shiftLeft, BitVec.getLsbD_one, Bool.eq_iff_iff]
  simp only [hi, decide_true, Bool.true_and, Bool.and_eq_true, Bool.not_eq_true', decide_eq_false_iff_not,
    decide_eq_true_eq]
  omega

/-- The bit of `n`. -/
def Mgbitmap.bit (bm : Mgbitmap len) (n : Nat) : Bool :=
  if h : wordOf n < len then (bm.map ⟨wordOf n, h⟩).getLsbD (n % 16) else false

theorem and_maskOf {w : BitVec 16} : w &&& maskOf n ≠ 0 ↔ w.getLsbD (n % 16) = true := by
  have hlt : n % 16 < 16 := Nat.mod_lt _ (by omega)
  constructor
  · intro hne
    by_contra hb
    apply hne
    apply BitVec.eq_of_getLsbD_eq
    intro i hi
    rw [BitVec.getLsbD_and, getLsbD_maskOf hi]
    by_cases he : i = n % 16
    · rw [he, Bool.eq_false_iff.2 hb]
      simp
    · simp [he]
  · intro hb hz
    have := congrArg (·.getLsbD (n % 16)) hz
    simp [BitVec.getLsbD_and, getLsbD_maskOf hlt, hb] at this

/-- `bm'` is `bm` with the bit of `n` made `v`. -/
structure Marked (bm : Mgbitmap len) (n : Nat) (v : Bool) (bm' : Mgbitmap len) : Prop where
  last : bm'.last = bm.last
  min : bm'.min = bm.min
  max : bm'.max = bm.max
  bit : ∀ m, wordOf m < len → bm'.bit m = if m = n then v else bm.bit m

/-- A word written with the bit of `n` changed only. -/
theorem marked_write {v : Bool} {w : BitVec 16} (hn : wordOf n < len) (hself : w.getLsbD (n % 16) = v)
    (hother : ∀ i < 16, i ≠ n % 16 → w.getLsbD i = (bm.map ⟨wordOf n, hn⟩).getLsbD i) :
    Marked bm n v { bm with map := Function.update bm.map ⟨wordOf n, hn⟩ w } := by
  refine ⟨rfl, rfl, rfl, fun m hm => ?_⟩
  unfold Mgbitmap.bit
  rw [dif_pos hm, dif_pos hm]
  change (Function.update bm.map ⟨wordOf n, hn⟩ w ⟨wordOf m, hm⟩).getLsbD (m % 16) = _
  by_cases hw : wordOf m = wordOf n
  · have he : (⟨wordOf m, hm⟩ : Fin len) = ⟨wordOf n, hn⟩ := Fin.ext hw
    rw [he, Function.update_self]
    by_cases hmn : m = n
    · rw [if_pos hmn, hmn, hself]
    · have hne : m % 16 ≠ n % 16 := fun e => hmn (address_inj hw (by rw [bitOf_eq, bitOf_eq, e]))
      rw [if_neg hmn, hother _ (Nat.mod_lt _ (by omega)) hne]
  · have hmn : m ≠ n := fun e => hw (by rw [e])
    rw [if_neg hmn, Function.update_of_ne fun e => hw (Fin.mk.inj e)]

/-- `test_and_set_bit` tells whether the bit was clear, and sets it. -/
theorem returns_testAndSetBit (hn : wordOf n < len) : Returns (testAndSetBit n) bm fun r bm' =>
    (bm.bit n = true ∧ r = false ∧ bm' = bm) ∨ (bm.bit n = false ∧ r = true ∧ Marked bm n true bm') := by
  unfold testAndSetBit readWord writeWord
  have hbit : bm.bit n = (bm.map ⟨wordOf n, hn⟩).getLsbD (n % 16) := dif_pos hn
  simp only [hn, dite_true, returns_bind, returns_get, returns_pure, returns_ite, returns_modify, and_maskOf, ← hbit]
  refine ⟨fun h => .inl ⟨h, trivial, trivial⟩, fun h => .inr ⟨by simpa using h, trivial, ?_⟩⟩
  apply marked_write hn
  · rw [BitVec.getLsbD_or, getLsbD_maskOf (Nat.mod_lt _ (by omega))]
    simp
  · intro i hi hne
    rw [BitVec.getLsbD_or, getLsbD_maskOf hi]
    simp [hne]

theorem ensures_testAndSetBit : Ensures (testAndSetBit n) bm fun r bm' => wordOf n < len ∧
    ((bm.bit n = true ∧ r = false ∧ bm' = bm) ∨ (bm.bit n = false ∧ r = true ∧ Marked bm n true bm')) := by
  by_cases hn : wordOf n < len
  · exact (returns_testAndSetBit hn).ensures.mono fun r bm' h => ⟨hn, h⟩
  · unfold testAndSetBit readWord
    simp [hn]

theorem returns_mgbitmapFree (hn : wordOf n < len) : Returns (mgbitmapFree n) bm fun _ bm' => Marked bm n false bm' := by
  unfold mgbitmapFree readWord writeWord
  simp only [hn, dite_true, returns_bind, returns_get, returns_pure, returns_modify]
  apply marked_write hn
  · rw [BitVec.getLsbD_and, BitVec.getLsbD_not, getLsbD_maskOf (Nat.mod_lt _ (by omega))]
    simp
  · intro i hi hne
    rw [BitVec.getLsbD_and, BitVec.getLsbD_not, getLsbD_maskOf hi]
    simp [hne, hi]

theorem mgbitmapFree_bounds (hn : ¬ wordOf n < len) : mgbitmapFree n bm = .error .bounds := by
  unfold mgbitmapFree readWord
  simp [hn, fault, bind, StateT.bind, Except.bind]

theorem ensures_mgbitmapFree : Ensures (mgbitmapFree n) bm fun _ bm' => Marked bm n false bm' := by
  by_cases hn : wordOf n < len
  · exact (returns_mgbitmapFree hn).ensures
  · intro a s' h
    rw [mgbitmapFree_bounds hn] at h
    cases h

end MgStd.Bitmap
