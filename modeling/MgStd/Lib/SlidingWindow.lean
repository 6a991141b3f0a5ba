import MgStd.Lib.Bytes
/-!
# A window over the end of a sequence of bytes

A sequence grows at its end, and a block of fixed size holds the last bytes of it,
each at its index modulo the size.
-/

namespace MgStd.Lib

open List

/-- `window` holds the last bytes of `out`. -/
def HoldsEnd (window out : List UInt8) : Prop :=
  ∀ i, i < out.length → out.length ≤ i + window.length → window[i % window.length]? = out[i]?

variable {window out bytes : List UInt8} {a n d : Nat}

theorem holdsEnd_nil (window : List UInt8) : HoldsEnd window [] := fun _ hi => absurd hi (Nat.not_lt_zero _)

theorem add_mod_of_lt {m k : Nat} (h : a % m + k < m) : (a + k) % m = a % m + k := by
  rw [Nat.add_mod, Nat.mod_eq_of_lt (show k < m by omega), Nat.mod_eq_of_lt h]

theorem getElem?_memcpy (off i : Nat) (src : List UInt8) (h : off + src.length ≤ window.length) :
    (memcpy window off src)[i]? = if off ≤ i ∧ i < off + src.length then src[i - off]? else window[i]? := by
  have hhead : (window.take off).length = off := by rw [length_take]; omega
  unfold memcpy
  by_cases h₁ : i < off
  · rw [append_assoc, getElem?_append_left (by omega), getElem?_take_of_lt h₁, if_neg (by omega)]
  · by_cases h₂ : i < off + src.length
    · rw [getElem?_append_left (by rw [length_append]; omega), getElem?_append_right (by omega), hhead, if_pos (by omega)]
    · rw [getElem?_append_right (by rw [length_append]; omega), length_append, hhead, getElem?_drop, if_neg (by omega),
        Nat.add_sub_cancel' (by omega)]

/-- Bytes are written at the place of the end, and fit there. -/
theorem HoldsEnd.write (h : HoldsEnd window out) (hfits : out.length % window.length + bytes.length ≤ window.length) :
    HoldsEnd (memcpy window (out.length % window.length) bytes) (out ++ bytes) := by
  intro i hi hlast
  rw [length_append] at hi hlast
  rw [length_memcpy hfits] at hlast ⊢
  rw [getElem?_memcpy _ _ _ hfits]
  by_cases hnew : out.length ≤ i
  · have hmod : i % window.length = out.length % window.length + (i - out.length) := by
      rw [← add_mod_of_lt (by omega), Nat.add_sub_cancel' hnew]
    rw [if_pos (by omega), hmod, getElem?_append_right hnew, Nat.add_sub_cancel_left]
  · have hpos : 0 < window.length := by omega
    have hold : ¬(out.length % window.length ≤ i % window.length ∧ i % window.length < out.length % window.length + bytes.length) := by
      -- Two indices of one residue are at least the size of the window apart.
      rintro ⟨hle, hlt⟩
      obtain ⟨t, ht⟩ := Nat.exists_eq_add_of_le hle
      have hsame : (out.length + t) % window.length = i % window.length := by rw [add_mod_of_lt (by omega), ht]
      have hdvd := Nat.le_of_dvd (by omega) (Nat.dvd_of_mod_eq_zero (Nat.sub_mod_eq_zero_of_mod_eq hsame))
      omega
    rw [if_neg hold, getElem?_append_left (by omega)]
    exact h i (by omega) (by omega)

/-- The byte that lies `d` behind the end. -/
theorem HoldsEnd.back (h : HoldsEnd window out) (hpos : 0 < d) (hlen : d ≤ out.length) (hsize : d ≤ window.length) :
    window[(out.length - d) % window.length]? = out[out.length - d]? := h _ (by omega) (by omega)

/-- A piece of the window that does not go beyond its end. -/
theorem HoldsEnd.segment (h : HoldsEnd window out) (hlen : a + n ≤ out.length) (hsize : out.length ≤ a + window.length)
    (hfits : a % window.length + n ≤ window.length) : (window.drop (a % window.length)).take n = (out.drop a).take n := by
  apply ext_getElem?
  intro i
  by_cases hi : i < n
  · have hmod : (a + i) % window.length = a % window.length + i := add_mod_of_lt (by omega)
    rw [getElem?_take_of_lt hi, getElem?_take_of_lt hi, getElem?_drop, getElem?_drop, ← hmod]
    exact h _ (by omega) (by omega)
  · rw [getElem?_take_eq_none (by omega), getElem?_take_eq_none (by omega)]

end MgStd.Lib
