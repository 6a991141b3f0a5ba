import Mathlib.FieldTheory.Finite.Basic
/-!
# Powers modulo two primes

An exponent that is 1 modulo `(p - 1) * (q - 1)` leaves every number as it is,
modulo `p * q`, and not only those without a common divisor.
-/

namespace MgStd.Lib

variable {p q k m t e d d' : Nat}

theorem pow_modEq_prime (hp : p.Prime) (hk : k ≡ 1 [MOD p - 1]) (h1 : 1 ≤ k) : m ^ k ≡ m [MOD p] := by
  by_cases hm : p ∣ m
  · have hzero : m ≡ 0 [MOD p] := Nat.modEq_zero_iff_dvd.2 hm
    have hpow : m ^ k ≡ 0 [MOD p] := Nat.modEq_zero_iff_dvd.2 (dvd_pow hm (Nat.one_le_iff_ne_zero.1 h1))
    exact hpow.trans hzero.symm
  · obtain ⟨j, hj⟩ := (Nat.modEq_iff_dvd' h1).1 hk.symm
    have hfermat : m ^ (p - 1) ≡ 1 [MOD p] := by
      have hcop : m.Coprime p := ((Nat.Prime.coprime_iff_not_dvd hp).2 hm).symm
      have htot := Nat.ModEq.pow_totient hcop
      rwa [Nat.totient_prime hp] at htot
    have hsplit : m ^ k = (m ^ (p - 1)) ^ j * m := by
      rw [← pow_mul, ← hj, ← pow_succ, Nat.sub_add_cancel h1]
    have hpow : (m ^ (p - 1)) ^ j * m ≡ 1 ^ j * m [MOD p] := (hfermat.pow j).mul_right m
    rwa [← hsplit, one_pow, one_mul] at hpow

theorem pow_modEq_primes (hp : p.Prime) (hq : q.Prime) (hne : p ≠ q) (hk : k ≡ 1 [MOD (p - 1) * (q - 1)]) (h1 : 1 ≤ k) :
    m ^ k ≡ m [MOD p * q] := by
  have hcop : p.Coprime q := (Nat.coprime_primes hp hq).2 hne
  apply (Nat.modEq_and_modEq_iff_modEq_mul hcop).1
  exact ⟨pow_modEq_prime hp (hk.of_mul_right _) h1, pow_modEq_prime hq (hk.of_mul_left _) h1⟩

/-! ## Inverses -/

/-- A number with an inverse has no common divisor with the modulus. -/
theorem coprime_of_inverse (h : e * d % t = 1) : e.Coprime t := by
  apply Nat.Coprime.coprime_mul_right (k := d)
  rw [Nat.Coprime, Nat.gcd_comm, Nat.gcd_rec, h]
  exact Nat.gcd_one_left t

theorem inverse_unique (h : e * d % t = 1) (h' : e * d' % t = 1) (hd : d < t) (hd' : d' < t) : d = d' := by
  have hcop : t.gcd e = 1 := (coprime_of_inverse h).symm
  have heq : e * d ≡ e * d' [MOD t] := h.trans h'.symm
  exact (Nat.ModEq.cancel_left_of_coprime hcop heq).eq_of_lt_of_lt hd hd'

theorem exists_inverse (ht : 1 < t) (h : e.Coprime t) : ∃ d, 1 ≤ d ∧ d < t ∧ e * d % t = 1 := by
  obtain ⟨d, hlt, hd⟩ := Nat.exists_mul_mod_eq_one_of_coprime h ht
  refine ⟨d, Nat.one_le_iff_ne_zero.2 ?_, hlt, hd⟩
  rintro rfl
  rw [Nat.mul_zero, Nat.zero_mod] at hd
  cases hd

end MgStd.Lib
