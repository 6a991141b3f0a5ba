import MgStd.Lib.PrimePowers
import MgStd.Rsa.Code
import Mathlib.Data.Int.Basic
import Mathlib.Tactic.NormNum.Prime
/-!
# Encrypting and decrypting

`candp` computes a power, as long as every product fits in an `int`, and the search
finds the inverse of `e`, if there is one and the products up to it fit. The
range of `e` that `main` checks is not enough for the one, nor is an `n` that
fits for the other.
-/

namespace MgStd.Rsa

open MgStd.Lib

variable {a b c d e k m n p q t x : Nat} {again v : Int}

theorem ok_bind {α β : Type} (a : α) (f : α → Except Trap β) : (Except.ok a >>= f) = f a := rfl

theorem error_bind {α β : Type} (e : Trap) (f : α → Except Trap β) : (Except.error e >>= f) = Except.error e := rfl

theorem int_ok (h : n < 2 ^ 31) : int n = .ok (n : Int) := by
  apply if_pos
  omega

theorem int_overflow (h : 2 ^ 31 ≤ n) : int n = .error .overflow := by
  apply if_neg
  omega

theorem rem_nat (h : 0 < c) : rem a c = .ok ((a % c : Nat) : Int) := by
  rw [rem, if_neg (by omega), if_neg (by omega), Int.ofNat_tmod]

/-! ## Powers -/

/-- The products that `candp(a, b, n)` computes. -/
def Fits (a b n : Nat) : Prop := ∀ i < b, a ^ i % n * a < 2 ^ 31

theorem candpLoop_iff (hn : 1 < n) : candpLoop a n b ((a ^ k % n : Nat) : Int) = .ok v ↔
    (∀ i < b, a ^ (k + i) % n * a < 2 ^ 31) ∧ v = (a ^ (k + b) % n : Nat) := by
  induction b generalizing k with
  | zero =>
    rw [candpLoop, Except.ok.injEq, Nat.add_zero]
    exact ⟨fun h => ⟨nofun, h.symm⟩, fun h => h.2.symm⟩
  | succ b ih =>
    have hnext : a ^ k % n * a % n = a ^ (k + 1) % n := by
      rw [Nat.pow_succ, Nat.mul_mod, Nat.mod_mod, ← Nat.mul_mod]
    have hshift : ∀ i, k + 1 + i = k + (i + 1) := fun i => by omega
    rw [candpLoop, ← Int.natCast_mul, Nat.forall_lt_succ_left, Nat.add_zero]
    by_cases hfit : a ^ k % n * a < 2 ^ 31
    · rw [int_ok hfit, ok_bind, rem_nat (Nat.lt_trans Nat.one_pos hn), ok_bind, hnext, ih]
      simp only [hshift, hfit, true_and]
    · rw [int_overflow (Nat.not_lt.1 hfit), error_bind]
      exact iff_of_false nofun fun h => hfit h.1.1

theorem candp_iff (hn : 1 < n) (hb : b + 1 < 2 ^ 31) : candp a b n = .ok v ↔ Fits a b n ∧ v = (a ^ b % n : Nat) := by
  have hone : ((a ^ 0 % n : Nat) : Int) = 1 := by
    rw [Nat.pow_zero, Nat.mod_eq_of_lt hn]
    rfl
  have hloop := candpLoop_iff (a := a) (b := b) (k := 0) (v := v) hn
  rw [hone] at hloop
  simp only [Nat.zero_add] at hloop
  have hinc : int ((b : Int) + 1) = .ok ((b + 1 : Nat) : Int) := int_ok hb
  have hpos : ¬ ((b + 1 : Nat) : Int) < 1 := by omega
  have hrounds : (((b + 1 : Nat) : Int) - 1).toNat = b := by omega
  rw [candp, hinc, ok_bind, if_neg hpos, hrounds]
  exact hloop

/-! ## The search -/

/-- What the search is for. -/
structure Inverse (e t d : Nat) : Prop where
  one_le : 1 ≤ d
  lt : d < t
  mod : e * d % t = 1

theorem searchLoop_found (ht : 0 < t) (hfit : e * d < 2 ^ 31) (h : e * d % t = 1) : searchLoop e t (n + 1) d = .ok (d : Int) := by
  rw [searchLoop, ← Int.natCast_mul, int_ok hfit, ok_bind, rem_nat ht, ok_bind, h]
  rfl

theorem searchLoop_next (ht : 0 < t) (hfit : e * d < 2 ^ 31) (h : e * d % t ≠ 1) :
    searchLoop e t (n + 1) d = (do let d ← int ((d + 1 : Nat) : Int); searchLoop e t n d) := by
  have hnot : ((e * d % t : Nat) : Int) ≠ 1 := by omega
  rw [searchLoop, ← Int.natCast_mul, int_ok hfit, ok_bind, rem_nat ht, ok_bind, if_pos hnot]
  rfl

theorem searchLoop_ok (ht : 0 < t) (he : 1 ≤ e) (hfit : e * (d + k) < 2 ^ 31) (hno : ∀ i < k, e * (d + i) % t ≠ 1)
    (hyes : e * (d + k) % t = 1) (hn : k < n) : searchLoop e t n d = .ok ((d + k : Nat) : Int) := by
  induction k generalizing d n with
  | zero =>
    obtain ⟨n, rfl⟩ := Nat.exists_eq_succ_of_ne_zero (Nat.ne_of_gt hn)
    exact searchLoop_found ht hfit hyes
  | succ k ih =>
    obtain ⟨n, rfl⟩ := Nat.exists_eq_succ_of_ne_zero (Nat.ne_of_gt (Nat.lt_of_le_of_lt (Nat.zero_le _) hn))
    have hshift : ∀ i, d + 1 + i = d + (i + 1) := fun i => by omega
    have hle : d + (k + 1) ≤ e * (d + (k + 1)) := Nat.le_mul_of_pos_left _ he
    have hlt : e * d < 2 ^ 31 := Nat.lt_of_le_of_lt (Nat.mul_le_mul_left e (Nat.le_add_right d (k + 1))) hfit
    have hd : d + 1 < 2 ^ 31 := by omega
    rw [searchLoop_next ht hlt (hno 0 (Nat.succ_pos k)), int_ok hd, ok_bind, ← hshift k]
    apply ih
    · rwa [hshift]
    · intro i hi
      rw [hshift]
      exact hno (i + 1) (Nat.succ_lt_succ hi)
    · rw [hshift]
      exact hyes
    · exact Nat.lt_of_succ_lt_succ hn

/-- Without an inverse the search goes on until a product overflows. -/
theorem searchLoop_overflow (ht : 0 < t) (hno : ∀ i, e * (d + i) < 2 ^ 31 → e * (d + i) % t ≠ 1)
    (hd : d < 2 ^ 31) (hn : 2 ^ 31 < d + n) : searchLoop e t n d = .error .overflow := by
  induction n generalizing d with
  | zero => omega
  | succ n ih =>
    by_cases hfit : e * d < 2 ^ 31
    · rw [searchLoop_next ht hfit (hno 0 hfit)]
      by_cases hd' : d + 1 < 2 ^ 31
      · rw [int_ok hd', ok_bind]
        apply ih
        · intro i
          rw [show d + 1 + i = d + (i + 1) by omega]
          exact hno (i + 1)
        · exact hd'
        · omega
      · rw [int_overflow (Nat.not_lt.1 hd'), error_bind]
    · rw [searchLoop, ← Int.natCast_mul, int_overflow (Nat.not_lt.1 hfit), error_bind]

theorem search_iff (ht : 1 < t) (he : 1 ≤ e) : search e t = .ok v ↔ ∃ d, Inverse e t d ∧ e * d < 2 ^ 31 ∧ v = (d : Nat) := by
  have ht0 : 0 < t := Nat.lt_trans Nat.one_pos ht
  have hfound : ∀ {d : Nat}, Inverse e t d → e * d < 2 ^ 31 → search e t = .ok (d : Int) := by
    intro d hd hfit
    obtain ⟨k, rfl⟩ := Nat.exists_eq_add_of_le hd.one_le
    have hle : 1 + k ≤ e * (1 + k) := Nat.le_mul_of_pos_left _ he
    apply searchLoop_ok ht0 he hfit
    · intro i hi hmod
      have hlt : 1 + i < t := Nat.lt_trans (Nat.add_lt_add_left hi 1) hd.lt
      have heq := inverse_unique hmod hd.mod hlt hd.lt
      omega
    · exact hd.mod
    · omega
  constructor
  · intro h
    by_cases hex : ∃ d, Inverse e t d ∧ e * d < 2 ^ 31
    · obtain ⟨d, hd, hfit⟩ := hex
      rw [hfound hd hfit, Except.ok.injEq] at h
      exact ⟨d, hd, hfit, h.symm⟩
    · have hno : ∀ i, e * (1 + i) < 2 ^ 31 → e * (1 + i) % t ≠ 1 := by
        -- an inverse leaves one below the modulus
        intro i hfit hmod
        have hred : e * ((1 + i) % t) % t = 1 := by
          rw [Nat.mul_mod, Nat.mod_mod, ← Nat.mul_mod]
          exact hmod
        have hpos : 1 ≤ (1 + i) % t := by
          rw [Nat.one_le_iff_ne_zero]
          intro hzero
          rw [hzero, Nat.mul_zero, Nat.zero_mod] at hred
          cases hred
        have hle : e * ((1 + i) % t) ≤ e * (1 + i) := Nat.mul_le_mul_left e (Nat.mod_le _ t)
        exact hex ⟨(1 + i) % t, ⟨hpos, Nat.mod_lt _ ht0, hred⟩, Nat.lt_of_le_of_lt hle hfit⟩
      have hover : search e t = .error .overflow := searchLoop_overflow ht0 hno (by decide) (by decide)
      rw [hover] at h
      cases h
  · rintro ⟨d, hd, hfit, rfl⟩
    exact hfound hd hfit

/-! ## Keys -/

/-- Primes and an `e` that `main` accepts. -/
structure Key (p q e : Nat) : Prop where
  primeP : p.Prime
  primeQ : q.Prime
  distinct : p ≠ q
  range : p * q < 2 ^ 31
  one_le : 1 ≤ e
  le : e ≤ (p - 1) * (q - 1)

/-- `main` encrypts `m`, and a second run decrypts what the first one printed. -/
def RoundTrip (p q e m : Nat) : Prop :=
  ∃ c, ∀ again, main p q e again 1 m = .ok (some c) ∧ main p q e again 2 c = .ok (some (m : Int))

theorem Key.bounds (h : Key p q e) : 1 < (p - 1) * (q - 1) ∧ (p - 1) * (q - 1) + 4 ≤ p * q := by
  have hp := h.primeP.two_le
  have hq := h.primeQ.two_le
  have hne := h.distinct
  obtain ⟨a, rfl⟩ := Nat.exists_eq_add_of_le' (Nat.le_of_succ_le hp)
  obtain ⟨b, rfl⟩ := Nat.exists_eq_add_of_le' (Nat.le_of_succ_le hq)
  rw [Nat.add_sub_cancel, Nat.add_sub_cancel, Nat.add_mul, Nat.mul_add, Nat.mul_one, Nat.one_mul]
  have hab : 2 ≤ a * b := by
    rcases Nat.lt_or_gt_of_ne (show a ≠ b by omega) with hlt | hlt
    · exact Nat.mul_le_mul (show 1 ≤ a by omega) (show 2 ≤ b by omega)
    · exact Nat.mul_le_mul (show 2 ≤ a by omega) (show 1 ≤ b by omega)
  omega

/-- What is left to do is the search, and one power. -/
theorem Key.main_eq (h : Key p q e) (r x : Int) :
    main p q e again r x = (search e ((p - 1) * (q - 1) : Nat) >>= fun d => output (p * q : Nat) e d r x) := by
  have hp := h.primeP.two_le
  have hq := h.primeQ.two_le
  have hbounds := h.bounds
  have hrange := h.range
  have hone := h.one_le
  have hle := h.le
  have hpn : p ≤ p * q := Nat.le_mul_of_pos_right p (by omega)
  have hqn : q ≤ p * q := Nat.le_mul_of_pos_left q (by omega)
  have hp1 : int ((p : Int) - 1) = .ok ((p - 1 : Nat) : Int) := by
    rw [← int_ok (show p - 1 < 2 ^ 31 by omega), Int.ofNat_sub (by omega)]
    rfl
  have hq1 : int ((q : Int) - 1) = .ok ((q - 1 : Nat) : Int) := by
    rw [← int_ok (show q - 1 < 2 ^ 31 by omega), Int.ofNat_sub (by omega)]
    rfl
  have hcheck : ¬ ((e : Int) < 1 ∨ (((p - 1) * (q - 1) : Nat) : Int) < (e : Int)) := by omega
  unfold main
  rw [← Int.natCast_mul, int_ok hrange, ok_bind, hp1, ok_bind, hq1, ok_bind, ← Int.natCast_mul, int_ok (by omega), ok_bind]
  rw [if_neg hcheck]

theorem output_one {n e d x : Int} : output n e d 1 x = .ok (some v) ↔ candp x e n = .ok v := by
  have hcall : output n e d 1 x = (candp x e n >>= fun c => .ok (some c)) := rfl
  rw [hcall]
  cases candp x e n with
  | error e => exact ⟨nofun, nofun⟩
  | ok c => rw [ok_bind, Except.ok.injEq, Option.some.injEq, Except.ok.injEq]

theorem output_two {n e d x : Int} : output n e d 2 x = .ok (some v) ↔ candp x d n = .ok v := by
  have hcall : output n e d 2 x = (candp x d n >>= fun m => .ok (some m)) := rfl
  rw [hcall]
  cases candp x d n with
  | error e => exact ⟨nofun, nofun⟩
  | ok c => rw [ok_bind, Except.ok.injEq, Option.some.injEq, Except.ok.injEq]

/-- A message comes back if and only if `e` has an inverse and all products fit. -/
theorem Key.roundTrip_iff (h : Key p q e) (hm : m < p * q) : RoundTrip p q e m ↔
    ∃ d, Inverse e ((p - 1) * (q - 1)) d ∧ e * d < 2 ^ 31 ∧ Fits m e (p * q) ∧ Fits (m ^ e % (p * q)) d (p * q) := by
  obtain ⟨ht, hbounds⟩ := h.bounds
  have hrange := h.range
  have hle := h.le
  have hn : 1 < p * q := by omega
  have hsearch := fun {v : Int} => search_iff (v := v) ht h.one_le
  have hpower : ∀ {a b : Nat} {v : Int}, b ≤ (p - 1) * (q - 1) → (candp a b (p * q : Nat) = .ok v ↔
      Fits a b (p * q) ∧ v = (a ^ b % (p * q) : Nat)) := fun hb => candp_iff hn (by omega)
  constructor
  · rintro ⟨c, hc⟩
    obtain ⟨hone, htwo⟩ := hc 0
    rw [h.main_eq] at hone htwo
    cases hfound : search e ((p - 1) * (q - 1) : Nat) with
    | error trap =>
      rw [hfound] at hone
      cases hone
    | ok v =>
      obtain ⟨d, hd, hfit, rfl⟩ := hsearch.1 hfound
      rw [hfound, ok_bind] at hone htwo
      obtain ⟨hfits, rfl⟩ := (hpower hle).1 (output_one.1 hone)
      obtain ⟨hfits', -⟩ := (hpower (Nat.le_of_lt hd.lt)).1 (output_two.1 htwo)
      exact ⟨d, hd, hfit, hfits, hfits'⟩
  · rintro ⟨d, hd, hfit, hfits, hfits'⟩
    have hback : (m ^ e % (p * q)) ^ d % (p * q) = m := by
      have hmod : e * d ≡ 1 [MOD (p - 1) * (q - 1)] := hd.mod.trans (Nat.mod_eq_of_lt ht).symm
      have hpow : m ^ (e * d) % (p * q) = m % (p * q) :=
        pow_modEq_primes h.primeP h.primeQ h.distinct hmod (Nat.mul_pos h.one_le hd.one_le)
      rw [← Nat.pow_mod, ← Nat.pow_mul, hpow, Nat.mod_eq_of_lt hm]
    refine ⟨((m ^ e % (p * q) : Nat) : Int), fun again => ?_⟩
    rw [h.main_eq, h.main_eq, hsearch.2 ⟨d, hd, hfit, rfl⟩, ok_bind, ok_bind]
    refine ⟨output_one.2 ((hpower hle).2 ⟨hfits, rfl⟩), output_two.2 ((hpower (Nat.le_of_lt hd.lt)).2 ⟨hfits', ?_⟩)⟩
    rw [hback]

/-- Products of residues fit for a small `n`. -/
theorem fits_of_le (hn : n ≤ 46341) (ha : a < n) : Fits a b n := by
  intro i _
  have hmod : a ^ i % n ≤ 46340 := by
    have hlt := Nat.mod_lt (a ^ i) (Nat.lt_of_le_of_lt (Nat.zero_le a) ha)
    omega
  calc a ^ i % n * a ≤ 46340 * 46340 := Nat.mul_le_mul hmod (by omega)
    _ < 2 ^ 31 := by decide

/-- The last residue does not fit for a large one. -/
theorem le_of_fits (hb : 2 ≤ b) (h : Fits (n - 1) b n) : n ≤ 46341 := by
  by_contra hlarge
  have hfit := h 1 hb
  rw [Nat.pow_one, Nat.mod_eq_of_lt (by omega)] at hfit
  have hsquare : 46341 * 46341 ≤ (n - 1) * (n - 1) := Nat.mul_le_mul (by omega) (by omega)
  omega

/-- All messages of a key come back if and only if `e` is 1, or has no common divisor
with `t` and `n` is at most 46341. -/
theorem rsa_round_trip_iff (h : Key p q e) :
    (∀ m < p * q, RoundTrip p q e m) ↔ e = 1 ∨ e.Coprime ((p - 1) * (q - 1)) ∧ p * q ≤ 46341 := by
  obtain ⟨ht, hbounds⟩ := h.bounds
  have hone := h.one_le
  have hle := h.le
  have hrange := h.range
  constructor
  · intro hall
    by_cases he : e = 1
    · exact .inl he
    · obtain ⟨d, hd, -, hfits, -⟩ := (h.roundTrip_iff (m := p * q - 1) (by omega)).1 (hall _ (by omega))
      exact .inr ⟨coprime_of_inverse hd.mod, le_of_fits (by omega) hfits⟩
  · intro hkey m hm
    rw [h.roundTrip_iff hm]
    rcases hkey with rfl | ⟨hcop, hn⟩
    · have hfits : ∀ {a : Nat}, a < p * q → Fits a 1 (p * q) := by
        intro a ha i hi
        obtain rfl : i = 0 := by omega
        rw [Nat.pow_zero, Nat.mod_eq_of_lt (by omega), Nat.one_mul]
        omega
      exact ⟨1, ⟨Nat.le_refl 1, ht, Nat.mod_eq_of_lt ht⟩, by decide, hfits hm, hfits (Nat.mod_lt _ (by omega))⟩
    · obtain ⟨d, hd1, hdt, hd⟩ := exists_inverse ht hcop
      have hsmall : e * d ≤ 46337 * 46337 := Nat.mul_le_mul (by omega) (by omega)
      exact ⟨d, ⟨hd1, hdt, hd⟩, by omega, fits_of_le hn hm, fits_of_le hn (Nat.mod_lt _ (by omega))⟩

theorem key_three : Key 5 11 3 := ⟨by norm_num, by norm_num, by decide, by decide, by decide, by decide⟩

theorem rsa_round_trip_iff_three : RoundTrip 5 11 3 54 :=
  (rsa_round_trip_iff key_three).2 (.inr ⟨by decide, by decide⟩) 54 (by decide)

/-- An `e` with a common divisor, and an `n` whose last residue has too large a square. -/
theorem rsa_round_trip_overflow :
    (Key 5 7 2 ∧ ¬ RoundTrip 5 7 2 3) ∧ Key 211 223 11 ∧ ¬ RoundTrip 211 223 11 47052 := by
  have heven : Key 5 7 2 := ⟨by norm_num, by norm_num, by decide, by decide, by decide, by decide⟩
  have hlarge : Key 211 223 11 := ⟨by norm_num, by norm_num, by decide, by decide, by decide, by decide⟩
  refine ⟨⟨heven, fun h => ?_⟩, hlarge, fun h => ?_⟩
  · obtain ⟨d, hd, -⟩ := (heven.roundTrip_iff (by decide)).1 h
    exact absurd (coprime_of_inverse hd.mod) (by decide)
  · obtain ⟨d, -, -, hfits, -⟩ := (hlarge.roundTrip_iff (by decide)).1 h
    exact absurd (le_of_fits (n := 211 * 223) (by decide) hfits) (by decide)

end MgStd.Rsa
