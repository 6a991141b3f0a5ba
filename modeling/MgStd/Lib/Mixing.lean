import Mathlib.Algebra.Group.Nat.Defs
import Mathlib.Data.Nat.ModEq
import Mathlib.Data.Nat.Prime.Basic
import MgStd.Lib.Blocks
/-!
# Mixing words

The steps from which hash functions of words are made: each of them loses
nothing of its operand. A fold over blocks that loses nothing of its state and
nothing of a block tells two sequences apart that differ in one block.
-/

namespace MgStd.Lib

open List

variable {w : Nat} {x y : BitVec w}

/-- A multiplication by an odd number. -/
theorem mul_odd_inj {m : BitVec w} (hm : m.toNat % 2 = 1) (h : x * m = y * m) : x = y := by
  have hcoprime : Nat.gcd (2 ^ w) m.toNat = 1 := by
    rw [Nat.gcd_comm]
    exact Nat.Coprime.pow_right w (Nat.coprime_two_right.2 (Nat.odd_iff.2 hm))
  have hmod : x.toNat * m.toNat ≡ y.toNat * m.toNat [MOD 2 ^ w] := by
    have hnat := congrArg BitVec.toNat h
    rwa [BitVec.toNat_mul, BitVec.toNat_mul] at hnat
  apply BitVec.eq_of_toNat_eq
  exact Nat.ModEq.eq_of_lt_of_lt (Nat.ModEq.cancel_right_of_coprime hcoprime hmod) x.isLt y.isLt

/-- A shift to the right, added to the word without carries: the high bits are as before, and each bit below is known
from them. -/
theorem xorshift_inj {r : Nat} (hr : 0 < r) (h : x ^^^ x >>> r = y ^^^ y >>> r) : x = y := by
  have hbits : ∀ k i, w ≤ i + k → x.getLsbD i = y.getLsbD i := by
    intro k
    induction k with
    | zero =>
      intro i hi
      rw [BitVec.getLsbD_of_ge x i hi, BitVec.getLsbD_of_ge y i hi]
    | succ k ih =>
      intro i hi
      have hbit := congrArg (fun z : BitVec w => z.getLsbD i) h
      simp only [BitVec.getLsbD_xor, BitVec.getLsbD_ushiftRight] at hbit
      rw [ih (r + i) (by omega)] at hbit
      exact Bool.xor_left_inj.1 hbit
  exact BitVec.eq_of_getLsbD_eq fun i _ => hbits w i (Nat.le_add_left w i)

/-- A rotation to the left, put together from two shifts. -/
def rotl (x : BitVec w) (r : Nat) : BitVec w := x <<< r ||| x >>> (w - r)

theorem rotl_inj {r : Nat} (hw : r < w) (h : rotl x r = rotl y r) : x = y := by
  unfold rotl at h
  apply BitVec.eq_of_getLsbD_eq
  intro i hi
  by_cases hlow : i + r < w
  · have hbit := congrArg (fun z : BitVec w => z.getLsbD (i + r)) h
    have hx : x.getLsbD (w - r + (i + r)) = false := BitVec.getLsbD_of_ge x _ (by omega)
    have hy : y.getLsbD (w - r + (i + r)) = false := BitVec.getLsbD_of_ge y _ (by omega)
    have hge : ¬i + r < r := by omega
    simpa only [BitVec.getLsbD_or, BitVec.getLsbD_shiftLeft, BitVec.getLsbD_ushiftRight, hlow, hge, hx, hy, decide_true, decide_false,
      Bool.not_false, Bool.true_and, Bool.or_false, Nat.add_sub_cancel] using hbit
  · have hbit := congrArg (fun z : BitVec w => z.getLsbD (i + r - w)) h
    have hback : w - r + (i + r - w) = i := by omega
    have hsmall : i + r - w < r := by omega
    simpa [BitVec.getLsbD_or, hsmall, hback] using hbit

/-! ## Folds -/

variable {σ β : Type} {step : σ → β → σ} {s t : σ} {bs : List β}

/-- A fold that loses nothing of its state. -/
theorem foldl_inj (hstate : ∀ b s t, step s b = step t b → s = t) (h : bs.foldl step s = bs.foldl step t) : s = t := by
  induction bs generalizing s t with
  | nil => exact h
  | cons b bs ih => exact hstate b s t (ih h)

/-- Sequences that have one block at most that is not the same in both. -/
theorem foldl_inj_block {cs : List β} {j : Nat} (hstate : ∀ b s t, step s b = step t b → s = t)
    (hblock : ∀ s b c, step s b = step s c → b = c) (hlen : bs.length = cs.length) (hsame : ∀ i, i ≠ j → bs[i]? = cs[i]?)
    (h : bs.foldl step s = cs.foldl step s) : bs = cs := by
  induction bs generalizing cs s j with
  | nil => exact (eq_nil_of_length_eq_zero hlen.symm).symm
  | cons b bs ih =>
    cases cs with
    | nil => exact absurd hlen (Nat.succ_ne_zero _)
    | cons c cs =>
      cases j with
      | zero =>
        -- The blocks behind are the same, so the states after the first ones are.
        have hrest : bs = cs := ext_getElem? fun i => by simpa using hsame (i + 1) (Nat.succ_ne_zero i)
        subst hrest
        rw [hblock s b c (foldl_inj hstate h)]
      | succ j =>
        have hfirst : b = c := by simpa using hsame 0 (Nat.succ_ne_zero j).symm
        subst hfirst
        have hrest : ∀ i, i ≠ j → bs[i]? = cs[i]? := fun i hi => by simpa using hsame (i + 1) (by omega)
        rw [ih (Nat.succ.inj hlen) hrest h]

/-! ## Hashes of blocks -/

section BlockHash

variable {α τ : Type} {n j : Nat} {word : List α → β} {finish : σ → List α → τ} {xs ys : List α}

/-- The state after the complete blocks, and what is done with what is left. -/
def blockHash (n : Nat) (word : List α → β) (step : σ → β → σ) (finish : σ → List α → τ) (s : σ) (xs : List α) : τ :=
  finish (((blocks n xs).map word).foldl step s) (rest n xs)

/-- No step of the hash loses anything of its operands. -/
structure Lossless (n : Nat) (word : List α → β) (step : σ → β → σ) (finish : σ → List α → τ) : Prop where
  pos : 0 < n
  words : ∀ b c, b.length = n → c.length = n → word b = word c → b = c
  states : ∀ b s t, step s b = step t b → s = t
  steps : ∀ s b c, step s b = step s c → b = c
  ends : ∀ r s t, finish s r = finish t r → s = t
  rests : ∀ s r q, r.length = q.length → r.length < n → finish s r = finish s q → r = q

theorem getElem?_blocksOf {k i : Nat} (hi : i < k) : (blocksOf n k xs)[i]? = some ((xs.drop (n * i)).take n) := by
  induction k generalizing xs i with
  | zero => exact absurd hi (Nat.not_lt_zero i)
  | succ k ih =>
    cases i with
    | zero => rfl
    | succ i =>
      rw [blocksOf, getElem?_cons_succ, ih (Nat.lt_of_succ_lt_succ hi), drop_drop, Nat.mul_succ, Nat.add_comm]

theorem length_blocksOf {k : Nat} : (blocksOf n k xs).length = k := by
  induction k generalizing xs with
  | zero => rfl
  | succ k ih => rw [blocksOf, length_cons, ih]

/-- A word for each complete block. -/
theorem map_blocks {f : Nat → β} (hf : ∀ i, f i = word ((xs.drop (n * i)).take n)) :
    (range (xs.length / n)).map f = (blocks n xs).map word := by
  apply ext_getElem?
  intro i
  unfold blocks
  by_cases hi : i < xs.length / n
  · simp [getElem?_blocksOf hi, getElem?_range hi, hf]
  · rw [getElem?_eq_none (by simpa using hi), getElem?_eq_none (by simpa [length_blocksOf] using hi)]

/-- Sequences that agree outside of block `j`, and in it. -/
theorem eq_of_agree (hn : 0 < n) (hsame : ∀ i, i / n ≠ j → xs[i]? = ys[i]?) (hblock : (xs.drop (n * j)).take n = (ys.drop (n * j)).take n) :
    xs = ys := by
  apply ext_getElem?
  intro i
  by_cases hi : i / n = j
  · have hmod := Nat.mod_lt i hn
    have hat : i = n * j + i % n := by rw [← hi, Nat.div_add_mod]
    have hget := congrArg (fun l : List α => l[i % n]?) hblock
    simp only [getElem?_take_of_lt hmod, getElem?_drop] at hget
    rwa [hat]
  · exact hsame i hi

/-- What agrees outside of one block is the same in every other block. -/
theorem block_of_agree {i : Nat} (hn : 0 < n) (hsame : ∀ i, i / n ≠ j → xs[i]? = ys[i]?) (hij : i ≠ j) :
    (xs.drop (n * i)).take n = (ys.drop (n * i)).take n := by
  apply ext_getElem?
  intro k
  by_cases hk : k < n
  · rw [getElem?_take_of_lt hk, getElem?_take_of_lt hk, getElem?_drop, getElem?_drop]
    apply hsame
    rwa [Nat.mul_add_div hn, Nat.div_eq_of_lt hk, Nat.add_zero]
  · rw [getElem?_eq_none (by simp; omega), getElem?_eq_none (by simp; omega)]

/-- Sequences that have one block at most that is not the same in both, be it what is left behind the complete ones, have
different hashes unless they are the same. -/
theorem Lossless.inj (l : Lossless n word step finish) (hlen : xs.length = ys.length) (hsame : ∀ i, i / n ≠ j → xs[i]? = ys[i]?)
    (h : blockHash n word step finish s xs = blockHash n word step finish s ys) : xs = ys := by
  have hn := l.pos
  have hwords : ∀ i, i ≠ j → ((blocks n xs).map word)[i]? = ((blocks n ys).map word)[i]? := by
    intro i hij
    unfold blocks
    rw [hlen]
    by_cases hi : i < ys.length / n
    · rw [getElem?_map, getElem?_map, getElem?_blocksOf hi, getElem?_blocksOf hi, block_of_agree hn hsame hij]
    · rw [getElem?_eq_none (by simpa [length_blocksOf] using hi), getElem?_eq_none (by simpa [length_blocksOf] using hi)]
  have htake : ∀ zs : List α, (rest n zs).take n = rest n zs := by
    intro zs
    exact take_of_length_le (by rw [length_rest]; exact Nat.le_of_lt (Nat.mod_lt _ hn))
  apply eq_of_agree hn hsame
  unfold blockHash at h
  by_cases hj : j = ys.length / n
  · -- The difference is behind the complete blocks.
    have hall : (blocks n xs).map word = (blocks n ys).map word := by
      apply ext_getElem?
      intro i
      by_cases hij : i = j
      · unfold blocks
        rw [hlen, getElem?_eq_none (by simp [length_blocksOf]; omega), getElem?_eq_none (by simp [length_blocksOf]; omega)]
      · exact hwords i hij
    rw [hall] at h
    have hrests : rest n xs = rest n ys := by
      apply l.rests _ _ _ _ _ h
      · rw [length_rest, length_rest, hlen]
      · rw [length_rest]
        exact Nat.mod_lt _ hn
    have hxs : rest n xs = xs.drop (n * j) := by rw [hj, ← hlen]; rfl
    have hys : rest n ys = ys.drop (n * j) := by rw [hj]; rfl
    rw [← hxs, ← hys, hrests]
  · have hrests : rest n xs = rest n ys := by
      rw [← htake xs, ← htake ys]
      unfold rest
      rw [hlen]
      exact block_of_agree hn hsame (Ne.symm hj)
    rw [hrests] at h
    have hlens : ((blocks n xs).map word).length = ((blocks n ys).map word).length := by
      rw [length_map, length_map]
      unfold blocks
      rw [length_blocksOf, length_blocksOf, hlen]
    have hall := foldl_inj_block l.states l.steps hlens hwords (l.ends _ _ _ h)
    by_cases hi : j < ys.length / n
    · have hget := congrArg (fun l : List β => l[j]?) hall
      unfold blocks at hget
      simp only [getElem?_map, hlen, getElem?_blocksOf hi, Option.map_some, Option.some.injEq] at hget
      have hfull : n * j + n ≤ ys.length := by
        rw [← Nat.mul_succ, Nat.mul_comm]
        exact Nat.mul_le_of_le_div _ _ _ hi
      apply l.words _ _ _ _ hget
      · rw [length_take, length_drop, hlen]; omega
      · rw [length_take, length_drop]; omega
    · have hbehind : ys.length ≤ n * j := by
        have hmul := Nat.mul_le_mul_left n (show ys.length / n + 1 ≤ j by omega)
        have hmod := Nat.lt_mul_div_succ ys.length hn
        omega
      rw [drop_of_length_le (hlen ▸ hbehind), drop_of_length_le hbehind]

/-- Two states to start with. -/
theorem Lossless.inj_state {t : σ} (l : Lossless n word step finish)
    (h : blockHash n word step finish s xs = blockHash n word step finish t xs) : s = t :=
  foldl_inj l.states (l.ends _ _ _ h)

end BlockHash

end MgStd.Lib
