import Mathlib.Data.List.GetD
import Mathlib.Tactic.IntervalCases
import MgStd.Sha.Code
import MgStd.Sha.Standard
/-!
# One block

Schedule and rounds of the code compute the compression of the standard. The
words of a block are read with the low byte first and turned around.
-/

namespace MgStd.Sha

open MgStd.Lib Standard

variable {w : Nat}

/-! ## The words of a block -/

theorem getLsbD_mask {k j : Nat} (hk : 8 * k + 8 ≤ w) : (BitVec.ofNat w (255 * 2 ^ (8 * k))).getLsbD j = decide (j / 8 = k) := by
  rw [BitVec.getLsbD_ofNat, Nat.testBit_mul_two_pow, show (255 : Nat) = 2 ^ 8 - 1 from rfl, Nat.testBit_two_pow_sub_one,
    ← Bool.decide_and, ← Bool.decide_and, decide_eq_decide]
  omega

/-- `swap` moves byte `q` of a word of `k` bytes to byte `k - 1 - q`. -/
def Swaps (k : Nat) (swap : BitVec w → BitVec w) : Prop :=
  ∀ (x : BitVec w) (q r : Nat), q < k → r < 8 → (swap x).getLsbD (8 * q + r) = x.getLsbD (8 * (k - 1 - q) + r)

theorem swaps_swap32 : Swaps 4 swap32 := by
  intro x q r hq hr
  have hmask2 (j : Nat) : (0x00ff0000 : Word).getLsbD j = decide (j / 8 = 2) := getLsbD_mask (k := 2) (by decide)
  have hmask1 (j : Nat) : (0x0000ff00 : Word).getLsbD j = decide (j / 8 = 1) := getLsbD_mask (k := 1) (by decide)
  unfold swap32
  simp only [BitVec.getLsbD_or, BitVec.getLsbD_ushiftRight, BitVec.getLsbD_shiftLeft, BitVec.getLsbD_and, hmask1, hmask2]
  -- of the four terms one has this byte, the others have zeros
  interval_cases q
  all_goals
    simp (disch := omega) only [decide_eq_true, decide_eq_false, BitVec.getLsbD_of_ge, Bool.false_and, Bool.and_false,
      Bool.false_or, Bool.or_false, Bool.true_and, Bool.and_true, Bool.not_true, Bool.not_false]
    congr 1
    omega

theorem swaps_swap64 : Swaps 8 swap64 := by
  intro x q r hq hr
  have hmask6 (j : Nat) : (0x00ff000000000000 : LongWord).getLsbD j = decide (j / 8 = 6) := getLsbD_mask (k := 6) (by decide)
  have hmask5 (j : Nat) : (0x0000ff0000000000 : LongWord).getLsbD j = decide (j / 8 = 5) := getLsbD_mask (k := 5) (by decide)
  have hmask4 (j : Nat) : (0x000000ff00000000 : LongWord).getLsbD j = decide (j / 8 = 4) := getLsbD_mask (k := 4) (by decide)
  have hmask3 (j : Nat) : (0x00000000ff000000 : LongWord).getLsbD j = decide (j / 8 = 3) := getLsbD_mask (k := 3) (by decide)
  have hmask2 (j : Nat) : (0x0000000000ff0000 : LongWord).getLsbD j = decide (j / 8 = 2) := getLsbD_mask (k := 2) (by decide)
  have hmask1 (j : Nat) : (0x000000000000ff00 : LongWord).getLsbD j = decide (j / 8 = 1) := getLsbD_mask (k := 1) (by decide)
  unfold swap64
  simp only [BitVec.getLsbD_or, BitVec.getLsbD_ushiftRight, BitVec.getLsbD_shiftLeft, BitVec.getLsbD_and, hmask1, hmask2,
    hmask3, hmask4, hmask5, hmask6]
  interval_cases q
  all_goals
    simp (disch := omega) only [decide_eq_true, decide_eq_false, BitVec.getLsbD_of_ge, Bool.false_and, Bool.and_false,
      Bool.false_or, Bool.or_false, Bool.true_and, Bool.and_true, Bool.not_true, Bool.not_false]
    congr 1
    omega

theorem getLsbD_leNat (bs : List UInt8) {i : Nat} (hi : i < w) :
    (BitVec.ofNat w (leNat bs)).getLsbD i = (bs.getD (i / 8) 0).toNat.testBit (i % 8) := by
  rw [BitVec.getLsbD_ofNat, decide_eq_true hi, Bool.true_and, testBit_leNat]

/-- The word with its low byte first, turned around, is the word with its high byte first. -/
theorem Swaps.word_eq {k : Nat} {swap : BitVec w → BitVec w} (hswap : Swaps k swap) (hw : w = 8 * k) {bs : List UInt8}
    (hbs : bs.length = k) : swap (BitVec.ofNat w (leNat bs)) = BitVec.ofNat w (beNat bs) := by
  apply BitVec.eq_of_getLsbD_eq
  intro i hi
  have hq : i / 8 < k := by omega
  have hr : i % 8 < 8 := Nat.mod_lt i (by decide)
  have hlow := hswap (BitVec.ofNat w (leNat bs)) (i / 8) (i % 8) hq hr
  rw [Nat.div_add_mod, getLsbD_leNat bs (by omega), Nat.mul_add_div (by decide), Nat.mul_add_mod,
    Nat.div_eq_of_lt hr, Nat.mod_eq_of_lt hr, Nat.add_zero] at hlow
  unfold beNat
  rw [hlow, getLsbD_leNat bs.reverse hi, List.getD_eq_getElem?_getD, List.getD_eq_getElem?_getD,
    List.getElem?_reverse (by omega), hbs]

/-- The first words of the schedule. -/
theorem Swaps.loadWord_eq {k t : Nat} {swap : BitVec w → BitVec w} {M : List UInt8} (hswap : Swaps k swap) (hw : w = 8 * k)
    (hM : M.length = 16 * k) (ht : t < 16) : swap (loadWord w M t) = word w M t := by
  have hk : w / 8 = k := by omega
  have hfit : t * k + k ≤ 16 * k := by
    rw [← Nat.succ_mul]
    exact Nat.mul_le_mul_right k ht
  unfold loadWord word
  apply hswap.word_eq hw
  rw [hk, List.length_take_of_le]
  rw [List.length_drop]
  omega

/-! ## Schedules -/

/-- A schedule that is filled by a recurrence. -/
theorem extend_eq {next : (Nat → BitVec w) → Nat → BitVec w} {S : Nat → BitVec w}
    (hnext : ∀ V t, 16 ≤ t → (∀ i < t, V i = S i) → next V t = S t) {n : Nat} {W : List (BitVec w)} (hlen : 16 ≤ W.length)
    (hW : ∀ i < W.length, W.getD i 0 = S i) : ∀ i < W.length + n, (extend next n W).getD i 0 = S i := by
  induction n generalizing W with
  | zero => exact hW
  | succ n ih =>
    unfold extend
    have hpush : ∀ i < (W ++ [next (fun i => W.getD i 0) W.length]).length,
        (W ++ [next (fun i => W.getD i 0) W.length]).getD i 0 = S i := by
      intro i hi
      rw [List.length_append, List.length_singleton] at hi
      by_cases hold : i < W.length
      · rw [List.getD_append _ _ _ _ hold]
        exact hW i hold
      · have hi' : i = W.length := by omega
        subst hi'
        rw [List.getD_append_right _ _ _ _ (Nat.le_refl _), Nat.sub_self]
        exact hnext _ _ hlen hW
    have hgrown := ih (W := W ++ [next (fun i => W.getD i 0) W.length]) (by rw [List.length_append]; omega) hpush
    rw [List.length_append, List.length_singleton] at hgrown
    intro i hi
    exact hgrown i (by omega)

/-- The words of the block, and then the recurrence. -/
theorem extend_block {next : (Nat → BitVec w) → Nat → BitVec w} {S : Nat → BitVec w} {first : Nat → BitVec w} {n : Nat}
    (hnext : ∀ V t, 16 ≤ t → (∀ i < t, V i = S i) → next V t = S t) (hfirst : ∀ t < 16, first t = S t) :
    ∀ i < 16 + n, (extend next n ((List.range 16).map first)).getD i 0 = S i := by
  have hlen : ((List.range 16).map first).length = 16 := by rw [List.length_map, List.length_range]
  have hW : ∀ i < ((List.range 16).map first).length, ((List.range 16).map first).getD i 0 = S i := by
    intro i hi
    rw [List.getD_eq_getElem _ _ hi, List.getElem_map, List.getElem_range]
    exact hfirst i (hlen ▸ hi)
  have hall := extend_eq (n := n) hnext (Nat.le_of_eq hlen.symm) hW
  rwa [hlen] at hall

theorem rotateLeft_eq (x : BitVec w) {r : Nat} (hr : r < w) : x <<< r ||| x >>> (w - r) = x.rotateLeft r := by
  rw [BitVec.rotateLeft_def, Nat.mod_eq_of_lt hr]

theorem rotateRight_eq (x : BitVec w) {r : Nat} (hr : r < w) : x >>> r ||| x <<< (w - r) = x.rotateRight r := by
  rw [BitVec.rotateRight_def, Nat.mod_eq_of_lt hr]

/-! ## SHA-1 -/

theorem mgSha1SetW_eq {M : List UInt8} (hM : M.length = 64) : ∀ t < 80, (mgSha1SetW M).getD t 0 = schedule1 (word 32 M) t := by
  apply extend_block (n := 64)
  · intro V t ht hV
    rw [schedule1, if_neg (by omega), ← hV (t - 3) (by omega), ← hV (t - 8) (by omega), ← hV (t - 14) (by omega),
      ← hV (t - 16) (by omega), ← rotateLeft_eq _ (by decide)]
    have hterms : V (t - 16) ^^^ V (t - 14) ^^^ V (t - 8) ^^^ V (t - 3) =
        V (t - 3) ^^^ V (t - 8) ^^^ V (t - 14) ^^^ V (t - 16) := by ac_rfl
    simp only [hterms]
  · intro t ht
    rw [schedule1, if_pos ht]
    exact swaps_swap32.loadWord_eq rfl hM ht

/-- The choice with an "or": no bit is in both of its parts. -/
theorem or_eq_ch (x y z : BitVec w) : (x &&& y) ||| (~~~x &&& z) = ch x y z := by
  apply BitVec.eq_of_getLsbD_eq
  intro i hi
  unfold ch
  simp only [BitVec.getLsbD_or, BitVec.getLsbD_xor, BitVec.getLsbD_and, BitVec.getLsbD_not]
  cases x.getLsbD i <;> simp

/-- The majority with "or": where two parts have a bit, the third has it too. -/
theorem or_eq_maj (x y z : BitVec w) : (x &&& y) ||| (y &&& z) ||| (x &&& z) = maj x y z := by
  apply BitVec.eq_of_getLsbD_eq
  intro i hi
  unfold maj
  simp only [BitVec.getLsbD_or, BitVec.getLsbD_xor, BitVec.getLsbD_and]
  cases x.getLsbD i <;> cases y.getLsbD i <;> cases z.getLsbD i <;> rfl

theorem mgSha1Temp_eq {K W : Nat → Word} {v : Five 32} {t : Nat} (hK : K 0 = 0x5a827999 ∧ K 1 = 0x6ed9eba1 ∧ K 2 = 0x8f1bbcdc ∧ K 3 = 0xca62c1d6) :
    mgSha1Temp K W v t = v.a.rotateLeft 5 + f1 t v.b v.c v.d + v.e + k1 t + W t := by
  obtain ⟨h0, h1, h2, h3⟩ := hK
  unfold mgSha1Temp f1 k1
  rw [rotateLeft_eq v.a (r := 5) (by decide), or_eq_ch, or_eq_maj, h0, h1, h2, h3]
  unfold parity
  split
  · ac_rfl
  · split
    · ac_rfl
    · split <;> ac_rfl

/-- What `mg_sha1_setW` and `mg_sha1_round` do with a block. -/
theorem mgSha1Process_eq {H : Five 32} {M : List UInt8} (hM : M.length = 64) : mgSha1Process mgSha1Init.k H M = compress1 H M := by
  have hW := mgSha1SetW_eq hM
  unfold mgSha1Process mgSha1Round compress1
  apply congrArg H.add
  apply List.foldl_ext
  intro v t ht
  rw [mgSha1Temp_eq ⟨rfl, rfl, rfl, rfl⟩, hW t (List.mem_range.1 ht), rotateLeft_eq v.b (by decide)]

/-! ## SHA-256, SHA-384 and SHA-512 -/

/-- `shift_num3` with these amounts is the function `f`. -/
def Shifts (am : Amounts) (f : BitVec w → BitVec w) : Prop := ∀ x, shiftNum3 x am.1 am.2.1 am.2.2 = f x

theorem zero_xor' (x : BitVec w) : 0 ^^^ x = x := BitVec.zero_xor

theorem shifts_rotate {p q r : Nat} (hp : p < w) (hq : q < w) (hr : 0 < r ∧ r < w) :
    Shifts (w := w) (p, q, r) fun x => x.rotateRight p ^^^ x.rotateRight q ^^^ x.rotateRight r := by
  intro x
  have hpos : (r : Int) > 0 := Int.natCast_pos.2 hr.1
  unfold shiftNum3
  rw [if_pos hpos, Int.toNat_natCast, rotateRight_eq x hp, rotateRight_eq x hq, rotateRight_eq x hr.2, zero_xor']

theorem shifts_shift {p q r : Nat} (hp : p < w) (hq : q < w) :
    Shifts (w := w) (p, q, -r) fun x => x.rotateRight p ^^^ x.rotateRight q ^^^ x >>> r := by
  intro x
  have hneg : ¬ (-(r : Int)) > 0 := by omega
  unfold shiftNum3
  rw [if_neg hneg, Int.zero_sub, Int.neg_neg, Int.toNat_natCast, rotateRight_eq x hp, rotateRight_eq x hq, zero_xor']

/-- What a file has to get right for its rounds to be those of the standard. -/
structure Implements (v : Variant w) (K : List (BitVec w)) (setw : List UInt8 → List (BitVec w)) (am0 am1 : Amounts) : Prop where
  schedule : ∀ M : List UInt8, M.length = 16 * (w / 8) → ∀ t < v.rounds, (setw M).getD t 0 = v.schedule (word w M) t
  constants : ∀ t < v.rounds, K.getD t 0 = cubeRoot w t
  upper0 : Shifts am0 v.upper0
  upper1 : Shifts am1 v.upper1

theorem setw_eq {k : Nat} {swap : BitVec w → BitVec w} {am0 am1 : Amounts} {v : Variant w} {M : List UInt8} (hswap : Swaps k swap)
    (hw : w = 8 * k) (h0 : Shifts am0 v.lower1) (h1 : Shifts am1 v.lower0) (hrounds : 16 ≤ v.rounds) (hM : M.length = 16 * k) :
    ∀ t < v.rounds, (setw swap am0 am1 v.rounds M).getD t 0 = v.schedule (word w M) t := by
  suffices hall : ∀ t < 16 + (v.rounds - 16), (setw swap am0 am1 v.rounds M).getD t 0 = v.schedule (word w M) t by
    rwa [Nat.add_sub_cancel' hrounds] at hall
  unfold setw
  apply extend_block
  · intro V t ht hV
    simp only
    rw [h0, h1, hV _ (by omega), hV _ (by omega), hV _ (by omega), hV _ (by omega)]
    conv_rhs => rw [Variant.schedule, if_neg (by omega)]
  · intro t ht
    rw [Variant.schedule, if_pos ht]
    exact hswap.loadWord_eq hw hM ht

theorem Implements.round_eq {v : Variant w} {K : List (BitVec w)} {setw : List UInt8 → List (BitVec w)} {am0 am1 : Amounts}
    (h : Implements v K setw am0 am1) {H : Eight w} {M : List UInt8} (hM : M.length = 16 * (w / 8)) :
    round am0 am1 v.rounds K H (setw M) = v.compress H M := by
  have hW := h.schedule M hM
  unfold round Variant.compress
  apply congrArg H.add
  apply List.foldl_ext
  intro x t ht
  have ht' := List.mem_range.1 ht
  simp only [h.upper0 x.a, h.upper1 x.e, h.constants t ht', hW t ht']
  rfl

/-- The cubes of the constants, with up to 7 before the point, are just below the primes. -/
def CubeRoots (rounds : Nat) (K : List (BitVec w)) : Prop :=
  ∀ t < rounds, ∃ q < 8, (q * 2 ^ w + (K.getD t 0).toNat) ^ 3 ≤ primes.getD t 0 * 2 ^ (3 * w) ∧
    primes.getD t 0 * 2 ^ (3 * w) < (q * 2 ^ w + (K.getD t 0).toNat + 1) ^ 3

instance (rounds : Nat) (K : List (BitVec w)) : Decidable (CubeRoots rounds K) :=
  inferInstanceAs (Decidable (∀ t < rounds, ∃ q < 8, _ ∧ _))

theorem CubeRoots.eq {rounds : Nat} {K : List (BitVec w)} (h : CubeRoots rounds K) : ∀ t < rounds, K.getD t 0 = cubeRoot w t := by
  intro t ht
  obtain ⟨q, -, hlow, hhigh⟩ := h t ht
  unfold cubeRoot
  rw [fraction_eq (BitVec.isLt _) hlow hhigh, BitVec.ofNat_toNat, BitVec.setWidth_eq]

theorem mgSha256Process_eq {H : Eight 32} {M : List UInt8} (hM : M.length = 64) :
    mgSha256Process mgSha256Init.k H M = words32.compress H M := by
  have himpl : Implements words32 mgSha256Init.k mgSha256Setw (2, 13, 22) (6, 11, 25) := by
    refine ⟨fun M hM => ?_, CubeRoots.eq (by decide +kernel), ?_, ?_⟩
    · exact setw_eq (k := 4) (v := words32) swaps_swap32 rfl
        (shifts_shift (p := 17) (q := 19) (r := 10) (by decide) (by decide))
        (shifts_shift (p := 7) (q := 18) (r := 3) (by decide) (by decide)) (by decide) hM
    · exact shifts_rotate (p := 2) (q := 13) (r := 22) (by decide) (by decide) (by decide)
    · exact shifts_rotate (p := 6) (q := 11) (r := 25) (by decide) (by decide) (by decide)
  exact himpl.round_eq hM

/-- The files for SHA-384 and SHA-512 have the same tables, so what is said of one block holds for both. -/
theorem implements_words64 {K : List LongWord} (hK : CubeRoots 80 K) :
    Implements words64 K (setw swap64 (19, 61, -6) (1, 8, -7) 80) (28, 34, 39) (14, 18, 41) := by
  refine ⟨fun M hM => ?_, hK.eq, ?_, ?_⟩
  · exact setw_eq (k := 8) (v := words64) swaps_swap64 rfl
      (shifts_shift (p := 19) (q := 61) (r := 6) (by decide) (by decide))
      (shifts_shift (p := 1) (q := 8) (r := 7) (by decide) (by decide)) (by decide) hM
  · exact shifts_rotate (p := 28) (q := 34) (r := 39) (by decide) (by decide) (by decide)
  · exact shifts_rotate (p := 14) (q := 18) (r := 41) (by decide) (by decide) (by decide)

theorem mgSha384Process_eq {H : Eight 64} {M : List UInt8} (hM : M.length = 128) :
    mgSha384Process mgSha384Init.k H M = words64.compress H M :=
  (implements_words64 (K := mgSha384Init.k) (by decide +kernel)).round_eq hM

theorem mgSha512Process_eq {H : Eight 64} {M : List UInt8} (hM : M.length = 128) :
    mgSha512Process mgSha512Init.k H M = words64.compress H M :=
  (implements_words64 (K := mgSha512Init.k) (by decide +kernel)).round_eq hM

/-- The initial hash values. -/
theorem mgSha256Init_h : mgSha256Init.h = squareRoots 32 0 := by decide +kernel

theorem mgSha384Init_h : mgSha384Init.h = squareRoots 64 8 := by decide +kernel

theorem mgSha512Init_h : mgSha512Init.h = squareRoots 64 0 := by decide +kernel

end MgStd.Sha
