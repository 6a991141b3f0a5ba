import MgStd.Murmur.Code
/-!
# What a hash of mgmurmurhash.c says about its key

Every step of these functions but the `|` at the end of `mgMurmurhash32` loses
nothing of its operand. So two keys that differ within one block, and only there,
never collide, whatever the seed is, and neither do two seeds on one key.
-/

namespace MgStd.Murmur

open MgStd.Lib List

variable {w : Nat}

/-! ## Words and tails -/

/-- The word of a block. -/
def leWord (w : Nat) (b : List UInt8) : BitVec w := BitVec.ofNat w (leNat b)

theorem leWord_inj {b c : List UInt8} (hb : 8 * b.length ≤ w) (hlen : b.length = c.length) (h : leWord w b = leWord w c) : b = c := by
  have hpow : ∀ d : List UInt8, d.length = b.length → leNat d < 2 ^ w := by
    intro d hd
    have hlt := leNat_lt d
    rw [hd, show (256 : Nat) = 2 ^ 8 from rfl, ← Nat.pow_mul] at hlt
    exact Nat.lt_of_lt_of_le hlt (Nat.pow_le_pow_right (by decide) hb)
  have hnat := congrArg BitVec.toNat h
  unfold leWord at hnat
  rw [BitVec.toNat_ofNat, BitVec.toNat_ofNat, Nat.mod_eq_of_lt (hpow b rfl), Nat.mod_eq_of_lt (hpow c hlen.symm)] at hnat
  exact leNat_inj hlen hnat

theorem leWord_cons {b : UInt8} {bs : List UInt8} : leWord w (b :: bs) = BitVec.ofNat w b.toNat ^^^ leWord w bs <<< 8 := by
  apply BitVec.eq_of_getLsbD_eq
  intro i hi
  unfold leWord
  rw [BitVec.getLsbD_xor, BitVec.getLsbD_shiftLeft, BitVec.getLsbD_ofNat, BitVec.getLsbD_ofNat, BitVec.getLsbD_ofNat, leNat, Nat.add_comm,
    show (256 : Nat) = 2 ^ 8 from rfl, Nat.testBit_two_pow_mul_add _ b.toNat_lt]
  by_cases hlow : i < 8
  · simp [hlow, hi]
  · have hzero : b.toNat.testBit i = false :=
      Nat.testBit_lt_two_pow (Nat.lt_of_lt_of_le b.toNat_lt (Nat.pow_le_pow_right (by decide) (Nat.le_of_not_lt hlow)))
    have hback : i - 8 < w := by omega
    simp [hlow, hi, hzero, hback]

/-- The cases of a `switch` put the word of the tail together. -/
theorem gather_eq {k : BitVec w} {tail : List UInt8} : gather k tail = k ^^^ leWord w tail := by
  have hfrom : ∀ s, (tail.zipIdx s).foldr (fun b k => k ^^^ BitVec.ofNat w b.1.toNat <<< (8 * b.2)) k
      = k ^^^ leWord w tail <<< (8 * s) := by
    induction tail with
    | nil =>
      intro s
      simp [leWord, leNat]
    | cons b bs ih =>
      intro s
      rw [zipIdx_cons, foldr_cons, ih, leWord_cons, BitVec.shiftLeft_xor_distrib, BitVec.xor_assoc, ← BitVec.shiftLeft_add,
        BitVec.xor_comm (leWord w bs <<< _)]
      rw [Nat.mul_succ, Nat.add_comm 8]
  unfold gather
  rw [hfrom 0, Nat.mul_zero, BitVec.shiftLeft_zero]

theorem gather_inj {k : BitVec w} {r q : List UInt8} (hr : 8 * r.length ≤ w) (hlen : r.length = q.length) (h : gather k r = gather k q) :
    r = q := by
  rw [gather_eq, gather_eq, BitVec.xor_right_inj] at h
  exact leWord_inj hr hlen h

theorem gather_inj_state {k l : BitVec w} {r : List UInt8} (h : gather k r = gather l r) : k = l := by
  rwa [gather_eq, gather_eq, BitVec.xor_left_inj] at h

/-! ## The steps -/

theorem mixKey_inj {m k l : BitVec w} {r : Nat} (hm : m.toNat % 2 = 1) (hr : 0 < r) (h : mixKey m r k = mixKey m r l) : k = l :=
  mul_odd_inj hm (xorshift_inj hr (mul_odd_inj hm h))

theorem scramble_inj {c1 c2 k l : BitVec w} {r : Nat} (hc1 : c1.toNat % 2 = 1) (hc2 : c2.toNat % 2 = 1) (hr : r < w)
    (h : scramble c1 r c2 k = scramble c1 r c2 l) : k = l :=
  mul_odd_inj hc1 (rotl_inj hr (mul_odd_inj hc2 h))

theorem fmix32_inj {h k : BitVec 32} (heq : fmix32 h = fmix32 k) : h = k :=
  xorshift_inj (by decide) (mul_odd_inj (by decide) (xorshift_inj (by decide) (mul_odd_inj (by decide) (xorshift_inj (by decide) heq))))

theorem fmix64_inj {h k : BitVec 64} (heq : fmix64 h = fmix64 k) : h = k :=
  xorshift_inj (by decide) (mul_odd_inj (by decide) (xorshift_inj (by decide) (mul_odd_inj (by decide) (xorshift_inj (by decide) heq))))

/-- `h = ROTL(h, r); h += a; h = h*5 + c` -/
theorem advance_inj {h k a c five : BitVec w} {r : Nat} (hfive : five.toNat % 2 = 1) (hr : r < w)
    (heq : (rotl h r + a) * five + c = (rotl k r + a) * five + c) : h = k := by
  have hmul := (BitVec.add_left_inj c).1 heq
  have hadd := mul_odd_inj hfive hmul
  exact rotl_inj hr ((BitVec.add_left_inj a).1 hadd)

/-- A part of a tail that is there goes into a word of the state. -/
theorem part_inj_state {c : Prop} [Decidable c] {g h k : BitVec w} (heq : (if c then h ^^^ g else h) = if c then k ^^^ g else k) :
    h = k := by
  by_cases hc : c
  · rw [if_pos hc, if_pos hc] at heq
    exact (BitVec.xor_left_inj g).1 heq
  · rwa [if_neg hc, if_neg hc] at heq

theorem part_inj {c : Prop} [Decidable c] {g : BitVec w → BitVec w} {h : BitVec w} {r q : List UInt8} (hg : ∀ k l, g k = g l → k = l)
    (hlen : r.length = q.length) (hshort : 8 * r.length ≤ w) (hnone : ¬c → r.length = 0)
    (heq : (if c then h ^^^ g (gather 0 r) else h) = if c then h ^^^ g (gather 0 q) else h) : r = q := by
  by_cases hc : c
  · rw [if_pos hc, if_pos hc] at heq
    exact gather_inj hshort hlen (hg _ _ ((BitVec.xor_right_inj h).1 heq))
  · have hr := hnone hc
    have hq : q.length = 0 := hlen ▸ hr
    rw [eq_nil_of_length_eq_zero hr, eq_nil_of_length_eq_zero hq]

/-- A tail is known from its parts. -/
theorem eq_of_parts {n : Nat} {r q : List UInt8} (htake : r.take n = q.take n) (hdrop : r.drop n = q.drop n) : r = q := by
  rw [← take_append_drop n r, ← take_append_drop n q, htake, hdrop]

/-! ## `mgMurmurhash64` -/

section Murmurhash64

variable {h k : BitVec 64} {r q : List UInt8}

/-- What `mgMurmurhash64` does behind the loop. -/
def finish64 (h : BitVec 64) (data2 : List UInt8) : BitVec 64 :=
  let m : BitVec 64 := 0xc6a4a7935bd1e995
  let h := if data2.length = 0 then h else gather h data2 * m
  let h := h ^^^ h >>> 47
  let h := h * m
  h ^^^ h >>> 47

def step64 (h k : BitVec 64) : BitVec 64 := (h ^^^ mixKey 0xc6a4a7935bd1e995 47 k) * 0xc6a4a7935bd1e995

theorem step64_inj_state {b : BitVec 64} (heq : step64 h b = step64 k b) : h = k :=
  (BitVec.xor_left_inj _).1 (mul_odd_inj (by decide) heq)

theorem step64_inj {b c : BitVec 64} (heq : step64 h b = step64 h c) : b = c :=
  mixKey_inj (by decide) (by decide) ((BitVec.xor_right_inj _).1 (mul_odd_inj (by decide) heq))

theorem last64_inj (heq : (h ^^^ h >>> 47) * 0xc6a4a7935bd1e995 ^^^ ((h ^^^ h >>> 47) * 0xc6a4a7935bd1e995) >>> 47
    = (k ^^^ k >>> 47) * 0xc6a4a7935bd1e995 ^^^ ((k ^^^ k >>> 47) * 0xc6a4a7935bd1e995) >>> 47) : h = k :=
  xorshift_inj (by decide) (mul_odd_inj (by decide) (xorshift_inj (by decide) heq))

theorem finish64_inj_state (heq : finish64 h r = finish64 k r) : h = k := by
  have hlast := last64_inj heq
  by_cases hr : r.length = 0
  · rwa [if_pos hr, if_pos hr] at hlast
  · rw [if_neg hr, if_neg hr] at hlast
    exact gather_inj_state (mul_odd_inj (by decide) hlast)

theorem finish64_inj (hlen : r.length = q.length) (hshort : r.length < 8) (heq : finish64 h r = finish64 h q) : r = q := by
  have hlast := last64_inj heq
  by_cases hr : r.length = 0
  · have hq : q.length = 0 := hlen ▸ hr
    rw [eq_nil_of_length_eq_zero hr, eq_nil_of_length_eq_zero hq]
  · rw [if_neg hr, if_neg (hlen ▸ hr)] at hlast
    exact gather_inj (by omega) hlen (mul_odd_inj (by decide) hlast)

theorem lossless64 : Lossless 8 (leWord 64) step64 finish64 where
  pos := by decide
  words _ _ hb hc heq := leWord_inj (by omega) (hb.trans hc.symm) heq
  states _ _ _ heq := step64_inj_state heq
  steps _ _ _ heq := step64_inj heq
  ends _ _ _ heq := finish64_inj_state heq
  rests _ _ _ hlen hshort heq := finish64_inj hlen hshort heq

theorem mgMurmurhash64_eq (key : List UInt8) (seed : BitVec 32) :
    mgMurmurhash64 key seed
      = blockHash 8 (leWord 64) step64 finish64 (seed.setWidth 64 ^^^ (BitVec.ofNat 64 key.length * 0xc6a4a7935bd1e995)) key := by
  unfold blockHash mgMurmurhash64
  rw [← map_blocks (f := getblock 64 key) (fun _ => rfl), foldl_map]
  rfl

end Murmurhash64

/-! ## `mgMurmurhash32` -/

namespace Murmurhash32

variable {h k : Words} {r q : List UInt8}

theorem absorb_inj_state {h k b : BitVec 32} (heq : absorb h b = absorb k b) : h = k :=
  mul_odd_inj (by decide) ((BitVec.xor_left_inj _).1 heq)

theorem absorb_inj {h b c : BitVec 32} (heq : absorb h b = absorb h c) : b = c :=
  mixKey_inj (by decide) (by decide) ((BitVec.xor_right_inj _).1 heq)

theorem body_inj_state {b : Words} (heq : body h b = body k b) : h = k := by
  obtain ⟨h1, h2⟩ := Words.ext_iff.1 heq
  exact Words.ext (absorb_inj_state h1) (absorb_inj_state h2)

theorem body_inj {b c : Words} (heq : body h b = body h c) : b = c := by
  obtain ⟨h1, h2⟩ := Words.ext_iff.1 heq
  exact Words.ext (absorb_inj h1) (absorb_inj h2)

theorem finish_inj (heq : finish h = finish k) : h = k := by
  obtain ⟨h1, h2⟩ := Words.ext_iff.1 heq
  have hm : m.toNat % 2 = 1 := by decide
  simp only [finish] at h1 h2
  -- From the last statement back, each word is added to the same shift of the other.
  have e1 := mul_odd_inj hm h1
  have e2 := mul_odd_inj hm h2
  rw [h1, BitVec.xor_left_inj] at e2
  rw [e2, BitVec.xor_left_inj] at e1
  have e3 := mul_odd_inj hm e2
  rw [e1, BitVec.xor_left_inj] at e3
  have e4 := mul_odd_inj hm e1
  rw [e3, BitVec.xor_left_inj] at e4
  exact Words.ext e4 e3

theorem tail_inj_state (heq : tail h r = tail k r) : h = k := by
  obtain ⟨h1, h2⟩ := Words.ext_iff.1 heq
  simp only [tail] at h1 h2
  apply Words.ext
  · by_cases hr : 4 ≤ r.length
    · rw [if_pos hr, if_pos hr] at h1
      exact absorb_inj_state h1
    · rwa [if_neg hr, if_neg hr] at h1
  · generalize (if 4 ≤ r.length then r.drop 4 else r) = data at h2
    by_cases hdata : data.length = 0
    · rwa [if_pos hdata, if_pos hdata] at h2
    · rw [if_neg hdata, if_neg hdata] at h2
      exact gather_inj_state (mul_odd_inj (by decide) h2)

/-- The cases of the `switch`. -/
theorem switch_inj {h : BitVec 32} {r q : List UInt8} (hlen : r.length = q.length) (hshort : r.length < 4)
    (heq : (if r.length = 0 then h else gather h r * m) = if q.length = 0 then h else gather h q * m) : r = q := by
  by_cases hr : r.length = 0
  · have hq : q.length = 0 := hlen ▸ hr
    rw [eq_nil_of_length_eq_zero hr, eq_nil_of_length_eq_zero hq]
  · rw [if_neg hr, if_neg (hlen ▸ hr)] at heq
    exact gather_inj (by omega) hlen (mul_odd_inj (by decide) heq)

theorem tail_inj (hlen : r.length = q.length) (hshort : r.length < 8) (heq : tail h r = tail h q) : r = q := by
  obtain ⟨h1, h2⟩ := Words.ext_iff.1 heq
  simp only [tail] at h1 h2
  by_cases hr : 4 ≤ r.length
  · have hq : 4 ≤ q.length := hlen ▸ hr
    rw [if_pos hr, if_pos hq] at h1 h2
    apply eq_of_parts (n := 4)
    · exact leWord_inj (by rw [length_take]; omega) (by rw [length_take, length_take, hlen]) (absorb_inj h1)
    · exact switch_inj (by rw [length_drop, length_drop, hlen]) (by rw [length_drop]; omega) h2
  · have hq : ¬4 ≤ q.length := hlen ▸ hr
    rw [if_neg hr, if_neg hq] at h2
    exact switch_inj hlen (by omega) h2

/-- The two words of a block. -/
def pair (b : List UInt8) : Words := ⟨leWord 32 (b.take 4), leWord 32 (b.drop 4)⟩

theorem pair_inj {b c : List UInt8} (hb : b.length = 8) (hc : c.length = 8) (heq : pair b = pair c) : b = c := by
  obtain ⟨h1, h2⟩ := Words.ext_iff.1 heq
  apply eq_of_parts (n := 4)
  · exact leWord_inj (by rw [length_take]; omega) (by rw [length_take, length_take, hb, hc]) h1
  · exact leWord_inj (by rw [length_drop]; omega) (by rw [length_drop, length_drop, hb, hc]) h2

theorem lossless : Lossless 8 pair body fun h r => finish (tail h r) where
  pos := by decide
  words _ _ hb hc heq := pair_inj hb hc heq
  states _ _ _ heq := body_inj_state heq
  steps _ _ _ heq := body_inj heq
  ends _ _ _ heq := tail_inj_state (finish_inj heq)
  rests _ _ _ hlen hshort heq := tail_inj hlen hshort (finish_inj heq)

theorem words_eq (key : List UInt8) (seed : BitVec 32) :
    words key seed = blockHash 8 pair body (fun h r => finish (tail h r)) ⟨seed ^^^ BitVec.ofNat 32 key.length, 0⟩ key := by
  have hpair : ∀ i, (⟨getblock 32 key (i * 2 + 0), getblock 32 key (i * 2 + 1)⟩ : Words) = pair ((key.drop (8 * i)).take 8) := by
    intro i
    have h0 : 4 * (i * 2 + 0) = 8 * i := by omega
    have h1 : 4 * (i * 2 + 1) = 8 * i + 4 := by omega
    simp only [pair, getblock, leWord, Nat.reduceDiv, h0, h1, take_take, drop_take, drop_drop, Nat.reduceSub, Nat.reduceLeDiff,
      inf_of_le_left]
  unfold blockHash words
  rw [← map_blocks hpair, foldl_map]
  rfl

end Murmurhash32

/-! ## `mgMurmurhash3_x86_32` -/

namespace X86_32

variable {h k : BitVec 32} {r q : List UInt8}

theorem scramble1_inj : ∀ k l, scramble1 k = scramble1 l → k = l :=
  fun _ _ heq => scramble_inj (by decide) (by decide) (by decide) heq

theorem step_inj {h k : BitVec 32} (heq : rotl h 13 * 5 + 0xe6546b64 = rotl k 13 * 5 + 0xe6546b64) : h = k :=
  rotl_inj (by decide) (mul_odd_inj (by decide) ((BitVec.add_left_inj _).1 heq))

theorem body_inj_state {b : BitVec 32} (heq : body h b = body k b) : h = k := (BitVec.xor_left_inj _).1 (step_inj heq)

theorem body_inj {b c : BitVec 32} (heq : body h b = body h c) : b = c := scramble1_inj _ _ ((BitVec.xor_right_inj _).1 (step_inj heq))

theorem tail_eq : tail h r = if 0 < r.length then h ^^^ scramble1 (gather 0 r) else h := by
  unfold tail
  by_cases hr : r.length = 0
  · rw [if_pos hr, if_neg (by omega)]
  · rw [if_neg hr, if_pos (by omega)]

theorem tail_inj_state (heq : tail h r = tail k r) : h = k := by
  rw [tail_eq, tail_eq] at heq
  exact part_inj_state heq

theorem tail_inj (hlen : r.length = q.length) (hshort : r.length < 4) (heq : tail h r = tail h q) : r = q := by
  rw [tail_eq, tail_eq, hlen] at heq
  exact part_inj scramble1_inj hlen (by omega) (by omega) heq

theorem finish_inj {len : BitVec 32} (heq : fmix32 (h ^^^ len) = fmix32 (k ^^^ len)) : h = k := (BitVec.xor_left_inj len).1 (fmix32_inj heq)

theorem lossless : Lossless 4 (leWord 32) body tail where
  pos := by decide
  words _ _ hb hc heq := leWord_inj (by omega) (hb.trans hc.symm) heq
  states _ _ _ heq := body_inj_state heq
  steps _ _ _ heq := body_inj heq
  ends _ _ _ heq := tail_inj_state heq
  rests _ _ _ hlen hshort heq := tail_inj hlen hshort heq

end X86_32

theorem mgMurmurhash3X86_32_eq (key : List UInt8) (seed : BitVec 32) :
    mgMurmurhash3X86_32 key seed
      = fmix32 (blockHash 4 (leWord 32) X86_32.body X86_32.tail seed key ^^^ BitVec.ofNat 32 key.length) := by
  unfold blockHash mgMurmurhash3X86_32
  rw [← map_blocks (f := getblock 32 key) (fun _ => rfl), foldl_map]
  rfl

/-! ## `mgMurmurhash3_x86_128` -/

namespace X86_128

variable {h k : Words} {r q : List UInt8}

theorem scramble1_inj : ∀ k l, scramble1 k = scramble1 l → k = l :=
  fun _ _ heq => scramble_inj (by decide) (by decide) (by decide) heq

theorem scramble2_inj : ∀ k l, scramble2 k = scramble2 l → k = l :=
  fun _ _ heq => scramble_inj (by decide) (by decide) (by decide) heq

theorem scramble3_inj : ∀ k l, scramble3 k = scramble3 l → k = l :=
  fun _ _ heq => scramble_inj (by decide) (by decide) (by decide) heq

theorem scramble4_inj : ∀ k l, scramble4 k = scramble4 l → k = l :=
  fun _ _ heq => scramble_inj (by decide) (by decide) (by decide) heq

/-- From the last word back, as each takes the next one in, and the last one the first. -/
theorem body_inj_state {b : Words} (heq : body h b = body k b) : h = k := by
  obtain ⟨h1, h2, h3, h4⟩ := Words.ext_iff.1 heq
  simp only [body] at h1 h2 h3 h4
  rw [h1] at h4
  have four := (BitVec.xor_left_inj _).1 (advance_inj (by decide) (by decide) h4)
  rw [four] at h3
  have three := (BitVec.xor_left_inj _).1 (advance_inj (by decide) (by decide) h3)
  rw [three] at h2
  have two := (BitVec.xor_left_inj _).1 (advance_inj (by decide) (by decide) h2)
  rw [two] at h1
  have one := (BitVec.xor_left_inj _).1 (advance_inj (by decide) (by decide) h1)
  exact Words.ext one two three four

theorem body_inj {b c : Words} (heq : body h b = body h c) : b = c := by
  obtain ⟨h1, h2, h3, h4⟩ := Words.ext_iff.1 heq
  simp only [body] at h1 h2 h3 h4
  rw [h1] at h4
  have four := (BitVec.xor_right_inj _).1 (advance_inj (by decide) (by decide) h4)
  have three := (BitVec.xor_right_inj _).1 (advance_inj (by decide) (by decide) h3)
  have two := (BitVec.xor_right_inj _).1 (advance_inj (by decide) (by decide) h2)
  have one := (BitVec.xor_right_inj _).1 (advance_inj (by decide) (by decide) h1)
  exact Words.ext (scramble1_inj _ _ one) (scramble2_inj _ _ two) (scramble3_inj _ _ three) (scramble4_inj _ _ four)

theorem tail_inj_state (heq : tail h r = tail k r) : h = k := by
  obtain ⟨h1, h2, h3, h4⟩ := Words.ext_iff.1 heq
  exact Words.ext (part_inj_state h1) (part_inj_state h2) (part_inj_state h3) (part_inj_state h4)

theorem tail_inj (hlen : r.length = q.length) (hshort : r.length < 16) (heq : tail h r = tail h q) : r = q := by
  obtain ⟨h1, h2, h3, h4⟩ := Words.ext_iff.1 heq
  simp only [tail, hlen] at h1 h2 h3 h4
  have one : r.take 4 = q.take 4 :=
    part_inj scramble1_inj (by simp [hlen]) (by rw [length_take]; omega) (by rw [length_take]; omega) h1
  have two : (r.drop 4).take 4 = (q.drop 4).take 4 :=
    part_inj scramble2_inj (by simp [hlen]) (by rw [length_take]; omega) (by rw [length_take, length_drop]; omega) h2
  have three : (r.drop 8).take 4 = (q.drop 8).take 4 :=
    part_inj scramble3_inj (by simp [hlen]) (by rw [length_take]; omega) (by rw [length_take, length_drop]; omega) h3
  have four : r.drop 12 = q.drop 12 :=
    part_inj scramble4_inj (by simp [hlen]) (by rw [length_drop]; omega) (by rw [length_drop]; omega) h4
  refine eq_of_parts one (eq_of_parts two ?_)
  rw [drop_drop, drop_drop]
  refine eq_of_parts three ?_
  rwa [drop_drop, drop_drop]

theorem mingle_inj (heq : mingle h = mingle k) : h = k := by
  obtain ⟨h1, h2, h3, h4⟩ := Words.ext_iff.1 heq
  simp only [mingle] at h1 h2 h3 h4
  rw [h1, BitVec.add_left_inj] at h2 h3 h4
  rw [h2, h3, h4, BitVec.add_left_inj, BitVec.add_left_inj, BitVec.add_left_inj] at h1
  exact Words.ext h1 h2 h3 h4

theorem finish_inj {len : BitVec 32} (heq : finish h len = finish k len) : h = k := by
  obtain ⟨h1, h2, h3, h4⟩ := Words.ext_iff.1 (mingle_inj heq)
  have hfirst := mingle_inj (Words.ext (fmix32_inj h1) (fmix32_inj h2) (fmix32_inj h3) (fmix32_inj h4))
  obtain ⟨h1, h2, h3, h4⟩ := Words.ext_iff.1 hfirst
  exact Words.ext ((BitVec.xor_left_inj _).1 h1) ((BitVec.xor_left_inj _).1 h2) ((BitVec.xor_left_inj _).1 h3)
    ((BitVec.xor_left_inj _).1 h4)

/-- The four words of a block. -/
def quad (b : List UInt8) : Words :=
  ⟨leWord 32 (b.take 4), leWord 32 ((b.drop 4).take 4), leWord 32 ((b.drop 8).take 4), leWord 32 (b.drop 12)⟩

theorem quad_inj {b c : List UInt8} (hb : b.length = 16) (hc : c.length = 16) (heq : quad b = quad c) : b = c := by
  obtain ⟨h1, h2, h3, h4⟩ := Words.ext_iff.1 heq
  have one : b.take 4 = c.take 4 := leWord_inj (by rw [length_take]; omega) (by simp [hb, hc]) h1
  have two : (b.drop 4).take 4 = (c.drop 4).take 4 := leWord_inj (by rw [length_take]; omega) (by simp [hb, hc]) h2
  have three : (b.drop 8).take 4 = (c.drop 8).take 4 := leWord_inj (by rw [length_take]; omega) (by simp [hb, hc]) h3
  have four : b.drop 12 = c.drop 12 := leWord_inj (by rw [length_drop]; omega) (by simp [hb, hc]) h4
  refine eq_of_parts one (eq_of_parts two ?_)
  rw [drop_drop, drop_drop]
  refine eq_of_parts three ?_
  rwa [drop_drop, drop_drop]

theorem block_eq (key : List UInt8) (i : Nat) : block key i = quad ((key.drop (16 * i)).take 16) := by
  have h0 : 4 * (i * 4 + 0) = 16 * i := by omega
  have h1 : 4 * (i * 4 + 1) = 16 * i + 4 := by omega
  have h2 : 4 * (i * 4 + 2) = 16 * i + 8 := by omega
  have h3 : 4 * (i * 4 + 3) = 16 * i + 12 := by omega
  simp only [block, quad, getblock, leWord, Nat.reduceDiv, h0, h1, h2, h3, take_take, drop_take, drop_drop, Nat.reduceSub, Nat.reduceLeDiff,
    inf_of_le_left]

theorem lossless : Lossless 16 quad body tail where
  pos := by decide
  words _ _ hb hc heq := quad_inj hb hc heq
  states _ _ _ heq := body_inj_state heq
  steps _ _ _ heq := body_inj heq
  ends _ _ _ heq := tail_inj_state heq
  rests _ _ _ hlen hshort heq := tail_inj hlen hshort heq

end X86_128

theorem mgMurmurhash3X86_128_eq (key : List UInt8) (seed : BitVec 32) :
    mgMurmurhash3X86_128 key seed
      = X86_128.finish (blockHash 16 X86_128.quad X86_128.body X86_128.tail ⟨seed, seed, seed, seed⟩ key) (BitVec.ofNat 32 key.length) := by
  unfold blockHash mgMurmurhash3X86_128
  rw [← map_blocks (X86_128.block_eq key), foldl_map]
  rfl

/-! ## `mgMurmurhash3_x64_128` -/

namespace X64_128

variable {h k : Words} {r q : List UInt8}

theorem scramble1_inj : ∀ k l, scramble1 k = scramble1 l → k = l :=
  fun _ _ heq => scramble_inj (by decide) (by decide) (by decide) heq

theorem scramble2_inj : ∀ k l, scramble2 k = scramble2 l → k = l :=
  fun _ _ heq => scramble_inj (by decide) (by decide) (by decide) heq

theorem body_inj_state {b : Words} (heq : body h b = body k b) : h = k := by
  obtain ⟨h1, h2⟩ := Words.ext_iff.1 heq
  simp only [body] at h1 h2
  rw [h1] at h2
  have two := (BitVec.xor_left_inj _).1 (advance_inj (by decide) (by decide) h2)
  rw [two] at h1
  have one := (BitVec.xor_left_inj _).1 (advance_inj (by decide) (by decide) h1)
  exact Words.ext one two

theorem body_inj {b c : Words} (heq : body h b = body h c) : b = c := by
  obtain ⟨h1, h2⟩ := Words.ext_iff.1 heq
  simp only [body] at h1 h2
  rw [h1] at h2
  have two := (BitVec.xor_right_inj _).1 (advance_inj (by decide) (by decide) h2)
  have one := (BitVec.xor_right_inj _).1 (advance_inj (by decide) (by decide) h1)
  exact Words.ext (scramble1_inj _ _ one) (scramble2_inj _ _ two)

theorem tail_inj_state (heq : tail h r = tail k r) : h = k := by
  obtain ⟨h1, h2⟩ := Words.ext_iff.1 heq
  exact Words.ext (part_inj_state h1) (part_inj_state h2)

theorem tail_inj (hlen : r.length = q.length) (hshort : r.length < 16) (heq : tail h r = tail h q) : r = q := by
  obtain ⟨h1, h2⟩ := Words.ext_iff.1 heq
  simp only [tail, hlen] at h1 h2
  apply eq_of_parts (n := 8)
  · exact part_inj scramble1_inj (by simp [hlen]) (by rw [length_take]; omega) (by rw [length_take]; omega) h1
  · exact part_inj scramble2_inj (by simp [hlen]) (by rw [length_drop]; omega) (by rw [length_drop]; omega) h2

theorem mingle_inj (heq : mingle h = mingle k) : h = k := by
  obtain ⟨h1, h2⟩ := Words.ext_iff.1 heq
  simp only [mingle] at h1 h2
  rw [h1, BitVec.add_left_inj] at h2
  rw [h2, BitVec.add_left_inj] at h1
  exact Words.ext h1 h2

theorem finish_inj {len : BitVec 64} (heq : finish h len = finish k len) : h = k := by
  obtain ⟨h1, h2⟩ := Words.ext_iff.1 (mingle_inj heq)
  obtain ⟨h1, h2⟩ := Words.ext_iff.1 (mingle_inj (Words.ext (fmix64_inj h1) (fmix64_inj h2)))
  exact Words.ext ((BitVec.xor_left_inj _).1 h1) ((BitVec.xor_left_inj _).1 h2)

/-- The two words of a block. -/
def pair (b : List UInt8) : Words := ⟨leWord 64 (b.take 8), leWord 64 (b.drop 8)⟩

theorem pair_inj {b c : List UInt8} (hb : b.length = 16) (hc : c.length = 16) (heq : pair b = pair c) : b = c := by
  obtain ⟨h1, h2⟩ := Words.ext_iff.1 heq
  apply eq_of_parts (n := 8)
  · exact leWord_inj (by rw [length_take]; omega) (by simp [hb, hc]) h1
  · exact leWord_inj (by rw [length_drop]; omega) (by simp [hb, hc]) h2

theorem block_eq (key : List UInt8) (i : Nat) : block key i = pair ((key.drop (16 * i)).take 16) := by
  have h0 : 8 * (i * 2 + 0) = 16 * i := by omega
  have h1 : 8 * (i * 2 + 1) = 16 * i + 8 := by omega
  simp only [block, pair, getblock, leWord, Nat.reduceDiv, h0, h1, take_take, drop_take, drop_drop, Nat.reduceSub, Nat.reduceLeDiff,
    inf_of_le_left]

theorem lossless : Lossless 16 pair body tail where
  pos := by decide
  words _ _ hb hc heq := pair_inj hb hc heq
  states _ _ _ heq := body_inj_state heq
  steps _ _ _ heq := body_inj heq
  ends _ _ _ heq := tail_inj_state heq
  rests _ _ _ hlen hshort heq := tail_inj hlen hshort heq

end X64_128

theorem mgMurmurhash3X64_128_eq (key : List UInt8) (seed : BitVec 32) :
    mgMurmurhash3X64_128 key seed
      = X64_128.finish (blockHash 16 X64_128.pair X64_128.body X64_128.tail ⟨seed.setWidth 64, seed.setWidth 64⟩ key)
          (BitVec.ofNat 64 key.length) := by
  unfold blockHash mgMurmurhash3X64_128
  rw [← map_blocks (X64_128.block_eq key), foldl_map]
  rfl

/-! ## Collisions -/

/-- Keys of one length that differ, but only within one block of `n` bytes, or only behind the last complete one. -/
def OneBlock (n : Nat) (key key' : List UInt8) : Prop :=
  key.length = key'.length ∧ key ≠ key' ∧ ∃ j, ∀ i, i / n ≠ j → key[i]? = key'[i]?

/-- No function of the file maps two such keys to one hash, whatever the seed is. Of `mgMurmurhash32` this is true up to the
`|` of its last statement. -/
theorem mgMurmurhash_ne (key key' : List UInt8) (seed : BitVec 32) :
    (OneBlock 8 key key' → mgMurmurhash64 key seed ≠ mgMurmurhash64 key' seed) ∧
    (OneBlock 4 key key' → mgMurmurhash3X86_32 key seed ≠ mgMurmurhash3X86_32 key' seed) ∧
    (OneBlock 16 key key' → mgMurmurhash3X86_128 key seed ≠ mgMurmurhash3X86_128 key' seed) ∧
    (OneBlock 16 key key' → mgMurmurhash3X64_128 key seed ≠ mgMurmurhash3X64_128 key' seed) ∧
    (OneBlock 8 key key' → Murmurhash32.words key seed ≠ Murmurhash32.words key' seed) := by
  refine ⟨?_, ?_, ?_, ?_, ?_⟩ <;> rintro ⟨hlen, hne, j, hsame⟩ heq
  · rw [mgMurmurhash64_eq, mgMurmurhash64_eq, hlen] at heq
    exact hne (lossless64.inj hlen hsame heq)
  · rw [mgMurmurhash3X86_32_eq, mgMurmurhash3X86_32_eq, hlen] at heq
    exact hne (X86_32.lossless.inj hlen hsame (X86_32.finish_inj heq))
  · rw [mgMurmurhash3X86_128_eq, mgMurmurhash3X86_128_eq, hlen] at heq
    exact hne (X86_128.lossless.inj hlen hsame (X86_128.finish_inj heq))
  · rw [mgMurmurhash3X64_128_eq, mgMurmurhash3X64_128_eq, hlen] at heq
    exact hne (X64_128.lossless.inj hlen hsame (X64_128.finish_inj heq))
  · rw [Murmurhash32.words_eq, Murmurhash32.words_eq, hlen] at heq
    exact hne (Murmurhash32.lossless.inj hlen hsame heq)

/-- The fourth byte of five is not the same. -/
theorem mgMurmurhash_ne_five :
    mgMurmurhash3X86_32 [1, 2, 3, 4, 5] 7 ≠ mgMurmurhash3X86_32 [1, 2, 3, 9, 5] 7 := by
  refine (mgMurmurhash_ne [1, 2, 3, 4, 5] [1, 2, 3, 9, 5] 7).2.1 ⟨rfl, by decide, 0, ?_⟩
  intro i hi
  obtain ⟨k, rfl⟩ : ∃ k, i = k + 4 := ⟨i - 4, by omega⟩
  rfl

/-- On every key, different seeds have different hashes. -/
theorem mgMurmurhash_injective_seed (key : List UInt8) :
    Function.Injective (mgMurmurhash64 key) ∧ Function.Injective (mgMurmurhash3X86_32 key) ∧
    Function.Injective (mgMurmurhash3X86_128 key) ∧ Function.Injective (mgMurmurhash3X64_128 key) ∧
    Function.Injective (Murmurhash32.words key) := by
  have hwide : ∀ s t : BitVec 32, s.setWidth 64 = t.setWidth 64 → s = t := by
    intro s t h
    have hback := congrArg (BitVec.setWidth 32) h
    simpa using hback
  refine ⟨?_, ?_, ?_, ?_, ?_⟩ <;> intro s t heq
  · rw [mgMurmurhash64_eq, mgMurmurhash64_eq] at heq
    exact hwide s t ((BitVec.xor_left_inj _).1 (lossless64.inj_state heq))
  · rw [mgMurmurhash3X86_32_eq, mgMurmurhash3X86_32_eq] at heq
    exact X86_32.lossless.inj_state (X86_32.finish_inj heq)
  · rw [mgMurmurhash3X86_128_eq, mgMurmurhash3X86_128_eq] at heq
    exact congrArg X86_128.Words.one (X86_128.lossless.inj_state (X86_128.finish_inj heq))
  · rw [mgMurmurhash3X64_128_eq, mgMurmurhash3X64_128_eq] at heq
    exact hwide s t (congrArg X64_128.Words.one (X64_128.lossless.inj_state (X64_128.finish_inj heq)))
  · rw [Murmurhash32.words_eq, Murmurhash32.words_eq] at heq
    exact (BitVec.xor_left_inj _).1 (congrArg Murmurhash32.Words.one (Murmurhash32.lossless.inj_state heq))

end MgStd.Murmur
