import MgStd.Base64.Code
/-!
# What the encoder writes

The text is the encoding of the bytes in lines of 76 characters. The pad bits
after a single last byte are the high bits of the byte that follows it in memory.
-/

namespace MgStd.Base64

open MgStd.Lib List

variable {a b c : UInt8} {x : List UInt8} {str : Nat → UInt8} {i len bits : Nat}

/-! ## RFC 4648 -/

/-- The character of a value of six bits. -/
def alphabet (n : Nat) : UInt8 :=
  UInt8.ofNat (if n < 26 then 65 + n else if n < 52 then 97 + (n - 26) else if n < 62 then 48 + (n - 52) else if n = 62 then 43 else 47)

/-- Groups of 24 bits, with `bits` for the four pad bits after a single last byte. -/
def encodeWith (bits : Nat) : List UInt8 → List UInt8
  | [] => []
  | [a] =>
    let n := a.toNat * 16 + bits
    [alphabet (n / 64), alphabet (n % 64), pad, pad]
  | [a, b] =>
    let n := (a.toNat * 256 + b.toNat) * 4
    [alphabet (n / 4096), alphabet (n / 64 % 64), alphabet (n % 64), pad]
  | a :: b :: c :: x =>
    let n := a.toNat * 65536 + b.toNat * 256 + c.toNat
    [alphabet (n / 262144), alphabet (n / 4096 % 64), alphabet (n / 64 % 64), alphabet (n % 64)] ++ encodeWith bits x

/-- The pad bits are zero. -/
def rfc4648 (x : List UInt8) : List UInt8 := encodeWith 0 x

/-- Lines of 76 characters, the last possibly shorter, each with a newline at its end. -/
def lines (s : List UInt8) : List UInt8 :=
  if s.length ≤ 76 then s ++ eol else s.take 76 ++ eol ++ lines (s.drop 76)
  termination_by s.length
  decreasing_by simp; omega

/-! ## Six bits -/

set_option maxRecDepth 4000 in
theorem basis64_fin : ∀ n : Fin 64, basis64 (UInt8.ofNat n) = alphabet n := by decide

theorem basis64_eq {n : Nat} (hc : c.toNat = n) (hn : n < 64) : basis64 c = alphabet n := by
  have h := basis64_fin ⟨n, hn⟩
  have hof : UInt8.ofNat n = c := by rw [← hc, UInt8.ofNat_toNat]
  rwa [hof] at h

theorem toNat_first (a : UInt8) : (a >>> 2).toNat = a.toNat / 4 := toNat_shiftRight (by decide)

theorem toNat_second (a b : UInt8) : (((a &&& 0x3) <<< 4) ||| ((b &&& 0xF0) >>> 4)).toNat = a.toNat % 4 * 16 + b.toNat / 16 := by
  have hb := b.toNat_lt
  have hlow : (a &&& 0x3).toNat = a.toNat % 4 := toNat_and_mask (k := 2) rfl
  have hhigh : ((b &&& 0xF0) >>> 4).toNat = b.toNat / 16 % 16 := toNat_field (k := 4) (by decide) rfl
  rw [toNat_pack (by decide) (by rw [hlow]; simp; omega) (by rw [hhigh]; simp; omega), hlow, hhigh]
  simp
  omega

theorem toNat_third (b c : UInt8) : (((b &&& 0xF) <<< 2) ||| ((c &&& 0xC0) >>> 6)).toNat = b.toNat % 16 * 4 + c.toNat / 64 := by
  have hc := c.toNat_lt
  have hlow : (b &&& 0xF).toNat = b.toNat % 16 := toNat_and_mask (k := 4) rfl
  have hhigh : ((c &&& 0xC0) >>> 6).toNat = c.toNat / 64 % 4 := toNat_field (k := 2) (by decide) rfl
  rw [toNat_pack (by decide) (by rw [hlow]; simp; omega) (by rw [hhigh]; simp; omega), hlow, hhigh]
  simp
  omega

theorem toNat_third_last (b : UInt8) : ((b &&& 0xF) <<< 2).toNat = b.toNat % 16 * 4 := by
  have hlow : (b &&& 0xF).toNat = b.toNat % 16 := toNat_and_mask (k := 4) rfl
  rw [UInt8.toNat_shiftLeft, hlow]
  simp [Nat.shiftLeft_eq]
  omega

theorem toNat_fourth (c : UInt8) : (c &&& 0x3F).toNat = c.toNat % 64 := toNat_and_mask (k := 6) rfl

/-! ## One round -/

theorem encodeGroup_one (ha : str i = a) :
    encodeGroup str i 1 = encodeWith ((str (i + 1)).toNat / 16) [a] := by
  have h1 := a.toNat_lt
  have h2 := (str (i + 1)).toNat_lt
  simp only [encodeGroup, ha, encodeWith, Nat.reduceLT, Nat.reduceEqDiff, if_false, cons_append, nil_append]
  rw [basis64_eq (toNat_first a) (by omega), basis64_eq (toNat_second a _) (by omega),
    show (a.toNat * 16 + (str (i + 1)).toNat / 16) / 64 = a.toNat / 4 by omega,
    show (a.toNat * 16 + (str (i + 1)).toNat / 16) % 64 = a.toNat % 4 * 16 + (str (i + 1)).toNat / 16 by omega]

theorem encodeGroup_two (bits : Nat) (ha : str i = a) (hb : str (i + 1) = b) : encodeGroup str i 2 = encodeWith bits [a, b] := by
  have h1 := a.toNat_lt
  have h2 := b.toNat_lt
  simp only [encodeGroup, ha, hb, encodeWith, Nat.lt_irrefl, if_false, if_true, cons_append, nil_append]
  rw [basis64_eq (toNat_first a) (by omega), basis64_eq (toNat_second a b) (by omega), basis64_eq (toNat_third_last b) (by omega),
    show (a.toNat * 256 + b.toNat) * 4 / 4096 = a.toNat / 4 by omega,
    show (a.toNat * 256 + b.toNat) * 4 / 64 % 64 = a.toNat % 4 * 16 + b.toNat / 16 by omega,
    show (a.toNat * 256 + b.toNat) * 4 % 64 = b.toNat % 16 * 4 by omega]

theorem encodeGroup_three (ha : str i = a) (hb : str (i + 1) = b) (hc : str (i + 2) = c) (hlen : 2 < len) :
    encodeGroup str i len ++ encodeWith bits x = encodeWith bits (a :: b :: c :: x) := by
  have h1 := a.toNat_lt
  have h2 := b.toNat_lt
  have h3 := c.toNat_lt
  simp only [encodeGroup, ha, hb, hc, encodeWith, hlen, if_true, cons_append, nil_append]
  rw [basis64_eq (toNat_first a) (by omega), basis64_eq (toNat_second a b) (by omega), basis64_eq (toNat_third b c) (by omega),
    basis64_eq (toNat_fourth c) (by omega),
    show (a.toNat * 65536 + b.toNat * 256 + c.toNat) / 262144 = a.toNat / 4 by omega,
    show (a.toNat * 65536 + b.toNat * 256 + c.toNat) / 4096 % 64 = a.toNat % 4 * 16 + b.toNat / 16 by omega,
    show (a.toNat * 65536 + b.toNat * 256 + c.toNat) / 64 % 64 = b.toNat % 16 * 4 + c.toNat / 64 by omega,
    show (a.toNat * 65536 + b.toNat * 256 + c.toNat) % 64 = c.toNat % 64 by omega]

theorem length_encodeGroup : (encodeGroup str i len).length = 4 := by
  unfold encodeGroup
  dsimp only
  split
  · rfl
  · split <;> rfl

/-! ## All rounds -/

/-- The memory holds the bytes `x` from `i` on. -/
def Holds (str : Nat → UInt8) (i : Nat) (x : List UInt8) : Prop := ∀ j (h : j < x.length), str (i + j) = x[j]

theorem holds_cons : Holds str i (a :: x) ↔ str i = a ∧ Holds str (i + 1) x := by
  constructor
  · intro h
    refine ⟨h 0 (by simp), fun j hj => ?_⟩
    have := h (j + 1) (by simpa using hj)
    rwa [show i + (j + 1) = i + 1 + j by omega] at this
  · rintro ⟨ha, h⟩ j hj
    cases j with
    | zero => exact ha
    | succ j =>
      rw [show i + (j + 1) = i + 1 + j by omega]
      exact h j (by simpa using hj)

theorem lines_short {s : List UInt8} (h : s.length ≤ 76) : lines s = s ++ eol := by
  rw [lines, if_pos h]

theorem lines_append {s t : List UInt8} (hs : s.length = 76) (ht : t ≠ []) : lines (s ++ t) = s ++ eol ++ lines t := by
  have hlen := length_pos_iff.2 ht
  rw [lines, if_neg (by rw [length_append]; omega), take_left' hs, drop_left' hs]

/-- One round, with `k` groups on the line so far. -/
theorem encodeChunks_step {fuel k : Nat} {pre group : List UInt8} (rest : List UInt8) (hpre : pre.length = 4 * k) (hk : k ≤ 19)
    (hgroup : encodeGroup str i len = group) (hlen : 0 < len)
    (ih : ∀ (k : Nat) (pre : List UInt8), pre.length = 4 * k → k ≤ 19 → ∃ r,
      encodeChunks str fuel (i + 3) (if len < 3 then 0 else len - 3) k = .ok r ∧ pre ++ r ++ eol = lines (pre ++ rest)) :
    ∃ r, encodeChunks str (fuel + 1) i len k = .ok r ∧ pre ++ r ++ eol = lines (pre ++ (group ++ rest)) := by
  have hg : group.length = 4 := by rw [← hgroup, length_encodeGroup]
  rw [encodeChunks, if_pos hlen, hgroup]
  by_cases hfull : k = MAX_LINE / 4
  · -- the line is full
    obtain ⟨r, hr, htext⟩ := ih 1 group (by omega) (by omega)
    have hpre76 : pre.length = 76 := by rw [hpre, hfull]; rfl
    rw [if_pos hfull, if_pos hfull]
    dsimp only
    rw [Nat.zero_add, hr]
    refine ⟨eol ++ group ++ r, rfl, ?_⟩
    rw [lines_append hpre76 (by intro h; rw [append_eq_nil_iff] at h; simp [h.1] at hg), ← htext]
    simp
  · obtain ⟨r, hr, htext⟩ := ih (k + 1) (pre ++ group) (by rw [length_append]; omega) (by
      have : k ≠ 19 := hfull
      omega)
    rw [if_neg hfull, if_neg hfull]
    dsimp only
    rw [hr]
    refine ⟨[] ++ group ++ r, rfl, ?_⟩
    rw [nil_append, ← append_assoc, ← append_assoc, htext]

/-- No bytes are left. -/
theorem encodeChunks_end {fuel k : Nat} {pre : List UInt8} (hpre : pre.length = 4 * k) (hk : k ≤ 19) (hf : 0 < fuel) :
    ∃ r, encodeChunks str fuel i 0 k = .ok r ∧ pre ++ r ++ eol = lines (pre ++ []) := by
  obtain ⟨fuel, rfl⟩ : ∃ n, fuel = n + 1 := ⟨fuel - 1, by omega⟩
  refine ⟨[], by rw [encodeChunks, if_neg (Nat.lt_irrefl 0)]; rfl, ?_⟩
  rw [append_nil, lines_short (by omega)]

theorem encodeChunks_spec : ∀ {x : List UInt8} {i fuel k : Nat} {pre : List UInt8}, Holds str i x → x.length < fuel →
    pre.length = 4 * k → k ≤ 19 → ∃ r, encodeChunks str fuel i x.length k = .ok r ∧
      pre ++ r ++ eol = lines (pre ++ encodeWith ((str (i + x.length)).toNat / 16) x)
  | _, _, 0, _, _, _, hf, _, _ => absurd hf (Nat.not_lt_zero _)
  | [], _, _ + 1, _, _, _, hf, hpre, hk => encodeChunks_end hpre hk hf
  | [a], i, fuel + 1, _, _, hx, hf, hpre, hk => by
    have hgroup := encodeGroup_one (holds_cons.1 hx).1
    have hf : 0 < fuel := by simpa using hf
    have hstep := encodeChunks_step [] hpre hk hgroup (by decide) fun _ _ hpre hk => encodeChunks_end hpre hk hf
    rwa [append_nil] at hstep
  | [a, b], i, fuel + 1, _, _, hx, hf, hpre, hk => by
    have hgroup := encodeGroup_two ((str (i + 2)).toNat / 16) (holds_cons.1 hx).1 (holds_cons.1 (holds_cons.1 hx).2).1
    have hf : 0 < fuel := by
      simp at hf
      omega
    have hstep := encodeChunks_step [] hpre hk hgroup (by decide) fun _ _ hpre hk => encodeChunks_end hpre hk hf
    rwa [append_nil] at hstep
  | a :: b :: c :: x, i, fuel + 1, _, _, hx, hf, hpre, hk => by
    obtain ⟨ha, hx⟩ := holds_cons.1 hx
    obtain ⟨hb, hx⟩ := holds_cons.1 hx
    obtain ⟨hc, hx⟩ := holds_cons.1 hx
    have hlen : (a :: b :: c :: x).length = x.length + 3 := rfl
    rw [hlen] at hf ⊢
    rw [← encodeGroup_three ha hb hc (show 2 < x.length + 3 by omega)]
    refine encodeChunks_step _ hpre hk rfl (by omega) fun _ _ hpre hk => ?_
    rw [if_neg (show ¬ x.length + 3 < 3 by omega), Nat.add_sub_cancel, show i + (x.length + 3) = i + 3 + x.length by omega]
    exact encodeChunks_spec hx (by omega) hpre hk

theorem mgEncodeBase64_eq (hx : Holds str 0 x) : mgEncodeBase64 str x.length = .ok
    { rlen := (x.length + 2) / 3 * 4 + 1 + ((x.length + 2) / 3 * 4 / MAX_LINE + 1)
      result := lines (encodeWith ((str x.length).toNat / 16) x) ++ [0]
      rindex := (lines (encodeWith ((str x.length).toNat / 16) x)).length } := by
  obtain ⟨r, hr, htext⟩ := encodeChunks_spec hx (Nat.lt_succ_self x.length) (show [].length = 4 * 0 from rfl) (by omega)
  rw [nil_append, nil_append, Nat.zero_add] at htext
  simp only [mgEncodeBase64, hr, bind, Except.bind, pure, Except.pure, ne_eq, Nat.add_one_ne_zero, not_false_eq_true, if_true,
    Nat.add_eq_zero_iff, false_and, htext, Nat.add_sub_cancel, show eol.length = 1 from rfl, Nat.mul_one]

/-! ## The text -/

set_option maxRecDepth 4000 in
theorem index64_fin : ∀ n : Fin 64, index64 (alphabet n) = .ok (UInt8.ofNat n) := by decide

theorem index64_alphabet {n : Nat} (h : n < 64) : index64 (alphabet n) = .ok (UInt8.ofNat n) := index64_fin ⟨n, h⟩

theorem alphabet_inj {m n : Nat} (hm : m < 64) (hn : n < 64) (h : alphabet m = alphabet n) : m = n := by
  have hindex := (index64_alphabet hm).symm.trans ((congrArg index64 h).trans (index64_alphabet hn))
  have hnat := congrArg UInt8.toNat (Except.ok.inj hindex)
  rw [toNat_ofNat_byte, toNat_ofNat_byte] at hnat
  omega

/-- A character of an encoding: of the alphabet, or padding. -/
def Character (b : UInt8) : Prop := (∃ n < 64, b = alphabet n) ∨ b = pad

set_option maxRecDepth 4000 in
theorem alphabet_fin : ∀ n : Fin 64, (alphabet n).toNat < 128 ∧ alphabet n ≠ 0 ∧ alphabet n ≠ 10 := by decide

theorem Character.plain {b : UInt8} (hb : Character b) : b.toNat < 128 ∧ b ≠ 0 ∧ b ≠ 10 := by
  rcases hb with ⟨n, hn, rfl⟩ | rfl
  · exact alphabet_fin ⟨n, hn⟩
  · decide

theorem encodeWith_character (hbits : bits < 16) : ∀ {x : List UInt8}, ∀ ch ∈ encodeWith bits x, Character ch
  | [], ch, h => by simp [encodeWith] at h
  | [a], ch, h => by
    have h1 := a.toNat_lt
    simp only [encodeWith, mem_cons, not_mem_nil, or_false] at h
    rcases h with rfl | rfl | rfl | rfl
    · exact .inl ⟨_, by omega, rfl⟩
    · exact .inl ⟨_, by omega, rfl⟩
    · exact .inr rfl
    · exact .inr rfl
  | [a, b], ch, h => by
    have h1 := a.toNat_lt
    have h2 := b.toNat_lt
    simp only [encodeWith, mem_cons, not_mem_nil, or_false] at h
    rcases h with rfl | rfl | rfl | rfl
    · exact .inl ⟨_, by omega, rfl⟩
    · exact .inl ⟨_, by omega, rfl⟩
    · exact .inl ⟨_, by omega, rfl⟩
    · exact .inr rfl
  | a :: b :: c :: x, ch, h => by
    have h1 := a.toNat_lt
    have h2 := b.toNat_lt
    have h3 := c.toNat_lt
    simp only [encodeWith, cons_append, nil_append, mem_cons] at h
    rcases h with rfl | rfl | rfl | rfl | h
    · exact .inl ⟨_, by omega, rfl⟩
    · exact .inl ⟨_, by omega, rfl⟩
    · exact .inl ⟨_, by omega, rfl⟩
    · exact .inl ⟨_, by omega, rfl⟩
    · exact encodeWith_character hbits ch h

theorem mem_lines {s : List UInt8} {b : UInt8} : b ∈ lines s → b ∈ s ∨ b = 10 := by
  induction s using lines.induct with
  | case1 s hs =>
    rw [lines_short hs]
    simp [eol]
  | case2 s hs ih =>
    rw [lines, if_neg hs]
    simp only [eol, mem_append, mem_singleton]
    rintro ((hb | rfl) | hb)
    · exact .inl (mem_of_mem_take hb)
    · exact .inr rfl
    · exact (ih hb).imp_left mem_of_mem_drop

/-- The newlines taken out again. -/
theorem filter_lines {s : List UInt8} (hs : ∀ b ∈ s, b ≠ 10) : (lines s).filter (· ≠ 10) = s := by
  induction s using lines.induct with
  | case1 s hshort =>
    rw [lines_short hshort, filter_append, filter_eq_self.2 (by simpa using hs)]
    simp [eol]
  | case2 s hlong ih =>
    have htake : (s.take 76).filter (· ≠ 10) = s.take 76 := filter_eq_self.2 (by simpa using fun b hb => hs b (mem_of_mem_take hb))
    rw [lines, if_neg hlong, filter_append, filter_append, htake, ih fun b hb => hs b (mem_of_mem_drop hb)]
    simp [eol]

theorem lines_encodeWith_inj {bits' : Nat} (hb : bits < 16) (hb' : bits' < 16)
    (h : lines (encodeWith bits x) = lines (encodeWith bits' x)) : encodeWith bits x = encodeWith bits' x := by
  have hfilter := congrArg (List.filter (· ≠ 10)) h
  rwa [filter_lines fun b hmem => (encodeWith_character hb b hmem).plain.2.2,
    filter_lines fun b hmem => (encodeWith_character hb' b hmem).plain.2.2] at hfilter

theorem cString_text (hb : bits < 16) : cString (lines (encodeWith bits x) ++ [0]) = lines (encodeWith bits x) := by
  refine cString_append fun b hmem => ?_
  rcases mem_lines hmem with hmem | rfl
  · exact (encodeWith_character hb b hmem).plain.2.1
  · decide

/-- The pad bits show after a single last byte only. -/
theorem encodeWith_eq_iff (hb : bits < 16) : ∀ {x : List UInt8}, encodeWith bits x = rfc4648 x ↔ x.length % 3 ≠ 1 ∨ bits = 0
  | [] => by simp [rfc4648, encodeWith]
  | [a] => by
    have h1 := a.toNat_lt
    have hinj : alphabet ((a.toNat * 16 + bits) % 64) = alphabet (a.toNat * 16 % 64) → bits = 0 := fun h => by
      have := alphabet_inj (by omega) (by omega) h
      omega
    constructor
    · intro h
      simp only [rfc4648, encodeWith, cons.injEq, and_true] at h
      exact .inr (hinj h.2)
    · rintro (h | rfl)
      · exact absurd rfl h
      · rfl
  | [a, b] => by simp [rfc4648, encodeWith]
  | a :: b :: c :: x => by
    have ih := encodeWith_eq_iff hb (x := x)
    simp only [rfc4648] at ih
    simp only [rfc4648, encodeWith, append_cancel_left_eq, ih, length_cons]
    omega

/-- Two memories that hold the same bytes give the same text, that of RFC 4648 in lines, if and only if the last group is not a
single byte, or the byte behind it has no high bits in either of them. -/
theorem mg_encode_base64_iff (x : List UInt8) (m₁ m₂ : Nat → UInt8) (h₁ : Holds m₁ 0 x) (h₂ : Holds m₂ 0 x) :
    (∃ e, mgEncodeBase64 m₁ x.length = .ok e ∧ mgEncodeBase64 m₂ x.length = .ok e ∧ cString e.result = lines (rfc4648 x)) ↔
      x.length % 3 ≠ 1 ∨ m₁ x.length < 16 ∧ m₂ x.length < 16 := by
  have hb (m : Nat → UInt8) : (m x.length).toNat / 16 < 16 := by
    have := (m x.length).toNat_lt
    omega
  have hlt (m : Nat → UInt8) : m x.length < 16 ↔ (m x.length).toNat / 16 = 0 := by
    rw [UInt8.lt_iff_toNat_lt]
    have h16 : (16 : UInt8).toNat = 16 := rfl
    omega
  rw [mgEncodeBase64_eq h₁, mgEncodeBase64_eq h₂, hlt, hlt, or_and_left, ← encodeWith_eq_iff (hb m₁),
    ← encodeWith_eq_iff (hb m₂)]
  constructor
  · rintro ⟨e, he₁, he₂, htext⟩
    have h0 : (0 : Nat) < 16 := by decide
    cases he₁
    rw [cString_text (hb m₁)] at htext
    have hr₂ := congrArg Encoded.result (Except.ok.inj he₂)
    have htext₂ := congrArg cString hr₂
    rw [cString_text (hb m₁), cString_text (hb m₂), htext] at htext₂
    exact ⟨lines_encodeWith_inj (hb m₁) h0 htext, lines_encodeWith_inj (hb m₂) h0 htext₂⟩
  · rintro ⟨he₁, he₂⟩
    refine ⟨_, rfl, by rw [he₁, he₂], ?_⟩
    rw [cString_text (hb m₁), he₁]

/-- A memory that holds `x`, with `b` everywhere behind it. -/
def followed (x : List UInt8) (b : UInt8) : Nat → UInt8 := fun i => x.getD i b

theorem holds_followed (x : List UInt8) (b : UInt8) : Holds (followed x b) 0 x := by
  intro j hj
  rw [Nat.zero_add, followed, getD_eq_getElem?_getD, getElem?_eq_getElem hj, Option.getD_some]

theorem mg_encode_base64_iff_two :
    ∃ e, mgEncodeBase64 (followed [97, 98] 0) 2 = .ok e ∧ mgEncodeBase64 (followed [97, 98] 255) 2 = .ok e ∧
      cString e.result = lines (rfc4648 [97, 98]) :=
  (mg_encode_base64_iff [97, 98] _ _ (holds_followed _ 0) (holds_followed _ 255)).2 (.inl (by decide))

/-- The byte 97 with 0 or with 16 behind it: `YQ==` or `YR==`. -/
theorem mg_encode_base64_follower :
    ¬ ∀ (x : List UInt8) (m₁ m₂ : Nat → UInt8), Holds m₁ 0 x → Holds m₂ 0 x →
      ∃ e, mgEncodeBase64 m₁ x.length = .ok e ∧ mgEncodeBase64 m₂ x.length = .ok e ∧ cString e.result = lines (rfc4648 x) := by
  intro hall
  obtain ⟨e, he₁, he₂, -⟩ := hall [97] _ _ (holds_followed _ 0) (holds_followed _ 16)
  have hr₁ : mgEncodeBase64 (followed [97] 0) 1 = .ok ⟨6, [89, 81, 61, 61, 10, 0], 5⟩ := rfl
  have hr₂ : mgEncodeBase64 (followed [97] 16) 1 = .ok ⟨6, [89, 82, 61, 61, 10, 0], 5⟩ := rfl
  cases hr₁.symm.trans he₁
  cases hr₂.symm.trans he₂

end MgStd.Base64
