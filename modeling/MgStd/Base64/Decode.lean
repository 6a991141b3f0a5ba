import MgStd.Base64.Encode
/-!
# Decoding

What the decoder makes of a string of ASCII characters depends on its symbols
only: the values of the characters that have one. Decoding what was encoded
gives the bytes back.
-/

namespace MgStd.Base64

open MgStd.Lib List

variable {a b c c0 c1 c2 c3 : UInt8} {s str x : List UInt8} {bits : Nat}

/-! ## Symbols -/

/-- The values of the characters of the alphabet and of `'='`, in order. -/
def symbols (str : List UInt8) : List UInt8 := (str.map fun b => index_64.getD b.toNat XX).filter (· ≠ XX)

@[simp] theorem symbols_nil : symbols [] = [] := rfl

theorem symbols_append (s t : List UInt8) : symbols (s ++ t) = symbols s ++ symbols t := by
  rw [symbols, map_append, filter_append]
  rfl

theorem symbols_cons {u : UInt8} (hu : index64 b = .ok u) :
    symbols (b :: str) = if u ≠ INVALID then u :: symbols str else symbols str := by
  unfold index64 at hu
  split at hu
  · cases hu
    rw [symbols, map_cons, filter_cons]
    simp only [decide_eq_true_eq]
    rfl
  · cases hu

theorem index64_ascii (h : b.toNat < 128) : ∃ u, index64 b = .ok u := ⟨_, if_pos h⟩

/-- The bytes of a group of four symbols. -/
def groupBytes (c0 c1 c2 c3 : UInt8) : List UInt8 :=
  if c0 = EQ ∨ c1 = EQ then []
  else
    let r0 := (c0 <<< 2) ||| ((c1 &&& 0x30) >>> 4)
    if c2 = EQ then [r0]
    else
      let r1 := ((c1 &&& 0x0F) <<< 4) ||| ((c2 &&& 0x3C) >>> 2)
      if c3 = EQ then [r0, r1] else [r0, r1, ((c2 &&& 0x03) <<< 6) ||| c3]

/-- Group by group, up to the first with padding in it; what is missing of the last group counts as padding. -/
def decodeSymbols : List UInt8 → List UInt8
  | c0 :: c1 :: c2 :: c3 :: s =>
    groupBytes c0 c1 c2 c3 ++ if c0 = EQ ∨ c1 = EQ ∨ c2 = EQ ∨ c3 = EQ then [] else decodeSymbols s
  | [c0, c1, c2] => groupBytes c0 c1 c2 EQ
  | [c0, c1] => groupBytes c0 c1 EQ EQ
  | [_] => []
  | [] => []

/-! ## The two loops -/

/-- What the inner loop gives when the symbols `s` are there or to come in `str`. -/
inductive Gathered (s str : List UInt8) : Option (List UInt8) × List UInt8 → Prop
  | four (rest : List UInt8) (hs : 4 ≤ s.length) (hrest : symbols rest = s.drop 4) (hsuffix : rest <:+ str)
      (hlt : rest.length < str.length) : Gathered s str (some (s.take 4), rest)
  | short (hs : 2 ≤ s.length) (hs' : s.length < 4) : Gathered s str (some (s ++ replicate (4 - s.length) EQ), [])
  | finished (hs : s.length < 2) : Gathered s str (none, [])

/-- A character adds its symbol to the group, if it has one. -/
theorem collect_symbols {u : UInt8} (hu : index64 b = .ok u) (s str : List UInt8) :
    (if u ≠ INVALID then s ++ [u] else s) ++ symbols str = s ++ symbols (b :: str) := by
  rw [symbols_cons hu]
  split
  · rw [append_assoc, singleton_append]
  · rfl

theorem length_collect_le (u : UInt8) (s : List UInt8) : (if u ≠ INVALID then s ++ [u] else s).length ≤ s.length + 1 := by
  split
  · rw [length_append, length_singleton]
  · exact Nat.le_succ _

/-- A group that ASCII characters complete ends among them, whatever comes then. -/
theorem gather_ascii (more : List UInt8) (hstr : ∀ b ∈ str, b.toNat < 128) (hs : s.length < 4) (h4 : 4 ≤ (s ++ symbols str).length) :
    ∃ rest, gather s (str ++ more) = .ok (some ((s ++ symbols str).take 4), rest ++ more) ∧
      symbols rest = (s ++ symbols str).drop 4 ∧ rest <:+ str ∧ rest.length < str.length := by
  induction str generalizing s with
  | nil =>
    rw [symbols_nil, append_nil] at h4
    omega
  | cons b str ih =>
    obtain ⟨u, hu⟩ := index64_ascii (hstr b mem_cons_self)
    have hlen := length_collect_le u s
    rw [← collect_symbols hu] at h4 ⊢
    simp only [cons_append, gather, hu, bind, Except.bind]
    generalize (if u ≠ INVALID then s ++ [u] else s) = s' at h4 hlen ⊢
    rcases Nat.lt_or_ge s'.length 4 with hlt | hge
    · -- more characters have to come
      have hne : str ++ more ≠ [] := by
        intro hnil
        rw [(append_eq_nil_iff.1 hnil).1, symbols_nil, append_nil] at h4
        omega
      obtain ⟨rest, hrest, hdrop, hsuffix, hshort⟩ := ih (fun b hb => hstr b (mem_cons_of_mem _ hb)) hlt h4
      rw [if_neg hne, if_pos hlt, hrest]
      exact ⟨rest, rfl, hdrop, hsuffix.trans (suffix_cons b str), Nat.lt_succ_of_lt hshort⟩
    · have hfour : s'.length = 4 := by omega
      refine ⟨str, ?_, (drop_left' hfour).symm, suffix_cons b str, Nat.lt_succ_self _⟩
      rw [take_left' hfour]
      split
      · rw [if_neg (by omega)]
        rfl
      · rw [if_neg (by omega)]
        rfl

/-- The end of the string in the middle of a group. -/
theorem gather_short (hstr : ∀ b ∈ str, b.toNat < 128) (hne : str ≠ []) (h4 : (s ++ symbols str).length < 4) :
    gather s str = .ok (if (s ++ symbols str).length < 2 then none
      else some (s ++ symbols str ++ replicate (4 - (s ++ symbols str).length) EQ), []) := by
  induction str generalizing s with
  | nil => exact absurd rfl hne
  | cons b str ih =>
    obtain ⟨u, hu⟩ := index64_ascii (hstr b mem_cons_self)
    rw [← collect_symbols hu] at h4 ⊢
    simp only [gather, hu, bind, Except.bind]
    generalize (if u ≠ INVALID then s ++ [u] else s) = s' at h4 ⊢
    have hlt : s'.length < 4 := by
      rw [length_append] at h4
      omega
    by_cases hend : str = []
    · subst hend
      rw [symbols_nil, append_nil, if_pos rfl, if_pos hlt]
      by_cases h2 : s'.length < 2
      · rw [if_pos h2, if_pos h2]
        rfl
      · rw [if_neg h2, if_neg h2]
        by_cases htwo : s'.length = 2
        · rw [if_pos htwo, htwo]
          rfl
        · rw [if_neg htwo, show s'.length = 3 by omega]
          rfl
    · rw [if_neg hend, if_pos hlt]
      exact ih (fun b hb => hstr b (mem_cons_of_mem _ hb)) hend h4

theorem gather_spec (hstr : ∀ b ∈ str, b.toNat < 128) (hne : str ≠ []) (hs : s.length < 4) :
    ∃ out, gather s str = .ok out ∧ Gathered (s ++ symbols str) str out := by
  rcases Nat.lt_or_ge (s ++ symbols str).length 4 with hlt | hge
  · refine ⟨_, gather_short hstr hne hlt, ?_⟩
    split
    · next h2 => exact .finished h2
    · next h2 => exact .short (Nat.not_lt.1 h2) hlt
  · obtain ⟨rest, hrest, hdrop, hsuffix, hshort⟩ := gather_ascii [] hstr hs hge
    rw [append_nil, append_nil] at hrest
    exact ⟨_, hrest, .four rest hge hdrop hsuffix hshort⟩

/-- One round: the bytes of its group, and what the other rounds give if there is no padding in it. -/
theorem decodeRounds_round (fuel : Nat) {rest : List UInt8} (hne : str ≠ []) (hout : gather [] str = .ok (some [c0, c1, c2, c3], rest)) :
    decodeRounds (fuel + 1) str = if c0 = EQ ∨ c1 = EQ ∨ c2 = EQ ∨ c3 = EQ then .ok (groupBytes c0 c1 c2 c3)
      else (decodeRounds fuel rest).map (groupBytes c0 c1 c2 c3 ++ ·) := by
  rw [decodeRounds, if_pos hne, hout]
  simp only [bind, Except.bind, groupBytes]
  by_cases h01 : c0 = EQ ∨ c1 = EQ
  · have hany : c0 = EQ ∨ c1 = EQ ∨ c2 = EQ ∨ c3 = EQ := by tauto
    rw [if_pos h01, if_pos h01, if_pos hany]
    rfl
  · by_cases h2 : c2 = EQ
    · rw [if_neg h01, if_neg h01, if_pos h2, if_pos h2, if_pos (.inr (.inr (.inl h2)))]
      rfl
    · by_cases h3 : c3 = EQ
      · rw [if_neg h01, if_neg h01, if_neg h2, if_neg h2, if_pos h3, if_pos h3, if_pos (.inr (.inr (.inr h3)))]
        rfl
      · have hnone : ¬ (c0 = EQ ∨ c1 = EQ ∨ c2 = EQ ∨ c3 = EQ) := by tauto
        rw [if_neg h01, if_neg h01, if_neg h2, if_neg h2, if_neg h3, if_neg h3, if_neg hnone]
        cases decodeRounds fuel rest <;> rfl

theorem decodeRounds_group (fuel : Nat) {rest r : List UInt8} (hne : str ≠ []) (hout : gather [] str = .ok (some [c0, c1, c2, c3], rest))
    (hrest : ¬ (c0 = EQ ∨ c1 = EQ ∨ c2 = EQ ∨ c3 = EQ) → decodeRounds fuel rest = .ok r) :
    decodeRounds (fuel + 1) str = .ok (groupBytes c0 c1 c2 c3 ++ if c0 = EQ ∨ c1 = EQ ∨ c2 = EQ ∨ c3 = EQ then [] else r) := by
  rw [decodeRounds_round fuel hne hout]
  split
  · rw [append_nil]
  · next hnone => rw [hrest hnone]; rfl

theorem exists_group {s : List UInt8} (hs : 4 ≤ s.length) : ∃ c0 c1 c2 c3 t, s = c0 :: c1 :: c2 :: c3 :: t :=
  match s, hs with
  | c0 :: c1 :: c2 :: c3 :: t, _ => ⟨c0, c1, c2, c3, t, rfl⟩

theorem decodeRounds_spec {fuel : Nat} (hstr : ∀ b ∈ str, b.toNat < 128) (hf : str.length < fuel) :
    decodeRounds fuel str = .ok (decodeSymbols (symbols str)) := by
  induction fuel generalizing str with
  | zero => exact absurd hf (Nat.not_lt_zero _)
  | succ fuel ih =>
    by_cases hne : str = []
    · subst hne
      rfl
    obtain ⟨out, hout, hg⟩ := gather_spec (s := []) hstr hne (by simp)
    rw [nil_append] at hg
    cases hg with
    | finished hs =>
      rw [decodeRounds, if_pos hne, hout]
      match hsym : symbols str, hs with
      | [], _ => rfl
      | [_], _ => rfl
    | short hs hs' =>
      match hsym : symbols str, hs, hs' with
      | [c0, c1], _, _ =>
        rw [hsym] at hout
        have hround := decodeRounds_group (r := []) fuel hne hout fun h => absurd (.inr (.inr (.inl rfl))) h
        rwa [if_pos (.inr (.inr (.inl rfl))), append_nil] at hround
      | [c0, c1, c2], _, _ =>
        rw [hsym] at hout
        have hround := decodeRounds_group (r := []) fuel hne hout fun h => absurd (.inr (.inr (.inr rfl))) h
        rwa [if_pos (.inr (.inr (.inr rfl))), append_nil] at hround
    | four rest hs hrest hsuffix hlt =>
      obtain ⟨c0, c1, c2, c3, t, hsym⟩ := exists_group hs
      rw [hsym] at hout hrest ⊢
      have ih := ih (fun b hb => hstr b (hsuffix.subset hb)) (show rest.length < fuel by omega)
      rw [hrest] at ih
      exact decodeRounds_group fuel hne hout fun _ => ih

theorem mgDecodeBase64_eq (rest : List UInt8) (hstr : ∀ b ∈ str, b.toNat < 128 ∧ b ≠ 0) : mgDecodeBase64 (str ++ 0 :: rest) = .ok
    { rlen := str.length * 3 / 4 + 1
      result := decodeSymbols (symbols str) ++ [0]
      rindex := (decodeSymbols (symbols str)).length } := by
  rw [mgDecodeBase64, cString_append fun b hb => (hstr b hb).2, decodeRounds_spec (fun b hb => (hstr b hb).1) (Nat.lt_succ_self _)]
  rfl

/-! ## Round trip -/

/-- The text as symbols: newlines are skipped. -/
theorem symbols_lines (s : List UInt8) : symbols (lines s) = symbols s := by
  have heol : symbols eol = [] := rfl
  induction s using lines.induct with
  | case1 s hs => rw [lines_short hs, symbols_append, heol, append_nil]
  | case2 s hs ih =>
    rw [lines, if_neg hs, symbols_append, symbols_append, heol, append_nil, ih, ← symbols_append, take_append_drop]

theorem symbols_alphabet {n : Nat} (hn : n < 64) : symbols (alphabet n :: s) = UInt8.ofNat n :: symbols s := by
  rw [symbols_cons (index64_alphabet hn), if_pos]
  intro h
  have := congrArg UInt8.toNat h
  rw [toNat_ofNat_byte, show INVALID.toNat = 255 from rfl] at this
  omega

theorem symbols_pad : symbols (pad :: s) = EQ :: symbols s := by
  have hpad : index64 pad = .ok EQ := rfl
  rw [symbols_cons hpad, if_pos (by decide)]

theorem toNat_six {n : Nat} (hn : n < 64) : (UInt8.ofNat n).toNat = n ∧ UInt8.ofNat n ≠ EQ := by
  have hnat : (UInt8.ofNat n).toNat = n := by
    rw [toNat_ofNat_byte]
    omega
  refine ⟨hnat, fun h => ?_⟩
  rw [h, show EQ.toNat = 254 from rfl] at hnat
  omega

theorem first_byte (h0 : c0.toNat = a.toNat / 4) (h1 : c1.toNat / 16 % 4 = a.toNat % 4) :
    (c0 <<< 2) ||| ((c1 &&& 0x30) >>> 4) = a := by
  have ha := a.toNat_lt
  have hfield : ((c1 &&& 0x30) >>> 4).toNat = c1.toNat / 16 % 4 := toNat_field (k := 2) (by decide) rfl
  apply UInt8.toNat_inj.1
  rw [toNat_pack (by decide) (by rw [h0]; simp; omega) (by rw [hfield]; simp; omega), hfield, h0, h1]
  simp
  omega

theorem second_byte (h1 : c1.toNat % 16 = b.toNat / 16) (h2 : c2.toNat / 4 % 16 = b.toNat % 16) :
    ((c1 &&& 0x0F) <<< 4) ||| ((c2 &&& 0x3C) >>> 2) = b := by
  have hb := b.toNat_lt
  have hlow : (c1 &&& 0x0F).toNat = c1.toNat % 16 := toNat_and_mask (k := 4) rfl
  have hfield : ((c2 &&& 0x3C) >>> 2).toNat = c2.toNat / 4 % 16 := toNat_field (k := 4) (by decide) rfl
  apply UInt8.toNat_inj.1
  rw [toNat_pack (by decide) (by rw [hlow]; simp; omega) (by rw [hfield]; simp; omega), hfield, hlow, h1, h2]
  simp
  omega

theorem third_byte (h2 : c2.toNat % 4 = c.toNat / 64) (h3 : c3.toNat = c.toNat % 64) : ((c2 &&& 0x03) <<< 6) ||| c3 = c := by
  have hc := c.toNat_lt
  have hlow : (c2 &&& 0x03).toNat = c2.toNat % 4 := toNat_and_mask (k := 2) rfl
  apply UInt8.toNat_inj.1
  rw [toNat_pack (by decide) (by rw [hlow]; simp; omega) (by rw [h3]; simp; omega), hlow, h2, h3]
  simp
  omega

/-- The symbols of an encoding give the bytes back, whatever the pad bits are. -/
theorem decodeSymbols_encodeWith (hbits : bits < 16) : ∀ {x : List UInt8}, decodeSymbols (symbols (encodeWith bits x)) = x
  | [] => rfl
  | [a] => by
    have h1 := a.toNat_lt
    have hn0 : (a.toNat * 16 + bits) / 64 < 64 := by omega
    have hn1 : (a.toNat * 16 + bits) % 64 < 64 := by omega
    obtain ⟨e0, q0⟩ := toNat_six hn0
    obtain ⟨e1, q1⟩ := toNat_six hn1
    simp only [encodeWith, symbols_alphabet hn0, symbols_alphabet hn1, symbols_pad, symbols_nil, decodeSymbols, groupBytes, q0, q1,
      or_self, if_false, if_true, or_true]
    rw [first_byte (a := a) (by rw [e0]; omega) (by rw [e1]; omega)]
    rfl
  | [a, b] => by
    have h1 := a.toNat_lt
    have h2 := b.toNat_lt
    have hn0 : (a.toNat * 256 + b.toNat) * 4 / 4096 < 64 := by omega
    have hn1 : (a.toNat * 256 + b.toNat) * 4 / 64 % 64 < 64 := by omega
    have hn2 : (a.toNat * 256 + b.toNat) * 4 % 64 < 64 := by omega
    obtain ⟨e0, q0⟩ := toNat_six hn0
    obtain ⟨e1, q1⟩ := toNat_six hn1
    obtain ⟨e2, q2⟩ := toNat_six hn2
    simp only [encodeWith, symbols_alphabet hn0, symbols_alphabet hn1, symbols_alphabet hn2, symbols_pad, symbols_nil, decodeSymbols,
      groupBytes, q0, q1, q2, or_self, if_false, if_true, or_true]
    rw [first_byte (a := a) (by rw [e0]; omega) (by rw [e1]; omega), second_byte (b := b) (by rw [e1]; omega) (by rw [e2]; omega)]
    rfl
  | a :: b :: c :: x => by
    have h1 := a.toNat_lt
    have h2 := b.toNat_lt
    have h3 := c.toNat_lt
    have hn0 : (a.toNat * 65536 + b.toNat * 256 + c.toNat) / 262144 < 64 := by omega
    have hn1 : (a.toNat * 65536 + b.toNat * 256 + c.toNat) / 4096 % 64 < 64 := by omega
    have hn2 : (a.toNat * 65536 + b.toNat * 256 + c.toNat) / 64 % 64 < 64 := by omega
    have hn3 : (a.toNat * 65536 + b.toNat * 256 + c.toNat) % 64 < 64 := by omega
    obtain ⟨e0, q0⟩ := toNat_six hn0
    obtain ⟨e1, q1⟩ := toNat_six hn1
    obtain ⟨e2, q2⟩ := toNat_six hn2
    obtain ⟨e3, q3⟩ := toNat_six hn3
    simp only [encodeWith, cons_append, nil_append, symbols_alphabet hn0, symbols_alphabet hn1, symbols_alphabet hn2,
      symbols_alphabet hn3, decodeSymbols, groupBytes, q0, q1, q2, q3, or_self, if_false]
    rw [decodeSymbols_encodeWith hbits (x := x), first_byte (a := a) (by rw [e0]; omega) (by rw [e1]; omega),
      second_byte (b := b) (by rw [e1]; omega) (by rw [e2]; omega), third_byte (c := c) (by rw [e2]; omega) (by rw [e3]; omega)]

/-- Decoding what `mg_encode_base64` made of the bytes `x` gives `x`, whatever follows `x` in memory, and the text. -/
theorem mg_base64_round_trip (x : List UInt8) (str : Nat → UInt8) (hx : Holds str 0 x) (rest : List UInt8) :
    ∃ e d, mgEncodeBase64 str x.length = .ok e ∧ mgDecodeBase64 (e.result ++ rest) = .ok d ∧ d.rindex = x.length ∧
      d.result = x ++ [0] := by
  have hbits : (str x.length).toNat / 16 < 16 := by
    have := (str x.length).toNat_lt
    omega
  have hplain : ∀ b ∈ lines (encodeWith ((str x.length).toNat / 16) x), b.toNat < 128 ∧ b ≠ 0 := by
    intro b hb
    rcases mem_lines hb with hb | rfl
    · exact ⟨(encodeWith_character hbits b hb).plain.1, (encodeWith_character hbits b hb).plain.2.1⟩
    · decide
  have hdecode := mgDecodeBase64_eq rest hplain
  rw [symbols_lines, decodeSymbols_encodeWith hbits] at hdecode
  exact ⟨_, _, mgEncodeBase64_eq hx, (congrArg mgDecodeBase64 (append_assoc ..)).trans hdecode, rfl, rfl⟩

/-- Four bytes with 255 behind them. -/
theorem mg_base64_round_trip_four :
    ∃ e d, mgEncodeBase64 (followed [104, 105, 33, 0] 255) 4 = .ok e ∧ mgDecodeBase64 (e.result ++ [7]) = .ok d ∧ d.rindex = 4 ∧
      d.result = [104, 105, 33, 0] ++ [0] :=
  mg_base64_round_trip [104, 105, 33, 0] _ (holds_followed _ 255) [7]

end MgStd.Base64
