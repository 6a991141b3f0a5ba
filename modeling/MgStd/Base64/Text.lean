import MgStd.Base64.Decode
/-!
# Arbitrary text

The decoder of a text of ASCII characters: the letters of the text are those of
the alphabet and `'='`, everything else is skipped, and groups of four letters
are decoded up to the first one that is padded.
-/

namespace MgStd.Base64

open MgStd.Lib List

variable {a b c d : UInt8} {n : Nat} {str s : List UInt8}

/-! ## Letters -/

/-- The six bits that a character of the alphabet stands for. -/
def sextet (b : UInt8) : Option Nat := (range 64).find? fun n => alphabet n = b

def isLetter (b : UInt8) : Bool := (sextet b).isSome || b == pad

/-- The text without the characters that are neither in the alphabet nor `'='`. -/
def letters (str : List UInt8) : List UInt8 := str.filter isLetter

/-- Six bits and the two bits that follow. -/
def octet₁ (a b : UInt8) : UInt8 := UInt8.ofNat ((sextet a).getD 0 * 4 + (sextet b).getD 0 / 16)
/-- The next four bits, and four. -/
def octet₂ (b c : UInt8) : UInt8 := UInt8.ofNat ((sextet b).getD 0 % 16 * 16 + (sextet c).getD 0 / 4)
/-- The next two bits, and six. -/
def octet₃ (c d : UInt8) : UInt8 := UInt8.ofNat ((sextet c).getD 0 % 4 * 64 + (sextet d).getD 0)

/-- The bytes of a text of letters. -/
def decodeText : List UInt8 → List UInt8
  | a :: b :: c :: d :: s =>
    if a = pad ∨ b = pad then []
    else if c = pad then [octet₁ a b]
    else if d = pad then [octet₁ a b, octet₂ b c]
    else octet₁ a b :: octet₂ b c :: octet₃ c d :: decodeText s
  | [a, b, c] => if a = pad ∨ b = pad then [] else if c = pad then [octet₁ a b] else [octet₁ a b, octet₂ b c]
  | [a, b] => if a = pad ∨ b = pad then [] else [octet₁ a b]
  | [_] => []
  | [] => []

theorem sextet_eq_some (h : sextet b = some n) : n < 64 ∧ b = alphabet n := by
  have hfound := find?_some h
  exact ⟨mem_range.1 (mem_of_find?_eq_some h), (of_decide_eq_true hfound).symm⟩

/-- What the table has for a byte, in either half of it. -/
def symbol (b : UInt8) : UInt8 := index_64.getD b.toNat XX

theorem symbol_pad : symbol pad = EQ := rfl

theorem symbol_sextet (h : sextet b = some n) : symbol b = UInt8.ofNat n ∧ (symbol b).toNat = n ∧ symbol b ≠ EQ := by
  obtain ⟨hn, rfl⟩ := sextet_eq_some h
  have hindex := index64_alphabet hn
  unfold index64 at hindex
  split at hindex
  · have hsym : symbol (alphabet n) = UInt8.ofNat n := Except.ok.inj hindex
    rw [hsym]
    exact ⟨rfl, toNat_six hn⟩
  · cases hindex

set_option maxRecDepth 4000 in
theorem symbol_fin : ∀ n : Fin 128, symbol (UInt8.ofNat n) = XX ∨ isLetter (UInt8.ofNat n) = true := by decide +kernel

theorem symbol_ne_iff : symbol b ≠ XX ↔ isLetter b = true := by
  constructor
  · intro h
    by_cases hb : b.toNat < 128
    · have hfin := symbol_fin ⟨b.toNat, hb⟩
      rw [UInt8.ofNat_toNat] at hfin
      exact hfin.resolve_left h
    · rw [symbol, getD_eq_getElem?_getD, getElem?_eq_none (Nat.le_of_not_lt hb)] at h
      exact absurd rfl h
  · intro h
    rcases (Bool.or_eq_true _ _).mp h with hsome | hpad
    · obtain ⟨n, hn⟩ := Option.isSome_iff_exists.1 hsome
      have hlt := (sextet_eq_some hn).1
      intro heq
      have hnat := (symbol_sextet hn).2.1
      rw [heq, show XX.toNat = 255 from rfl] at hnat
      omega
    · rw [beq_iff_eq.1 hpad, symbol_pad]
      decide

theorem symbols_eq (str : List UInt8) : symbols str = (letters str).map symbol := by
  have hpred : (fun b => decide (symbol b ≠ XX)) = isLetter := by
    funext b
    rw [Bool.eq_iff_iff, decide_eq_true_iff]
    exact symbol_ne_iff
  calc symbols str = (str.map symbol).filter (· ≠ XX) := rfl
    _ = (str.filter fun b => decide (symbol b ≠ XX)).map symbol := filter_map ..
    _ = (letters str).map symbol := by rw [hpred, letters]

theorem symbols_letters (str : List UInt8) : symbols (letters str) = symbols str := by
  rw [symbols_eq, symbols_eq, letters, letters, filter_filter]
  simp only [Bool.and_self]

/-! ## Groups -/

theorem symbol_eq_iff (hb : isLetter b = true) : symbol b = EQ ↔ b = pad := by
  constructor
  · intro h
    rcases (Bool.or_eq_true _ _).mp hb with hsome | hpad
    · obtain ⟨n, hn⟩ := Option.isSome_iff_exists.1 hsome
      exact absurd h (symbol_sextet hn).2.2
    · exact beq_iff_eq.1 hpad
  · rintro rfl
    exact symbol_pad

theorem symbol_toNat (hb : isLetter b = true) (hne : b ≠ pad) : (symbol b).toNat = (sextet b).getD 0 ∧ (sextet b).getD 0 < 64 := by
  rcases (Bool.or_eq_true _ _).mp hb with hsome | hpad
  · obtain ⟨n, hn⟩ := Option.isSome_iff_exists.1 hsome
    rw [hn]
    exact ⟨(symbol_sextet hn).2.1, (sextet_eq_some hn).1⟩
  · exact absurd (beq_iff_eq.1 hpad) hne

theorem octet₁_eq (ha : isLetter a = true) (hb : isLetter b = true) (hap : a ≠ pad) (hbp : b ≠ pad) :
    (symbol a <<< 2) ||| ((symbol b &&& 0x30) >>> 4) = octet₁ a b := by
  obtain ⟨hva, hla⟩ := symbol_toNat ha hap
  obtain ⟨hvb, hlb⟩ := symbol_toNat hb hbp
  have hnat : (octet₁ a b).toNat = (sextet a).getD 0 * 4 + (sextet b).getD 0 / 16 := by
    rw [octet₁, toNat_ofNat_byte, Nat.mod_eq_of_lt (by omega)]
  exact first_byte (by omega) (by omega)

theorem octet₂_eq (hb : isLetter b = true) (hc : isLetter c = true) (hbp : b ≠ pad) (hcp : c ≠ pad) :
    ((symbol b &&& 0x0F) <<< 4) ||| ((symbol c &&& 0x3C) >>> 2) = octet₂ b c := by
  obtain ⟨hvb, hlb⟩ := symbol_toNat hb hbp
  obtain ⟨hvc, hlc⟩ := symbol_toNat hc hcp
  have hnat : (octet₂ b c).toNat = (sextet b).getD 0 % 16 * 16 + (sextet c).getD 0 / 4 := by
    rw [octet₂, toNat_ofNat_byte, Nat.mod_eq_of_lt (by omega)]
  exact second_byte (by omega) (by omega)

theorem octet₃_eq (hc : isLetter c = true) (hd : isLetter d = true) (hcp : c ≠ pad) (hdp : d ≠ pad) :
    ((symbol c &&& 0x03) <<< 6) ||| symbol d = octet₃ c d := by
  obtain ⟨hvc, hlc⟩ := symbol_toNat hc hcp
  obtain ⟨hvd, hld⟩ := symbol_toNat hd hdp
  have hnat : (octet₃ c d).toNat = (sextet c).getD 0 % 4 * 64 + (sextet d).getD 0 := by
    rw [octet₃, toNat_ofNat_byte, Nat.mod_eq_of_lt (by omega)]
  exact third_byte (by omega) (by omega)

/-- The bytes of the first three letters of a group, when the fourth symbol counts as padding. -/
theorem groupBytes_padded (ha : isLetter a = true) (hb : isLetter b = true) (hc : isLetter c = true) :
    groupBytes (symbol a) (symbol b) (symbol c) EQ =
      if a = pad ∨ b = pad then [] else if c = pad then [octet₁ a b] else [octet₁ a b, octet₂ b c] := by
  simp only [groupBytes, symbol_eq_iff ha, symbol_eq_iff hb, symbol_eq_iff hc, if_true]
  split
  · rfl
  · next hab =>
    obtain ⟨hap, hbp⟩ := not_or.1 hab
    rw [octet₁_eq ha hb hap hbp]
    split
    · rfl
    · next hcp => rw [octet₂_eq hb hc hbp hcp]

theorem groupBytes_full (ha : isLetter a = true) (hb : isLetter b = true) (hc : isLetter c = true) (hd : isLetter d = true)
    (hdp : d ≠ pad) : groupBytes (symbol a) (symbol b) (symbol c) (symbol d) =
      if a = pad ∨ b = pad then [] else if c = pad then [octet₁ a b] else [octet₁ a b, octet₂ b c, octet₃ c d] := by
  simp only [groupBytes, symbol_eq_iff ha, symbol_eq_iff hb, symbol_eq_iff hc, symbol_eq_iff hd, hdp, if_false]
  split
  · rfl
  · next hab =>
    obtain ⟨hap, hbp⟩ := not_or.1 hab
    rw [octet₁_eq ha hb hap hbp]
    split
    · rfl
    · next hcp => rw [octet₂_eq hb hc hbp hcp, octet₃_eq hc hd hcp hdp]

theorem decodeSymbols_eq : ∀ {s : List UInt8}, (∀ b ∈ s, isLetter b = true) → decodeSymbols (s.map symbol) = decodeText s
  | [], _ => rfl
  | [_], _ => rfl
  | [a, b], hs => by
    have ha := hs a (by simp)
    have hb := hs b (by simp)
    have hpad : isLetter pad = true := by decide
    have hgroup := groupBytes_padded ha hb hpad
    rw [symbol_pad, if_pos rfl] at hgroup
    exact hgroup
  | [a, b, c], hs => groupBytes_padded (hs a (by simp)) (hs b (by simp)) (hs c (by simp))
  | a :: b :: c :: d :: s, hs => by
    have ha := hs a (by simp)
    have hb := hs b (by simp)
    have hc := hs c (by simp)
    have hd := hs d (by simp)
    have ih : decodeSymbols (s.map symbol) = decodeText s := decodeSymbols_eq fun x hx => hs x (by simp [hx])
    simp only [map_cons, decodeSymbols, decodeText, symbol_eq_iff ha, symbol_eq_iff hb, symbol_eq_iff hc, symbol_eq_iff hd, ih]
    by_cases hdp : d = pad
    · rw [hdp, symbol_pad, groupBytes_padded ha hb hc]
      simp
    · rw [groupBytes_full ha hb hc hd hdp]
      by_cases hab : a = pad ∨ b = pad
      · simp [hab, or_assoc.symm]
      · obtain ⟨hap, hbp⟩ := not_or.1 hab
        by_cases hcp : c = pad
        · simp [hap, hbp, hcp]
        · simp [hap, hbp, hcp, hdp]

/-- The result depends on the letters only, and of these on the groups up to the first padded one. -/
theorem mg_decode_base64_text (str : List UInt8) (hstr : ∀ b ∈ str, b ≠ 0 ∧ b.toNat < 128) (rest rest' : List UInt8) :
    ∃ d d', mgDecodeBase64 (str ++ 0 :: rest) = .ok d ∧ mgDecodeBase64 (letters str ++ 0 :: rest') = .ok d' ∧
      d.result = d'.result ∧ d.rindex = d'.rindex ∧
      d.result = decodeText (letters str) ++ [0] ∧ d.rindex = (decodeText (letters str)).length := by
  have hplain : ∀ b ∈ str, b.toNat < 128 ∧ b ≠ 0 := fun b hb => ⟨(hstr b hb).2, (hstr b hb).1⟩
  have hletters : ∀ b ∈ letters str, b.toNat < 128 ∧ b ≠ 0 := fun b hb => hplain b (mem_of_mem_filter hb)
  have htext : decodeSymbols (symbols str) = decodeText (letters str) := by
    rw [symbols_eq]
    exact decodeSymbols_eq fun b hb => (mem_filter.1 hb).2
  refine ⟨_, _, mgDecodeBase64_eq rest hplain, mgDecodeBase64_eq rest' hletters, ?_⟩
  rw [symbols_letters, htext]
  exact ⟨rfl, rfl, rfl, rfl⟩

/-- "Y?W\nI=" -/
theorem mg_decode_base64_text_two :
    ∃ d d', mgDecodeBase64 ([89, 63, 87, 10, 73, 61] ++ 0 :: []) = .ok d ∧
      mgDecodeBase64 (letters [89, 63, 87, 10, 73, 61] ++ 0 :: []) = .ok d' ∧ d.result = d'.result ∧ d.rindex = d'.rindex ∧
      d.result = decodeText (letters [89, 63, 87, 10, 73, 61]) ++ [0] ∧
      d.rindex = (decodeText (letters [89, 63, 87, 10, 73, 61])).length :=
  mg_decode_base64_text [89, 63, 87, 10, 73, 61] (by simp) [] []

end MgStd.Base64
