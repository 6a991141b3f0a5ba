import MgStd.Base64.Text
/-!
# The accesses to the table

`index_64` has 256 entries, and a `char` is signed: a byte from 0x80 up is an
index in front of the table. What lies there, `table i` for negative `i`, may be
anything, and the decoder goes on with it.
-/

namespace MgStd.Base64

open MgStd.Lib List

variable {table : Int → UInt8} {b c0 c1 c2 c3 : UInt8} {str s pre rest : List UInt8} {fuel : Nat}

/-! ## The decoder over raw memory -/

/-- The index that a `char` is. -/
def charIndex (b : UInt8) : Int := if b.toNat < 128 then b.toNat else b.toNat - 256

/-- `index_64` lies in a memory that holds `table i` at `index_64 + i`. -/
def HoldsIndex (table : Int → UInt8) : Prop := ∀ i : Nat, i < 256 → table i = index_64.getD i XX

/-- `gather` with the indices that it accesses. -/
def gatherIn (table : Int → UInt8) : List UInt8 → List UInt8 → List Int × Option (List UInt8) × List UInt8
  | _, [] => ([], none, [])
  | c, b :: str =>
    let uc := table (charIndex b)
    let c := if uc ≠ INVALID then c ++ [uc] else c
    if str = [] then
      if c.length < 4 then
        if c.length < 2 then ([charIndex b], none, str)
        else if c.length = 2 then ([charIndex b], some (c ++ [EQ, EQ]), str)
        else ([charIndex b], some (c ++ [EQ]), str)
      else ([charIndex b], some c, str)
    else if c.length < 4 then
      let (accesses, out) := gatherIn table c str
      (charIndex b :: accesses, out)
    else ([charIndex b], some c, str)

/-- `decodeRounds` with the indices that it accesses. -/
def decodeRoundsIn (table : Int → UInt8) : Nat → List UInt8 → Except Fault (List Int × List UInt8)
  | 0, _ => .error .fuel
  | fuel + 1, str =>
    if str ≠ [] then
      match gatherIn table [] str with
      | (accesses, some [c0, c1, c2, c3], str) =>
        if c0 = EQ ∨ c1 = EQ ∨ c2 = EQ ∨ c3 = EQ then pure (accesses, groupBytes c0 c1 c2 c3)
        else do
          let (more, r) ← decodeRoundsIn table fuel str
          pure (accesses ++ more, groupBytes c0 c1 c2 c3 ++ r)
      | (accesses, _) => pure (accesses, [])
    else pure ([], [])

def mgDecodeBase64In (table : Int → UInt8) (str : List UInt8) : Except Fault (List Int × Decoded) := do
  let str := cString str
  let rlen := str.length * 3 / 4 + 1
  let (accesses, r) ← decodeRoundsIn table (str.length + 1) str
  pure (accesses, { rlen, result := r ++ [0], rindex := r.length })

/-! ## Accesses inside of the table -/

theorem charIndex_nonneg : 0 ≤ charIndex b ↔ b.toNat < 128 := by
  have hb := b.toNat_lt
  unfold charIndex
  split <;> omega

theorem charIndex_lt : charIndex b < 256 := by
  have hb := b.toNat_lt
  unfold charIndex
  split <;> omega

theorem index64_eq (ht : HoldsIndex table) (b : UInt8) :
    index64 b = if 0 ≤ charIndex b then .ok (table (charIndex b)) else .error .bounds := by
  unfold index64
  by_cases hb : b.toNat < 128
  · have hindex : charIndex b = (b.toNat : Int) := if_pos hb
    rw [if_pos hb, if_pos (charIndex_nonneg.2 hb), hindex, ht _ (by omega)]
  · rw [if_neg hb, if_neg (mt charIndex_nonneg.1 hb)]

/-- The indices are inside of the table. -/
def InTable (accesses : List Int) : Prop := ∀ i ∈ accesses, 0 ≤ i ∧ i < 256

instance (accesses : List Int) : Decidable (InTable accesses) := inferInstanceAs (Decidable (∀ i ∈ accesses, _))

theorem inTable_cons {accesses : List Int} : InTable (charIndex b :: accesses) ↔ 0 ≤ charIndex b ∧ InTable accesses := by
  unfold InTable
  rw [forall_mem_cons, and_iff_left charIndex_lt]

theorem gatherIn_first (table : Int → UInt8) (s : List UInt8) (b : UInt8) (str : List UInt8) :
    ∃ more, (gatherIn table s (b :: str)).1 = charIndex b :: more := by
  rw [gatherIn]
  dsimp only
  generalize (if table (charIndex b) ≠ INVALID then s ++ [table (charIndex b)] else s) = s'
  by_cases hend : str = []
  · rw [if_pos hend]
    split
    · split
      · exact ⟨[], rfl⟩
      · split
        · exact ⟨[], rfl⟩
        · exact ⟨[], rfl⟩
    · exact ⟨[], rfl⟩
  · rw [if_neg hend]
    split
    · exact ⟨_, rfl⟩
    · exact ⟨[], rfl⟩

/-- With all accesses inside of the table, the two decoders do the same. -/
theorem gather_eq (ht : HoldsIndex table) (hne : str ≠ []) :
    gather s str = if InTable (gatherIn table s str).1 then .ok (gatherIn table s str).2 else .error .bounds := by
  induction str generalizing s with
  | nil => exact absurd rfl hne
  | cons b str ih =>
    by_cases hb : 0 ≤ charIndex b
    · have hone : InTable [charIndex b] := inTable_cons.2 ⟨hb, nofun⟩
      rw [gather, gatherIn, index64_eq ht, if_pos hb]
      simp only [bind, Except.bind]
      generalize (if table (charIndex b) ≠ INVALID then s ++ [table (charIndex b)] else s) = s'
      by_cases hend : str = []
      · simp only [if_pos hend]
        split
        · split
          · rfl
          · split
            · rfl
            · rfl
        · rfl
      · simp only [if_neg hend]
        split
        · simp only [inTable_cons, hb, true_and]
          exact ih hend
        · rfl
    · obtain ⟨more, hmore⟩ := gatherIn_first table s b str
      have hout : ¬ InTable (charIndex b :: more) := fun h => hb (inTable_cons.1 h).1
      rw [hmore, if_neg hout, gather, index64_eq ht, if_neg hb]
      rfl

theorem inTable_append {accesses more : List Int} : InTable (accesses ++ more) ↔ InTable accesses ∧ InTable more :=
  forall_mem_append

/-! ## Groups -/

theorem length_groupBytes (c0 c1 c2 c3 : UInt8) : (groupBytes c0 c1 c2 c3).length ≤ 3 := by
  unfold groupBytes
  dsimp only
  split
  · exact Nat.zero_le 3
  · split
    · exact Nat.le_add_left 1 2
    · split
      · exact Nat.le_succ 2
      · exact Nat.le_refl 3

theorem length_groupBytes_three (c0 c1 c2 : UInt8) : (groupBytes c0 c1 c2 EQ).length ≤ 2 := by
  unfold groupBytes
  dsimp only
  rw [if_pos rfl]
  split
  · exact Nat.zero_le 2
  · split
    · exact Nat.le_succ 1
    · exact Nat.le_refl 2

theorem length_groupBytes_two (c0 c1 : UInt8) : (groupBytes c0 c1 EQ EQ).length ≤ 1 := by
  unfold groupBytes
  dsimp only
  rw [if_pos rfl]
  split
  · exact Nat.zero_le 1
  · exact Nat.le_refl 1

/-- What comes of `n` symbols and characters: the bytes of a group take a third more of them. -/
inductive Collected (n : Nat) : Option (List UInt8) × List UInt8 → Prop
  | group {c0 c1 c2 c3 : UInt8} {rest : List UInt8} (h : 4 * (groupBytes c0 c1 c2 c3).length + 3 * rest.length ≤ 3 * n) :
      Collected n (some [c0, c1, c2, c3], rest)
  | finished {rest : List UInt8} : Collected n (none, rest)

theorem Collected.mono {n n' : Nat} {out : Option (List UInt8) × List UInt8} (h : Collected n out) (hn : n ≤ n') : Collected n' out := by
  cases h with
  | group h => exact .group (by omega)
  | finished => exact .finished

theorem collected_four {n : Nat} (hs : s.length = 4) (h : 4 + rest.length ≤ n) : Collected n (some s, rest) := by
  match s, hs with
  | [c0, c1, c2, c3], _ =>
    have hbytes := length_groupBytes c0 c1 c2 c3
    exact .group (by omega)

theorem gatherIn_collected (table : Int → UInt8) (hne : str ≠ []) (hs : s.length < 4) :
    Collected (s.length + str.length) (gatherIn table s str).2 ∧ (gatherIn table s str).2.2.length < str.length := by
  induction str generalizing s with
  | nil => exact absurd rfl hne
  | cons b str ih =>
    have hlen := length_collect_le (table (charIndex b)) s
    rw [gatherIn, length_cons]
    dsimp only
    generalize (if table (charIndex b) ≠ INVALID then s ++ [table (charIndex b)] else s) = s' at hlen ⊢
    by_cases hend : str = []
    · rw [if_pos hend, hend]
      by_cases h4 : s'.length < 4
      · rw [if_pos h4]
        by_cases h2 : s'.length < 2
        · rw [if_pos h2]
          exact ⟨.finished, Nat.zero_lt_one⟩
        · rw [if_neg h2]
          by_cases htwo : s'.length = 2
          · rw [if_pos htwo]
            refine ⟨?_, Nat.zero_lt_one⟩
            match s', htwo with
            | [c0, c1], htwo =>
              have hbytes := length_groupBytes_two c0 c1
              exact .group (by simp at hlen ⊢; omega)
          · rw [if_neg htwo]
            refine ⟨?_, Nat.zero_lt_one⟩
            match s', show s'.length = 3 by omega with
            | [c0, c1, c2], hthree =>
              have hbytes := length_groupBytes_three c0 c1 c2
              exact .group (by simp at hlen ⊢; omega)
      · rw [if_neg h4]
        exact ⟨collected_four (by omega) (by simp; omega), Nat.zero_lt_one⟩
    · rw [if_neg hend]
      by_cases h4 : s'.length < 4
      · rw [if_pos h4]
        obtain ⟨hout, hrest⟩ := ih hend h4
        exact ⟨hout.mono (by omega), Nat.lt_succ_of_lt hrest⟩
      · rw [if_neg h4]
        exact ⟨collected_four (by omega) (by omega), Nat.lt_succ_self _⟩

/-! ## Rounds -/

theorem decodeRounds_eq (ht : HoldsIndex table) {accesses : List Int} {r : List UInt8}
    (h : decodeRoundsIn table fuel str = .ok (accesses, r)) :
    decodeRounds fuel str = if InTable accesses then .ok r else .error .bounds := by
  induction fuel generalizing str accesses r with
  | zero => cases h
  | succ fuel ih =>
    by_cases hne : str = []
    · subst hne
      cases h
      rfl
    have hgather := gather_eq (s := []) ht hne
    have hout := (gatherIn_collected table (s := []) hne (by decide)).1
    rw [decodeRoundsIn, if_pos hne] at h
    generalize gatherIn table [] str = g at hgather hout h
    obtain ⟨first, out⟩ := g
    dsimp only at hgather hout
    cases hout with
    | finished =>
      cases h
      rw [decodeRounds, if_pos hne, hgather]
      split
      · rfl
      · rfl
    | group =>
      dsimp only at h
      by_cases hin : InTable first
      · rw [if_pos hin] at hgather
        rw [decodeRounds_round fuel hne hgather]
        split at h
        · next hany =>
          cases h
          rw [if_pos hany, if_pos hin]
        · next hnone =>
          rw [if_neg hnone]
          obtain ⟨⟨more, r'⟩, hmore, hr⟩ := ok_of_bind h
          cases hr
          simp only [ih hmore, inTable_append, hin, true_and]
          split
          · rfl
          · rfl
      · have hout : ¬ InTable accesses := by
          split at h
          · cases h
            exact hin
          · obtain ⟨⟨more, r'⟩, hmore, hr⟩ := ok_of_bind h
            cases hr
            exact fun hall => hin (inTable_append.1 hall).1
        rw [if_neg hin] at hgather
        rw [if_neg hout, decodeRounds, if_pos hne, hgather]
        rfl

/-- Whatever lies in front of the table, the loops come to an end, and four characters are read for every three bytes that are
written. -/
theorem decodeRoundsIn_bound (table : Int → UInt8) (hf : str.length < fuel) :
    ∃ accesses r, decodeRoundsIn table fuel str = .ok (accesses, r) ∧ 4 * r.length ≤ 3 * str.length := by
  induction fuel generalizing str with
  | zero => exact absurd hf (Nat.not_lt_zero _)
  | succ fuel ih =>
    by_cases hne : str = []
    · subst hne
      exact ⟨[], [], rfl, Nat.le_refl 0⟩
    obtain ⟨hout, hlt⟩ := gatherIn_collected table (s := []) hne (by decide)
    rw [decodeRoundsIn, if_pos hne]
    generalize gatherIn table [] str = g at hout hlt
    obtain ⟨first, out⟩ := g
    cases hout with
    | finished => exact ⟨first, [], rfl, Nat.zero_le _⟩
    | @group c0 c1 c2 c3 rest hbytes =>
      rw [length_nil, Nat.zero_add] at hbytes
      dsimp only at hlt ⊢
      split
      · exact ⟨first, _, rfl, by omega⟩
      · obtain ⟨more, r, hr, hlen⟩ := ih (show rest.length < fuel by omega)
        rw [hr]
        refine ⟨first ++ more, _, rfl, ?_⟩
        rw [length_append]
        dsimp only
        omega

/-- The decoder over raw memory returns, and it agrees with the other one as long as it stays inside of the table. -/
theorem mgDecodeBase64In_eq (table : Int → UInt8) (str : List UInt8) : ∃ accesses d, mgDecodeBase64In table str = .ok (accesses, d) ∧
    d.rlen = (cString str).length * 3 / 4 + 1 ∧ d.result.length ≤ d.rlen ∧
    (HoldsIndex table → mgDecodeBase64 str = if InTable accesses then .ok d else .error .bounds) := by
  obtain ⟨accesses, r, hr, hlen⟩ := decodeRoundsIn_bound table (Nat.lt_succ_self (cString str).length)
  unfold mgDecodeBase64In
  dsimp only
  rw [hr]
  refine ⟨accesses, _, rfl, rfl, ?_, fun ht => ?_⟩
  · rw [length_append, length_singleton]
    dsimp only
    omega
  · unfold mgDecodeBase64
    dsimp only
    rw [decodeRounds_eq ht hr]
    split
    · rfl
    · rfl

/-! ## Strings with bytes from 0x80 up -/

/-- The string up to the first byte from 0x80 up. -/
def asciiPart (str : List UInt8) : List UInt8 := str.takeWhile (·.toNat < 128)

/-- Some group of four letters is padded. -/
def PaddedGroup (s : List UInt8) : Prop := pad ∈ s.take (s.length / 4 * 4)

instance (s : List UInt8) : Decidable (PaddedGroup s) := inferInstanceAs (Decidable (_ ∈ _))

/-- A group that is not complete in front of a byte from 0x80 up goes on to it. -/
theorem gather_outside (more : List UInt8) (hpre : ∀ b ∈ pre, b.toNat < 128) (hb : 128 ≤ b.toNat) (h4 : (s ++ symbols pre).length < 4) :
    gather s (pre ++ b :: more) = .error .bounds := by
  induction pre generalizing s with
  | nil =>
    rw [nil_append, gather, index64, if_neg (by omega)]
    rfl
  | cons a pre ih =>
    obtain ⟨u, hu⟩ := index64_ascii (hpre a mem_cons_self)
    rw [← collect_symbols hu] at h4
    have hlt : (if u ≠ INVALID then s ++ [u] else s).length < 4 := by
      rw [length_append] at h4
      omega
    have hne : pre ++ b :: more ≠ [] := append_ne_nil_of_right_ne_nil _ (cons_ne_nil b more)
    simp only [cons_append, gather, hu, bind, Except.bind, if_neg hne, if_pos hlt]
    exact ih (fun b hb => hpre b (mem_cons_of_mem _ hb)) h4

theorem take_groups (t : List UInt8) : (c0 :: c1 :: c2 :: c3 :: t).take ((c0 :: c1 :: c2 :: c3 :: t).length / 4 * 4) =
    c0 :: c1 :: c2 :: c3 :: t.take (t.length / 4 * 4) := by
  have hlen : (c0 :: c1 :: c2 :: c3 :: t).length / 4 * 4 = t.length / 4 * 4 + 4 := by
    simp only [length_cons]
    omega
  rw [hlen]
  rfl

/-- A byte from 0x80 up is read unless a padded group comes before it. -/
theorem decodeRounds_outside (more : List UInt8) (hpre : ∀ b ∈ pre, b.toNat < 128) (hb : 128 ≤ b.toNat)
    (hf : (pre ++ b :: more).length < fuel) : decodeRounds fuel (pre ++ b :: more) =
      if EQ ∈ (symbols pre).take ((symbols pre).length / 4 * 4) then .ok (decodeSymbols (symbols (pre ++ b :: more)))
      else .error .bounds := by
  induction fuel generalizing pre with
  | zero => exact absurd hf (Nat.not_lt_zero _)
  | succ fuel ih =>
    have hne : pre ++ b :: more ≠ [] := append_ne_nil_of_right_ne_nil _ (cons_ne_nil b more)
    rcases Nat.lt_or_ge (symbols pre).length 4 with hlt | hge
    · have hgather := gather_outside (s := []) more hpre hb hlt
      rw [Nat.div_eq_of_lt hlt, Nat.zero_mul, take_zero, if_neg not_mem_nil, decodeRounds, if_pos hne, hgather]
      rfl
    · obtain ⟨rest, hrest, hdrop, hsuffix, hshort⟩ := gather_ascii (s := []) (b :: more) hpre (by decide) hge
      rw [nil_append] at hrest hdrop
      rw [symbols_append]
      obtain ⟨c0, c1, c2, c3, t, hsym⟩ := exists_group hge
      rw [hsym] at hrest hdrop ⊢
      have hrec := ih (fun b hb => hpre b (hsuffix.subset hb)) (show (rest ++ b :: more).length < fuel by
        rw [length_append] at hf ⊢
        omega)
      rw [symbols_append, hdrop, show (c0 :: c1 :: c2 :: c3 :: t).drop 4 = t from rfl] at hrec
      rw [decodeRounds_round fuel hne hrest, hrec, take_groups, cons_append, cons_append, cons_append, cons_append, decodeSymbols]
      by_cases hany : c0 = EQ ∨ c1 = EQ ∨ c2 = EQ ∨ c3 = EQ
      · have hmem : EQ ∈ c0 :: c1 :: c2 :: c3 :: t.take (t.length / 4 * 4) := by
          rcases hany with rfl | rfl | rfl | rfl
          · simp
          · simp
          · simp
          · simp
        rw [if_pos hany, if_pos hany, if_pos hmem, append_nil]
      · have hmem : EQ ∈ c0 :: c1 :: c2 :: c3 :: t.take (t.length / 4 * 4) ↔ EQ ∈ t.take (t.length / 4 * 4) := by
          simp only [mem_cons]
          grind
        rw [if_neg hany, if_neg hany]
        simp only [hmem]
        split
        · rfl
        · rfl

theorem paddedGroup_letters (str : List UInt8) :
    PaddedGroup (letters str) ↔ EQ ∈ (symbols str).take ((symbols str).length / 4 * 4) := by
  have hletter : ∀ b ∈ (letters str).take ((letters str).length / 4 * 4), isLetter b = true :=
    fun b hb => (mem_filter.1 (mem_of_mem_take hb)).2
  rw [symbols_eq, length_map, ← map_take, mem_map, PaddedGroup]
  constructor
  · intro h
    exact ⟨pad, h, symbol_pad⟩
  · rintro ⟨b, hb, heq⟩
    rwa [← (symbol_eq_iff (hletter b hb)).1 heq]

/-- The decoder stays inside of the table: all bytes are below 0x80, or a padded group comes before the first that is not. -/
def StaysInside (str : List UInt8) : Prop := (∀ b ∈ str, b.toNat < 128) ∨ PaddedGroup (letters (asciiPart str))

instance (str : List UInt8) : Decidable (StaysInside str) := inferInstanceAs (Decidable (_ ∨ _))

theorem mgDecodeBase64_iff (rest : List UInt8) (hstr : ∀ b ∈ str, b ≠ 0) : mgDecodeBase64 (str ++ 0 :: rest) =
    if StaysInside str then .ok
      { rlen := str.length * 3 / 4 + 1
        result := decodeText (letters str) ++ [0]
        rindex := (decodeText (letters str)).length }
    else .error .bounds := by
  have htext : decodeSymbols (symbols str) = decodeText (letters str) := by
    rw [symbols_eq]
    exact decodeSymbols_eq fun b hb => (mem_filter.1 hb).2
  by_cases hascii : ∀ b ∈ str, b.toNat < 128
  · rw [if_pos (.inl hascii), mgDecodeBase64_eq rest fun b hb => ⟨hascii b hb, hstr b hb⟩, htext]
  · have hsplit : asciiPart str ++ str.dropWhile (·.toNat < 128) = str := takeWhile_append_dropWhile ..
    have hpre : ∀ b ∈ asciiPart str, b.toNat < 128 := fun b hb =>
      of_decide_eq_true (mem_takeWhile_imp (p := fun b : UInt8 => decide (b.toNat < 128)) hb)
    match hdrop : str.dropWhile (·.toNat < 128) with
    | [] =>
      rw [hdrop, append_nil] at hsplit
      exact absurd (hsplit ▸ hpre) hascii
    | b :: more =>
      have hb : 128 ≤ b.toNat := by
        have hhead := head_dropWhile_not (fun b : UInt8 => decide (b.toNat < 128)) (l := str) (by rw [hdrop]; exact cons_ne_nil b more)
        simp only [hdrop, head_cons, decide_eq_false_iff_not] at hhead
        omega
      rw [hdrop] at hsplit
      have hrounds := decodeRounds_outside more hpre hb (Nat.lt_succ_self (asciiPart str ++ b :: more).length)
      rw [hsplit, htext] at hrounds
      simp only [← paddedGroup_letters] at hrounds
      have hinside : StaysInside str ↔ PaddedGroup (letters (asciiPart str)) := or_iff_right hascii
      unfold mgDecodeBase64
      rw [cString_append hstr]
      dsimp only
      rw [hrounds]
      simp only [hinside]
      split
      · rfl
      · rfl

/-- The accesses are all inside of the table if and only if the bytes are below 0x80, up to the first padded group at least; then
the other bytes are skipped like all characters that are no letters. -/
theorem mg_decode_base64_access_iff (table : Int → UInt8) (ht : HoldsIndex table) (str : List UInt8) (hstr : ∀ b ∈ str, b ≠ 0)
    (rest : List UInt8) : ∃ accesses d, mgDecodeBase64In table (str ++ 0 :: rest) = .ok (accesses, d) ∧
      (InTable accesses ↔ StaysInside str) ∧
      (InTable accesses ∧ d.result = decodeText (letters str) ++ [0] ∧ d.rindex = (decodeText (letters str)).length ↔
        StaysInside str) := by
  obtain ⟨accesses, d, hd, -, -, heq⟩ := mgDecodeBase64In_eq table (str ++ 0 :: rest)
  refine ⟨accesses, d, hd, ?_⟩
  have hboth := (mgDecodeBase64_iff rest hstr).symm.trans (heq ht)
  by_cases hin : InTable accesses
  · by_cases hstays : StaysInside str
    · rw [if_pos hin, if_pos hstays] at hboth
      cases hboth
      exact ⟨iff_of_true hin hstays, iff_of_true ⟨hin, rfl, rfl⟩ hstays⟩
    · rw [if_pos hin, if_neg hstays] at hboth
      cases hboth
  · by_cases hstays : StaysInside str
    · rw [if_neg hin, if_pos hstays] at hboth
      cases hboth
    · exact ⟨iff_of_false hin hstays, iff_of_false (fun h => hin h.1) hstays⟩

/-- A memory with the table, and `x` in front of it. -/
def indexAfter (x : UInt8) (i : Int) : UInt8 := if i < 0 then x else index_64.getD i.toNat XX

theorem holdsIndex_indexAfter (x : UInt8) : HoldsIndex (indexAfter x) := by
  intro i _
  rw [indexAfter, if_neg (by omega)]
  rfl

/-- Two bytes from 0x80 up behind "YWI=". -/
theorem mg_decode_base64_access_iff_behind :
    ∃ accesses d, mgDecodeBase64In (indexAfter 7) ([89, 87, 73, 61, 0xC3, 0xA4] ++ 0 :: []) = .ok (accesses, d) ∧
      InTable accesses ∧ d.rindex = 2 := by
  obtain ⟨accesses, d, hd, -, hiff⟩ :=
    mg_decode_base64_access_iff (indexAfter 7) (holdsIndex_indexAfter 7) [89, 87, 73, 61, 0xC3, 0xA4] (by simp) []
  have hgroup : PaddedGroup (letters (asciiPart [89, 87, 73, 61, 0xC3, 0xA4])) := by
    rw [PaddedGroup]
    decide
  have hin := hiff.2 (.inr hgroup)
  exact ⟨accesses, d, hd, hin.1, hin.2.2⟩

/-- The byte 0xC3 alone is the index -61. -/
theorem mg_decode_base64_access_before :
    ¬ ∀ (table : Int → UInt8), HoldsIndex table → ∀ str : List UInt8, (∀ b ∈ str, b ≠ 0) → ∀ rest accesses d,
      mgDecodeBase64In table (str ++ 0 :: rest) = .ok (accesses, d) → InTable accesses := by
  intro hall
  have hrun : mgDecodeBase64In (indexAfter 255) ([0xC3] ++ 0 :: []) = .ok ([-61], ⟨1, [0], 0⟩) := by decide
  have hin := hall _ (holdsIndex_indexAfter 255) [0xC3] (by simp) [] _ _ hrun
  exact absurd hin (by decide)

end MgStd.Base64
