import MgStd.Zip.StaticTrees
import MgStd.Zip.Deflated
/-!
# What the writer sends the reader reads back

The static trees are the fixed codes of the format, and the fields that
`compress_block` sends are the bits of its tokens. So an entry of stored blocks and
blocks with the static trees comes back from `readEntry` and `inflate` as it was.
-/

namespace MgStd.Zip

open MgStd.Lib MgStd.Inflate

variable {w : Writer} {tzip₀ : TZIP} {items : List (Nat × UInt8)} {out : List UInt8} {pre bits tail : List Bool} {ts : List Token}

/-! ## The tables -/

theorem static_codes_eq : static_codes = (List.range 288).map fun n => bitsNat (fixedCode n) := by decide +kernel

theorem static_lens_eq : static_lens = (List.range 288).map fun n => (fixedCode n).length := by decide +kernel

/-- The static literal tree is the fixed code. -/
theorem sendLcode_eq {c : Nat} (hc : c < 288) : sendLcode c = .bits (bitsNat (fixedCode c)) (fixedCode c).length := by
  have hget : ∀ f : Nat → Nat, ((List.range 288).map f).getD c 0 = f c := by
    intro f
    simp [List.getD_eq_getElem?_getD, hc]
  rw [sendLcode, static_codes_eq, static_lens_eq, hget, hget]

theorem sendDcode_eq : ∀ c < 30, sendDcode c = .bits (bitsNat (codeBits 5 c)) (codeBits 5 c).length := by
  have hrev : ∀ c < 30, biReverse c 5 = bitsNat (codeBits 5 c) := by decide
  intro c hc
  rw [sendDcode, hrev c hc, length_codeBits]

theorem Extra_lbits_eq : ∀ code < 29, Extra_lbits.getD code 0 = CpLExt.getD code 0 := by decide

theorem Extra_lbits_le : ∀ code < 29, Extra_lbits.getD code 0 ≤ 16 := by decide

theorem Extra_dbits_le : ∀ code < 30, Extra_dbits.getD code 0 ≤ 16 := by decide

theorem Extra_dbits_eq : ∀ code < 30, Extra_dbits.getD code 0 = CpDExt.getD code 0 := by decide

/-- What the extra bits behind the code of a length say. -/
def lengthExtra (lc : Nat) : Nat :=
  if Extra_lbits.getD (length_code.getD lc 0) 0 = 0 then 0 else lc - base_length (length_code.getD lc 0)

theorem length_code_spec : ∀ lc < 256, length_code.getD lc 0 < 29 ∧ lengthExtra lc < 2 ^ Extra_lbits.getD (length_code.getD lc 0) 0 ∧
    CpLens.getD (length_code.getD lc 0) 0 + lengthExtra lc = lc + 3 := by decide +kernel

theorem dist_code_small : ∀ dist < 256, dist_code.getD dist 0 < 30 ∧ base_dist (dist_code.getD dist 0) ≤ dist ∧
    dist < base_dist (dist_code.getD dist 0) + 2 ^ Extra_dbits.getD (dist_code.getD dist 0) 0 ∧
    CpDist.getD (dist_code.getD dist 0) 0 = base_dist (dist_code.getD dist 0) + 1 := by decide +kernel

theorem dist_code_large : ∀ high < 256, 2 ≤ high → dist_code.getD (256 + high) 0 < 30 ∧
    base_dist (dist_code.getD (256 + high) 0) ≤ 128 * high ∧
    128 * high + 128 ≤ base_dist (dist_code.getD (256 + high) 0) + 2 ^ Extra_dbits.getD (dist_code.getD (256 + high) 0) 0 ∧
    CpDist.getD (dist_code.getD (256 + high) 0) 0 = base_dist (dist_code.getD (256 + high) 0) + 1 := by decide +kernel

theorem dCode_spec {dist : Nat} (h : dist < 32768) : dCode dist < 30 ∧ base_dist (dCode dist) ≤ dist ∧
    dist < base_dist (dCode dist) + 2 ^ Extra_dbits.getD (dCode dist) 0 ∧ CpDist.getD (dCode dist) 0 = base_dist (dCode dist) + 1 := by
  unfold dCode
  by_cases hsmall : dist < 256
  · rw [if_pos hsmall]
    exact dist_code_small dist hsmall
  · rw [if_neg hsmall, Nat.shiftRight_eq_div_pow]
    obtain ⟨hcode, hle, hlt, hbase⟩ := dist_code_large (dist / 2 ^ 7) (by omega) (by omega)
    exact ⟨hcode, by omega, by omega, hbase⟩

/-! ## The buffers of a block -/

/-- The flag of an item in `flag_buf`. -/
def isMatch (item : Nat × UInt8) : Bool := item.1 ≠ 0

/-- What a round of `compress_block` sends for the item. -/
def itemSent (item : Nat × UInt8) : List Sent :=
  if item.1 = 0 then [sendLcode item.2.toNat] else sendMatch item.2.toNat (item.1 - 1)

/-- `d_buf` for the items. -/
def matchDists (items : List (Nat × UInt8)) : List Nat := (items.filter isMatch).map fun item => (item.1 - 1) % 65536

/-- The buffers hold the items: `flag_buf` and the flags that are not saved in it yet have their flags, from the low bits. -/
structure Tally.Holds (ts : Tally) (items : List (Nat × UInt8)) : Prop where
  bytes : ts.l_buf = items.map Prod.snd
  dists : ts.d_buf = matchDists items
  flags : ∃ B, ts.flags = bitsNat B ∧ ts.flag_bit = 1 <<< B.length ∧ B.length = items.length % 8 ∧
    ts.flag_buf.flatMap (natBits 8) ++ B = items.map isMatch

theorem and_seven (n : Nat) : n &&& 7 = n % 8 := Nat.and_two_pow_sub_one_eq_mod n 3

theorem holds_ctTally {ts : Tally} (h : ts.Holds items) (item : Nat × UInt8) : (ctTally ts item).Holds (items ++ [item]) := by
  obtain ⟨B, hflags, hbit, hlen, hbuf⟩ := h.flags
  have hbits : (if item.1 = 0 then ts.flags else ts.flags ||| ts.flag_bit) = bitsNat (B ++ [isMatch item]) := by
    rw [hflags, hbit, bitsNat_append, isMatch]
    by_cases hzero : item.1 = 0
    · rw [if_pos hzero, hzero]
      rfl
    · rw [if_neg hzero, bitsNat_or_shiftLeft]
      simp [hzero, bitsNat]
  have hdists : (if item.1 = 0 then ts.d_buf else ts.d_buf ++ [(item.1 - 1) % 65536]) = matchDists (items ++ [item]) := by
    rw [h.dists, matchDists, matchDists, List.filter_append, List.map_append]
    by_cases hzero : item.1 = 0
    · simp [hzero, isMatch]
    · simp [hzero, isMatch]
  have hmap : ts.flag_buf.flatMap (natBits 8) ++ (B ++ [isMatch item]) = (items ++ [item]).map isMatch := by
    rw [← List.append_assoc, hbuf, List.map_append]
    rfl
  have hbytes : ts.l_buf ++ [item.2] = (items ++ [item]).map Prod.snd := by
    rw [h.bytes, List.map_append]
    rfl
  have hcount : (ts.l_buf ++ [item.2]).length = items.length + 1 := by rw [hbytes, List.length_map, List.length_append]; rfl
  have htally : ctTally ts item =
      if (items.length + 1) % 8 = 0 then
        ⟨ts.l_buf ++ [item.2], matchDists (items ++ [item]), ts.flag_buf ++ [bitsNat (B ++ [isMatch item])], 0, 1⟩
      else
        ⟨ts.l_buf ++ [item.2], matchDists (items ++ [item]), ts.flag_buf, bitsNat (B ++ [isMatch item]), ts.flag_bit <<< 1 % 256⟩ := by
    rw [← hbits, ← hdists, ← hcount, ← and_seven, ctTally]
    split <;> rfl
  have hfull : (B ++ [isMatch item]).length = items.length % 8 + 1 := by rw [List.length_append, hlen]; rfl
  have hitems : (items ++ [item]).length = items.length + 1 := List.length_append
  rw [htally]
  -- The eighth flag makes the byte full; it goes to `flag_buf`.
  by_cases height : (items.length + 1) % 8 = 0
  · rw [if_pos height]
    refine ⟨hbytes, rfl, [], rfl, rfl, by rw [hitems, height]; rfl, ?_⟩
    have hbyte : (B ++ [isMatch item]).length = 8 := by omega
    rw [List.append_nil, List.flatMap_append, List.flatMap_singleton, ← hmap]
    have hsame := natBits_bitsNat (B ++ [isMatch item])
    rw [hbyte] at hsame
    rw [hsame]
  · rw [if_neg height]
    refine ⟨hbytes, rfl, B ++ [isMatch item], rfl, ?_, by omega, hmap⟩
    have hpow : 2 ^ (items.length % 8 + 1) < 2 ^ 8 := Nat.pow_lt_pow_right (by decide) (by omega)
    change ts.flag_bit <<< 1 % 256 = _
    rw [hbit, hfull, hlen, ← Nat.shiftLeft_add, Nat.one_shiftLeft]
    exact Nat.mod_eq_of_lt hpow

theorem Tally.Holds.foldl {ts : Tally} (h : ts.Holds items) (more : List (Nat × UInt8)) :
    (more.foldl ctTally ts).Holds (items ++ more) := by
  induction more generalizing ts items with
  | nil => rwa [List.append_nil]
  | cons item more ih =>
    have hmore := ih (holds_ctTally h item)
    rwa [List.append_assoc] at hmore

theorem holds_initBlock : initBlock.Holds [] := ⟨rfl, rfl, [], rfl, rfl, rfl, rfl⟩

/-- The flags behind `flag` and in `flag_buf`, when the loop has come to `lx`. -/
def flagsFrom (lx flag : Nat) (flag_buf : List Nat) : List Bool :=
  (if lx % 8 = 0 then [] else natBits (8 - lx % 8) flag) ++ flag_buf.flatMap (natBits 8)

/-- The loop of `compress_block` finds each item again. -/
theorem compressLoop_eq {lx flag : Nat} {flag_buf : List Nat} {zs : List Bool}
    (hflags : flagsFrom lx flag flag_buf = items.map isMatch ++ zs) (hdist : ∀ item ∈ items, item.1 ≤ 32768) :
    compressLoop lx (items.map Prod.snd) (matchDists items) flag_buf flag = items.flatMap itemSent := by
  induction items generalizing lx flag flag_buf with
  | nil => rfl
  | cons item items ih =>
    rw [List.map_cons, List.cons_append] at hflags
    rw [List.map_cons, compressLoop, and_seven, List.flatMap_cons]
    generalize hnext : (if lx % 8 = 0 then (flag_buf.headD 0, flag_buf.tail) else (flag, flag_buf)) = next
    -- With the next byte of `flag_buf` where there is one to be taken, the flag of the item is the low bit.
    have hbits : natBits (7 - lx % 8 + 1) next.1 ++ next.2.flatMap (natBits 8) = isMatch item :: (items.map isMatch ++ zs) := by
      rw [← hflags, flagsFrom, ← hnext]
      by_cases hzero : lx % 8 = 0
      · rw [if_pos hzero, if_pos hzero, hzero]
        cases flag_buf with
        | nil => simp [flagsFrom, hzero] at hflags
        | cons f fs => rfl
      · rw [if_neg hzero, if_neg hzero, show 7 - lx % 8 + 1 = 8 - lx % 8 by omega]
    rw [natBits, List.cons_append] at hbits
    obtain ⟨hhead, htail⟩ := List.cons.inj hbits
    have hrest : flagsFrom (lx + 1) (next.1 >>> 1) next.2 = items.map isMatch ++ zs := by
      rw [← htail, flagsFrom, Nat.shiftRight_one]
      by_cases hseven : (lx + 1) % 8 = 0
      · rw [if_pos hseven, show 7 - lx % 8 = 0 by omega]
        rfl
      · rw [if_neg hseven, show 8 - (lx + 1) % 8 = 7 - lx % 8 by omega]
    have hih := ih hrest fun i hi => hdist i (List.mem_cons_of_mem _ hi)
    have hlow : next.1 &&& 1 = 0 ↔ item.1 = 0 := by
      rw [isMatch, Nat.testBit_zero] at hhead
      rw [Nat.and_one_is_mod]
      have hiff := decide_eq_decide.1 hhead
      omega
    by_cases hzero : item.1 = 0
    · have hdists : matchDists (item :: items) = matchDists items := by simp [matchDists, isMatch, hzero]
      simp only [if_pos (hlow.2 hzero), hdists, hih, itemSent, if_pos hzero]
      rfl
    · have hdists : matchDists (item :: items) = (item.1 - 1) :: matchDists items := by
        have hle := hdist item List.mem_cons_self
        have hmod : (item.1 - 1) % 65536 = item.1 - 1 := Nat.mod_eq_of_lt (by omega)
        simp [matchDists, isMatch, hzero, hmod]
      simp only [if_neg (fun hn => hzero (hlow.1 hn)), hdists, List.headD_cons, List.tail_cons, hih, itemSent, if_neg hzero]

/-- What `compress_block` sends: the codes of the items in their order, and the end of the block. -/
theorem blockCodes_eq (items : List (Nat × UInt8)) (hdist : ∀ item ∈ items, item.1 ≤ 32768) :
    blockCodes (items.foldl ctTally initBlock).saved = items.flatMap itemSent ++ [sendLcode END_BLOCK] := by
  have hholds : (items.foldl ctTally initBlock).Holds items := holds_initBlock.foldl items
  obtain ⟨hbytes, hdists, B, hflags, -, hlen, hbuf⟩ := hholds
  have hsaved : flagsFrom 0 0 ((items.foldl ctTally initBlock).flag_buf ++ [(items.foldl ctTally initBlock).flags]) =
      items.map isMatch ++ List.replicate (8 - B.length) false := by
    rw [flagsFrom, if_pos (Nat.zero_mod 8), List.nil_append, List.flatMap_append, List.flatMap_singleton, hflags,
      natBits_bitsNat_of_le (by omega), ← List.append_assoc, hbuf]
  rw [blockCodes, Tally.saved, hbytes, hdists, compressLoop_eq hsaved hdist]

/-! ## One block -/

/-- The token that `ct_tally(state, dist, lc)` stands for. -/
def tallied (item : Nat × UInt8) : Token := if item.1 = 0 then .lit item.2 else .copy (item.2.toNat + 3) item.1

/-- The fields add these bits, wherever they fall. -/
structure Sends (sent : List Sent) (B : List Bool) : Prop where
  adds : ∀ pre, sent.foldl Sent.after pre = pre ++ B
  fits : ∀ s ∈ sent, s.Fits

theorem Sends.append {sent sent' : List Sent} {B B' : List Bool} (h : Sends sent B) (h' : Sends sent' B') :
    Sends (sent ++ sent') (B ++ B') := by
  constructor
  · intro pre
    rw [List.foldl_append, h.adds, h'.adds, List.append_assoc]
  · intro s hs
    rcases List.mem_append.1 hs with hs | hs
    · exact h.fits s hs
    · exact h'.fits s hs

theorem sends_bits {B : List Bool} (h : B.length ≤ 16) : Sends [.bits (bitsNat B) B.length] B := by
  constructor
  · intro pre
    change pre ++ natBits B.length (bitsNat B) = pre ++ B
    rw [natBits_bitsNat]
  · intro s hs
    rw [List.mem_singleton.1 hs]
    exact ⟨h, bitsNat_lt B⟩

theorem sends_extra {value extra : Nat} (hextra : extra ≤ 16) (hvalue : value < 2 ^ extra) :
    Sends (sendExtra value extra) (natBits extra value) := by
  unfold sendExtra
  by_cases hzero : extra = 0
  · rw [if_neg (not_not_intro hzero), hzero]
    constructor
    · intro pre
      exact (List.append_nil pre).symm
    · intro s hs
      cases hs
  · rw [if_pos hzero]
    constructor
    · intro pre
      rfl
    · intro s hs
      rw [List.mem_singleton.1 hs]
      exact ⟨hextra, hvalue⟩

theorem length_fixedCode_le (symbol : Nat) : (fixedCode symbol).length ≤ 16 := by
  unfold fixedCode
  split_ifs <;> rw [length_codeBits] <;> decide

theorem natBits_spec {e n : Nat} (h : n < 2 ^ e) : (natBits e n).length = e ∧ bitsNat (natBits e n) = n :=
  ⟨length_natBits, by rw [bitsNat_natBits, Nat.mod_eq_of_lt h]⟩

/-- A round of `compress_block` sends the codes of its token. -/
theorem itemSent_bits (item : Nat × UInt8) (hdist : item.1 ≤ 32768) :
    ∃ B, Sends (itemSent item) B ∧ ∀ {tail ts bits}, FixedBits tail ts bits → FixedBits tail (tallied item :: ts) (B ++ bits) := by
  obtain ⟨dist, lc⟩ := item
  have hlc : lc.toNat < 256 := lc.toNat_lt
  unfold itemSent tallied
  by_cases hzero : dist = 0
  · simp only [if_pos hzero]
    refine ⟨fixedCode lc.toNat, ?_, fun hnext => .lit lc hnext⟩
    rw [sendLcode_eq (by omega)]
    exact sends_bits (length_fixedCode_le _)
  · simp only [if_neg hzero, sendMatch]
    -- A match: the code of the length with its extra bits, then that of the distance with its own.
    change dist ≤ 32768 at hdist
    obtain ⟨hcode, hextra, hlen⟩ := length_code_spec lc.toNat hlc
    obtain ⟨hdcode, hle, hlt, hbase⟩ := dCode_spec (show dist - 1 < 32768 by omega)
    have hsent : sendExtra (lc.toNat - base_length (length_code.getD lc.toNat 0)) (Extra_lbits.getD (length_code.getD lc.toNat 0) 0) =
        sendExtra (lengthExtra lc.toNat) (Extra_lbits.getD (length_code.getD lc.toNat 0) 0) := by
      unfold sendExtra lengthExtra
      split
      next => rfl
      next => rfl
    obtain ⟨hlen₁, hval₁⟩ := natBits_spec hextra
    obtain ⟨hlen₂, hval₂⟩ := natBits_spec (show dist - 1 - base_dist (dCode (dist - 1)) < 2 ^ Extra_dbits.getD (dCode (dist - 1)) 0 by omega)
    rw [hsent, sendLcode_eq (show length_code.getD lc.toNat 0 + LITERALS + 1 < 288 by change _ + 256 + 1 < 288; omega),
      sendDcode_eq _ hdcode]
    have hfew : Extra_lbits.getD (length_code.getD lc.toNat 0) 0 ≤ 16 ∧ Extra_dbits.getD (dCode (dist - 1)) 0 ≤ 16 :=
      ⟨Extra_lbits_le _ hcode, Extra_dbits_le _ hdcode⟩
    refine ⟨_, (sends_bits (length_fixedCode_le _)).append ((sends_extra hfew.1 hextra).append
      ((sends_bits (by rw [length_codeBits]; decide)).append (sends_extra hfew.2 (by omega)))), ?_⟩
    intro tail ts bits hnext
    have hcopy := FixedBits.copy hcode hdcode (hlen₁.trans (Extra_lbits_eq _ hcode)) (hlen₂.trans (Extra_dbits_eq _ hdcode)) hnext
    rw [hval₁, hval₂, hlen, hbase, show base_dist (dCode (dist - 1)) + 1 + (dist - 1 - base_dist (dCode (dist - 1))) = dist by omega] at hcopy
    rw [List.append_assoc, List.append_assoc, List.append_assoc,
      show length_code.getD lc.toNat 0 + LITERALS + 1 = 257 + length_code.getD lc.toNat 0 by change _ + 256 + 1 = _; omega]
    exact hcopy

theorem blockCodes_bits (items : List (Nat × UInt8)) (hdist : ∀ item ∈ items, item.1 ≤ 32768) :
    ∃ B, Sends (blockCodes (items.foldl ctTally initBlock).saved) B ∧ ∀ tail, FixedBits tail (items.map tallied) (B ++ tail) := by
  rw [blockCodes_eq items hdist]
  induction items with
  | nil =>
    refine ⟨fixedCode 256, ?_, fun tail => .done⟩
    rw [List.flatMap_nil, List.nil_append, END_BLOCK, sendLcode_eq (by decide)]
    exact sends_bits (length_fixedCode_le _)
  | cons item items ih =>
    obtain ⟨B, hsends, hbits⟩ := itemSent_bits item (hdist item List.mem_cons_self)
    obtain ⟨B', hsends', hbits'⟩ := ih fun i hi => hdist i (List.mem_cons_of_mem _ hi)
    refine ⟨B ++ B', ?_, ?_⟩
    · rw [List.flatMap_cons, List.append_assoc]
      exact hsends.append hsends'
    · intro tail
      rw [List.map_cons, List.append_assoc]
      exact hbits (hbits' tail)

/-! ## Blocks one after the other -/

/-- All that is sent of a block. -/
def Block.sent (eof : Bool) : Block → List Sent
  | .stored bytes => [.bits (STORED_BLOCK <<< 1 + eof.toNat) 3, .copy bytes true]
  | .static items => .bits (STATIC_TREES <<< 1 + eof.toNat) 3 :: blockCodes (items.foldl ctTally initBlock).saved

def blocksSent : List Block → List Sent
  | [] => []
  | [b] => b.sent true
  | b :: bs => b.sent false ++ blocksSent bs

/-- The blocks as they are in the archive. -/
def entryData (blocks : List Block) : List UInt8 := packed ((blocksSent blocks).foldl Sent.after [])

/-- What there is behind the block. -/
def Block.content (out : List UInt8) : Block → List UInt8
  | .stored bytes => out ++ bytes
  | .static items => expand out (items.map tallied)

/-- The block stands for bytes: a stored block is not too long, and a match is with bytes that lie at most 32768 behind. -/
def Block.Valid (out : List UInt8) : Block → Prop
  | .stored bytes => bytes.length < 65536
  | .static items => Lib.Valid 32768 out (items.map tallied)

def AllValid : List UInt8 → List Block → Prop
  | _, [] => True
  | out, b :: bs => b.Valid out ∧ AllValid (b.content out) bs

theorem le_of_valid (h : Lib.Valid 32768 out (items.map tallied)) : ∀ item ∈ items, item.1 ≤ 32768 := by
  induction items generalizing out with
  | nil => simp
  | cons item items ih =>
    obtain ⟨hitem, hrest⟩ := h
    intro i hi
    rcases List.mem_cons.1 hi with rfl | hi
    · unfold tallied at hitem
      by_cases hzero : i.1 = 0
      · omega
      · rw [if_neg hzero] at hitem
        exact hitem.2.2
    · exact ih hrest i hi

theorem headerBits_eq {n : Nat} (h : n < 65536) : headerBits n = lensBits n := by
  rw [headerBits, lensBits, Nat.mod_eq_of_lt h]

theorem natBits_type (eof : Bool) : natBits 3 (STORED_BLOCK <<< 1 + eof.toNat) = [eof, false, false] ∧
    natBits 3 (STATIC_TREES <<< 1 + eof.toNat) = [eof, true, false] := by
  cases eof <;> exact ⟨rfl, rfl⟩

/-- A block is a block of the format, wherever it begins. -/
theorem Block.sent_stream {b : Block} (h : b.Valid out) (eof : Bool) (pre : List Bool) :
    ∃ P, (b.sent eof).foldl Sent.after pre = pre ++ P ∧ ∀ {bits rest final}, 8 ∣ (pre ++ (P ++ bits)).length →
      FixedStream 32768 rest final eof (b.content out) bits → FixedStream 32768 rest final false out (P ++ bits) := by
  cases b with
  | stored bytes =>
    change bytes.length < 65536 at h
    have hsent : (Block.sent eof (.stored bytes)).foldl Sent.after pre =
        pre ++ eof :: false :: false :: (padding (pre ++ [eof, false, false]) ++ (lensBits bytes.length ++ bytesBits bytes)) := by
      change copyBits (pre ++ natBits 3 (STORED_BLOCK <<< 1 + eof.toNat)) bytes true = _
      rw [(natBits_type eof).1, copyBits, if_pos rfl, headerBits_eq h, align]
      simp only [List.append_assoc, List.cons_append, List.nil_append]
    have hlen : 8 ∣ (pre ++ eof :: false :: false :: (padding (pre ++ [eof, false, false]) ++
        (lensBits bytes.length ++ bytesBits bytes))).length := by
      rw [← hsent]
      change 8 ∣ (copyBits (pre ++ natBits 3 (STORED_BLOCK <<< 1 + eof.toNat)) bytes true).length
      rw [copyBits, if_pos rfl, headerBits_eq h, List.length_append, List.length_append, length_bytesBits, length_lensBits]
      exact Nat.dvd_add (Nat.dvd_add (dvd_length_align _) (by decide)) (Nat.dvd_mul_right 8 _)
    refine ⟨_, hsent, ?_⟩
    -- Behind the copied bytes a byte is whole, and all ends with a whole byte, so what is left is whole bytes too.
    intro bits rest final hdvd hnext
    rw [← List.append_assoc, List.length_append] at hdvd
    have halign : 8 ∣ bits.length := (Nat.dvd_add_right hlen).1 hdvd
    have hpad : (padding (pre ++ [eof, false, false])).length < 8 := by
      rw [padding, List.length_replicate]
      omega
    have hstored := FixedStream.stored hpad halign h hnext
    simp only [List.append_assoc, List.cons_append]
    exact hstored
  | static items =>
    change Lib.Valid 32768 out (items.map tallied) at h
    obtain ⟨B, hsends, hbits⟩ := blockCodes_bits items (le_of_valid h)
    refine ⟨eof :: true :: false :: B, ?_, ?_⟩
    · change (blockCodes (items.foldl ctTally initBlock).saved).foldl Sent.after (pre ++ natBits 3 (STATIC_TREES <<< 1 + eof.toNat)) = _
      rw [hsends.adds, (natBits_type eof).2, List.append_assoc]
      rfl
    · intro bits rest final _ hnext
      exact .fixed (hbits bits) h hnext

/-- All that is sent is a stream of the format that comes to the content of the blocks. -/
theorem blocksSent_stream (blocks : List Block) (hne : blocks ≠ []) (hvalid : AllValid out blocks) (pre : List Bool) :
    ∃ R trailing, align ((blocksSent blocks).foldl Sent.after pre) = pre ++ R ∧
      FixedStream 32768 trailing (blocks.foldl Block.content out) false out R := by
  induction blocks generalizing out pre with
  | nil => exact absurd rfl hne
  | cons b bs ih =>
    obtain ⟨hb, hbs⟩ := hvalid
    -- The last block has `eof`, and only the zeros of `bi_windup` are behind it.
    cases bs with
    | nil =>
      obtain ⟨P, hsent, hstream⟩ := Block.sent_stream hb true pre
      have halign : align ((blocksSent [b]).foldl Sent.after pre) = pre ++ (P ++ padding (pre ++ P)) := by
        rw [blocksSent, hsent, align, List.append_assoc]
      refine ⟨P ++ padding (pre ++ P), padding (pre ++ P), halign, hstream ?_ .done⟩
      rw [← halign]
      exact dvd_length_align _
    | cons b' bs =>
      obtain ⟨P, hsent, hstream⟩ := Block.sent_stream hb false pre
      obtain ⟨R, trailing, hrest, hnext⟩ := ih (List.cons_ne_nil _ _) hbs (pre ++ P)
      have halign : align ((blocksSent (b :: b' :: bs)).foldl Sent.after pre) = pre ++ (P ++ R) := by
        rw [blocksSent, List.foldl_append, hsent, hrest, List.append_assoc]
        exact List.cons_ne_nil _ _
      refine ⟨P ++ R, trailing, halign, hstream ?_ hnext⟩
      rw [← halign]
      exact dvd_length_align _

theorem Block.sent_fits {b : Block} (h : b.Valid out) (eof : Bool) : ∀ s ∈ b.sent eof, s.Fits := by
  have htype : ∀ type ≤ 2, (Sent.bits (type <<< 1 + eof.toNat) 3).Fits := by
    intro type hle
    have heof := eof.toNat_le
    refine ⟨by decide, ?_⟩
    rw [Nat.shiftLeft_eq]
    omega
  intro s hs
  cases b with
  | stored bytes =>
    rcases List.mem_cons.1 hs with rfl | hs
    · exact htype _ (by decide)
    · rw [List.mem_singleton.1 hs]
      trivial
  | static items =>
    change Lib.Valid 32768 out (items.map tallied) at h
    obtain ⟨B, hsends, -⟩ := blockCodes_bits items (le_of_valid h)
    rcases List.mem_cons.1 hs with rfl | hs
    · exact htype _ (by decide)
    · exact hsends.fits s hs

/-! ## What arrives -/

/-- A `send_bits` that fails has found an error. -/
theorem ensures_sendBits (value length : Nat) (w : Writer) :
    Ensures (sendBits value length) w fun ok w' => ok = false → w'.tzip.lasterr ≠ .ok := by
  have hput : ∀ n (w : Writer), Ensures (putShort n) w fun _ w' => true = false → w'.tzip.lasterr ≠ .ok := by
    intro n w _ _ _ hn
    cases hn
  unfold sendBits storeBits writeOut resetOut
  simp only [ensures_bind, ensures_modify, ensures_get, ensures_ite, ensures_pure]
  constructor
  · intro _
    constructor
    · intro _
      constructor
      · intro herr _
        exact herr
      · intro _
        exact hput _ _
    · intro _
      exact hput _ _
  · intro _ hn
    cases hn

theorem length_le_align (bits : List Bool) : bits.length ≤ (align bits).length := by
  rw [align, List.length_append]
  exact Nat.le_add_right _ _

theorem length_le_after (sent : List Sent) (pre : List Bool) : pre.length ≤ (sent.foldl Sent.after pre).length := by
  induction sent generalizing pre with
  | nil => exact Nat.le_refl _
  | cons s sent ih =>
    refine Nat.le_trans ?_ (ih (s.after pre))
    cases s with
    | bits value length =>
      rw [Sent.after, List.length_append]
      exact Nat.le_add_right _ _
    | copy block header =>
      have halign := length_le_align pre
      rw [Sent.after, copyBits, List.length_append, List.length_append]
      omega

/-- A write of some of `bits` has failed. -/
def TZIP.Short (tzip₀ : TZIP) (bits : List Bool) (tzip : TZIP) : Prop := ∃ n, tzip₀.Failed n tzip ∧ 8 * n ≤ bits.length

theorem TZIP.Short.mono {tzip : TZIP} {bits' : List Bool} (h : tzip₀.Short bits tzip) (hle : bits.length ≤ bits'.length) :
    tzip₀.Short bits' tzip := by
  obtain ⟨n, hfailed, hn⟩ := h
  exact ⟨n, hfailed, Nat.le_trans hn hle⟩

theorem TZIP.Short.err {tzip : TZIP} (h : tzip₀.Short bits tzip) : tzip.lasterr ≠ .ok := by
  obtain ⟨n, hfailed, -⟩ := h
  exact hfailed.err

theorem Writer.At.short (h : w.At tzip₀ bits) (herr : w.tzip.lasterr ≠ .ok) : tzip₀.Short bits w.tzip := by
  rcases h with h | h
  · obtain ⟨-, -, -, flushed, pend, hafter, hbits, -⟩ := h
    refine ⟨flushed.length, hafter.failed herr, ?_⟩
    rw [hbits, List.length_append, length_bytesBits, List.length_append]
    omega
  · exact h.failed

/-- Without an error the option to abort is what it was. -/
theorem Writer.At.abort (h : w.At tzip₀ pre) (herr : w.tzip.lasterr = .ok) : w.tzip.abort = tzip₀.abort := by
  rcases h with h | h
  · obtain ⟨-, -, -, flushed, pend, hafter, -⟩ := h
    rcases hafter with hwrote | hfailed
    · exact hwrote.abort
    · exact absurd herr hfailed.err
  · obtain ⟨-, -, -, -, n, hfailed, -⟩ := h
    exact absurd herr hfailed.err

/-- All of it has been sent, or an error ends the sending. -/
theorem returns_sendEach (h : w.At tzip₀ pre) (sent : List Sent) (hfits : ∀ s ∈ sent, s.Fits) :
    Returns (sendEach sent) w fun _ w' => w'.At tzip₀ (sent.foldl Sent.after pre) ∨ tzip₀.Short (sent.foldl Sent.after pre) w'.tzip := by
  induction sent generalizing w pre with
  | nil =>
    unfold sendEach
    rw [returns_pure]
    exact .inl h
  | cons s sent ih =>
    have hrest : ∀ s ∈ sent, s.Fits := fun s hs => hfits s (List.mem_cons_of_mem _ hs)
    have hfit := hfits s List.mem_cons_self
    cases s with
    | bits value length =>
      unfold sendEach
      refine ((returns_sendBits h hfit.1 hfit.2).of_ensures (ensures_sendBits value length w)).bind ?_
      rintro ok w₁ ⟨⟨hat, -⟩, hfalse⟩
      cases ok with
      | false =>
        rw [if_neg Bool.false_ne_true, returns_pure]
        exact .inr ((hat.short (hfalse rfl)).mono (length_le_after sent _))
      | true =>
        rw [if_pos rfl]
        exact ih hat hrest
    | copy block header =>
      unfold sendEach
      refine (returns_copyBlock h block header).bind ?_
      rintro _ w₁ hcopy
      exact ih (.inl hcopy.holds) hrest

theorem Block.returns_send {b : Block} (hb : b.Valid out) (eof : Bool) (h : w.At tzip₀ pre) :
    Returns (b.send eof) w fun _ w' =>
      w'.At tzip₀ ((b.sent eof).foldl Sent.after pre) ∨ tzip₀.Short ((b.sent eof).foldl Sent.after pre) w'.tzip := by
  have hfits := Block.sent_fits hb eof
  cases b with
  | stored bytes =>
    have htype := hfits _ List.mem_cons_self
    refine (returns_sendBits h htype.1 htype.2).bind ?_
    rintro _ w₁ ⟨hat, -⟩
    refine (returns_copyBlock hat bytes true).mono ?_
    rintro _ w₂ hcopy
    exact .inl (.inl hcopy.holds)
  | static items =>
    have htype := hfits _ List.mem_cons_self
    refine (returns_sendBits h htype.1 htype.2).bind ?_
    rintro _ w₁ ⟨hat, -⟩
    exact returns_sendEach hat _ fun s hs => hfits s (List.mem_cons_of_mem _ hs)

/-- All of the blocks have been sent, up to a whole byte, or there is an error, because the destination has no room for all of it. -/
theorem returns_flushBlocks (blocks : List Block) (hne : blocks ≠ []) (hvalid : AllValid out blocks) (h : w.At tzip₀ pre)
    (habort : tzip₀.abort = false) (hok : w.tzip.lasterr = .ok) :
    Returns (flushBlocks blocks) w fun _ w' =>
      w'.Flushed tzip₀ (align ((blocksSent blocks).foldl Sent.after pre)) ∨
        tzip₀.Short (align ((blocksSent blocks).foldl Sent.after pre)) w'.tzip := by
  induction blocks generalizing w out pre with
  | nil => exact absurd rfl hne
  | cons b bs ih =>
    obtain ⟨hb, hbs⟩ := hvalid
    have hgo : ¬ w.tzip.abort = true := by
      rw [h.abort hok, habort]
      exact Bool.false_ne_true
    have hshort : ∀ {eof : Bool} {w₁ : Writer}, w₁.tzip.lasterr ≠ .ok →
        w₁.At tzip₀ ((b.sent eof).foldl Sent.after pre) ∨ tzip₀.Short ((b.sent eof).foldl Sent.after pre) w₁.tzip →
          tzip₀.Short ((b.sent eof).foldl Sent.after pre) w₁.tzip := fun herr hsent => hsent.elim (fun hat => hat.short herr) id
    cases bs with
    | nil =>
      unfold flushBlocks flushBlock
      rw [returns_bind, returns_get, if_pos hgo]
      refine (Block.returns_send hb true h).bind ?_
      rintro _ w₁ hsent
      rw [returns_bind, returns_get]
      by_cases herr : w₁.tzip.lasterr = .ok
      · rw [if_pos herr, if_pos rfl]
        have hat : w₁.At tzip₀ ((b.sent true).foldl Sent.after pre) :=
          hsent.resolve_right fun hshort' => hshort'.err herr
        refine (returns_biWindup hat).mono ?_
        rintro _ w₂ hflushed
        exact .inl hflushed
      · rw [if_neg herr, returns_pure]
        exact .inr ((hshort herr hsent).mono (length_le_align _))
    | cons b' bs =>
      have hsent₂ : (blocksSent (b :: b' :: bs)).foldl Sent.after pre =
          (blocksSent (b' :: bs)).foldl Sent.after ((b.sent false).foldl Sent.after pre) := by
        rw [blocksSent, List.foldl_append]
        exact List.cons_ne_nil _ _
      rw [hsent₂]
      unfold flushBlocks flushBlock
      rw [bind_assoc, returns_bind, returns_get, if_pos hgo, bind_assoc]
      refine (Block.returns_send hb false h).bind ?_
      rintro _ w₁ hsent
      rw [returns_bind, returns_bind, returns_get]
      by_cases herr : w₁.tzip.lasterr = .ok
      · rw [if_pos herr, if_neg Bool.false_ne_true, returns_pure, returns_bind, returns_get, if_pos herr]
        have hat : w₁.At tzip₀ ((b.sent false).foldl Sent.after pre) :=
          hsent.resolve_right fun hshort' => hshort'.err herr
        exact ih (List.cons_ne_nil _ _) hbs hat herr
      · rw [if_neg herr, returns_pure, returns_bind, returns_get, if_neg herr, returns_pure]
        exact .inr ((hshort herr hsent).mono (Nat.le_trans (length_le_after _ _) (length_le_align _)))

/-- There is no error exactly when the destination has room, and then it has what was sent. -/
theorem returns_flushBlocks_start (blocks : List Block) (hne : blocks ≠ []) (hvalid : AllValid [] blocks) (h : w.Flushed w.tzip [])
    (habort : w.tzip.abort = false) (hok : w.tzip.lasterr = .ok) :
    Returns (flushBlocks blocks) w fun _ w' => (w'.tzip.lasterr = .ok ↔ (entryData blocks).length ≤ w.tzip.room) ∧
      (w'.tzip.lasterr = .ok → w'.tzip.destination = w.tzip.destination ++ (w.tzip.encode (entryData blocks)).1) := by
  refine (returns_flushBlocks blocks hne hvalid (.inl h.holds) habort hok).mono ?_
  rintro _ w' hsent
  have hfull : ∀ {n : Nat}, w.tzip.Failed n w'.tzip → w.tzip.room < n := by
    intro n hfailed
    rcases hfailed.cause with hcause | hroom
    · rw [habort] at hcause
      cases hcause
    · exact hroom
  rcases hsent with ⟨-, -, -, -, data, hafter, hbits⟩ | ⟨n, hfailed, hn⟩
  · have hdata : entryData blocks = data := packed_eq hbits
    rw [hdata]
    rcases hafter with hwrote | hfailed
    · have hroom := hwrote.room
      exact ⟨iff_of_true hwrote.err (by omega), fun _ => hwrote.destination⟩
    · have hroom := hfull hfailed
      exact ⟨iff_of_false hfailed.err (by omega), fun hn => absurd hn hfailed.err⟩
  · have hroom := hfull hfailed
    have hlen : (align ((blocksSent blocks).foldl Sent.after [])).length = 8 * (entryData blocks).length := by
      rw [← bytesBits_packed, length_bytesBits]
      rfl
    exact ⟨iff_of_false hfailed.err (by omega), fun hn => absurd hn hfailed.err⟩

/-- An entry of blocks that are stored or have the static trees, from the calls of `flush_block` to the file that `unzipEntry`
writes: there is no error exactly when the destination has room for the data, and then what has been written there is read back as
the content of the blocks. In the source a block has fewer than `LIT_BUFSIZE` items; here it may have any number. -/
theorem unzipLoop_flushBlocks (w : Writer) (blocks : List Block) (info : EntryInfo) (InputBuffer rest window : List UInt8)
    (hufts : List Huft) (hsize : 4 ≤ w.out_size) (hvalid : w.bi_valid = 0) (hbuf : w.bi_buf = 0) (hoffset : w.out_offset = 0)
    (hok : w.tzip.lasterr = .ok) (habort : w.tzip.abort = false) (hencrypt : w.tzip.encrypt = false)
    (hne : blocks ≠ []) (hblocks : AllValid [] blocks) (hmethod : info.compression_method ≠ 0) (hplain : info.encrypted = false)
    (hbuffer : InputBuffer.length = UNZ_BUFSIZE) (hwindow : window.length = 32768)
    (huncompressed : info.uncompressed_size.toNat = (blocks.foldl Block.content []).length) :
    Returns (flushBlocks blocks) w fun _ w' => (w'.tzip.lasterr = .ok ↔ (entryData blocks).length ≤ w.tzip.room) ∧
      (w'.tzip.lasterr = .ok → ∃ data, w'.tzip.destination = w.tzip.destination ++ data ∧ (info.compressed_size = data.length →
        Finishes (fun fuel => unzipLoop (inflateCall fuel) info fuel fuel [])
          (initEntry info InputBuffer (data ++ rest) (inflateInit window hufts))
          fun out e => out = blocks.foldl Block.content [] ∧
            e.RunningCrc = (Crc32.mgChecksumCrc32 (List.replicate 9 0) (blocks.foldl Block.content [])).2.setWidth 64 ∧ e.LastErr = .ok)) := by
  have hstart : w.Flushed w.tzip [] := ⟨hsize, hbuf, hvalid, hoffset, [], .inl (.refl hok), rfl⟩
  refine (returns_flushBlocks_start blocks hne hblocks hstart habort hok).mono ?_
  rintro _ w' ⟨hroom, hdestination⟩
  refine ⟨hroom, fun herr => ⟨entryData blocks, ?_, ?_⟩⟩
  · rw [hdestination herr, TZIP.encode, if_neg (by rw [hencrypt]; decide)]
  · intro hcompressed
    obtain ⟨R, trailing, halign, hstream⟩ := blocksSent_stream blocks hne hblocks []
    have hdata : bytesBits (entryData blocks) = R := by rw [entryData, bytesBits_packed, halign, List.nil_append]
    refine Finishes.of_lt (n := 64 * (entryData blocks).length + 261 + (blocks.foldl Block.content []).length) fun fuel hfuel => ?_
    exact returns_unzipLoop_initEntry rest hufts hmethod hplain hbuffer hcompressed.symm hwindow huncompressed
      (hdata ▸ hstream) hfuel

/-- A stored block, and one of a literal byte and a copy of four, in eleven bytes. -/
theorem unzipLoop_flushBlocks_two :
    Returns (flushBlocks [.stored [1, 2], .static [(0, 97), (1, 1)]])
      ⟨0, 0, [0, 0, 0, 0], 0, ⟨false, true, false, Keys.start, .ok, [], 11⟩⟩ fun _ w' => w'.tzip.lasterr = .ok ∧
        ∃ data, w'.tzip.destination = [] ++ data ∧ (11 = data.length →
          Finishes (fun fuel => unzipLoop (inflateCall fuel) ⟨0, 8, 0, 0, 11, 7, none⟩ fuel fuel [])
            (initEntry ⟨0, 8, 0, 0, 11, 7, none⟩ (List.replicate UNZ_BUFSIZE 0) (data ++ [9])
              (inflateInit (List.replicate 32768 0) []))
            fun out e => out = [1, 2, 97, 97, 97, 97, 97] ∧
              e.RunningCrc = (Crc32.mgChecksumCrc32 (List.replicate 9 0) [1, 2, 97, 97, 97, 97, 97]).2.setWidth 64 ∧ e.LastErr = .ok) := by
  have hroom : (entryData [.stored [1, 2], .static [(0, 97), (1, 1)]]).length ≤ 11 := by decide +kernel
  have hblocks : AllValid [] [.stored [1, 2], .static [(0, 97), (1, 1)]] :=
    ⟨show 2 < 65536 by decide, ⟨trivial, ⟨by decide, by decide, by decide⟩, trivial⟩, trivial⟩
  have hall := unzipLoop_flushBlocks ⟨0, 0, [0, 0, 0, 0], 0, ⟨false, true, false, Keys.start, .ok, [], 11⟩⟩
    [.stored [1, 2], .static [(0, 97), (1, 1)]] ⟨0, 8, 0, 0, 11, 7, none⟩ (List.replicate UNZ_BUFSIZE 0) [9] (List.replicate 32768 0)
    [] (by decide) rfl rfl rfl rfl rfl rfl (List.cons_ne_nil _ _) hblocks (by decide) rfl List.length_replicate
    List.length_replicate rfl
  refine hall.mono ?_
  rintro _ w' ⟨hiff, hdata⟩
  exact ⟨hiff.2 hroom, hdata (hiff.2 hroom)⟩

end MgStd.Zip
