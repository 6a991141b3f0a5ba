import MgStd.Inflate.Copy
/-!
# `inflate_fast`

As long as there is enough input and room `inflate_fast` does what the modes of
`inflate_codes` do, a token in each round. The bytes that it has read too many go
back to the input.
-/

namespace MgStd.Inflate

open MgStd.Lib

variable {s₁ s s' : Inflater} {future out bytes : List UInt8} {bits code rest tail : List Bool} {done i j n need p₀ fuel : Nat} {h x : Huft}
  {at_ : HuftPtr} {K : Coding} {tight : Prop} {codes : Codes} {t : Token} {ts : List Token}

/-- How many bits there are in the buffer and in the input. -/
def Inflater.stock (s : Inflater) : Nat := s.bitk + 8 * (s.input.length - s.p)

/-- `inflate_fast` has come from `s₁` to `s`. -/
structure Inflater.Fast (s₁ : Inflater) (future : List UInt8) (done : Nat) (bits : List Bool) (out : List UInt8) (s : Inflater) : Prop where
  ahead : s.Ahead future bits
  unpacked : s.Unpacked done out
  same : s₁.Same s
  le : s₁.p ≤ s.p
  count : s.bitk + 8 * s₁.p ≤ s₁.bitk + 8 * s.p

theorem Inflater.Fast.grab (hf : s₁.Fast future done bits out s) (hj : j ≤ s.stock) :
    Returns (GRABBITS j) s fun _ s' => s₁.Fast future done bits out s' ∧ j ≤ s'.bitk ∧ s'.stock = s.stock ∧ s'.m = s.m ∧
      s'.bitk + 8 * s.p = s.bitk + 8 * s'.p := by
  have hread := hf.ahead.read
  unfold Inflater.stock at hj
  refine (returns_grabBits hf.ahead (Nat.le_add_left j s.bitk) (by omega)).mono ?_
  rintro _ s' ⟨hahead, hsame, -, hle, hk, hcount, -⟩
  have hread' := hahead.read
  have hinput := hsame.same.input
  have hstock : s'.stock = s.stock := by
    unfold Inflater.stock
    rw [hinput] at hread' ⊢
    omega
  have hf_le := hf.le
  have hf_count := hf.count
  refine ⟨⟨hahead, hsame.unpacked hf.unpacked, hf.same.trans hsame.same, by omega, by omega⟩, hk, hstock, ?_, hcount⟩
  obtain ⟨_, _, _, _, rfl⟩ := hsame
  rfl

theorem Inflater.Fast.dump (hf : s₁.Fast future done bits out s) (hj : j ≤ s.bitk) :
    s₁.Fast future done (bits.drop j) out (s.dumped j) := by
  have hsame : s.SameOutput (s.dumped j) := ⟨_, _, _, _, rfl⟩
  have hcount := hf.count
  refine ⟨hf.ahead.dump hj, hsame.unpacked hf.unpacked, hf.same.trans hsame.same, hf.le, ?_⟩
  change s.bitk - j + 8 * s₁.p ≤ s₁.bitk + 8 * s.p
  omega

theorem stock_dumped (hj : j ≤ s.bitk) : (s.dumped j).stock + j = s.stock := by
  change s.bitk - j + 8 * (s.input.length - s.p) + j = s.bitk + 8 * (s.input.length - s.p)
  omega

theorem Inflater.Fast.put (hf : s₁.Fast future done bits out s) (hm : bytes.length ≤ s.m) :
    s₁.Fast future done bits (out ++ bytes) (s.put bytes) :=
  ⟨sameInput_put.ahead hf.ahead, hf.unpacked.put hm, hf.same.trans (same_put (hf.unpacked.fits hm)), hf.le, hf.count⟩

/-- The bytes go back that this call has read and does not need. -/
theorem Inflater.Fast.ungrab (hf : s₁.Fast future done bits out s) :
    Returns (UNGRAB s₁.p) s fun _ s' => s₁.Fast future done bits out s' ∧ (s'.bitk ≤ 7 ∨ s'.p = s₁.p) ∧
      s'.bitk + 8 * s.p = s.bitk + 8 * s'.p := by
  have hle := hf.le
  have hcount := hf.count
  unfold UNGRAB
  rw [returns_modify]
  simp only [Nat.shiftRight_eq_div_pow, Nat.shiftLeft_eq, Nat.reducePow]
  generalize hc : min (s.bitk / 8) (s.p - s₁.p) = c
  rw [Nat.mul_comm c 8]
  have hsame : s.SameOutput { s with p := s.p - c, bitk := s.bitk - 8 * c } := ⟨_, _, _, _, rfl⟩
  refine ⟨⟨hf.ahead.ungrab (by omega) (by omega), hsame.unpacked hf.unpacked, hf.same.trans hsame.same, ?_, ?_⟩, ?_, ?_⟩
  · change s₁.p ≤ s.p - c
    omega
  · change s.bitk - 8 * c + 8 * s₁.p ≤ s₁.bitk + 8 * (s.p - c)
    omega
  · omega
  · omega

/-! ## Through the tables -/

theorem entryAt_add (b j : Nat) : entryAt (some at_) (b + j) = entryAt (some ⟨at_.space, at_.at_ + b⟩) j := by
  unfold entryAt
  simp only [Nat.add_assoc]

theorem Found.bits_le (hfound : Found h n need code x at_) : h.Bits ≤ code.length := by
  cases hfound with
  | here hbits => exact Nat.le_of_eq hbits
  | next hcode _ hpos he hrest =>
    rw [hcode, List.length_append]
    exact Nat.le_add_left_of_le hrest.bits_le

/-- The next table of a code that is not at its end. -/
theorem returns_nextTable {e base : Nat} {code₁ code₂ : List Bool} (hahead : s.Ahead future bits) (hbits : bits = (code₁ ++ code₂) ++ rest)
    (hn : n ≤ s.bitk) (hcode : code₁.length ≤ n) (hrest : Leads h (n - code₁.length) (some ⟨at_.space, at_.at_ + base⟩) e code₂) :
    Returns (entryAt (some at_) (base + (s.dumped code₁.length).peek e)) (s.dumped code₁.length) fun y s' =>
      Found h (n - code₁.length) e code₂ y.1 y.2 ∧ s' = s.dumped code₁.length := by
  have hdump := hahead.dump (Nat.le_trans hcode hn)
  have hneed := hrest.need_le
  have hk : (s.dumped code₁.length).bitk = s.bitk - code₁.length := rfl
  have hdrop : bits.drop code₁.length = code₂ ++ rest := by
    rw [hbits, List.append_assoc, List.drop_left]
  have hlen := hdump.le_length
  rw [hdrop] at hdump hlen
  rw [entryAt_add, hdump.peek (by omega)]
  exact hrest.returns_entryAt rfl (by omega)

/-- What `inflate_fast` does with an entry. -/
def fastEntry (codes : Codes) (p₀ fuel : Nat) (t : Huft × HuftPtr) : InflateProg (Option Int) :=
  if t.1.Exop = 0 then do
    DUMPBITS t.1.Bits
    OUTBYTE (UInt8.ofNat t.1.base)
    return none
  else fastLen codes p₀ fuel t

/-- It goes to the entry of the code. -/
theorem returns_fastEntry_found {Q : Option Int → Inflater → Prop} (hfound : Found h n need code x at_) (hahead : s.Ahead future bits)
    (hbits : bits = code ++ rest) (hn : n ≤ s.bitk) (hcode : code.length ≤ n) (hfuel : code.length ≤ fuel)
    (hentry : ∀ fuel' at', Returns (fastEntry codes p₀ (fuel' + 1) (h, at')) (s.dumped (code.length - h.Bits)) Q) :
    Returns (fastEntry codes p₀ (fuel + 1) (x, at_)) s Q := by
  induction fuel generalizing s n need code x at_ bits with
  | zero =>
    cases hfound with
    | here hb =>
      have hzero := hentry 0 at_
      rwa [hb, Nat.sub_self, show s.dumped 0 = s from rfl] at hzero
    | next hc _ hpos =>
      rw [hc, List.length_append] at hfuel
      omega
  | succ fuel ih =>
    cases hfound with
    | here hb =>
      have hzero := hentry (fuel + 1) at_
      rwa [hb, Nat.sub_self, show s.dumped 0 = s from rfl] at hzero
    | @next _ e base code₁ code₂ hc _ hpos he hrest =>
      subst hc
      rw [List.length_append] at hcode hfuel
      obtain ⟨h16, h64⟩ := tableOp_bits e he.2
      unfold fastEntry
      rw [if_neg (Nat.ne_of_gt he.1)]
      unfold fastLen
      simp only [returns_bind, returns_DUMPBITS, returns_get, h16, h64, ne_eq, not_true_eq_false, if_false, if_true]
      refine (returns_nextTable hahead hbits hn (by omega) hrest).mono ?_
      rintro y _ ⟨hfound, rfl⟩
      have hb := hfound.bits_le
      refine (ih hfound (hahead.dump (by omega)) ?_ ?_ (by omega) (by omega) fun fuel' at' => ?_)
      · rw [hbits, List.append_assoc, List.drop_left]
      · exact Nat.sub_le_sub_right hn _
      · rw [dumped_dumped, ← Nat.add_sub_assoc hb, ← List.length_append]
        exact hentry fuel' at'

theorem returns_fastDist_found {c : Nat} {Q : Option Int → Inflater → Prop} (hfound : Found h n need code x at_) (hahead : s.Ahead future bits)
    (hbits : bits = code ++ rest) (hn : n ≤ s.bitk) (hcode : code.length ≤ n) (hfuel : code.length ≤ fuel)
    (hentry : ∀ fuel' at', Returns (fastDist p₀ c (fuel' + 1) (h, at')) (s.dumped (code.length - h.Bits)) Q) :
    Returns (fastDist p₀ c (fuel + 1) (x, at_)) s Q := by
  induction fuel generalizing s n need code x at_ bits with
  | zero =>
    cases hfound with
    | here hb =>
      have hzero := hentry 0 at_
      rwa [hb, Nat.sub_self, show s.dumped 0 = s from rfl] at hzero
    | next hc _ hpos =>
      rw [hc, List.length_append] at hfuel
      omega
  | succ fuel ih =>
    cases hfound with
    | here hb =>
      have hzero := hentry (fuel + 1) at_
      rwa [hb, Nat.sub_self, show s.dumped 0 = s from rfl] at hzero
    | @next _ e base code₁ code₂ hc _ hpos he hrest =>
      subst hc
      rw [List.length_append] at hcode hfuel
      obtain ⟨h16, h64⟩ := tableOp_bits e he.2
      unfold fastDist
      simp only [returns_bind, returns_DUMPBITS, returns_get, h16, h64, ne_eq, not_true_eq_false, if_false, if_true]
      refine (returns_nextTable hahead hbits hn (by omega) hrest).mono ?_
      rintro y _ ⟨hfound, rfl⟩
      have hb := hfound.bits_le
      refine (ih hfound (hahead.dump (by omega)) ?_ ?_ (by omega) (by omega) fun fuel' at' => ?_)
      · rw [hbits, List.append_assoc, List.drop_left]
      · exact Nat.sub_le_sub_right hn _
      · rw [dumped_dumped, ← Nat.add_sub_assoc hb, ← List.length_append]
        exact hentry fuel' at'

/-! ## A token -/

/-- The distance, and the copy. -/
theorem Inflater.Fast.dist {S : List Bool → Prop} {c : Nat} {tree : Option HuftPtr} (hf : s₁.Fast future done bits out s)
    (hdist : DistLeft tight S 15 c need tree t bits) (hk : 15 ≤ s.bitk) (hstock : 28 ≤ s.stock) (hvalid : t.Valid s.size out)
    (hmin : 3 ≤ t.size) (hmax : t.size ≤ s.m) :
    Returns (entryAt tree (s.peek need) >>= fastDist p₀ c (BMAX + 1)) s fun r s' =>
      r = none ∧ ∃ rest, S rest ∧ rest.length < bits.length ∧ s₁.Fast future done rest (t.expand out) s' := by
  obtain ⟨h, e, code, _, hbits, hlead, -, hop, he, extra, rest, rfl, hextra, rfl, hS⟩ := hdist
  have hneed := hlead.need_le
  have hpos := hlead.pos
  have hcode := hlead.length_le
  have hlen := hf.ahead.le_length
  rw [hf.ahead.peek (by omega)]
  refine (hlead.returns_entryAt hbits (by omega)).bind ?_
  rintro ⟨x, at_⟩ s₂ ⟨hfound, hs⟩
  rw [hs]
  refine returns_fastDist_found hfound hf.ahead hbits hk hcode (show code.length ≤ BMAX from hcode) fun fuel' at' => ?_
  obtain ⟨-, h16, h15⟩ := extraOp_bits e (by omega)
  have hdump := hf.dump (Nat.le_trans hcode hk)
  rw [hbits, List.drop_left] at hdump
  have hstock' := stock_dumped (Nat.le_trans hcode hk)
  unfold fastDist
  rw [returns_bind, returns_DUMPBITS, dumped_dumped, Nat.sub_add_cancel hfound.bits_le, hop, if_pos h16, h15, returns_bind]
  refine (hdump.grab (by omega)).mono ?_
  rintro _ s₃ ⟨hf₃, hk₃, -, hm₃, -⟩
  have hdrop₃ := hf₃.dump hk₃
  have htake : (extra ++ rest).take e = extra := List.take_left' hextra
  rw [List.drop_left' hextra] at hdrop₃
  rw [returns_bind, returns_get, hf₃.ahead.peek hk₃, htake, returns_bind, returns_DUMPBITS, returns_bind]
  have hsize : (s₃.dumped e).size = s.size := hdrop₃.same.size.trans hf.same.size.symm
  refine (returns_fastCopy hdrop₃.unpacked (show c ≤ s₃.m from hm₃ ▸ hmax) hmin (hsize ▸ hvalid)).mono ?_
  rintro _ s₄ ⟨bytes, hlen₄, hcopy, rfl⟩
  rw [returns_pure]
  refine ⟨rfl, rest, hS, ?_, ?_⟩
  · rw [hbits, List.length_append, List.length_append]
    omega
  · have hput := hdrop₃.put (show bytes.length ≤ s₃.m by rw [hlen₄, hm₃]; exact hmax)
    rwa [← hcopy] at hput

/-- The tables of a round: it comes to the entry of its code. -/
theorem Inflater.Fast.round {Q : Option Int → Inflater → Prop} (hf : s₁.Fast future done bits out s)
    (hlead : Leads h 15 codes.ltree codes.lbits code) (hbits : bits = code ++ rest) (hstock : 80 ≤ s.stock)
    (hentry : ∀ fuel' at' (s₂ : Inflater), s₁.Fast future done rest out (s₂.dumped code.length) → 5 ≤ (s₂.dumped code.length).bitk →
      65 ≤ (s₂.dumped code.length).stock → s₂.m = s.m → h.Bits ≤ code.length →
      (s₂.dumped code.length).bitk + 8 * s₁.p < s₁.bitk + 8 * s₂.p →
      Returns (fastEntry codes p₀ (fuel' + 1) (h, at')) (s₂.dumped (code.length - h.Bits)) Q) :
    Returns (fastRound codes p₀) s Q := by
  have hneed := hlead.need_le
  have hcode := hlead.length_le
  unfold fastRound
  refine (hf.grab (show 20 ≤ s.stock by omega)).bind ?_
  rintro _ s₂ ⟨hf₂, hk₂, hstock₂, hm₂, -⟩
  have hlen := hf₂.ahead.le_length
  rw [returns_bind, returns_get, hf₂.ahead.peek (by omega)]
  refine (hlead.returns_entryAt hbits (by omega)).bind ?_
  rintro ⟨x, at_⟩ s₃ ⟨hfound, hs⟩
  rw [hs]
  have hdump := hf₂.dump (show code.length ≤ s₂.bitk by omega)
  have hstock' := stock_dumped (show code.length ≤ s₂.bitk by omega)
  have hk' : (s₂.dumped code.length).bitk = s₂.bitk - code.length := rfl
  rw [hbits, List.drop_left] at hdump
  refine returns_fastEntry_found hfound hf₂.ahead hbits (show 15 ≤ s₂.bitk by omega) hcode hcode fun fuel' at' => ?_
  have hpos := hlead.pos
  have hcount := hf₂.count
  exact hentry fuel' at' s₂ hdump (by omega) (by omega) hm₂ hfound.bits_le (by omega)

/-- What a round does with a token. -/
theorem Inflater.Fast.token {S : List Bool → Prop} (hf : s₁.Fast future done bits out s) (hcoding : codes.coding = K)
    (hleft : LenLeft K tight S 15 K.lbits K.ltree t bits) (hstock : 80 ≤ s.stock) (hvalid : t.Valid s.size out) (hm : 258 ≤ s.m) :
    Returns (fastRound codes p₀) s fun r s' =>
      r = none ∧ ∃ rest, S rest ∧ rest.length < bits.length ∧ s₁.Fast future done rest (t.expand out) s' := by
  obtain ⟨h, code, rest, hbits, hlead, -, hcase⟩ := hleft
  subst hcoding
  have hpos := hlead.pos
  have hlen : rest.length + code.length = bits.length := by rw [hbits, List.length_append, Nat.add_comm]
  refine hf.round hlead hbits hstock fun fuel' at' s₂ hdump hk₂ hstock₂ hm₂ hle _ => ?_
  rcases hcase with ⟨hop, -, rfl, hS⟩ | ⟨e, hop, -, he, hmin, hmax, extra, rest', rfl, hextra, hdist⟩
  · have hone : [UInt8.ofNat h.base].length ≤ (s₂.dumped code.length).m := by
      change 1 ≤ s₂.m
      omega
    unfold fastEntry
    rw [if_pos hop, returns_bind, returns_DUMPBITS, dumped_dumped, Nat.sub_add_cancel hle, returns_bind,
      returns_OUTBYTE _ (hdump.unpacked.fits hone), returns_pure]
    exact ⟨rfl, rest, hS, by omega, hdump.put hone⟩
  · obtain ⟨h0, h16, h15⟩ := extraOp_bits e (by omega)
    have hdrop := hdump.dump (show e ≤ _ by omega)
    have hstock₃ := stock_dumped (show e ≤ (s₂.dumped code.length).bitk by omega)
    rw [List.drop_left' hextra] at hdrop
    have htake : (extra ++ rest').take e = extra := List.take_left' hextra
    unfold fastEntry
    rw [hop, if_neg h0]
    unfold fastLen
    rw [returns_bind, returns_DUMPBITS, dumped_dumped, Nat.sub_add_cancel hle, hop, if_pos h16, h15, returns_bind, returns_get,
      hdump.ahead.peek (by omega), htake, returns_bind, returns_DUMPBITS, returns_bind]
    refine (hdrop.grab (show 15 ≤ _ by omega)).mono ?_
    rintro _ s₃ ⟨hf₃, hk₃, hstock', hm₃, -⟩
    have hm₃' : s₃.m = s.m := hm₃.trans hm₂
    have hsize : s₃.size = s.size := hf₃.same.size.trans hf.same.size.symm
    rw [returns_bind, returns_get]
    refine (hf₃.dist hdist hk₃ (by omega) (hsize ▸ hvalid) hmin (by omega)).mono ?_
    rintro r s' ⟨hr, rest'', hS, hlt, hf'⟩
    rw [List.length_append] at hlen
    exact ⟨hr, rest'', hS, by omega, hf'⟩

/-- What a round does with the end of the block. -/
theorem Inflater.Fast.endOfBlock (hf : s₁.Fast future done bits out s) (hcoding : codes.coding = K)
    (hleft : EndLeft tight tail 15 K.lbits K.ltree bits) (hstock : 80 ≤ s.stock) :
    Returns (fastRound codes s₁.p) s fun r s' =>
      r = some Z_STREAM_END ∧ tail.length < bits.length ∧ s₁.Fast future done tail out s' ∧ (s'.bitk ≤ 7 ∨ s'.p = s₁.p) ∧
        s'.bitk + 8 * s₁.p < s₁.bitk + 8 * s'.p := by
  obtain ⟨h, code, hbits, hlead, -, hop, -⟩ := hleft
  subst hcoding
  have hpos := hlead.pos
  refine hf.round hlead hbits hstock fun fuel' at' s₂ hdump hk₂ hstock₂ hm₂ hle hused => ?_
  unfold fastEntry
  rw [hop, if_neg (by decide)]
  unfold fastLen
  rw [returns_bind, returns_DUMPBITS, dumped_dumped, Nat.sub_add_cancel hle, hop, if_neg (by decide), if_neg (by decide), if_pos (by decide)]
  refine hdump.ungrab.bind ?_
  rintro _ s' ⟨hf', hback, hcount⟩
  rw [returns_pure]
  refine ⟨rfl, ?_, hf', hback, ?_⟩
  · rw [hbits, List.length_append]
    omega
  · have hp : (s₂.dumped code.length).p = s₂.p := rfl
    omega

/-- What is left when `inflate_fast` has come to `s'` with the result `r`. -/
structure Coding.FastLeft (K : Coding) (tight : Prop) (tail : List Bool) (final : List UInt8) (s₁ : Inflater) (future : List UInt8) (done : Nat)
    (bits : List Bool) (out : List UInt8) (ts : List Token) (r : Int) (s' : Inflater) : Prop where
  fast : s₁.Fast future done bits out s'
  valid : Valid s₁.size out ts
  final : expand out ts = final
  back : s'.bitk ≤ 7 ∨ s'.p = s₁.p
  result : r = Z_OK ∧ K.Spells tight tail ts bits ∨
    r = Z_STREAM_END ∧ ts = [] ∧ bits = tail ∧ s'.bitk + 8 * s₁.p < s₁.bitk + 8 * s'.p

theorem returns_inflateFast {final : List UInt8} (hcoding : codes.coding = K) (hahead : s.Ahead future bits) (hunpacked : s.Unpacked done out)
    (hspells : K.Spells tight tail ts bits) (hvalid : Valid s.size out ts) (hfinal : expand out ts = final) (henough : fastEnough s = true)
    (hfuel : bits.length < fuel) :
    Returns (inflateFast codes fuel) s fun r s' => ∃ bits' out' ts',
      K.FastLeft tight tail final s future done bits' out' ts' r s' ∧ bits'.length < bits.length := by
  unfold inflateFast
  rw [returns_bind, returns_get]
  refine returns_loop (fun k (_ : Unit) s' => ∃ bits' out' ts', s.Fast future done bits' out' s' ∧ K.Spells tight tail ts' bits' ∧
    Valid s.size out' ts' ∧ expand out' ts' = final ∧ fastEnough s' = true ∧ bits'.length = k ∧ bits'.length ≤ bits.length) ?_
    fuel bits.length () s ⟨bits, out, ts, ⟨hahead, hunpacked, .refl s, Nat.le_refl _, Nat.le_refl _⟩, hspells, hvalid, hfinal, henough,
      rfl, Nat.le_refl _⟩ hfuel
  rintro k _ s₂ ⟨bits₂, out₂, ts₂, hf, hspells₂, hvalid₂, hfinal₂, henough₂, rfl, hle⟩
  unfold fastEnough at henough₂
  simp only [decide_eq_true_eq] at henough₂
  have hstock : 80 ≤ s₂.stock := by
    unfold Inflater.stock
    omega
  unfold fastLoop
  cases ts₂ with
  | nil =>
    refine (hf.endOfBlock hcoding hspells₂ hstock).bind ?_
    rintro _ s₃ ⟨rfl, hlt, hf₃, hback, hused⟩
    rw [returns_pure]
    exact ⟨tail, out₂, [], ⟨hf₃, hvalid₂, hfinal₂, hback, .inr ⟨rfl, rfl, rfl, hused⟩⟩, by omega⟩
  | cons t ts₂ =>
    refine (hf.token hcoding hspells₂ hstock (hf.same.size ▸ hvalid₂.1) henough₂.1).bind ?_
    rintro _ s₃ ⟨rfl, rest, hspells₃, hlt, hf₃⟩
    rw [expand_cons] at hfinal₂
    simp only [returns_bind, returns_get]
    by_cases hmore : fastEnough s₃ = true
    · rw [if_pos hmore, returns_pure]
      exact ⟨_, hlt, rest, _, ts₂, hf₃, hspells₃, hvalid₂.2, hfinal₂, hmore, rfl, by omega⟩
    · rw [if_neg hmore, returns_bind]
      refine hf₃.ungrab.mono ?_
      rintro _ s₄ ⟨hf₄, hback, -⟩
      rw [returns_pure]
      exact ⟨rest, _, ts₂, ⟨hf₄, hvalid₂.2, hfinal₂, hback, .inl ⟨rfl, hspells₃⟩⟩, by omega⟩

end MgStd.Inflate
