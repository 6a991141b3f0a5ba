import MgStd.Inflate.Stream
/-!
# `inflate_blocks`

Each round of the loop keeps what is left of the stream, and what it all comes to. As
in `inflate_codes` a call leaves at the end, when the output buffer is full, or when
all of its input is used.
-/

namespace MgStd.Inflate

open MgStd.Lib

variable {s₀ s s' : Inflater} {future out : List UInt8} {bits bits' : List Bool} {done i j k n fuel : Nat} {tight : Prop}

/-- How many bits the mode asks for, at most. -/
def BlocksMode.need : BlocksMode → Nat
  | .type => 3
  | .lens => 32
  | .stored _ => 1
  | .table => 14
  | .btree .. => 3
  | .dtree .. => 15
  | .codes c => c.mode.need
  | _ => 0

/-- What may be in the bit buffer: `k` bits of `b`, at `p` in the input. -/
def BlocksMode.Fits (tight : Prop) (p k b : Nat) : BlocksMode → Prop
  | .lens => k ≤ 32 ∧ 8 ∣ k
  | .stored _ => k = 0 ∧ b = 0
  | .codes c => k ≤ 22 ∧ (¬ tight ∧ k ≤ 8 * p ∨ tight ∧ k ≤ c.mode.slack)
  | _ => k ≤ 22 ∧ (¬ tight ∧ k ≤ 8 * p ∨ tight ∧ k ≤ 8)

/-- Behind a block, with nothing in the buffer. -/
theorem Inflater.next_fits (s : Inflater) (tight : Prop) (p : Nat) : s.next.Fits tight p 0 0 := by
  unfold Inflater.next
  by_cases htight : tight
  · cases s.last <;> exact ⟨Nat.zero_le _, .inr ⟨htight, Nat.zero_le _⟩⟩
  · cases s.last <;> exact ⟨Nat.zero_le _, .inl ⟨htight, Nat.zero_le _⟩⟩

def Inflater.Fits (tight : Prop) (s : Inflater) : Prop := s.mode.Fits tight s.p s.bitk s.bitb

/-- What `inflate_blocks` does not change. -/
structure Inflater.Within (s s' : Inflater) : Prop where
  input : s'.input = s.input
  streamMode : s'.streamMode = s.streamMode
  size : s'.size = s.size
  count : s'.nextOut.length + s'.availOut = s.nextOut.length + s.availOut

theorem Inflater.Within.trans {s'' : Inflater} (h : s.Within s') (h' : s'.Within s'') : s.Within s'' :=
  ⟨h'.input.trans h.input, h'.streamMode.trans h.streamMode, h'.size.trans h.size, h'.count.trans h.count⟩

theorem Inflater.Same.within (h : s.Same s') : s.Within s' := ⟨h.input, h.streamMode, h.size, h.count⟩

/-- The output has not changed. -/
def Inflater.Moves (s s' : Inflater) : Prop :=
  ∃ mode last b k hufts r p, s' = { s with mode := mode, last := last, bitb := b, bitk := k, hufts := hufts, r := r, p := p }

theorem Inflater.SameOutput.moves (h : s.SameOutput s') : s.Moves s' := by
  obtain ⟨_, _, _, _, rfl⟩ := h
  exact ⟨_, _, _, _, _, _, _, rfl⟩

theorem Inflater.Moves.trans {s'' : Inflater} (h : s.Moves s') (h' : s'.Moves s'') : s.Moves s'' := by
  obtain ⟨_, _, _, _, _, _, _, rfl⟩ := h
  obtain ⟨_, _, _, _, _, _, _, rfl⟩ := h'
  exact ⟨_, _, _, _, _, _, _, rfl⟩

theorem Inflater.Moves.within (h : s.Moves s') : s.Within s' := by
  obtain ⟨_, _, _, _, _, _, _, rfl⟩ := h
  exact ⟨rfl, rfl, rfl, rfl⟩

theorem Inflater.Moves.unpacked (h : s.Moves s') (hs : s.Unpacked done out) : s'.Unpacked done out := by
  obtain ⟨_, _, _, _, _, _, _, rfl⟩ := h
  obtain ⟨⟨h₁, h₂, h₃, h₄, h₅, h₆, h₇⟩, h₈, h₉⟩ := hs
  exact ⟨⟨h₁, h₂, h₃, h₄, h₅, h₆, h₇⟩, h₈, h₉⟩

/-! ## What a call has to do -/

/-- A call of `inflate_blocks` for a stream. -/
structure Work where
  tight : Prop
  /-- the bits behind the stream -/
  rest : List Bool
  /-- all that has been unpacked at its end -/
  final : List UInt8
  future : List UInt8
  done : Nat
  start : Inflater

variable {W : Work}

/-- Behind a block. -/
def Work.Stream (W : Work) : Bool → List Huft → List UInt8 → List Bool → Prop := Inflate.Stream W.tight W.start.size W.rest W.final

/-- What follows the tables of a block. -/
def Work.Opens (W : Work) (last : Bool) (out : List UInt8) (trees : BuiltTrees) (bits : List Bool) : Prop :=
  ¬ W.tight ∧ trees.err = Z_OK ∧ ∃ ts tail, trees.coding.Spells W.tight tail ts bits ∧ Valid W.start.size out ts ∧
    W.Stream last trees.hp (expand out ts) tail

/-- What is left of the stream in the middle of a block. -/
def Work.Left (W : Work) (last : Bool) (hufts : List Huft) (out : List UInt8) (bits : List Bool) : BlocksMode → Prop
  | .type => W.Stream false hufts out bits
  | .lens => ∃ bytes bits', bits = lensBits bytes.length ++ (bytesBits bytes ++ bits') ∧ bytes.length < 65536 ∧
      W.Stream last hufts (out ++ bytes) bits'
  | .stored left => left ≠ 0 ∧ ∃ bytes bits', bits = bytesBits bytes ++ bits' ∧ bytes.length = left ∧ W.Stream last hufts (out ++ bytes) bits'
  | .table => ∃ trees bits', TableLeft hufts trees bits' bits ∧ W.Opens last out trees bits'
  | .btree table index blens => ∃ trees bits', BorderLeft table hufts trees bits' index blens bits ∧ table < 2 ^ 14 ∧
      W.Opens last out trees bits'
  | .dtree table index blens bb tb => ∃ trees bits', LengthsLeft table bb tb hufts trees bits' index blens bits ∧ bb ≤ 7 ∧
      W.Opens last out trees bits'
  | .codes c => ∃ ts tail, c.coding.Left W.tight tail c.len ts bits c.mode ∧ Valid W.start.size out ts ∧
      W.Stream last hufts (expand out ts) tail
  | .dry => out = W.final ∧ bits = W.rest
  | .done => out = W.final ∧ bits = W.rest
  | .bad => False

/-- The bits ahead are what is left of the stream. -/
structure Work.Runs (W : Work) (bits : List Bool) (out : List UInt8) (s : Inflater) : Prop where
  left : W.Left s.last s.hufts out bits s.mode
  ahead : s.Ahead W.future bits
  holds : s.Holds W.done out
  read_lt : s.read < s.size
  fits : s.Fits W.tight
  within : W.start.Within s
  progress : W.start.Progress s

/-- The order of the modes of one block. -/
def BlocksMode.weight : BlocksMode → Nat
  | .btree .. => 5
  | .dtree .. => 4
  | .codes _ => 3
  | .dry => 2
  | .done => 1
  | _ => 0

/-- At the head of a round. -/
structure Work.Head (W : Work) (bits : List Bool) (out : List UInt8) (s : Inflater) : Prop extends W.Runs bits out s where
  room : s.m = s.wavail
  flushed : s.mode = .done → s.read = s.write

/-- Where the call has left in the middle of the stream. -/
structure Work.Stays (W : Work) (bits : List Bool) (out : List UInt8) (s : Inflater) : Prop extends W.Runs bits out s where
  stuck : s.availOut = 0 ∨ s.read = s.write ∧ s.p = s.input.length ∧ s.bitk < s.mode.need
  running : s.mode ≠ .done

/-- Where the call has come to the end of the stream. -/
structure Work.Ends (W : Work) (s : Inflater) : Prop where
  ahead : s.Ahead W.future W.rest
  holds : s.Holds W.done W.final
  empty : s.waiting = 0
  within : W.start.Within s

def Work.Leaves (W : Work) (r : Int) (s : Inflater) : Prop :=
  (r = Z_STREAM_END ∧ W.Ends s) ∨ (r = s.r ∧ ∃ bits out, W.Stays bits out s)

/-- What a round with `k` rounds to go comes to. -/
def Work.Next (W : Work) (k : Nat) : Unit ⊕ Int → Inflater → Prop
  | .inl _, s => ∃ bits out, W.Head bits out s ∧ 8 * bits.length + s.mode.weight < k
  | .inr r, s => W.Leaves r s

theorem Work.Head.unpacked (hh : W.Head bits out s) : s.Unpacked W.done out := ⟨hh.holds, hh.read_lt, hh.room⟩

/-- The next round, with the output as it is. -/
theorem Work.Head.go (hh : W.Head bits out s) (hmoves : s.Moves s') (hahead : s'.Ahead W.future bits')
    (hleft : W.Left s'.last s'.hufts out bits' s'.mode) (hfits : s'.Fits W.tight) (hprogress : W.start.Progress s')
    (hdone : s'.mode ≠ .done) (hlt : 8 * bits'.length + s'.mode.weight < k) : W.Next k (.inl ()) s' := by
  obtain ⟨hholds, hread, hroom⟩ := hmoves.unpacked hh.unpacked
  exact ⟨bits', out, ⟨⟨hleft, hahead, hholds, hread, hfits, hh.within.trans hmoves.within, hprogress⟩, hroom,
    fun hn => absurd hn hdone⟩, hlt⟩

/-- `LEAVE` in the middle of the stream. -/
theorem Work.Runs.leave (hruns : W.Runs bits out s)
    (hstuck : s.availOut = 0 ∧ s.mode ≠ .done ∨ s.p = s.input.length ∧ s.bitk < s.mode.need) : Returns leaveBlocks s (W.Next k) := by
  unfold leaveBlocks
  refine (returns_LEAVE hruns.holds).bind ?_
  rintro r s' ⟨hholds, hflush, hread, hall, hr⟩
  rw [returns_pure]
  obtain ⟨hp, hk, hb⟩ := hflush.same.input
  have hsame := hflush.toSame
  have hcount := hflush.count
  have hle := hflush.le
  refine .inr ⟨hr, bits, out, ⟨?_, hflush.same.ahead hruns.ahead, hholds, hread, ?_, hruns.within.trans hsame.within,
    hflush.progress hruns.progress⟩, ?_, ?_⟩
  · rw [hsame.last, hsame.hufts, hsame.mode]
    exact hruns.left
  · unfold Inflater.Fits
    rw [hsame.mode, hp, hk, hb]
    exact hruns.fits
  · rcases hstuck with ⟨hstuck, -⟩ | ⟨hempty, hneed⟩
    · exact .inl (by omega)
    · rcases hall with hall | hall
      · exact .inl hall
      · refine .inr ⟨hall, by rw [hp, hsame.input, hempty], ?_⟩
        rw [hsame.mode, hk]
        exact hneed
  · rw [hsame.mode]
    rcases hstuck with ⟨-, hmode⟩ | ⟨-, hneed⟩
    · exact hmode
    · intro hmode
      rw [hmode] at hneed
      exact Nat.not_lt_zero _ hneed

theorem Work.Head.fits_mode {mode : BlocksMode} (hh : W.Head bits out s) (hmode : s.mode = mode) : mode.Fits W.tight s.p s.bitk s.bitb := by
  have hfits := hh.fits
  unfold Inflater.Fits at hfits
  rwa [hmode] at hfits

/-- `NEEDBITS(j)` in a round: with enough bits it goes on, otherwise it leaves. -/
theorem Work.Head.returns_NEEDBITS {f : Bool → InflateProg (Unit ⊕ Int)} (hh : W.Head bits out s) (hslack : s.Slack W.tight 8) (hj : j ≤ 15)
    (hneed : j ≤ s.mode.need) (hstay : ∀ {s' : Inflater}, s'.mode = s.mode → s'.Slack W.tight (j - 1) → s'.Fits W.tight)
    (hleave : f false = leaveBlocks)
    (hgo : ∀ s', s'.Ahead W.future bits → s.SameOutput s' → W.start.Progress s' → j ≤ s'.bitk → s'.peek j = bitsNat (bits.take j) →
      s'.Slack W.tight (max 8 (j + 7)) → Returns (f true) s' (W.Next k)) :
    Returns (NEEDBITS j >>= f) s (W.Next k) := by
  refine (returns_NEEDBITS_slack hh.ahead hslack hj).bind ?_
  rintro ok s' ⟨hahead, hfetched, henough, hempty⟩
  have hprogress := hfetched.progress hh.progress
  have hsame := hfetched.same.same
  cases ok with
  | false =>
    obtain ⟨hp, hlt, hslack'⟩ := hempty rfl
    obtain ⟨hholds, hread, -⟩ := hfetched.same.unpacked hh.unpacked
    have hruns : W.Runs bits out s' := by
      refine ⟨?_, hahead, hholds, hread, hstay hsame.mode hslack', hh.within.trans hsame.within, hprogress⟩
      rw [hsame.last, hsame.hufts, hsame.mode]
      exact hh.left
    rw [hleave]
    exact hruns.leave (.inr ⟨hp, by rw [hsame.mode]; omega⟩)
  | true =>
    obtain ⟨hk, hpeek, hslack', -⟩ := henough rfl
    exact hgo s' hahead hfetched.same hprogress hk hpeek hslack'

@[simp] theorem returns_setMode (mode : BlocksMode) (s : Inflater) (Q : Unit ⊕ Int → Inflater → Prop) :
    Returns (setMode mode) s Q ↔ Q (.inl ()) { s with mode := mode } := by
  unfold setMode
  rw [returns_bind, returns_modify, returns_pure]

theorem Inflater.Ahead.moves {s' : Inflater} (h : s.Ahead future bits) (hinput : s'.input = s.input) (hp : s'.p = s.p) (hk : s'.bitk = s.bitk)
    (hb : s'.bitb = s.bitb) : s'.Ahead future bits := by
  obtain ⟨h₁, h₂, h₃⟩ := h
  exact ⟨by rwa [hinput, hp], by rwa [hinput, hp, hk], by rwa [hb, hk]⟩

/-! ## The modes -/

theorem dvd_length_bytesBits (bytes : List UInt8) (h : 8 ∣ bits.length) : 8 ∣ (bytesBits bytes ++ bits).length := by
  rw [List.length_append, length_bytesBits]
  exact Nat.dvd_add (Nat.dvd_mul_right 8 _) h

theorem length_lensBits (n : Nat) : (lensBits n).length = 32 := by
  rw [lensBits, List.length_append, length_natBits, length_natBits]

/-- The bits up to a whole byte of the input. -/
theorem Inflater.Ahead.padding {pad : List Bool} (h : s.Ahead future (pad ++ bits)) (hpad : pad.length < 8) (halign : 8 ∣ bits.length) :
    pad.length = s.bitk &&& 7 ∧ s.bitk &&& 7 ≤ s.bitk := by
  obtain ⟨buffered, hlen, hbits⟩ := h.split
  have htotal := congrArg List.length hbits
  rw [List.length_append, List.length_append, length_bytesBits, hlen] at htotal
  have hmod : s.bitk &&& 7 = s.bitk % 8 := Nat.and_two_pow_sub_one_eq_mod s.bitk 3
  rw [hmod]
  omega

theorem bitsNat_header (last b₁ b₂ : Bool) (bits : List Bool) :
    bitsNat ((last :: b₁ :: b₂ :: bits).take 3) = last.toNat + 2 * (b₁.toNat + 2 * b₂.toNat) := by
  simp [bitsNat]

theorem header_type : ∀ last b₁ b₂ : Bool, (last.toNat + 2 * (b₁.toNat + 2 * b₂.toNat)) >>> 1 = b₁.toNat + 2 * b₂.toNat ∧
    decide ((last.toNat + 2 * (b₁.toNat + 2 * b₂.toNat)) &&& 1 ≠ 0) = last := by decide

theorem Work.Head.type (hh : W.Head bits out s) (hmode : s.mode = .type) :
    Returns (blocksRound fuel ()) s (W.Next (8 * bits.length + s.mode.weight)) := by
  have hleft := hh.left
  have hslack : s.Slack W.tight 8 := hh.fits_mode hmode
  rw [hmode] at hleft
  unfold blocksRound
  rw [returns_bind, returns_get]
  simp only [hmode]
  refine hh.returns_NEEDBITS hslack (by decide) (by rw [hmode]; exact Nat.le_refl _) (fun hsame hslack' => ?_) rfl
    fun s' hahead hsame hprogress hk hpeek hslack' => ?_
  · unfold Inflater.Fits
    rw [hsame, hmode]
    exact hslack'.mono fun _ => by decide
  rw [if_pos rfl, returns_bind, returns_get, hpeek, returns_bind, returns_modify]
  have hdump := hahead.dump hk
  have hslack₃ := hslack'.dump 3
  have hhufts := hsame.same.hufts
  cases hleft with
  | @stored last _ _ bytes pad bits' hpad halign hbytes hnext =>
    rw [bitsNat_header, (header_type last false false).1, (header_type last false false).2, if_pos (by decide)]
    rw [show (last :: false :: false :: (pad ++ (lensBits bytes.length ++ (bytesBits bytes ++ bits')))).drop 3 =
      pad ++ (lensBits bytes.length ++ (bytesBits bytes ++ bits')) from rfl] at hdump
    have halign' : 8 ∣ (lensBits bytes.length ++ (bytesBits bytes ++ bits')).length := by
      rw [List.length_append, length_lensBits]
      exact Nat.dvd_add (by decide) (dvd_length_bytesBits bytes halign)
    obtain ⟨hlen, hle⟩ := hdump.padding hpad halign'
    have hdump' := hdump.dump hle
    rw [List.drop_left' hlen] at hdump'
    have hmod : (s'.dumped 3).bitk &&& 7 = (s'.dumped 3).bitk % 8 := Nat.and_two_pow_sub_one_eq_mod _ 3
    have hbound := hslack₃.1
    simp only [returns_bind, returns_get, returns_DUMPBITS, returns_setMode]
    refine hh.go (hsame.moves.trans ⟨_, last, _, _, _, _, _, rfl⟩) (hdump'.moves rfl rfl rfl rfl) ⟨bytes, bits', rfl, hbytes, ?_⟩ ?_
      hprogress (by simp) ?_
    · rw [← hhufts] at hnext
      exact hnext
    · change (s'.dumped 3).bitk - ((s'.dumped 3).bitk &&& 7) ≤ 32 ∧ 8 ∣ (s'.dumped 3).bitk - ((s'.dumped 3).bitk &&& 7)
      rw [hmod]
      omega
    · change 8 * (lensBits bytes.length ++ (bytesBits bytes ++ bits')).length + 0 < _
      simp only [List.length_cons, List.length_append]
      omega
  | @fixed last _ _ ts bits' tail hspells hvalid hnext =>
    rw [bitsNat_header, (header_type last true false).1, (header_type last true false).2, if_neg (by decide), if_pos (by decide)]
    simp only [returns_bind, returns_DUMPBITS, returns_setMode]
    refine hh.go (hsame.moves.trans ⟨_, last, _, _, _, _, _, rfl⟩) (hdump.moves rfl rfl rfl rfl) ⟨ts, tail, hspells, hvalid, ?_⟩
      (hslack₃.mono fun _ => by decide) hprogress (by simp) ?_
    · rw [← hhufts] at hnext
      exact hnext
    · change 8 * bits'.length + 3 < 8 * (bits'.length + 1 + 1 + 1) + 0
      omega
  | @dynamic last _ _ trees ts bits' bits'' tail hfree htable herr hspells hvalid hnext =>
    rw [bitsNat_header, (header_type last false true).1, (header_type last false true).2, if_neg (by decide), if_neg (by decide),
      if_pos (by decide)]
    simp only [returns_bind, returns_DUMPBITS, returns_setMode]
    refine hh.go (hsame.moves.trans ⟨_, last, _, _, _, _, _, rfl⟩) (hdump.moves rfl rfl rfl rfl)
      ⟨trees, bits'', ?_, hfree, herr, ts, tail, hspells, hvalid, hnext⟩ (hslack₃.mono fun hyp => absurd hyp hfree) hprogress (by simp) ?_
    · rw [← hhufts] at htable
      exact htable
    · change 8 * bits'.length + 0 < 8 * (bits'.length + 1 + 1 + 1) + 0
      omega

/-- The mode behind a block. -/
theorem Work.left_next {last : Bool} {hufts : List Huft} (h : W.Stream last hufts out bits) :
    W.Left last hufts out bits (if last then .dry else .type) := by
  cases last with
  | true =>
    cases h with
    | done => exact ⟨rfl, rfl⟩
  | false => exact h

theorem weight_next (last : Bool) : (if last then BlocksMode.dry else .type).weight ≤ 2 := by
  cases last <;> decide

/-- `inflate_blocks` sees the length and its complement. -/
theorem bitsNat_lensBits {n : Nat} (h : n < 65536) : bitsNat (lensBits n) = n + 65536 * (65535 - n) := by
  rw [lensBits, bitsNat_append, bitsNat_natBits, bitsNat_natBits, length_natBits]
  omega

theorem lens_complement {b n : Nat} (hn : n < 65536) (hb : b % 2 ^ 32 = n + 65536 * (65535 - n)) :
    ((~~~BitVec.ofNat 64 b) >>> 16) &&& 0xffff = BitVec.ofNat 64 b &&& 0xffff ∧ b &&& 0xffff = n := by
  have hmask : ∀ x : BitVec 64, (x &&& 0xffff).toNat = x.toNat % 65536 := fun x => by
    rw [BitVec.toNat_and]
    exact Nat.and_two_pow_sub_one_eq_mod _ 16
  constructor
  · apply BitVec.eq_of_toNat_eq
    rw [hmask, hmask, BitVec.toNat_ushiftRight, BitVec.toNat_not, BitVec.toNat_ofNat, Nat.shiftRight_eq_div_pow]
    obtain ⟨m, hm⟩ : ∃ m, n + m = 65535 := ⟨65535 - n, by omega⟩
    rw [show 65535 - n = m by omega] at hb
    simp only [Nat.reducePow] at hb ⊢
    -- The bits above the two words, and their complement.
    obtain ⟨q, q', hq, hsplit⟩ : ∃ q q', q + q' = 4294967295 ∧ b % 18446744073709551616 = 4294967296 * q + (n + 65536 * m) :=
      ⟨b % 18446744073709551616 / 4294967296, 4294967295 - b % 18446744073709551616 / 4294967296, by omega, by omega⟩
    have hnot : 18446744073709551616 - 1 - b % 18446744073709551616 = 65536 * (65536 * q' + n) + m := by omega
    rw [hnot, hsplit, Nat.mul_add_div (by decide), Nat.div_eq_of_lt (by omega)]
    omega
  · rw [show b &&& 0xffff = b % 65536 from Nat.and_two_pow_sub_one_eq_mod _ 16]
    omega

theorem Work.Head.lens (hh : W.Head bits out s) (hmode : s.mode = .lens) :
    Returns (blocksRound fuel ()) s (W.Next (8 * bits.length + s.mode.weight)) := by
  have hleft := hh.left
  have hfits := hh.fits_mode hmode
  rw [hmode] at hleft
  obtain ⟨bytes, bits', rfl, hbytes, hnext⟩ := hleft
  unfold blocksRound
  rw [returns_bind, returns_get]
  simp only [hmode]
  refine (Inflate.returns_NEEDBITS hh.ahead 32).bind ?_
  rintro ok s' ⟨hahead, hfetched, hcount, henough, hempty⟩
  have hprogress := hfetched.progress hh.progress
  have hsame := hfetched.same.same
  have hle := hfetched.le
  obtain ⟨hk, hdvd⟩ := hfits
  have hdvd' : 8 ∣ s'.bitk := by omega
  cases ok with
  | false =>
    obtain ⟨hp, hlt⟩ := hempty rfl
    obtain ⟨hholds, hread, -⟩ := hfetched.same.unpacked hh.unpacked
    have hruns : W.Runs (lensBits bytes.length ++ (bytesBits bytes ++ bits')) out s' := by
      refine ⟨?_, hahead, hholds, hread, ?_, hh.within.trans hsame.within, hprogress⟩
      · rw [hsame.last, hsame.hufts, hsame.mode]
        exact hh.left
      · unfold Inflater.Fits
        rw [hsame.mode, hmode]
        exact ⟨Nat.le_of_lt hlt, hdvd'⟩
    have hleave := hruns.leave (k := 8 * (lensBits bytes.length ++ (bytesBits bytes ++ bits')).length + BlocksMode.lens.weight)
      (.inr ⟨hp, by rw [hsame.mode, hmode]; exact hlt⟩)
    exact hleave
  | true =>
    obtain ⟨hk', hexact⟩ := henough rfl
    have h32 : s'.bitk = 32 := by omega
    have hpeek := hahead.peek hk'
    rw [List.take_left' (length_lensBits _), bitsNat_lensBits hbytes, Inflater.peek, Nat.one_shiftLeft] at hpeek
    obtain ⟨hcompl, hlow⟩ := lens_complement hbytes hpeek
    have hahead' : ({ s' with bitb := 0, bitk := 0 } : Inflater).Ahead W.future (bytesBits bytes ++ bits') := by
      obtain ⟨hread, ⟨carry, d, hd, hdrop⟩, -⟩ := hahead
      refine ⟨hread, ⟨carry, d + 32, ?_, ?_⟩, 0, Nat.le_refl _, rfl⟩
      · change d + 32 + 0 = carry.length + 8 * s'.p
        omega
      · rw [← List.drop_drop, ← hdrop, List.drop_left' (length_lensBits _)]
    have hlen : (lensBits bytes.length ++ (bytesBits bytes ++ bits')).length = 32 + (bytesBits bytes ++ bits').length := by
      rw [List.length_append, length_lensBits]
    simp only [if_true, returns_bind, returns_get, hcompl, ne_eq, not_true_eq_false, if_false, hlow, returns_modify]
    have hnext' : W.Stream s'.last s'.hufts (out ++ bytes) bits' := by
      rw [hsame.last, hsame.hufts]
      exact hnext
    by_cases hzero : bytes.length = 0
    · rw [if_neg (not_not_intro hzero)]
      simp only [returns_bind, returns_get, returns_setMode]
      have hnil : bytes = [] := List.eq_nil_of_length_eq_zero hzero
      subst hnil
      rw [List.append_nil] at hnext'
      refine hh.go (hfetched.same.moves.trans ⟨_, _, _, _, _, _, _, rfl⟩) (hahead'.moves rfl rfl rfl rfl) (W.left_next hnext') ?_ hprogress ?_ ?_
      · exact s'.next_fits _ _
      · unfold Inflater.next
        cases s'.last <;> simp
      · have hweight := weight_next s'.last
        rw [hlen]
        change 8 * bits'.length + (if s'.last then BlocksMode.dry else .type).weight < 8 * (32 + bits'.length) + 0
        omega
    · rw [if_pos hzero, returns_setMode]
      refine hh.go (hfetched.same.moves.trans ⟨_, _, _, _, _, _, _, rfl⟩) (hahead'.moves rfl rfl rfl rfl)
        ⟨hzero, bytes, bits', rfl, rfl, hnext'⟩ ⟨rfl, rfl⟩ hprogress (by simp) ?_
      rw [hlen]
      change 8 * _ + 0 < 8 * (32 + _) + 0
      omega

/-- With no bits in the buffer, the next bytes of a stored block are those of the input. -/
theorem Inflater.Ahead.take_input {bytes : List UInt8} {t : Nat} (hahead : s.Ahead future (bytesBits bytes ++ bits)) (hk : s.bitk = 0)
    (hbytes : t ≤ bytes.length) (hinput : t ≤ s.input.length - s.p) : (s.input.drop s.p).take t = bytes.take t := by
  obtain ⟨buffered, hlen, hbits⟩ := hahead.split
  have hnil : buffered = [] := List.eq_nil_of_length_eq_zero (by rw [hlen, hk])
  have htake := congrArg (List.take (8 * t)) hbits
  rw [hnil, List.nil_append, bytesBits_append, List.take_append_of_le_length (by rw [length_bytesBits]; omega),
    List.take_append_of_le_length (by rw [length_bytesBits, List.length_drop]; omega), take_bytesBits, take_bytesBits] at htake
  exact (bytesBits_inj htake).symm

theorem Inflater.Ahead.skip {bytes : List UInt8} {t : Nat} (hahead : s.Ahead future (bytesBits bytes ++ bits)) (hk : s.bitk = 0)
    (hb : s.bitb = 0) (hbytes : t ≤ bytes.length) (hread : s.p + t ≤ s.input.length) :
    ({ s with p := s.p + t } : Inflater).Ahead future (bytesBits (bytes.drop t) ++ bits) := by
  obtain ⟨-, ⟨carry, d, hd, hdrop⟩, -⟩ := hahead
  refine ⟨hread, ⟨carry, d + 8 * t, ?_, ?_⟩, 0, Nat.le_of_eq hk, hb⟩
  · change d + 8 * t + s.bitk = carry.length + 8 * (s.p + t)
    omega
  · rw [← List.drop_drop, ← hdrop, List.drop_append_of_le_length (by rw [length_bytesBits]; omega), drop_bytesBits]

/-- Behind the copy of `piece` from the input to the window, in a mode that asks for no bits. -/
theorem Work.Head.copied {mode : BlocksMode} {piece : List UInt8} {t : Nat} (hh : W.Head bits out s)
    (hroom : s.Roomed W.done out true s') (hlen : piece.length = t) (hm : t ≤ s'.m)
    (hahead : ({ s' with p := s'.p + t } : Inflater).Ahead W.future bits') (hleft : W.Left s'.last s'.hufts (out ++ piece) bits' mode)
    (hk : s'.bitk = 0) (hb : s'.bitb = 0) (hfits : mode.Fits W.tight (s'.p + t) 0 0) (hdone : mode ≠ .done)
    (hlt : 8 * bits'.length + mode.weight < k) :
    Returns (setMode mode)
      { s' with window := memcpy s'.window s'.write piece, p := s'.p + t, write := s'.write + t, m := s'.m - t } (W.Next k) := by
  subst hlen
  obtain ⟨-, hr⟩ := hroom.room rfl
  have hfits' : mode.Fits W.tight (s'.p + piece.length) s'.bitk s'.bitb := by
    rw [hk, hb]
    exact hfits
  obtain ⟨⟨h₁, h₂, h₃, h₄, h₅, h₆, h₇⟩, hread, hroom'⟩ := hroom.unpacked.put hm
  have hsize := hroom.unpacked.size_put hm
  rw [returns_setMode]
  exact ⟨bits', out ++ piece, ⟨⟨hleft, hahead.moves rfl rfl rfl rfl, ⟨h₁, h₂, h₃, h₄, h₅, h₆, h₇⟩, hread, hfits',
    (hh.within.trans hroom.toSame.within).trans ⟨rfl, rfl, hsize, rfl⟩, .inl hr⟩, hroom', fun hn => absurd hn hdone⟩, hlt⟩

/-- Bytes of a stored block. -/
theorem Work.Head.stored {left : Nat} (hh : W.Head bits out s) (hmode : s.mode = .stored left) :
    Returns (blocksRound fuel ()) s (W.Next (8 * bits.length + s.mode.weight)) := by
  have hleft := hh.left
  have hfits := hh.fits_mode hmode
  rw [hmode] at hleft
  obtain ⟨hpos, bytes, bits', rfl, rfl, hnext⟩ := hleft
  obtain ⟨hk, hb⟩ := hfits
  have hread := hh.ahead.read
  unfold blocksRound
  rw [returns_bind, returns_get]
  simp only [hmode, returns_bind, returns_get]
  by_cases hempty : s.input.length - s.p = 0
  · rw [if_pos hempty]
    have hleave := hh.toRuns.leave (k := 8 * (bytesBits bytes ++ bits').length + BlocksMode.weight (.stored bytes.length))
      (.inr ⟨by omega, by rw [hmode, hk]; exact Nat.one_pos⟩)
    exact hleave
  rw [if_neg hempty, returns_bind]
  refine (returns_NEEDOUT hh.unpacked).mono ?_
  intro ok s' hroom
  obtain ⟨hp', hk', hb'⟩ := hroom.same.input
  have hahead := hroom.same.ahead hh.ahead
  have hsame := hroom.toSame
  cases ok with
  | false =>
    have hruns : W.Runs (bytesBits bytes ++ bits') out s' := by
      refine ⟨?_, hahead, hroom.unpacked.toHolds, hroom.unpacked.read_lt, ?_, hh.within.trans hsame.within, hroom.progress hh.progress⟩
      · rw [hsame.last, hsame.hufts, hsame.mode]
        exact hh.left
      · unfold Inflater.Fits
        rw [hsame.mode, hmode, hk', hb']
        exact ⟨hk, hb⟩
    have hleave := hruns.leave (k := 8 * (bytesBits bytes ++ bits').length + BlocksMode.weight (.stored bytes.length))
      (.inl ⟨(hroom.full rfl).1, by rw [hsame.mode, hmode]; simp⟩)
    exact hleave
  | true =>
    obtain ⟨hm, -⟩ := hroom.room rfl
    rw [if_pos rfl, returns_bind, returns_get]
    have hk₀ := hk'.trans hk
    have hb₀ := hb'.trans hb
    -- what is left of the block, of the input and of the room in the window bounds the copy; none of them is 0
    generalize ht : min (min bytes.length (s'.input.length - s'.p)) s'.m = t
    have hinput : s'.input.length - s'.p ≠ 0 := by rwa [hsame.input, hp']
    have hpiece := hahead.take_input (t := t) hk₀ (by omega) (by omega)
    have hskip := hahead.skip (t := t) hk₀ hb₀ (by omega) (by omega)
    have hlen : (bytes.take t).length = t := by
      rw [List.length_take]
      omega
    have hlt : ∀ {mode : BlocksMode}, mode.weight ≤ 2 → 8 * (bytesBits (bytes.drop t) ++ bits').length + mode.weight <
        8 * (bytesBits bytes ++ bits').length + BlocksMode.weight (.stored bytes.length) := by
      intro mode hweight
      rw [List.length_append, List.length_append, length_bytesBits, length_bytesBits, List.length_drop]
      change _ + mode.weight < _ + 0
      omega
    rw [hpiece, returns_bind, returns_set]
    by_cases hmore : bytes.length - t = 0
    · have hall : bytes.take t = bytes := List.take_of_length_le (by omega)
      have hnone : bytes.drop t = [] := List.drop_eq_nil_of_le (by omega)
      rw [if_neg (not_not_intro hmore), returns_bind, returns_get]
      refine hh.copied hroom hlen (by omega) hskip ?_ hk₀ hb₀ (s'.next_fits _ _) ?_ (hlt (weight_next s'.last))
      · rw [hall, hnone, hsame.last, hsame.hufts]
        exact W.left_next hnext
      · unfold Inflater.next
        cases s'.last <;> simp
    · rw [if_pos hmore]
      refine hh.copied hroom hlen (by omega) hskip ⟨hmore, bytes.drop t, bits', rfl, List.length_drop, ?_⟩ hk₀ hb₀ ⟨rfl, rfl⟩ (by simp)
        (hlt (Nat.zero_le _))
      rw [List.append_assoc, List.take_append_drop, hsame.last, hsame.hufts]
      exact hnext

/-- `LEAVE` at the end of the stream. -/
theorem Work.Head.finish (hh : W.Head bits out s) (hmode : s.mode = .done) : Returns (blocksRound fuel ()) s (W.Next k) := by
  have hleft := hh.left
  have hflushed := hh.flushed hmode
  rw [hmode] at hleft
  obtain ⟨hout, hbits⟩ := hleft
  unfold blocksRound
  rw [returns_bind, returns_get]
  simp only [hmode, returns_bind, returns_modify]
  obtain ⟨h₁, h₂, h₃, h₄, h₅, h₆, h₇⟩ := hh.holds
  have hholds₀ : ({ s with mode := .done, r := Z_STREAM_END } : Inflater).Holds W.done out := ⟨h₁, h₂, h₃, h₄, h₅, h₆, h₇⟩
  have hwithin : W.start.Within { s with mode := .done, r := Z_STREAM_END } := hh.within.trans ⟨rfl, rfl, rfl, rfl⟩
  unfold leaveBlocks
  refine (returns_LEAVE hholds₀).bind ?_
  rintro r s' ⟨hholds, hflush, hread, -, hr⟩
  rw [returns_pure]
  refine .inl ⟨?_, ?_, hout ▸ hholds, ?_, hwithin.trans hflush.toSame.within⟩
  · rcases hflush.r with ⟨-, hsame⟩ | ⟨-, hsame⟩
    · exact hr.trans hsame
    · exact hr.trans hsame
  · exact hbits ▸ hflush.same.ahead (hh.ahead.moves rfl rfl rfl rfl)
  · have hwait := Inflater.waiting_eq_zero hflushed
    have hcount := hholds.count
    have hle : s.nextOut.length ≤ s'.nextOut.length := hflush.le
    omega

theorem Work.Head.dry (hh : W.Head bits out s) (hmode : s.mode = .dry) :
    Returns (blocksRound fuel ()) s (W.Next (8 * bits.length + s.mode.weight)) := by
  have hleft := hh.left
  have hfits := hh.fits_mode hmode
  rw [hmode] at hleft
  unfold blocksRound
  rw [returns_bind, returns_get]
  simp only [hmode]
  refine (returns_FLUSH hh.holds).bind ?_
  rintro _ s' ⟨hunpacked, hflush, hall⟩
  obtain ⟨hp, hk, hb⟩ := hflush.same.input
  have hsame := hflush.toSame
  have hahead := hflush.same.ahead hh.ahead
  have hprogress := hflush.progress hh.progress
  simp only [returns_bind, returns_get]
  by_cases hread : s'.read = s'.write
  · obtain ⟨⟨h₁, h₂, h₃, h₄, h₅, h₆, h₇⟩, hread', hroom⟩ := hunpacked
    rw [if_neg (not_not_intro hread), returns_setMode]
    refine ⟨bits, out, ⟨⟨hleft, hahead.moves rfl rfl rfl rfl, ⟨h₁, h₂, h₃, h₄, h₅, h₆, h₇⟩, hread', ?_, ?_, hprogress⟩, hroom,
      fun _ => hread⟩, Nat.lt_succ_self _⟩
    · unfold Inflater.Fits
      change BlocksMode.Fits W.tight s'.p s'.bitk s'.bitb .done
      rw [hp, hk, hb]
      exact hfits
    · exact (hh.within.trans hsame.within).trans ⟨rfl, rfl, rfl, rfl⟩
  · have hruns : W.Runs bits out s' := by
      refine ⟨?_, hahead, hunpacked.toHolds, hunpacked.read_lt, ?_, hh.within.trans hsame.within, hprogress⟩
      · rw [hsame.last, hsame.hufts, hsame.mode]
        exact hh.left
      · unfold Inflater.Fits
        rw [hsame.mode, hmode, hp, hk, hb]
        exact hfits
    rw [if_pos hread]
    have hleave := hruns.leave (k := 8 * bits.length + BlocksMode.dry.weight) (.inl ⟨hall.resolve_right hread, by rw [hsame.mode, hmode]; simp⟩)
    exact hleave

/-! ## Blocks with codes -/

theorem CodesMode.weight_le (mode : CodesMode) : mode.weight ≤ 3 := by
  cases mode <;> simp [CodesMode.weight]

/-- A call of `inflate_codes` for what is left of a block. -/
theorem Work.Head.codes {c : Codes} (hh : W.Head bits out s) (hmode : s.mode = .codes c) (hfuel : 4 * bits.length + 3 < fuel) :
    Returns (blocksRound fuel ()) s (W.Next (8 * bits.length + s.mode.weight)) := by
  have hleft := hh.left
  have hslack := hh.fits_mode hmode
  rw [hmode] at hleft
  obtain ⟨ts, tail, hleft, hvalid, hnext⟩ := hleft
  have htail := hleft.tail_le
  let C : Call := ⟨c.coding, W.tight, tail, expand out ts, W.future, W.done,
    { s with p := W.start.p, nextOut := W.start.nextOut, availOut := W.start.availOut }⟩
  have hhead : C.Head bits out ts c s :=
    ⟨⟨rfl, hleft, hh.ahead, hh.holds, hh.read_lt, hh.within.size ▸ hvalid, rfl, ⟨rfl, rfl, rfl, rfl, rfl, rfl, hh.within.count⟩⟩, hh.room,
      Inflater.Slack.safe hslack, .inr hh.progress⟩
  have hweight := c.mode.weight_le
  unfold blocksRound
  rw [returns_bind, returns_get]
  simp only [hmode]
  refine (returns_inflateCodes hhead (by omega)).bind ?_
  rintro ⟨c', r⟩ s' hleaves
  simp only [returns_bind, returns_modify]
  rcases hleaves with ⟨rfl, hends⟩ | ⟨hr, bits', out', ts', hstays⟩
  · have hlast : s'.last = s.last := hends.same.last
    have hhufts : s'.hufts = s.hufts := hends.same.hufts
    obtain ⟨h₁, h₂, h₃, h₄, h₅, h₆, h₇⟩ := hends.holds
    simp only [ne_eq, not_true_eq_false, if_false, returns_bind, returns_modify, returns_get, returns_setMode]
    refine ⟨tail, expand out ts, ⟨⟨?_, hends.ahead.moves rfl rfl rfl rfl, ⟨h₁, h₂, h₃, h₄, h₅, h₆, h₇⟩, hends.read_lt, ?_, ?_, .inl rfl⟩,
      rfl, ?_⟩, ?_⟩
    · have hnext' : W.Stream s'.last s'.hufts (expand out ts) tail := by
        rw [hlast, hhufts]
        exact hnext
      exact W.left_next hnext'
    · have hslack' := hends.slack
      unfold Inflater.Fits Inflater.next
      cases s'.last <;> exact hslack'
    · exact ⟨hends.same.input.trans hh.within.input, hends.same.streamMode.trans hh.within.streamMode,
        hends.same.size.trans hh.within.size, hends.same.count⟩
    · intro hdone
      unfold Inflater.next at hdone
      cases hlast : s'.last <;> simp [hlast] at hdone
    · have hnext := weight_next s'.last
      change 8 * tail.length + (if s'.last then BlocksMode.dry else .type).weight < 8 * bits.length + 3
      omega
  · have hr : r = s'.r := hr
    have hne : r ≠ Z_STREAM_END := by
      rcases hstays.progress with hok | ⟨hbuf, -⟩
      · rw [hr, hok]
        decide
      · rw [hr, hbuf]
        decide
    obtain ⟨h₁, h₂, h₃, h₄, h₅, h₆, h₇⟩ := hstays.holds
    have hruns : W.Runs bits' out' { s' with mode := .codes c', r := r } := by
      refine ⟨⟨ts', tail, ?_, ?_, ?_⟩, hstays.ahead.moves rfl rfl rfl rfl, ⟨h₁, h₂, h₃, h₄, h₅, h₆, h₇⟩, hstays.read_lt, hstays.slack, ?_, ?_⟩
      · rw [hstays.coding]
        exact hstays.left
      · rw [← hh.within.size, ← show s'.size = s.size from hstays.same.size]
        exact hstays.valid
      · rw [hstays.final]
        change W.Stream s'.last s'.hufts (expand out ts) tail
        rw [show s'.last = s.last from hstays.same.last, show s'.hufts = s.hufts from hstays.same.hufts]
        exact hnext
      · exact ⟨hstays.same.input.trans hh.within.input, hstays.same.streamMode.trans hh.within.streamMode,
          hstays.same.size.trans hh.within.size, hstays.same.count⟩
      · have hprogress := hstays.progress
        rw [hr]
        exact hprogress
    rw [if_pos hne]
    exact hruns.leave (hstays.stuck.imp (fun hstuck => ⟨hstuck, by simp⟩) And.right)

/-! ## Blocks with codes of their own -/

theorem Work.Head.table (hh : W.Head bits out s) (hmode : s.mode = .table) :
    Returns (blocksRound fuel ()) s (W.Next (8 * bits.length + s.mode.weight)) := by
  have hleft := hh.left
  have hslack : s.Slack W.tight 8 := hh.fits_mode hmode
  rw [hmode] at hleft
  obtain ⟨trees, rest, ⟨table, bits', rfl, htable, hl, hd, hborder⟩, hopens⟩ := hleft
  have hfree := hopens.1
  unfold blocksRound
  rw [returns_bind, returns_get]
  simp only [hmode]
  refine hh.returns_NEEDBITS hslack (by decide) (by rw [hmode]; exact Nat.le_refl _) (fun hsame hslack' => ?_) rfl
    fun s' hahead hsame hprogress hk hpeek hslack' => ?_
  · unfold Inflater.Fits
    rw [hsame, hmode]
    exact hslack'.mono fun hyp => absurd hyp hfree
  have hdump := hahead.dump hk
  rw [List.take_left' length_natBits, bitsNat_natBits, Nat.mod_eq_of_lt htable] at hpeek
  rw [List.drop_left' length_natBits] at hdump
  rw [if_pos rfl, returns_bind, returns_get, hpeek, if_neg (by omega), returns_bind, returns_DUMPBITS, returns_setMode]
  refine hh.go (hsame.moves.trans ⟨_, _, _, _, _, _, _, rfl⟩) (hdump.moves rfl rfl rfl rfl) ⟨trees, rest, ?_, htable, ?_⟩
    ((hslack'.dump 14).mono fun hyp => absurd hyp hfree) hprogress (by simp) ?_
  · change BorderLeft table s'.hufts trees rest 0 _ bits'
    rw [hsame.same.hufts]
    exact hborder
  · change W.Opens s'.last out trees rest
    rw [hsame.same.last]
    exact hopens
  · rw [List.length_append, length_natBits]
    change 8 * bits'.length + 5 < 8 * (14 + bits'.length) + 0
    omega

/-- The lengths of the codes of lengths, as far as there are bits for them. -/
theorem returns_readBorder {table index : Nat} {lens blens : List Nat} {bits' : List Bool}
    (hahead : s.Ahead future (lens.flatMap (natBits 3) ++ bits')) (hlens : ∀ n ∈ lens, n < 8) (hindex : index + lens.length = 4 + table >>> 10)
    (hfuel : lens.length < fuel) (hslack : s.Slack tight 10) (hprogress : s₀.Progress s) :
    Returns (readBorder table fuel index blens) s fun x s' => s.SameOutput s' ∧ s₀.Progress s' ∧ s'.Slack tight 10 ∧
      ∃ lens', s'.Ahead future (lens'.flatMap (natBits 3) ++ bits') ∧ (∀ n ∈ lens', n < 8) ∧ x.2.1 + lens'.length = 4 + table >>> 10 ∧
        setBorder x.2.1 lens' x.2.2 = setBorder index lens blens ∧ lens'.length ≤ lens.length ∧
        (x.1 = true → lens' = []) ∧ (x.1 = false → s'.p = s'.input.length ∧ s'.bitk < 3) := by
  induction fuel generalizing s index lens blens with
  | zero => exact absurd hfuel (Nat.not_lt_zero _)
  | succ fuel ih =>
    unfold readBorder
    cases lens with
    | nil =>
      rw [if_neg (show ¬ index < 4 + table >>> 10 by rw [List.length_nil] at hindex; omega), returns_pure]
      exact ⟨.refl s, hprogress, hslack, [], hahead, hlens, hindex, rfl, Nat.le_refl _, fun _ => rfl, fun hn => Bool.noConfusion hn⟩
    | cons n lens =>
      rw [List.length_cons] at hindex hfuel
      rw [if_pos (by omega)]
      refine (returns_NEEDBITS_slack hahead hslack (by decide)).bind ?_
      rintro ok s' ⟨hahead', hfetched, henough, hempty⟩
      cases ok with
      | false =>
        obtain ⟨hp, hlt, hslack'⟩ := hempty rfl
        rw [if_neg Bool.false_ne_true, returns_pure]
        exact ⟨hfetched.same, hfetched.progress hprogress, hslack'.mono fun _ => by decide, n :: lens, hahead', hlens, hindex, rfl,
          Nat.le_refl _, fun hn => Bool.noConfusion hn, fun _ => ⟨hp, hlt⟩⟩
      | true =>
        obtain ⟨hk, hpeek, hslack', -⟩ := henough rfl
        have hbits : (n :: lens).flatMap (natBits 3) ++ bits' = natBits 3 n ++ (lens.flatMap (natBits 3) ++ bits') := by
          rw [List.flatMap_cons, List.append_assoc]
        have hdump := hahead'.dump hk
        rw [hbits, List.drop_left' length_natBits] at hdump
        rw [hbits, List.take_left' length_natBits, bitsNat_natBits, Nat.mod_eq_of_lt (show n < 2 ^ 3 from hlens n List.mem_cons_self)] at hpeek
        rw [if_pos rfl, returns_bind, returns_get, hpeek, returns_bind, returns_DUMPBITS]
        refine Returns.mono (ih hdump (fun m hm => hlens m (List.mem_cons_of_mem n hm)) (by omega) (by omega)
          ((hslack'.dump 3).mono fun _ => by decide) (hfetched.progress hprogress)) ?_
        rintro x s'' ⟨hsame, hprogress', hslack'', lens', hahead'', hlens', hindex', hset, hle, hdone, hstuck⟩
        refine ⟨(hfetched.same.trans (sameOutput_dumped s' 3)).trans hsame, hprogress', hslack'', lens', hahead'', hlens', hindex', ?_,
          Nat.le_succ_of_le hle, hdone, hstuck⟩
        rw [hset, setBorder, setBorder, List.zipIdx_cons, List.foldl_cons]

theorem Work.Head.btree {table index : Nat} {blens : List Nat} (hh : W.Head bits out s) (hmode : s.mode = .btree table index blens) :
    Returns (blocksRound fuel ()) s (W.Next (8 * bits.length + s.mode.weight)) := by
  have hleft := hh.left
  have hslack : s.Slack W.tight 8 := hh.fits_mode hmode
  rw [hmode] at hleft
  obtain ⟨trees, rest, ⟨lens, bits', rfl, hlens, hindex, herr, hm, hlengths⟩, htable, hopens⟩ := hleft
  have hfree := hopens.1
  have hfew : lens.length < BMAX + 5 := by
    rw [Nat.shiftRight_eq_div_pow] at hindex
    change lens.length < 20
    omega
  unfold blocksRound
  rw [returns_bind, returns_get]
  simp only [hmode]
  refine (returns_readBorder hh.ahead hlens hindex hfew (hslack.mono fun _ => by decide) hh.progress).bind ?_
  rintro ⟨ok, index', blens'⟩ s' ⟨hsame, hprogress, hslack', lens', hahead, hlens', hindex', hset, hle, hdone, hstuck⟩
  have hfits : s'.Slack W.tight 8 := hslack'.mono fun hyp => absurd hyp hfree
  have hlast := hsame.same.last
  have hhufts := hsame.same.hufts
  cases ok with
  | false =>
    obtain ⟨hp, hk⟩ := hstuck rfl
    obtain ⟨⟨h₁, h₂, h₃, h₄, h₅, h₆, h₇⟩, hread, -⟩ := hsame.unpacked hh.unpacked
    have hruns : W.Runs (lens'.flatMap (natBits 3) ++ bits') out { s' with mode := .btree table index' blens' } := by
      refine ⟨⟨trees, rest, ⟨lens', bits', rfl, hlens', hindex', ?_⟩, htable, ?_⟩, hahead.moves rfl rfl rfl rfl, ⟨h₁, h₂, h₃, h₄, h₅, h₆, h₇⟩,
        hread, hfits, (hh.within.trans hsame.same.within).trans ⟨rfl, rfl, rfl, rfl⟩, hprogress⟩
      · rw [hset]
        change (inflateTreesBits _ 7 s'.hufts).err = Z_OK ∧ (inflateTreesBits _ 7 s'.hufts).m ≤ 7 ∧ _
        rw [hhufts]
        exact ⟨herr, hm, hlengths⟩
      · change W.Opens s'.last out trees rest
        rw [hlast]
        exact hopens
    simp only [Bool.false_eq_true, if_false, returns_bind, returns_modify]
    exact hruns.leave (.inr ⟨hp, hk⟩)
  | true =>
    have hnil := hdone rfl
    subst hnil
    have hindex'' : index' = 4 + table >>> 10 := hindex'
    subst hindex''
    have hset' : blens' = setBorder index lens blens := hset
    subst hset'
    have hahead' : s'.Ahead W.future bits' := hahead
    simp only [if_true, returns_bind, returns_get, returns_modify, hhufts]
    have hok : (inflateTreesBits ((borderLengths (4 + table >>> 10) (setBorder index lens blens)).take 19) 7 s.hufts).err = Z_OK := herr
    rw [borderLengths] at hok
    simp only [hok, ne_eq, not_true_eq_false, if_false, returns_setMode]
    refine hh.go (hsame.moves.trans ⟨_, _, _, _, _, _, _, rfl⟩) (hahead'.moves rfl rfl rfl rfl) ⟨trees, rest, hlengths, hm, ?_⟩ hfits hprogress
      (by simp) ?_
    · change W.Opens s'.last out trees rest
      rw [hlast]
      exact hopens
    · rw [List.length_append]
      change 8 * bits'.length + 4 < 8 * _ + 5
      omega

/-- The entry for a symbol, when its code ends in this table. -/
theorem Leads.entryAt_here {tree : Option HuftPtr} {need : Nat} {h : Huft} {code : List Bool} (hlead : Leads h n tree need code)
    (hbits : h.Bits = code.length) (hahead : s.Ahead future (code ++ bits)) (hk : need ≤ s.bitk) :
    ∃ at_, entryAt tree (s.peek need) s = .ok ((h, at_), s) := by
  have hlen := hahead.le_length
  rw [hahead.peek hk]
  obtain ⟨⟨x, at_⟩, _, hrun, hfound, rfl⟩ := hlead.returns_entryAt (s := s) rfl (Nat.le_trans hk hlen)
  cases hfound with
  | here _ => exact ⟨at_, hrun⟩
  | next hcode _ hpos _ hrest =>
    have hbound := hrest.bits_le
    rw [hcode, List.length_append] at hbits
    omega

/-- `NEEDBITS` in a round of `IBM_DTREE`. Without the bits the round ends. -/
theorem returns_NEEDBITS_lengths (hahead : s.Ahead future bits) (hslack : s.Slack tight 22) (hprogress : s₀.Progress s) (hj : j ≤ 15) :
    Returns (NEEDBITS j) s fun ok s' => s.SameOutput s' ∧ s₀.Progress s' ∧ s'.Slack tight 22 ∧ s'.Ahead future bits ∧
      (ok = true → j ≤ s'.bitk) ∧ (ok = false → s'.p = s'.input.length ∧ s'.bitk < 15) := by
  refine (returns_NEEDBITS_slack hahead hslack hj).mono ?_
  rintro ok s' ⟨hahead', hfetched, henough, hempty⟩
  refine ⟨hfetched.same, hfetched.progress hprogress, ?_, hahead', fun hok => (henough hok).1, fun hok => ?_⟩
  · cases ok with
    | false => exact (hempty rfl).2.2.mono fun _ => by omega
    | true => exact (henough rfl).2.2.1.mono fun _ => by omega
  · obtain ⟨hp, hlt, -⟩ := hempty hok
    exact ⟨hp, by omega⟩

/-- The extra bits of a symbol behind its code. -/
theorem Inflater.Ahead.extra {code extra : List Bool} (hahead : s.Ahead future (code ++ (extra ++ bits)))
    (hk : code.length + extra.length ≤ s.bitk) :
    (s.dumped code.length).peek extra.length = bitsNat extra ∧ ((s.dumped code.length).dumped extra.length).Ahead future bits := by
  have hdump := hahead.dump (show code.length ≤ s.bitk by omega)
  rw [List.drop_left] at hdump
  have hk' : extra.length ≤ (s.dumped code.length).bitk := by
    change _ ≤ s.bitk - code.length
    omega
  have hpeek := hdump.peek hk'
  have hdump' := hdump.dump hk'
  rw [List.take_left] at hpeek
  rw [List.drop_left] at hdump'
  exact ⟨hpeek, hdump'⟩

/-- A round of `IBM_DTREE`: one symbol, or what there is of it. -/
theorem returns_lengthsRound {table bb index : Nat} {tb : Option HuftPtr} {hufts : List Huft} {trees : BuiltTrees} {rest : List Bool}
    {blens : List Nat} (hahead : s.Ahead future bits) (hleft : LengthsLeft table bb tb hufts trees rest index blens bits)
    (hindex : index < lengthsIn table) (hslack : s.Slack tight 22) (hprogress : s₀.Progress s) :
    Returns (lengthsRound table index blens bb tb) s fun x s' => s.SameOutput s' ∧ s₀.Progress s' ∧ s'.Slack tight 22 ∧
      ((x = .leave ∧ s'.Ahead future bits ∧ s'.p = s'.input.length ∧ s'.bitk < 15) ∨
        ∃ index' blens' bits', x = .go index' blens' ∧ s'.Ahead future bits' ∧ bits'.length < bits.length ∧
          LengthsLeft table bb tb hufts trees rest index' blens' bits') := by
  unfold lengthsRound
  cases hleft with
  | done hdone => omega
  | @length _ _ h code bits' _ hlead hb hbase hrest =>
    -- a length, stored as it is
    have hneed := hlead.need_le
    have hpos := hlead.pos
    have hle := hlead.here_le hb
    refine (returns_NEEDBITS_lengths hahead hslack hprogress (by omega)).bind ?_
    rintro ok s' ⟨hsame, hprogress', hslack', hahead', henough, hempty⟩
    cases ok with
    | false =>
      rw [if_neg Bool.false_ne_true, returns_pure]
      exact ⟨hsame, hprogress', hslack', .inl ⟨rfl, hahead', hempty rfl⟩⟩
    | true =>
      have hk := henough rfl
      obtain ⟨at_, hentry⟩ := hlead.entryAt_here hb hahead' hk
      have hdump := hahead'.dump (Nat.le_trans hle hk)
      rw [List.drop_left] at hdump
      rw [if_pos rfl, returns_bind, returns_get, returns_bind]
      refine ⟨_, _, hentry, ?_⟩
      dsimp only
      rw [if_pos hbase, returns_bind, returns_DUMPBITS, returns_pure, hb]
      refine ⟨hsame.trans (sameOutput_dumped s' _), hprogress', (hslack'.dump _).mono fun _ => Nat.sub_le _ _,
        .inr ⟨index + 1, _, bits', rfl, hdump, ?_, hrest⟩⟩
      rw [List.length_append]
      omega
  | @repeated _ _ h code extra bits' _ hlead hb hbase hextra hcount hfirst hrest =>
    -- a repetition: `NEEDBITS` is called again for the code and the count behind it, and nothing is dumped before
    have hneed := hlead.need_le
    have hpos := hlead.pos
    have hi : repeatBits h.base ≤ 7 := by
      unfold repeatBits
      split <;> omega
    have hle := hlead.here_le hb
    refine (returns_NEEDBITS_lengths hahead hslack hprogress (by omega)).bind ?_
    rintro ok s' ⟨hsame, hprogress', hslack', hahead', henough, hempty⟩
    cases ok with
    | false =>
      rw [if_neg Bool.false_ne_true, returns_pure]
      exact ⟨hsame, hprogress', hslack', .inl ⟨rfl, hahead', hempty rfl⟩⟩
    | true =>
      obtain ⟨at_, hentry⟩ := hlead.entryAt_here hb hahead' (henough rfl)
      rw [if_pos rfl, returns_bind, returns_get, returns_bind]
      refine ⟨_, _, hentry, ?_⟩
      simp only [if_neg (show ¬ h.base < 16 by omega), hb]
      refine (returns_NEEDBITS_lengths hahead' hslack' hprogress' (show code.length + repeatBits h.base ≤ 15 by omega)).bind ?_
      rintro ok s'' ⟨hsame', hprogress'', hslack'', hahead'', henough', hempty'⟩
      cases ok with
      | false =>
        rw [if_neg Bool.false_ne_true, returns_pure]
        exact ⟨hsame.trans hsame', hprogress'', hslack'', .inl ⟨rfl, hahead'', hempty' rfl⟩⟩
      | true =>
        obtain ⟨hpeek, hdump⟩ := hahead''.extra (by rw [hextra]; exact henough' rfl)
        rw [hextra] at hpeek hdump
        have hgo : ¬(lengthsIn table < index + repeatCount h.base (bitsNat extra) ∨ h.base = 16 ∧ index < 1) := by
          rintro (hover | ⟨h16, hzero⟩)
          · omega
          · have := hfirst h16
            omega
        unfold repeatBits at hpeek hdump
        rw [repeatCount] at hgo
        rw [if_pos rfl, returns_bind, returns_DUMPBITS, returns_bind, returns_get, hpeek, returns_bind, returns_DUMPBITS, if_neg hgo,
          returns_pure]
        refine ⟨(hsame.trans hsame').trans ((sameOutput_dumped s'' _).trans (sameOutput_dumped _ _)), hprogress'',
          ((hslack''.dump code.length).dump _).mono fun _ => by omega, .inr ⟨_, _, bits', rfl, hdump, ?_, hrest⟩⟩
        rw [List.length_append, List.length_append]
        omega

theorem Work.Head.dtree {table index bb : Nat} {blens : List Nat} {tb : Option HuftPtr} (hh : W.Head bits out s)
    (hmode : s.mode = .dtree table index blens bb tb) : Returns (blocksRound fuel ()) s (W.Next (8 * bits.length + s.mode.weight)) := by
  have hleft := hh.left
  have hslack : s.Slack W.tight 8 := hh.fits_mode hmode
  rw [hmode] at hleft
  obtain ⟨trees, rest, hlengths, hbb, hopens⟩ := hleft
  have hfree := hopens.1
  unfold blocksRound
  rw [returns_bind, returns_get]
  simp only [hmode]
  by_cases hmore : index < lengthsIn table
  · rw [if_pos hmore]
    refine (returns_lengthsRound hh.ahead hlengths hmore (hslack.mono fun hyp => absurd hyp hfree) hh.progress).bind ?_
    rintro x s' ⟨hsame, hprogress, hslack', hcase⟩
    have hfits : s'.Slack W.tight 8 := hslack'.mono fun hyp => absurd hyp hfree
    rcases hcase with ⟨rfl, hahead, hp, hk⟩ | ⟨index', blens', bits', rfl, hahead, hlt, hlengths'⟩
    · obtain ⟨hholds, hread, -⟩ := hsame.unpacked hh.unpacked
      have hruns : W.Runs bits out s' := by
        refine ⟨?_, hahead, hholds, hread, ?_, hh.within.trans hsame.same.within, hprogress⟩
        · rw [hsame.same.last, hsame.same.hufts, hsame.same.mode]
          exact hh.left
        · unfold Inflater.Fits
          rw [hsame.same.mode, hmode]
          exact hfits
      exact hruns.leave (.inr ⟨hp, by rw [hsame.same.mode, hmode]; exact hk⟩)
    · simp only [returns_setMode]
      refine hh.go (hsame.moves.trans ⟨_, _, _, _, _, _, _, rfl⟩) (hahead.moves rfl rfl rfl rfl) ⟨trees, rest, ?_, hbb, ?_⟩ hfits hprogress
        (by simp) ?_
      · change LengthsLeft table bb tb s'.hufts trees rest index' blens' bits'
        rw [hsame.same.hufts]
        exact hlengths'
      · change W.Opens s'.last out trees rest
        rw [hsame.same.last]
        exact hopens
      · change 8 * bits'.length + 4 < 8 * bits.length + 4
        omega
  · rw [if_neg hmore]
    cases hlengths with
    | length hlt => exact absurd hlt hmore
    | repeated hlt => exact absurd hlt hmore
    | done _ htrees =>
      obtain ⟨-, herr, ts, tail, hspells, hvalid, hnext⟩ := hopens
      subst htrees
      unfold startCodes
      rw [returns_bind, returns_get]
      change Returns (do
        modify fun s' : Inflater => { s' with hufts := (dynamicTrees table blens s.hufts).hp }
        if (dynamicTrees table blens s.hufts).err ≠ Z_OK then
          if (dynamicTrees table blens s.hufts).err = Z_DATA_ERROR then badData
          else
            modify fun s' : Inflater => { s' with r := (dynamicTrees table blens s.hufts).err }
            leaveBlocks
        else
          setMode (.codes ⟨.start, 0, (dynamicTrees table blens s.hufts).coding.lbits, (dynamicTrees table blens s.hufts).coding.dbits,
            (dynamicTrees table blens s.hufts).coding.ltree, (dynamicTrees table blens s.hufts).coding.dtree⟩)) s _
      generalize dynamicTrees table blens s.hufts = trees at herr hspells hvalid hnext ⊢
      rw [returns_bind, returns_modify, if_neg (not_not_intro herr), returns_setMode]
      refine hh.go ⟨_, _, _, _, _, _, _, rfl⟩ (hh.ahead.moves rfl rfl rfl rfl) ⟨ts, tail, hspells, hvalid, hnext⟩ hslack hh.progress (by simp) ?_
      change 8 * _ + 3 < 8 * _ + 4
      omega

/-- A call of `inflate_blocks`. -/
theorem returns_inflateBlocks (hh : W.Head bits out s) (hfuel : 8 * bits.length + s.mode.weight < fuel) :
    Returns (inflateBlocks fuel) s W.Leaves := by
  refine returns_loop (fun k _ s => k < fuel ∧ ∃ bits out, W.Head bits out s ∧ 8 * bits.length + s.mode.weight = k) ?_
    fuel _ () s ⟨hfuel, bits, out, hh, rfl⟩ hfuel
  rintro k _ s ⟨hk, bits, out, hh, rfl⟩
  have hround : Returns (blocksRound fuel ()) s (W.Next (8 * bits.length + s.mode.weight)) := by
    have hleft := hh.left
    cases hmode : s.mode with
    | type => exact hmode ▸ hh.type hmode
    | lens => exact hmode ▸ hh.lens hmode
    | stored left => exact hmode ▸ hh.stored hmode
    | table => exact hmode ▸ hh.table hmode
    | btree table index blens => exact hmode ▸ hh.btree hmode
    | dtree table index blens bb tb => exact hmode ▸ hh.dtree hmode
    | codes c =>
      rw [hmode] at hk
      change 8 * bits.length + 3 < fuel at hk
      exact hmode ▸ hh.codes hmode (by omega)
    | dry => exact hmode ▸ hh.dry hmode
    | done => exact hmode ▸ hh.finish hmode
    | bad =>
      rw [hmode] at hleft
      exact hleft.elim
  refine hround.mono ?_
  intro x s' hnext
  cases x with
  | inl _ =>
    obtain ⟨bits', out', hh', hlt⟩ := hnext
    exact ⟨_, hlt, Nat.lt_trans hlt hk, bits', out', hh', rfl⟩
  | inr x => exact hnext

end MgStd.Inflate
