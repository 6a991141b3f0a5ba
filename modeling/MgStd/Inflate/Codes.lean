import MgStd.Inflate.Fast
/-!
# `inflate_codes`

Each round of the loop keeps what is left of the block, and what it all comes to. A
call leaves at the end of the block, when the output buffer is full, or when all of
its input is used and the next code is not complete.
-/

namespace MgStd.Inflate

open MgStd.Lib

variable {s₀ s s' : Inflater} {future out : List UInt8} {bits code rest tail : List Bool} {done i j k n fuel : Nat} {h x : Huft}
  {at_ : HuftPtr} {tree : Option HuftPtr} {tight : Prop} {c c' : Codes} {t : Token} {ts ts' : List Token}

/-- How many bits the mode asks for. -/
def CodesMode.need : CodesMode → Nat
  | .len need _ => need
  | .lenext get => get
  | .dist need _ => need
  | .distext get _ => get
  | _ => 0

/-- How many bits are in the buffer at most, when the codes are tight. -/
def CodesMode.slack : CodesMode → Nat
  | .len need _ => max 8 (need - 1)
  | .lenext _ => 9
  | .dist need _ => max 9 (need - 1)
  | .distext get _ => max 7 (get - 1)
  | .wash => 7
  | _ => 8

/-- The bits in the buffer are few: they are from the input of this call, or the codes are tight. So there is a byte of the
input that may go back at the end of the block. -/
def Inflater.Slack (tight : Prop) (k : Nat) (s : Inflater) : Prop := s.bitk ≤ 22 ∧ (¬ tight ∧ s.bitk ≤ 8 * s.p ∨ tight ∧ s.bitk ≤ k)

/-- The same with the bits of the last code. -/
def Inflater.Washes (tight : Prop) (s : Inflater) : Prop :=
  s.bitk ≤ 22 ∧ (¬ tight ∧ s.bitk ≤ 8 * s.p ∨ tight ∧ s.bitk ≤ 15 ∧ (s.bitk ≤ 7 ∨ 0 < s.p))

def Inflater.Safe (tight : Prop) (mode : CodesMode) (s : Inflater) : Prop :=
  match mode with
  | .wash => s.Washes tight
  | mode => s.Slack tight mode.slack

theorem Inflater.Slack.mono (h : s.Slack tight j) (hjk : tight → j ≤ k) : s.Slack tight k :=
  ⟨h.1, h.2.imp_right fun h => ⟨h.1, Nat.le_trans h.2 (hjk h.1)⟩⟩

theorem Inflater.Slack.dump (h : s.Slack tight k) (j : Nat) : (s.dumped j).Slack tight (k - j) :=
  ⟨Nat.le_trans (Nat.sub_le _ _) h.1,
    h.2.imp (fun h => ⟨h.1, Nat.le_trans (Nat.sub_le _ _) h.2⟩) fun h => ⟨h.1, Nat.sub_le_sub_right h.2 j⟩⟩

theorem Inflater.Slack.safe {mode : CodesMode} (h : s.Slack tight mode.slack) : s.Safe tight mode := by
  cases mode with
  | wash =>
    refine ⟨h.1, h.2.imp_right ?_⟩
    rintro ⟨hyp, hk⟩
    exact ⟨hyp, Nat.le_trans hk (show 7 ≤ 15 by decide), .inl hk⟩
  | _ => exact h

/-- `NEEDBITS(j)` for a code or its extra bits. -/
theorem returns_NEEDBITS_slack (h : s.Ahead future bits) (hslack : s.Slack tight k) (hj : j ≤ 15) :
    Returns (NEEDBITS j) s fun ok s' => s'.Ahead future bits ∧ s.Fetched s' ∧
      (ok = true → j ≤ s'.bitk ∧ s'.peek j = bitsNat (bits.take j) ∧ s'.Slack tight (max k (j + 7)) ∧
        (s'.bitk ≤ 8 * s'.p ∨ s'.bitk ≤ k ∨ 0 < s'.p)) ∧
      (ok = false → s'.p = s'.input.length ∧ s'.bitk < j ∧ s'.Slack tight (j - 1)) := by
  obtain ⟨hbound, hkept⟩ := hslack
  refine (returns_NEEDBITS h j).mono ?_
  rintro ok s' ⟨hahead, hfetched, hcount, henough, hempty⟩
  refine ⟨hahead, hfetched, fun hok => ?_, fun hok => ?_⟩
  · obtain ⟨hle, hk⟩ := henough hok
    refine ⟨hle, hahead.peek hle, ⟨by omega, ?_⟩, by omega⟩
    rcases hkept with ⟨hfree, hkept⟩ | ⟨htight, hkept⟩
    · exact .inl ⟨hfree, by omega⟩
    · exact .inr ⟨htight, by omega⟩
  · obtain ⟨hp, hlt⟩ := hempty hok
    refine ⟨hp, hlt, by omega, ?_⟩
    rcases hkept with ⟨hfree, hkept⟩ | ⟨htight, hkept⟩
    · exact .inl ⟨hfree, by omega⟩
    · exact .inr ⟨htight, by omega⟩

/-! ## What a call has to do -/

/-- A call of `inflate_codes` for a block. -/
structure Call where
  coding : Coding
  tight : Prop
  /-- the bits behind the block -/
  tail : List Bool
  /-- all that has been unpacked at the end of the block -/
  final : List UInt8
  future : List UInt8
  done : Nat
  start : Inflater

variable {C : Call}

/-- The tokens `ts` are left, in the bits ahead. -/
structure Call.Runs (C : Call) (bits : List Bool) (out : List UInt8) (ts : List Token) (c : Codes) (s : Inflater) : Prop where
  coding : c.coding = C.coding
  left : C.coding.Left C.tight C.tail c.len ts bits c.mode
  ahead : s.Ahead C.future bits
  holds : s.Holds C.done out
  read_lt : s.read < s.size
  valid : Valid s.size out ts
  final : expand out ts = C.final
  same : C.start.Same s

/-- The order of the modes of one token. -/
def CodesMode.weight : CodesMode → Nat
  | .start => 1
  | .lenext _ => 1
  | .distext _ _ => 3
  | .copy _ => 2
  | .lit _ => 2
  | .wash => 1
  | _ => 0

/-- At the head of a round. -/
structure Call.Head (C : Call) (bits : List Bool) (out : List UInt8) (ts : List Token) (c : Codes) (s : Inflater) : Prop
    extends C.Runs bits out ts c s where
  room : s.m = s.wavail
  safe : s.Safe C.tight c.mode
  r : (c.mode = .wash ∨ c.mode = .end_) ∧ s.r = Z_STREAM_END ∨ C.start.Progress s

/-- Where the call has left in the middle of the block. -/
structure Call.Stays (C : Call) (bits : List Bool) (out : List UInt8) (ts : List Token) (c : Codes) (s : Inflater) : Prop
    extends C.Runs bits out ts c s where
  slack : s.Slack C.tight c.mode.slack
  progress : C.start.Progress s
  stuck : s.availOut = 0 ∨ s.read = s.write ∧ s.p = s.input.length ∧ s.bitk < c.mode.need

/-- Where the call has come to the end of the block. -/
structure Call.Ends (C : Call) (s : Inflater) : Prop where
  ahead : s.Ahead C.future C.tail
  holds : s.Holds C.done C.final
  read_lt : s.read < s.size
  same : C.start.Same s
  slack : s.Slack C.tight 8

def Call.Leaves (C : Call) (x : Codes × Int) (s : Inflater) : Prop :=
  (x.2 = Z_STREAM_END ∧ C.Ends s) ∨ (x.2 = s.r ∧ ∃ bits out ts, C.Stays bits out ts x.1 s)

/-- What a round with `k` rounds to go comes to. -/
def Call.Next (C : Call) (k : Nat) : Codes ⊕ Codes × Int → Inflater → Prop
  | .inl c, s => ∃ bits out ts, C.Head bits out ts c s ∧ 4 * bits.length + c.mode.weight < k
  | .inr x, s => C.Leaves x s

theorem Call.Runs.unpacked (hruns : C.Runs bits out ts c s) (hroom : s.m = s.wavail) : s.Unpacked C.done out :=
  ⟨hruns.holds, hruns.read_lt, hroom⟩

theorem Call.Runs.dbits (hruns : C.Runs bits out ts c s) : c.dbits = C.coding.dbits := congrArg Coding.dbits hruns.coding

theorem Call.Runs.dtree (hruns : C.Runs bits out ts c s) : c.dtree = C.coding.dtree := congrArg Coding.dtree hruns.coding

/-- The output has not changed. -/
theorem Call.Runs.move {bits' : List Bool} (hruns : C.Runs bits out ts c s) (hroom : s.m = s.wavail) (hsame : s.SameOutput s')
    (hahead : s'.Ahead C.future bits') (hcoding : c'.coding = c.coding)
    (hleft : C.coding.Left C.tight C.tail c'.len ts bits' c'.mode) : C.Runs bits' out ts c' s' ∧ s'.m = s'.wavail := by
  obtain ⟨hholds, hread, hroom'⟩ := hsame.unpacked (hruns.unpacked hroom)
  exact ⟨⟨hcoding.trans hruns.coding, hleft, hahead, hholds, hread, hsame.same.size ▸ hruns.valid, hruns.final, hruns.same.trans hsame.same⟩,
    hroom'⟩

/-- `LEAVE` in the middle of the block. -/
theorem Call.Runs.leave (hruns : C.Runs bits out ts c s) (hslack : s.Slack C.tight c.mode.slack) (hprogress : C.start.Progress s)
    (hstuck : s.availOut = 0 ∨ s.p = s.input.length ∧ s.bitk < c.mode.need) : Returns (leaveCodes c) s (C.Next k) := by
  unfold leaveCodes
  refine (returns_LEAVE hruns.holds).bind ?_
  rintro r s' ⟨hholds, hflush, hread, hall, hr⟩
  rw [returns_pure]
  obtain ⟨hp, hk, -⟩ := hflush.same.input
  have hsame := hflush.toSame
  have hcount := hflush.count
  have hle := hflush.le
  refine .inr ⟨hr, bits, out, ts, ⟨⟨hruns.coding, hruns.left, hflush.same.ahead hruns.ahead, hholds, hread, hsame.size ▸ hruns.valid,
    hruns.final, hruns.same.trans hsame⟩, ?_, hflush.progress hprogress, ?_⟩⟩
  · unfold Inflater.Slack
    rw [hp, hk]
    exact hslack
  · rcases hstuck with hstuck | ⟨hempty, hneed⟩
    · exact .inl (by omega)
    · rcases hall with hall | hall
      · exact .inl hall
      · exact .inr ⟨hall, by rw [hp, hsame.input, hempty], show s'.bitk < c.mode.need from hk ▸ hneed⟩

/-- The next round, with the output as it is. -/
theorem Call.Runs.go {bits' : List Bool} (hruns : C.Runs bits out ts c s) (hroom : s.m = s.wavail) (hsame : s.SameOutput s')
    (hprogress : C.start.Progress s') (hahead : s'.Ahead C.future bits') (hcoding : c'.coding = c.coding)
    (hleft : C.coding.Left C.tight C.tail c'.len ts bits' c'.mode) (hsafe : s'.Safe C.tight c'.mode)
    (hlt : 4 * bits'.length + c'.mode.weight < k) : C.Next k (.inl c') s' := by
  obtain ⟨hruns', hroom'⟩ := hruns.move hroom hsame hahead hcoding hleft
  exact ⟨bits', out, ts, ⟨hruns', hroom', hsafe, .inr hprogress⟩, hlt⟩

theorem sameOutput_dumped (s : Inflater) (j : Nat) : s.SameOutput (s.dumped j) := ⟨_, _, _, _, rfl⟩

/-- `NEEDBITS(j)` of a round: with enough bits it goes on, otherwise it leaves. -/
theorem Call.Runs.returns_NEEDBITS {f : Bool → InflateProg (Codes ⊕ Codes × Int)} (hruns : C.Runs bits out ts c s) (hroom : s.m = s.wavail)
    (hprogress : C.start.Progress s) (hslack : s.Slack C.tight j) (hi : i ≤ 15) (hneed : c.mode.need = i)
    (hstay : C.tight → i - 1 ≤ c.mode.slack) (hleave : f false = leaveCodes c)
    (hgo : ∀ s', s'.Ahead C.future bits → s.SameOutput s' → C.start.Progress s' → i ≤ s'.bitk → s'.peek i = bitsNat (bits.take i) →
      s'.Slack C.tight (max j (i + 7)) → s'.bitk ≤ 8 * s'.p ∨ s'.bitk ≤ j ∨ 0 < s'.p → Returns (f true) s' (C.Next k)) :
    Returns (NEEDBITS i >>= f) s (C.Next k) := by
  refine (returns_NEEDBITS_slack hruns.ahead hslack hi).bind ?_
  rintro ok s' ⟨hahead, hfetched, henough, hempty⟩
  have hprogress' := hfetched.progress hprogress
  cases ok with
  | false =>
    obtain ⟨hp, hlt, hslack'⟩ := hempty rfl
    obtain ⟨hruns', -⟩ := hruns.move hroom hfetched.same hahead rfl hruns.left
    rw [hleave]
    exact hruns'.leave (hslack'.mono hstay) hprogress' (.inr ⟨hp, by rw [hneed]; exact hlt⟩)
  | true =>
    obtain ⟨hk, hpeek, hslack', hp⟩ := henough rfl
    exact hgo s' hahead hfetched.same hprogress' hk hpeek hslack' hp

theorem Call.Head.progress (hh : C.Head bits out ts c s) (hmode : c.mode ≠ .wash ∧ c.mode ≠ .end_) : C.start.Progress s := by
  rcases hh.r with ⟨hwash | hend, -⟩ | hprogress
  · exact absurd hwash hmode.1
  · exact absurd hend hmode.2
  · exact hprogress

/-! ## The modes -/

theorem Call.Head.lenext {get : Nat} (hh : C.Head bits out ts c s) (hmode : c.mode = .lenext get) :
    Returns (codesRound fuel c) s (C.Next (4 * bits.length + c.mode.weight)) := by
  have hleft := hh.left
  have hslack := hh.safe
  rw [hmode] at hleft hslack
  obtain ⟨hget, t, ts, rfl, extra, rest, hbits, hextra, hdist⟩ := hleft
  unfold codesRound
  simp only [hmode]
  refine hh.toRuns.returns_NEEDBITS hh.room (hh.progress (by simp [hmode])) hslack (by omega) (by rw [hmode]; rfl)
    (fun _ => by rw [hmode]; change get - 1 ≤ 9; omega) rfl fun s' hahead hsame hprogress hk hpeek hslack' _ => ?_
  have htake : bits.take get = extra := by rw [hbits, List.take_left' hextra]
  have hdump := hahead.dump hk
  rw [hbits, List.drop_left' hextra] at hdump
  rw [if_pos rfl, returns_bind, returns_get, hpeek, htake, returns_bind, returns_DUMPBITS, returns_pure]
  have hlen := congrArg List.length hbits
  rw [List.length_append] at hlen
  refine hh.toRuns.go hh.room (hsame.trans (sameOutput_dumped s' get)) hprogress hdump rfl ⟨15, Nat.le_refl _, t, ts, rfl, ?_⟩ ?_ ?_
  · rw [hh.dbits, hh.dtree]
    exact hdist
  · refine (hslack'.dump get).mono fun _ => ?_
    change max 9 (get + 7) - get ≤ max 9 (c.dbits - 1)
    omega
  · change 4 * rest.length + 0 < 4 * bits.length + 1
    omega

theorem Call.Head.distext {get dist : Nat} (hh : C.Head bits out ts c s) (hmode : c.mode = .distext get dist) :
    Returns (codesRound fuel c) s (C.Next (4 * bits.length + c.mode.weight)) := by
  have hleft := hh.left
  have hslack := hh.safe
  rw [hmode] at hleft hslack
  obtain ⟨hget, t, ts, rfl, extra, rest, hbits, hextra, hcopy⟩ := hleft
  unfold codesRound
  simp only [hmode]
  refine hh.toRuns.returns_NEEDBITS hh.room (hh.progress (by simp [hmode])) hslack (by omega) (by rw [hmode]; rfl)
    (fun _ => by rw [hmode]; exact Nat.le_max_right _ _) rfl fun s' hahead hsame hprogress hk hpeek hslack' _ => ?_
  have htake : bits.take get = extra := by rw [hbits, List.take_left' hextra]
  have hdump := hahead.dump hk
  rw [hbits, List.drop_left' hextra] at hdump
  rw [if_pos rfl, returns_bind, returns_get, hpeek, htake, returns_bind, returns_DUMPBITS, returns_pure]
  have hlen := congrArg List.length hbits
  rw [List.length_append] at hlen
  refine hh.toRuns.go hh.room (hsame.trans (sameOutput_dumped s' get)) hprogress hdump rfl ⟨t, ts, rfl, hcopy⟩ ?_ ?_
  · refine (hslack'.dump get).mono fun _ => ?_
    change max (max 7 (get - 1)) (get + 7) - get ≤ 8
    omega
  · change 4 * rest.length + 2 < 4 * bits.length + 3
    omega

theorem Call.Head.dist {need : Nat} (hh : C.Head bits out ts c s) (hmode : c.mode = .dist need tree) :
    Returns (codesRound fuel c) s (C.Next (4 * bits.length + c.mode.weight)) := by
  have hleft := hh.left
  have hslack := hh.safe
  rw [hmode] at hleft hslack
  obtain ⟨n, hn, t, ts, rfl, h, e, code, rest, hbits, hlead, htight, hop, he, hrest⟩ := hleft
  have hneed := hlead.need_le
  have hpos := hlead.pos
  have hlen := congrArg List.length hbits
  rw [List.length_append] at hlen
  unfold codesRound
  simp only [hmode]
  refine hh.toRuns.returns_NEEDBITS hh.room (hh.progress (by simp [hmode])) hslack (by omega) (by rw [hmode]; rfl)
    (fun _ => by rw [hmode]; exact Nat.le_max_right _ _) rfl fun s' hahead hsame hprogress hk hpeek hslack' _ => ?_
  rw [if_pos rfl, returns_bind, returns_get, hpeek]
  refine (hlead.returns_entryAt hbits (by have := hahead.le_length; omega)).bind ?_
  rintro ⟨x, at_⟩ s₂ ⟨hfound, hs⟩
  rw [hs]
  cases hfound with
  | here hb =>
    obtain ⟨-, h16, h15⟩ := extraOp_bits e (by omega)
    have hle : code.length ≤ s'.bitk := by have := hlead.here_le hb; omega
    have hdump := hahead.dump hle
    rw [hbits, List.drop_left] at hdump
    rw [returns_bind, returns_DUMPBITS, hop, if_pos h16, returns_pure, h15, hb]
    refine hh.toRuns.go hh.room (hsame.trans (sameOutput_dumped s' _)) hprogress hdump rfl ⟨he, t, ts, rfl, hrest⟩ ?_ ?_
    · refine (hslack'.dump code.length).mono fun hyp => ?_
      have hcode := htight hyp
      change max (max 9 (need - 1)) (need + 7) - code.length ≤ max 7 (e - 1)
      omega
    · change 4 * rest.length + 3 < 4 * bits.length + 0
      omega
  | @next _ e' base code₁ code₂ hcode hlen₁ hpos₁ he' hrest' =>
    obtain ⟨h16, h64⟩ := tableOp_bits e' he'.2
    have hdump := hahead.dump (show code₁.length ≤ s'.bitk by omega)
    have hlen' := congrArg List.length hcode
    rw [List.length_append] at hlen'
    have hpos' := hrest'.pos
    rw [hbits, hcode, List.append_assoc, List.drop_left] at hdump
    simp only [returns_bind, returns_DUMPBITS, h16, h64, ne_eq, not_true_eq_false, if_false, if_true, returns_pure]
    refine hh.toRuns.go hh.room (hsame.trans (sameOutput_dumped s' _)) hprogress hdump rfl
      ⟨n - code₁.length, by omega, t, ts, rfl, h, e, code₂, rest, rfl, hrest', fun hyp => ?_, hop, he, hrest⟩ ?_ ?_
    · have hcode := htight hyp
      omega
    · refine (hslack'.dump code₁.length).mono fun hyp => ?_
      have hcode := htight hyp
      omega
    · change 4 * (code₂ ++ rest).length + 0 < 4 * bits.length + 0
      rw [List.length_append]
      omega

/-- What `LEN` does with an entry. -/
def lenEntry (c : Codes) (t : Huft) (at_ : HuftPtr) : InflateProg (Codes ⊕ Codes × Int) := do
  if t.Exop = 0 then return .inl { c with mode := .lit t.base }
  else if t.Exop &&& 16 ≠ 0 then return .inl { c with mode := .lenext (t.Exop &&& 15), len := t.base }
  else if t.Exop &&& 64 = 0 then return .inl { c with mode := .len t.Exop (some ⟨at_.space, at_.at_ + t.base⟩) }
  else if t.Exop &&& 32 ≠ 0 then return .inl { c with mode := .wash }
  else
    modify fun s => { s with r := Z_DATA_ERROR }
    leaveCodes { c with mode := .badcode }

/-- It comes to the entry of the code, or to the next table. -/
theorem Call.Head.entry {need : Nat} (hh : C.Head bits out ts c s) (hmode : c.mode = .len need tree) (hn : n ≤ 15)
    (hbits : bits = code ++ rest) (hlead : Leads h n tree need code) (htight : C.tight → code.length ≤ need)
    (htable : ∀ n' need' tree' code', n' ≤ 15 → Leads h n' tree' need' code' → ¬ C.tight →
      C.coding.Left C.tight C.tail c.len ts (code' ++ rest) (.len need' tree'))
    (hentry : ∀ s' at_, s'.Ahead C.future rest → s.SameOutput s' → C.start.Progress s' →
      s'.Slack C.tight (max (max 8 (need - 1)) (need + 7) - code.length) → s'.bitk ≤ 8 * s'.p ∨ s'.bitk ≤ 7 ∨ 0 < s'.p →
      Returns (lenEntry c h at_) s' (C.Next (4 * bits.length + c.mode.weight))) :
    Returns (codesRound fuel c) s (C.Next (4 * bits.length + c.mode.weight)) := by
  have hslack := hh.safe
  rw [hmode] at hslack
  have hneed := hlead.need_le
  have hpos := hlead.pos
  have hlen := congrArg List.length hbits
  rw [List.length_append] at hlen
  unfold codesRound
  simp only [hmode]
  refine hh.toRuns.returns_NEEDBITS hh.room (hh.progress (by simp [hmode])) hslack (by omega) (by rw [hmode]; rfl)
    (fun _ => by rw [hmode]; exact Nat.le_max_right _ _) rfl fun s' hahead hsame hprogress hk hpeek hslack' hlast => ?_
  rw [if_pos rfl, returns_bind, returns_get, hpeek]
  refine (hlead.returns_entryAt hbits (by have := hahead.le_length; omega)).bind ?_
  rintro ⟨x, at_⟩ s₂ ⟨hfound, hs⟩
  rw [hs, returns_bind, returns_DUMPBITS]
  cases hfound with
  | here hb =>
    have hle : code.length ≤ s'.bitk := by have := hlead.here_le hb; omega
    have hdump := hahead.dump hle
    rw [hbits, List.drop_left] at hdump
    rw [hb]
    have hlast' : (s'.dumped code.length).bitk ≤ 8 * (s'.dumped code.length).p ∨ (s'.dumped code.length).bitk ≤ 7 ∨
        0 < (s'.dumped code.length).p := by
      change s'.bitk - code.length ≤ 8 * s'.p ∨ s'.bitk - code.length ≤ 7 ∨ 0 < s'.p
      have hmax : (CodesMode.len need tree).slack = max 8 (need - 1) := rfl
      omega
    have hdone := hentry (s'.dumped code.length) at_ hdump (hsame.trans (sameOutput_dumped s' _)) hprogress (hslack'.dump _) hlast'
    rwa [hmode] at hdone
  | @next _ e' base code₁ code₂ hcode hlen₁ hpos₁ he' hrest' =>
    obtain ⟨h16, h64⟩ := tableOp_bits e' he'.2
    have hdump := hahead.dump (show code₁.length ≤ s'.bitk by omega)
    have hlen' := congrArg List.length hcode
    rw [List.length_append] at hlen'
    have hpos' := hrest'.pos
    rw [hbits, hcode, List.append_assoc, List.drop_left] at hdump
    have hfree : ¬ C.tight := by
      intro hyp
      have hcode := htight hyp
      omega
    rw [if_neg (Nat.ne_of_gt he'.1), if_neg (not_not_intro h16), if_pos h64, returns_pure]
    refine hh.toRuns.go hh.room (hsame.trans (sameOutput_dumped s' _)) hprogress hdump rfl
      (htable (n - code₁.length) e' _ code₂ (by omega) hrest' hfree) ?_ ?_
    · exact (hslack'.dump code₁.length).mono fun hyp => absurd hyp hfree
    · change 4 * (code₂ ++ rest).length + 0 < 4 * bits.length + 0
      rw [List.length_append]
      omega

theorem Call.Head.len {need : Nat} (hh : C.Head bits out ts c s) (hmode : c.mode = .len need tree) :
    Returns (codesRound fuel c) s (C.Next (4 * bits.length + c.mode.weight)) := by
  have hleft := hh.left
  rw [hmode] at hleft
  obtain ⟨n, hn, hleft⟩ := hleft
  have hslack := hh.safe
  cases ts with
  | nil =>
    obtain ⟨h, code, hbits, hlead, htight, hop, hshort⟩ := hleft
    have hpos := hlead.pos
    have hlen := congrArg List.length hbits
    rw [List.length_append] at hlen
    refine hh.entry hmode hn hbits hlead htight (fun n' need' tree' code' hn' hlead' hfree => ⟨n', hn', h, code', rfl, hlead',
      fun hyp => absurd hyp hfree, hop, fun hyp => absurd hyp hfree⟩) fun s' at_ hahead hsame hprogress hslack' hlast => ?_
    unfold lenEntry
    rw [hop, if_neg (by decide), if_neg (by decide), if_neg (by decide), if_pos (by decide), returns_pure]
    refine hh.toRuns.go hh.room hsame hprogress hahead rfl ⟨rfl, rfl⟩ ⟨hslack'.1, ?_⟩ ?_
    · rcases hslack'.2 with hkept | ⟨hyp, hk⟩
      · exact .inl hkept
      · have hcode := hshort hyp
        exact .inr ⟨hyp, by omega, by omega⟩
    · rw [hmode]
      change 4 * C.tail.length + 1 < 4 * bits.length + 0
      omega
  | cons t ts =>
    obtain ⟨h, code, rest, hbits, hlead, htight, hcase⟩ := hleft
    have hpos := hlead.pos
    have hlen := congrArg List.length hbits
    rw [List.length_append] at hlen
    rcases hcase with ⟨hop, hshort, rfl, hS⟩ | ⟨e, hop, hshort, he, hmin, hmax, hlenext⟩
    · refine hh.entry hmode hn hbits hlead htight (fun n' need' tree' code' hn' hlead' hfree => ⟨n', hn', h, code', rest, rfl, hlead',
        fun hyp => absurd hyp hfree, .inl ⟨hop, fun hyp => absurd hyp hfree, rfl, hS⟩⟩) fun s' at_ hahead hsame hprogress hslack' _ => ?_
      unfold lenEntry
      rw [if_pos hop, returns_pure]
      refine hh.toRuns.go hh.room hsame hprogress hahead rfl ⟨ts, rfl, hS⟩ (hslack'.mono fun hyp => ?_) ?_
      · have hcode := hshort hyp
        change _ ≤ 8
        omega
      · rw [hmode]
        change 4 * rest.length + 2 < 4 * bits.length + 0
        omega
    · refine hh.entry hmode hn hbits hlead htight (fun n' need' tree' code' hn' hlead' hfree => ⟨n', hn', h, code', rest, rfl, hlead',
        fun hyp => absurd hyp hfree, .inr ⟨e, hop, fun hyp => absurd hyp hfree, he, hmin, hmax, hlenext⟩⟩)
        fun s' at_ hahead hsame hprogress hslack' _ => ?_
      obtain ⟨h0, h16, h15⟩ := extraOp_bits e (by omega)
      unfold lenEntry
      rw [hop, if_neg h0, if_pos h16, returns_pure, h15]
      refine hh.toRuns.go hh.room hsame hprogress hahead rfl ⟨he, t, ts, rfl, hlenext⟩ (hslack'.mono fun hyp => ?_) ?_
      · have hcode := hshort hyp
        change _ ≤ 9
        omega
      · rw [hmode]
        change 4 * rest.length + 1 < 4 * bits.length + 0
        omega

theorem left_len {K : Coding} {len : Nat} (hspells : K.Spells tight tail ts bits) : K.Left tight tail len ts bits (.len K.lbits K.ltree) := by
  cases ts with
  | nil => exact ⟨15, Nat.le_refl _, hspells⟩
  | cons t ts => exact ⟨15, Nat.le_refl _, hspells⟩

theorem Call.Head.start (hh : C.Head bits out ts c s) (hmode : c.mode = .start) (hfuel : bits.length < fuel) :
    Returns (codesRound fuel c) s (C.Next (4 * bits.length + c.mode.weight)) := by
  have hspells := hh.left
  have hslack := hh.safe
  have hprogress := hh.progress (by simp [hmode])
  rw [hmode] at hspells hslack
  have hlbits : c.lbits = C.coding.lbits := congrArg Coding.lbits hh.coding
  have hltree : c.ltree = C.coding.ltree := congrArg Coding.ltree hh.coding
  unfold codesRound
  simp only [hmode, returns_bind, returns_get]
  by_cases henough : fastEnough s = true
  · rw [if_pos henough]
    simp only [returns_bind]
    refine (returns_inflateFast hh.coding hh.ahead (hh.unpacked hh.room) hspells hh.valid hh.final henough hfuel).mono ?_
    rintro r s' ⟨bits', out', ts', ⟨hfast, hvalid, hfinal, hback, hresult⟩, hlt⟩
    rw [returns_modify]
    have hle := hfast.le
    have hcount := hfast.count
    -- What the buffer had at the call, or less than a byte.
    have hslack' : s'.Slack C.tight 8 := by
      obtain ⟨hbound, hkept⟩ := hslack
      refine ⟨by omega, ?_⟩
      rcases hkept with ⟨hfree, hkept⟩ | ⟨hyp, hkept⟩
      · exact .inl ⟨hfree, by omega⟩
      · exact .inr ⟨hyp, by change s.bitk ≤ 8 at hkept; omega⟩
    obtain ⟨⟨h₁, h₂, h₃, h₄, h₅, h₆, h₇⟩, hread, -⟩ := hfast.unpacked
    have hruns : ∀ {c' : Codes}, c'.coding = c.coding → C.coding.Left C.tight C.tail c'.len ts' bits' c'.mode →
        C.Runs bits' out' ts' c' { s' with r := r, m := s'.wavail } := fun hcoding hleft =>
      ⟨hcoding.trans hh.coding, hleft, ⟨hfast.ahead.read, hfast.ahead.ahead, hfast.ahead.buffer⟩, ⟨h₁, h₂, h₃, h₄, h₅, h₆, h₇⟩, hread,
        show Valid s'.size out' ts' from hfast.same.size ▸ hvalid, hfinal,
        (hh.same.trans hfast.same).trans ⟨rfl, rfl, rfl, rfl, rfl, rfl, rfl⟩⟩
    rcases hresult with ⟨rfl, hspells'⟩ | ⟨rfl, hnil, htail, hused⟩
    · rw [if_neg (not_not_intro rfl), returns_pure]
      refine ⟨bits', out', ts', ⟨hruns rfl ?_, rfl, ?_, .inr (.inl rfl)⟩, ?_⟩
      · rw [hlbits, hltree]
        exact left_len hspells'
      · exact hslack'.mono fun _ => Nat.le_max_left _ _
      · change 4 * bits'.length + 0 < 4 * bits.length + 1
        omega
    · rw [if_pos (by decide), if_pos rfl, returns_pure]
      refine ⟨bits', out', ts', ⟨hruns rfl ⟨hnil, htail⟩, rfl, ?_, .inl ⟨.inl rfl, rfl⟩⟩, ?_⟩
      · refine ⟨hslack'.1, hslack'.2.imp_right ?_⟩
        rintro ⟨hyp, hk⟩
        refine ⟨hyp, Nat.le_trans hk (by decide), ?_⟩
        change s'.bitk ≤ 7 ∨ 0 < s'.p
        rcases hslack.2 with ⟨-, hkept⟩ | ⟨-, hkept⟩
        · omega
        · change s.bitk ≤ 8 at hkept
          omega
      · change 4 * bits'.length + 1 < 4 * bits.length + 1
        omega
  · rw [if_neg henough, returns_pure]
    refine hh.toRuns.go hh.room (.refl s) hprogress hh.ahead rfl ?_ (hslack.mono fun _ => Nat.le_max_left _ _) (Nat.lt_succ_self _)
    rw [hlbits, hltree]
    exact left_len hspells

theorem Call.Head.lit {lit : Nat} (hh : C.Head bits out ts c s) (hmode : c.mode = .lit lit) :
    Returns (codesRound fuel c) s (C.Next (4 * bits.length + c.mode.weight)) := by
  have hleft := hh.left
  have hslack := hh.safe
  have hprogress := hh.progress (by simp [hmode])
  rw [hmode] at hleft hslack
  obtain ⟨ts, rfl, hspells⟩ := hleft
  unfold codesRound
  simp only [hmode]
  refine (returns_NEEDOUT (hh.unpacked hh.room)).bind ?_
  intro ok s' hroom
  obtain ⟨hp, hk, -⟩ := hroom.same.input
  have hahead := hroom.same.ahead hh.ahead
  have hslack' : s'.Slack C.tight 8 := by
    unfold Inflater.Slack
    rw [hp, hk]
    exact hslack
  have hvalid : Valid s'.size out (.lit (UInt8.ofNat lit) :: ts) := hroom.toSame.size ▸ hh.valid
  cases ok with
  | false =>
    have hruns : C.Runs bits out (.lit (UInt8.ofNat lit) :: ts) c s' :=
      ⟨hh.coding, hmode ▸ ⟨ts, rfl, hspells⟩, hahead, hroom.unpacked.toHolds, hroom.unpacked.read_lt, hvalid, hh.final,
        hh.same.trans hroom.toSame⟩
    have hleave := hruns.leave (k := 4 * bits.length + c.mode.weight) (hmode ▸ hslack') (hroom.progress hprogress) (.inl (hroom.full rfl).1)
    rw [hmode] at hleave
    exact hleave
  | true =>
    have hone : [UInt8.ofNat lit].length ≤ s'.m := (hroom.room rfl).1
    have hput := hroom.unpacked.put hone
    rw [if_pos rfl, returns_bind, returns_OUTBYTE _ (hroom.unpacked.fits hone), returns_pure]
    refine ⟨bits, out ++ [UInt8.ofNat lit], ts, ⟨⟨hh.coding, hspells, sameInput_put.ahead hahead, hput.toHolds, hput.read_lt, ?_, hh.final,
      (hh.same.trans hroom.toSame).trans (same_put (hroom.unpacked.fits hone))⟩, hput.room, hslack', .inr (.inl (hroom.room rfl).2)⟩,
      Nat.lt_succ_self _⟩
    rw [hroom.unpacked.size_put hone]
    exact hvalid.2

theorem Call.Head.copy {dist : Nat} (hh : C.Head bits out ts c s) (hmode : c.mode = .copy dist) :
    Returns (codesRound fuel c) s (C.Next (4 * bits.length + c.mode.weight)) := by
  have hleft := hh.left
  have hslack := hh.safe
  have hprogress := hh.progress (by simp [hmode])
  rw [hmode] at hleft hslack
  obtain ⟨_, ts, rfl, rfl, hspells⟩ := hleft
  have hreach : Reaches out s.size dist := hh.valid.1
  unfold codesRound
  simp only [hmode, returns_bind, returns_get]
  refine (returns_copyLoop (hh.unpacked hh.room) hprogress hreach (hh.holds.back hreach.1 hreach.2.1 hreach.2.2)).mono ?_
  rintro rem s' ⟨n, hn, hunpacked, hsame, hsame', hprogress', hfull⟩
  obtain ⟨hp, hk, -⟩ := hsame.input
  have hslack' : s'.Slack C.tight 8 := by
    unfold Inflater.Slack
    rw [hp, hk]
    exact hslack
  by_cases hrem : rem = 0
  · subst hrem
    rw [if_pos rfl, returns_pure, ← hmode]
    rw [Nat.add_zero] at hn
    subst hn
    refine ⟨bits, _, ts, ⟨⟨hh.coding, hspells, hsame.ahead hh.ahead, hunpacked.toHolds, hunpacked.read_lt, hsame'.size ▸ hh.valid.2, hh.final,
      hh.same.trans hsame'⟩, hunpacked.room, hslack', .inr hprogress'⟩, ?_⟩
    rw [hmode]
    exact Nat.lt_succ_self _
  · rw [if_neg hrem]
    have hexpand : (Token.copy rem dist).expand (copyBack dist n out) = (Token.copy c.len dist).expand out := by
      rw [← hn]
      exact (copyBack_add dist n rem out).symm
    have hvalid : Valid s'.size (copyBack dist n out) (.copy rem dist :: ts) := by
      rw [hsame'.size]
      exact ⟨hh.valid.1.rest n rem, hexpand ▸ hh.valid.2⟩
    have hfinal : expand (copyBack dist n out) (.copy rem dist :: ts) = C.final := by
      rw [expand_cons, hexpand]
      exact hh.final
    have hruns : C.Runs bits (copyBack dist n out) (.copy rem dist :: ts) { c with len := rem } s' :=
      ⟨hh.coding, by rw [hmode]; exact ⟨_, ts, rfl, rfl, hspells⟩, hsame.ahead hh.ahead, hunpacked.toHolds, hunpacked.read_lt, hvalid, hfinal,
        hh.same.trans hsame'⟩
    have hleave := hruns.leave (k := 4 * bits.length + c.mode.weight) (by rw [hmode]; exact hslack') hprogress' (.inl (hfull hrem))
    rw [hmode] at hleave
    exact hleave

/-- `LEAVE` at the end of the block. -/
theorem Call.Runs.finish (hruns : C.Runs bits out ts c s) (hr : s.r = Z_STREAM_END) (hslack : s.Slack C.tight 8)
    (hend : ts = [] ∧ bits = C.tail) : Returns (leaveCodes c) s (C.Next k) := by
  obtain ⟨rfl, rfl⟩ := hend
  unfold leaveCodes
  refine (returns_LEAVE hruns.holds).bind ?_
  rintro r s' ⟨hholds, hflush, hread, -, rfl⟩
  rw [returns_pure]
  obtain ⟨hp, hk, -⟩ := hflush.same.input
  refine .inl ⟨?_, hflush.same.ahead hruns.ahead, hruns.final ▸ hholds, hread, hruns.same.trans hflush.toSame, ?_⟩
  · rcases hflush.r with ⟨-, hsame⟩ | ⟨-, hsame⟩
    · exact hsame.trans hr
    · rw [hr] at hsame
      exact hsame
  · unfold Inflater.Slack
    rw [hp, hk]
    exact hslack

theorem Call.Head.end_ (hh : C.Head bits out ts c s) (hmode : c.mode = .end_) :
    Returns (codesRound fuel c) s (C.Next (4 * bits.length + c.mode.weight)) := by
  have hleft := hh.left
  have hslack := hh.safe
  rw [hmode] at hleft hslack
  unfold codesRound
  simp only [hmode, returns_bind, returns_modify]
  have hruns : C.Runs bits out ts c { s with r := Z_STREAM_END } := by
    obtain ⟨h₁, h₂, h₃, h₄, h₅, h₆, h₇⟩ := hh.holds
    exact ⟨hh.coding, hh.left, ⟨hh.ahead.read, hh.ahead.ahead, hh.ahead.buffer⟩, ⟨h₁, h₂, h₃, h₄, h₅, h₆, h₇⟩, hh.read_lt, hh.valid, hh.final,
      hh.same.trans ⟨rfl, rfl, rfl, rfl, rfl, rfl, rfl⟩⟩
  exact hruns.finish rfl hslack hleft

theorem Call.Head.wash (hh : C.Head bits out ts c s) (hmode : c.mode = .wash) :
    Returns (codesRound fuel c) s (C.Next (4 * bits.length + c.mode.weight)) := by
  have hleft := hh.left
  have hsafe := hh.safe
  rw [hmode] at hleft hsafe
  unfold codesRound
  simp only [hmode, returns_bind, returns_get]
  -- A byte that is not needed goes back.
  have hback : ∀ {s₁ : Inflater}, C.Runs bits out ts c s₁ → s₁.m = s₁.wavail → s₁.Slack C.tight 7 →
      s₁.r = Z_STREAM_END ∨ C.start.Progress s₁ →
      Returns FLUSH s₁ fun _ s' => Returns (do if (← get).read ≠ (← get).write then leaveCodes c else return .inl { c with mode := .end_ }) s'
        (C.Next (4 * bits.length + 1)) := by
    intro s₁ hruns hroom hslack hr
    refine (returns_FLUSH hruns.holds).mono ?_
    rintro _ s' ⟨hunpacked, hflush, hall⟩
    obtain ⟨hp, hk, -⟩ := hflush.same.input
    have hslack' : s'.Slack C.tight 7 := by
      unfold Inflater.Slack
      rw [hp, hk]
      exact hslack
    have hruns' : C.Runs bits out ts c s' := ⟨hruns.coding, hruns.left, hflush.same.ahead hruns.ahead, hunpacked.toHolds, hunpacked.read_lt,
      hflush.toSame.size ▸ hruns.valid, hruns.final, hruns.same.trans hflush.toSame⟩
    have hr' : s'.r = Z_STREAM_END ∨ C.start.Progress s' := by
      rcases hr with hr | hr
      · rcases hflush.r with ⟨-, hsame⟩ | ⟨-, hsame⟩
        · exact .inl (hsame.trans hr)
        · rw [hr] at hsame
          exact .inl hsame
      · exact .inr (hflush.progress hr)
    simp only [returns_bind, returns_get]
    by_cases hread : s'.read = s'.write
    · rw [if_neg (not_not_intro hread), returns_pure]
      exact ⟨bits, out, ts, ⟨⟨hruns'.coding, hleft, hruns'.ahead, hruns'.holds, hruns'.read_lt, hruns'.valid, hruns'.final, hruns'.same⟩,
        hunpacked.room, hslack'.mono fun _ => (show 7 ≤ 8 by decide), hr'.imp_left fun hr => ⟨.inr rfl, hr⟩⟩, Nat.lt_succ_self _⟩
    · rw [if_pos hread]
      rcases hr' with hr' | hr'
      · exact hruns'.finish hr' (hslack'.mono fun _ => by decide) hleft
      · exact hruns'.leave (hmode ▸ hslack') hr' (.inl (hall.resolve_right hread))
  have hr : s.r = Z_STREAM_END ∨ C.start.Progress s := hh.r.imp_left And.right
  by_cases hk : 7 < s.bitk
  · have hp : 0 < s.p := by
      rcases hsafe.2 with hkept | ⟨-, -, hkept⟩ <;> omega
    rw [if_pos hk]
    simp only [returns_bind, returns_get, if_neg (Nat.ne_of_gt hp), returns_modify]
    have hsame : s.SameOutput { s with bitk := s.bitk - 8, p := s.p - 1 } := ⟨_, _, _, _, rfl⟩
    obtain ⟨hruns, hroom⟩ := hh.toRuns.move hh.room hsame (hh.ahead.ungrab hp (show 8 * 1 ≤ s.bitk from hk)) rfl hh.left
    refine hback hruns hroom ⟨Nat.le_trans (Nat.sub_le _ _) hsafe.1, ?_⟩ ?_
    · change ¬ C.tight ∧ s.bitk - 8 ≤ 8 * (s.p - 1) ∨ C.tight ∧ s.bitk - 8 ≤ 7
      rcases hsafe.2 with ⟨hfree, hkept⟩ | ⟨hyp, hkept, -⟩
      · exact .inl ⟨hfree, by omega⟩
      · exact .inr ⟨hyp, by omega⟩
    · rcases hr with hr | hr | ⟨hr, hle, hnext⟩
      · exact .inl hr
      · exact .inr (.inl hr)
      · exact .inr (.inr ⟨hr, Nat.le_trans (Nat.sub_le _ _) hle, hnext⟩)
  · rw [if_neg hk, returns_bind]
    refine hback hh.toRuns hh.room ⟨hsafe.1, hsafe.2.imp_right ?_⟩ hr
    rintro ⟨hyp, -⟩
    exact ⟨hyp, by omega⟩

/-- A call of `inflate_codes`. -/
theorem returns_inflateCodes (hh : C.Head bits out ts c s) (hfuel : 4 * bits.length + c.mode.weight < fuel) :
    Returns (inflateCodes fuel c) s C.Leaves := by
  refine returns_loop (fun k c s => k < fuel ∧ ∃ bits out ts, C.Head bits out ts c s ∧ 4 * bits.length + c.mode.weight = k) ?_
    fuel _ c s ⟨hfuel, bits, out, ts, hh, rfl⟩ hfuel
  rintro k c s ⟨hk, bits, out, ts, hh, rfl⟩
  have hround : Returns (codesRound fuel c) s (C.Next (4 * bits.length + c.mode.weight)) := by
    have hleft := hh.left
    cases hmode : c.mode with
    | start => exact hmode ▸ hh.start hmode (by omega)
    | len need tree => exact hmode ▸ hh.len hmode
    | lenext get => exact hmode ▸ hh.lenext hmode
    | dist need tree => exact hmode ▸ hh.dist hmode
    | distext get dist => exact hmode ▸ hh.distext hmode
    | copy dist => exact hmode ▸ hh.copy hmode
    | lit lit => exact hmode ▸ hh.lit hmode
    | wash => exact hmode ▸ hh.wash hmode
    | end_ => exact hmode ▸ hh.end_ hmode
    | badcode =>
      rw [hmode] at hleft
      exact hleft.elim
  refine hround.mono ?_
  intro x s' hnext
  cases x with
  | inl c' =>
    obtain ⟨bits', out', ts', hh', hlt⟩ := hnext
    exact ⟨_, hlt, by omega, bits', out', ts', hh', rfl⟩
  | inr x => exact hnext

end MgStd.Inflate
