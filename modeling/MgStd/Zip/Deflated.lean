import MgStd.Inflate.Fixed
import MgStd.Zip.Stored
/-!
# Reading a deflated entry

What the calls of `readEntry` deliver of an entry whose data are stored blocks and
blocks with the fixed codes: the bytes that the blocks stand for, whatever the calls
ask for and wherever the buffers end.
-/

namespace MgStd.Zip

open MgStd.Lib MgStd.Inflate

variable {info : EntryInfo} {e e' : Entry Inflater} {s : Inflater} {J : Job} {D n fuel rounds : Nat}

/-- The buffer of a call: what is left of the one before, or a new one. -/
def fed (s : Inflater) (nextIn : List UInt8) : Inflater :=
  if nextIn = s.input.drop s.p then s else { s with input := nextIn, p := 0 }

/-- `inflate` as `readEntry` calls it. What the source would do outside its memory comes to `Z_STREAM_ERROR` here. -/
def inflateCall (fuel : Nat) : Zip.Inflate Inflater := fun s nextIn availOut =>
  match inflate fuel ((fed s nextIn).emptied availOut) with
  | .ok (r, s') => (r, s'.input.drop s'.p, s'.nextOut, s')
  | .error _ => (Z_STREAM_ERROR, nextIn, [], s)

/-! ## The entry between two rounds -/

/-- `D` bytes have been delivered. As long as there are more, the inflater goes on where `next_in` is. -/
structure Inflating (info : EntryInfo) (J : Job) (fuel D : Nat) (e : Entry Inflater) : Prop where
  backed : e.Backed
  header : e.RemainingEncrypt = 0
  err : e.LastErr = .ok
  le : D ≤ J.final.length
  size : J.final.length < 2 ^ 64
  remaining : e.RemainingUncompressed.toNat = J.final.length - D
  running : D < J.final.length → e.nextIn = e.inflateState.input.drop e.inflateState.p ∧
    (∃ bits out, J.Paused (e.waiting info) D bits out (e.inflateState.emptied 0)) ∧
    64 * (e.inflateState.input ++ e.waiting info).length + 261 < fuel

/-- The inflater at the call of a round. -/
theorem Inflating.paused (h : Inflating info J fuel D e) (htight : J.tight) (hD : D < J.final.length) :
    (∃ bits out, J.Paused ((e.filled info).waiting info) D bits out ((fed e.inflateState (e.filled info).nextIn).emptied n)) ∧
      64 * ((fed e.inflateState (e.filled info).nextIn).input ++ (e.filled info).waiting info).length + 261 < fuel ∧
      (e.filled info).nextIn = (fed e.inflateState (e.filled info).nextIn).input.drop (fed e.inflateState (e.filled info).nextIn).p := by
  obtain ⟨hnext, ⟨bits, out, hp⟩, hfuel⟩ := h.running hD
  have hback := h.backed
  by_cases hfill : e.nextIn = [] ∧ e.RemainingCompressed ≠ 0
  · have hpending : (e.filled info).pending info = e.pending info := filled_pending
    have hlen := length_filled_nextIn info hback hfill.1
    have hempty : e.inflateState.p = e.inflateState.input.length := by
      have hread : e.inflateState.p ≤ e.inflateState.input.length := hp.ahead.read
      have hdrop := congrArg List.length hnext
      rw [hfill.1, List.length_nil, List.length_drop] at hdrop
      omega
    have hne : (e.filled info).nextIn ≠ e.inflateState.input.drop e.inflateState.p := by
      intro heq
      rw [← hnext, hfill.1] at heq
      rw [heq, List.length_nil] at hlen
      have hbuf : 0 < UNZ_BUFSIZE := by decide
      have hpos := hfill.2
      omega
    unfold Entry.pending at hpending
    rw [hfill.1, List.nil_append] at hpending
    rw [← hpending] at hp hfuel
    unfold fed
    rw [if_neg hne]
    refine ⟨⟨bits, out, (hp.refill hempty (.inl htight)).emptied n⟩, ?_, rfl⟩
    change 64 * ((e.filled info).nextIn ++ (e.filled info).waiting info).length + 261 < fuel
    rw [List.length_append] at hfuel
    omega
  · have hsame : e.filled info = e := by
      unfold Entry.filled
      rw [if_neg hfill]
    rw [hsame]
    unfold fed
    rw [if_pos hnext]
    exact ⟨⟨bits, out, hp.emptied n⟩, hfuel, hnext⟩

/-! ## One round -/

/-- What a round delivers: the next `k` bytes. -/
structure Unzipped (info : EntryInfo) (J : Job) (fuel D k : Nat) (e e' : Entry Inflater) : Prop
    extends Inflating info J fuel (D + k) e' where
  out : e'.nextOut = e.nextOut ++ (J.final.drop D).take k
  crc : e'.RunningCrc = ucrc32 e.RunningCrc ((J.final.drop D).take k)
  avail : e'.availOut + k = e.availOut
  read : e'.iRead = e.iRead + k

/-- The entry after a call of `inflate` that comes to `s'`. -/
def Entry.inflated (e : Entry Inflater) (s' : Inflater) : Entry Inflater :=
  { e with
    nextIn := s'.input.drop s'.p
    nextOut := e.nextOut ++ s'.nextOut
    availOut := e.availOut - s'.nextOut.length
    inflateState := s'
    RunningCrc := ucrc32 e.RunningCrc s'.nextOut
    RemainingUncompressed := e.RemainingUncompressed - BitVec.ofNat 64 s'.nextOut.length
    iRead := e.iRead + s'.nextOut.length }

@[simp] theorem filled_inflateState : (e.filled info).inflateState = e.inflateState := by
  unfold Entry.filled
  split <;> rfl

/-- A round for a deflated entry, behind the encryption header. -/
theorem returns_readLoop_inflated {r : Int} {s' : Inflater} (hmethod : info.compression_method ≠ 0) (hback : e.Backed)
    (henc : e.RemainingEncrypt = 0) (h0 : e.availOut ≠ 0)
    (hcall : inflateCall fuel e.inflateState (e.filled info).nextIn e.availOut = (r, s'.input.drop s'.p, s'.nextOut, s'))
    (hr : r = 0 ∨ r = Z_STREAM_END) (Q : Bool → Entry Inflater → Prop) :
    Returns (readLoop (inflateCall fuel) info (rounds + 1)) e Q ↔
      if r = Z_STREAM_END ∨ ((e.filled info).inflated s').RemainingUncompressed = 0 then Q true ((e.filled info).inflated s')
      else Returns (readLoop (inflateCall fuel) info rounds) ((e.filled info).inflated s') Q := by
  have hheader : (e.filled info).RemainingEncrypt = 0 := by rw [filled_RemainingEncrypt, henc]
  have hok : ¬(r ≠ 0 ∧ r ≠ Z_STREAM_END) := by
    rintro ⟨hzero, hend⟩
    rcases hr with hr | hr
    · exact hzero hr
    · exact hend hr
  rw [readLoop]
  simp only [returns_bind, returns_get, returns_ite, returns_pure, h0, false_imp_iff, true_and, not_false_eq_true,
    true_imp_iff, returns_fillInput hback, returns_readEncryptionHeader hheader, hmethod, inflateEntry, filled_inflateState,
    filled_availOut, hcall, hok, returns_set, not_true_eq_false]
  have hset : ({ e.filled info with
      nextIn := s'.input.drop s'.p
      nextOut := (e.filled info).nextOut ++ s'.nextOut
      availOut := e.availOut - s'.nextOut.length
      inflateState := s'
      RunningCrc := ucrc32 (e.filled info).RunningCrc s'.nextOut
      RemainingUncompressed := (e.filled info).RemainingUncompressed - BitVec.ofNat 64 s'.nextOut.length
      iRead := (e.filled info).iRead + s'.nextOut.length } : Entry Inflater) = (e.filled info).inflated s' := by
    rw [Entry.inflated, filled_availOut]
  rw [hset]
  exact (ite_prop_iff_and (P := r = Z_STREAM_END ∨ ((e.filled info).inflated s').RemainingUncompressed = 0)).symm

/-- The bytes that have come out are the next ones of the stream. -/
theorem output_of_paused {future : List UInt8} {bits : List Bool} {out : List UInt8} (hp : J.Paused future D bits out s) :
    ∃ more, J.final.drop D = s.nextOut ++ more := by
  obtain ⟨t, ht⟩ := hp.left.starts
  have hcount := hp.holds.count
  have hout := hp.holds.output
  refine ⟨out.drop (out.length - s.waiting) ++ t, ?_⟩
  change out ++ t = J.final at ht
  rw [← ht, List.drop_append_of_le_length (by omega), hout, List.append_assoc]

theorem Entry.Backed.inflated (h : e.Backed) (s' : Inflater) : ((e.filled info).inflated s').Backed := by
  have hfilled : (e.filled info).Backed := h.filled
  obtain ⟨crc, hcrc⟩ := hfilled.crc
  refine ⟨hfilled.archive, hfilled.buffer, ?_⟩
  unfold Entry.inflated
  simp only [hcrc]
  exact ⟨_, crcLoops_eq crc _⟩

/-- What the call of `inflate` has put out has been delivered. -/
theorem Inflating.unzipped (h : Inflating info J fuel D e) {s' : Inflater} {more : List UInt8}
    (hmore : J.final.drop D = s'.nextOut ++ more) (hcount : s'.nextOut.length + s'.availOut = e.availOut)
    (hrunning : D + s'.nextOut.length < J.final.length →
      (∃ bits out, J.Paused ((e.filled info).waiting info) (D + s'.nextOut.length) bits out (s'.emptied 0)) ∧
        64 * (s'.input ++ (e.filled info).waiting info).length + 261 < fuel) :
    Unzipped info J fuel D s'.nextOut.length e ((e.filled info).inflated s') := by
  have hlen := congrArg List.length hmore
  rw [List.length_drop, List.length_append] at hlen
  have hle := h.le
  have hsize := h.size
  have hremaining := h.remaining
  have htake : (J.final.drop D).take s'.nextOut.length = s'.nextOut := by rw [hmore, List.take_left]
  refine ⟨⟨h.backed.inflated s', ?_, ?_, by omega, hsize, ?_, ?_⟩, ?_, ?_, ?_, ?_⟩
  · change (e.filled info).RemainingEncrypt = 0
    rw [filled_RemainingEncrypt, h.header]
  · change (e.filled info).LastErr = .ok
    rw [filled_LastErr, h.err]
  · change ((e.filled info).RemainingUncompressed - BitVec.ofNat 64 s'.nextOut.length).toNat = _
    rw [filled_RemainingUncompressed, BitVec.toNat_sub, BitVec.toNat_ofNat]
    omega
  · intro hlt
    exact ⟨rfl, (hrunning hlt).1, (hrunning hlt).2⟩
  · change (e.filled info).nextOut ++ s'.nextOut = _
    rw [htake, filled_nextOut]
  · change ucrc32 (e.filled info).RunningCrc s'.nextOut = _
    rw [htake, filled_RunningCrc]
  · change (e.filled info).availOut - s'.nextOut.length + s'.nextOut.length = e.availOut
    rw [filled_availOut]
    omega
  · change (e.filled info).iRead + s'.nextOut.length = _
    rw [filled_iRead]

theorem Unzipped.remaining_eq_zero {k : Nat} (h : Unzipped info J fuel D k e e') :
    e'.RemainingUncompressed = 0 ↔ D + k = J.final.length := by
  have hremaining := h.remaining
  have hle := h.le
  constructor
  · intro hzero
    rw [hzero] at hremaining
    change 0 = _ at hremaining
    omega
  · intro hall
    apply BitVec.eq_of_toNat_eq
    rw [hremaining, hall, Nat.sub_self]
    rfl

/-- A call that comes to the end of the stream. -/
theorem Inflating.ends (h : Inflating info J fuel D e) (hD : D < J.final.length) {s₀ s' : Inflater}
    (hends : J.Ends D (s₀.emptied e.availOut) s') :
    Unzipped info J fuel D s'.nextOut.length e ((e.filled info).inflated s') ∧ D + s'.nextOut.length = J.final.length := by
  have hcount : s'.nextOut.length + s'.availOut = e.availOut := by
    rw [hends.count]
    exact Nat.zero_add _
  have hall : D + s'.nextOut.length = J.final.length := by
    rw [← hends.output, List.length_drop]
    omega
  have hnone : J.final.drop D = s'.nextOut ++ [] := by rw [hends.output, List.append_nil]
  exact ⟨h.unzipped hnone hcount fun hlt => absurd hall (Nat.ne_of_lt hlt), hall⟩

section
variable {r : Int} {s' : Inflater}

/-- A call that leaves in the middle returns `Z_OK`: without any progress all would have been delivered. -/
theorem Inflating.stays_ok (h : Inflating info J fuel D e) (htight : J.tight) (hD : D < J.final.length) (h0 : e.availOut ≠ 0)
    (hstays : J.Stays ((e.filled info).waiting info) D r ((fed e.inflateState (e.filled info).nextIn).emptied e.availOut) s') :
    r = Z_OK := by
  rcases hstays.result with hok | ⟨-, hp, hnone⟩
  · exact hok
  · exfalso
    have hnil : s'.nextOut = [] := hnone
    have hcount : s'.nextOut.length + s'.availOut = 0 + e.availOut := hstays.count
    rw [hnil, List.length_nil] at hcount
    rcases hstays.stuck with hfull | hstuck
    · omega
    · -- no input was used, so there was none, and the filled buffer is empty only at the end of the entry
      obtain ⟨-, -, hnext⟩ := h.paused (n := e.availOut) htight hD
      have hinput : s'.input = (fed e.inflateState (e.filled info).nextIn).input := hstays.input
      have hused : (e.filled info).nextIn = [] := by
        rw [hnext]
        apply List.drop_eq_nil_of_le
        rw [← hinput, ← hstuck.2.1]
        exact hp
      obtain ⟨bits, out, hpaused⟩ := hstays.paused
      rw [waiting_filled_eq_nil h.backed hused] at hpaused
      have hdone := hpaused.finished htight hstuck
      rw [hnil, List.length_nil] at hdone
      omega

/-- It has filled the output buffer, delivered all, or used its input with more to come. -/
theorem Inflating.stays (h : Inflating info J fuel D e) (htight : J.tight) (hD : D < J.final.length)
    (hstays : J.Stays ((e.filled info).waiting info) D r ((fed e.inflateState (e.filled info).nextIn).emptied e.availOut) s') :
    Unzipped info J fuel D s'.nextOut.length e ((e.filled info).inflated s') ∧
      (((e.filled info).inflated s').availOut = 0 ∨ D + s'.nextOut.length = J.final.length ∨
        ((e.filled info).inflated s').nextIn = [] ∧ (e.filled info).RemainingCompressed ≠ 0) := by
  obtain ⟨-, hfuel, -⟩ := h.paused (n := e.availOut) htight hD
  obtain ⟨bits, out, hp⟩ := hstays.paused
  obtain ⟨more, hmore⟩ := output_of_paused hp
  have hcount : s'.nextOut.length + s'.availOut = e.availOut := by
    rw [hstays.count]
    exact Nat.zero_add _
  refine ⟨h.unzipped hmore hcount fun _ => ⟨⟨bits, out, hp.emptied 0⟩, by rw [hstays.input]; exact hfuel⟩, ?_⟩
  rcases hstays.stuck with hfull | hstuck
  · left
    change (e.filled info).availOut - s'.nextOut.length = 0
    rw [filled_availOut]
    omega
  · by_cases hall : D + s'.nextOut.length = J.final.length
    · exact .inr (.inl hall)
    · refine .inr (.inr ⟨?_, ?_⟩)
      · change s'.input.drop s'.p = []
        rw [hstuck.2.1, List.drop_length]
      · -- nothing to come and nothing to read: the calls have delivered all
        intro hzero
        have hfilled : (e.filled info).Backed := h.backed.filled
        have hwaiting := length_waiting info hfilled
        rw [hzero] at hwaiting
        rw [List.eq_nil_of_length_eq_zero hwaiting] at hp
        exact hall (hp.finished htight hstuck)

end

/-- A round, and whether the loop goes on behind it. -/
theorem Inflating.round (h : Inflating info J fuel D e) (htight : J.tight)
    (hmethod : info.compression_method ≠ 0) (hD : D < J.final.length) (h0 : e.availOut ≠ 0) :
    ∃ k e', Unzipped info J fuel D k e e' ∧
      (e'.availOut = 0 ∨ D + k = J.final.length ∨
        e'.nextIn = [] ∧ e'.RemainingCompressed ≠ 0 ∧ e'.RemainingCompressed = (e.filled info).RemainingCompressed) ∧
      ∀ rounds Q, (if D + k = J.final.length then Q true e' else Returns (readLoop (inflateCall fuel) info rounds) e' Q) →
        Returns (readLoop (inflateCall fuel) info (rounds + 1)) e Q := by
  obtain ⟨⟨bits, out, hp⟩, hfuel, -⟩ := h.paused (n := e.availOut) htight hD
  obtain ⟨r, s', hrun, hcase⟩ := returns_inflate hp hfuel
  have hcall : inflateCall fuel e.inflateState (e.filled info).nextIn e.availOut = (r, s'.input.drop s'.p, s'.nextOut, s') := by
    unfold inflateCall
    rw [hrun]
  rcases hcase with ⟨rfl, hends⟩ | hstays
  · obtain ⟨hunzipped, hall⟩ := h.ends hD hends
    refine ⟨_, _, hunzipped, .inr (.inl hall), ?_⟩
    intro rounds Q hQ
    rw [returns_readLoop_inflated hmethod h.backed h.header h0 hcall (.inr rfl), if_pos (.inl rfl)]
    rw [if_pos hall] at hQ
    exact hQ
  · obtain ⟨hunzipped, hstop⟩ := h.stays htight hD hstays
    have hok := h.stays_ok htight hD h0 hstays
    refine ⟨_, _, hunzipped, hstop.imp_right (Or.imp_right fun hmore => ⟨hmore.1, hmore.2, rfl⟩), ?_⟩
    intro rounds Q hQ
    have hne : r ≠ Z_STREAM_END := by
      rw [hok]
      decide
    rw [returns_readLoop_inflated hmethod h.backed h.header h0 hcall (.inl hok)]
    simp only [hne, false_or, hunzipped.remaining_eq_zero]
    exact hQ

/-! ## One call -/

theorem Unzipped.refl (h : Inflating info J fuel D e) : Unzipped info J fuel D 0 e e := by
  obtain ⟨crc, hcrc⟩ := h.backed.crc
  refine ⟨h, by simp, ?_, rfl, rfl⟩
  rw [List.take_zero, hcrc]
  exact foldl_crcLoops crc []

theorem Unzipped.trans {e₁ e₂ : Entry Inflater} {k l : Nat} (h : Inflating info J fuel D e) (h₁ : Unzipped info J fuel D k e e₁)
    (h₂ : Unzipped info J fuel (D + k) l e₁ e₂) : Unzipped info J fuel D (k + l) e e₂ := by
  obtain ⟨crc, hcrc⟩ := h.backed.crc
  have havail := h₁.avail
  have havail' := h₂.avail
  refine ⟨Nat.add_assoc D k l ▸ h₂.toInflating, ?_, ?_, by omega, ?_⟩
  · rw [h₂.out, h₁.out, ← List.drop_drop, List.append_assoc, ← List.take_add]
  · rw [h₂.crc, h₁.crc, hcrc, ← List.drop_drop, List.take_add]
    exact crcLoops_append crc _ _
  · rw [h₂.read, h₁.read, Nat.add_assoc]

/-- The loop delivers what is asked for. A round fills the output buffer, ends the stream or uses all of its input. -/
theorem Inflating.loop (h : Inflating info J fuel D e) (htight : J.tight)
    (hmethod : info.compression_method ≠ 0) (hcount : e.availOut ≤ e.RemainingUncompressed.toNat)
    (hrounds : e.RemainingCompressed + (if e.nextIn = [] then 0 else 1) + 1 < rounds ∨ e.availOut = 0 ∧ 0 < rounds) :
    Returns (readLoop (inflateCall fuel) info rounds) e fun ok e' => ok = true ∧ Unzipped info J fuel D e.availOut e e' := by
  induction rounds generalizing e D with
  | zero => omega
  | succ rounds ih =>
    by_cases h0 : e.availOut = 0
    · rw [readLoop]
      simp only [returns_bind, returns_get, h0, if_true, returns_pure, true_and]
      exact .refl h
    · have hremaining := h.remaining
      obtain ⟨k, e₁, hunzipped, hstop, hnext⟩ := h.round htight hmethod (by omega) h0
      have havail := hunzipped.avail
      have hle := hunzipped.le
      apply hnext
      by_cases hdone : D + k = J.final.length
      · rw [if_pos hdone]
        have hk : k = e.availOut := by omega
        exact ⟨rfl, hk ▸ hunzipped⟩
      · have hremaining' := hunzipped.remaining
        rw [if_neg hdone]
        refine (ih hunzipped.toInflating (by omega) ?_).mono ?_
        · rcases hstop with hfull | hall | ⟨hnil, hmore, hsame⟩
          · exact .inr ⟨hfull, by omega⟩
          · exact absurd hall hdone
          · left
            rw [if_pos hnil]
            rcases hrounds with hrounds | ⟨hzero, -⟩
            · by_cases hinput : e.nextIn = []
              · -- This round has read from the archive.
                have hfill : e.RemainingCompressed ≠ 0 := by
                  intro hzero
                  rw [Entry.filled, if_neg (fun hn => hn.2 hzero)] at hsame
                  omega
                rw [Entry.filled, if_pos ⟨hinput, hfill⟩] at hsame
                change e₁.RemainingCompressed = e.RemainingCompressed - min UNZ_BUFSIZE e.RemainingCompressed at hsame
                have hbuf : 0 < UNZ_BUFSIZE := by decide
                omega
              · rw [filled_of_ne_nil hinput] at hsame
                rw [if_neg hinput] at hrounds
                omega
            · exact absurd hzero h0
        · rintro ok e₂ ⟨hok, hrest⟩
          refine ⟨hok, ?_⟩
          have hall := hunzipped.trans h hrest
          rwa [show k + e₁.availOut = e.availOut by omega] at hall

/-- What a call leaves that has delivered `n` bytes. -/
structure Unzips (info : EntryInfo) (J : Job) (fuel D n : Nat) (e e' : Entry Inflater) : Prop
    extends Inflating info J fuel (D + n) e' where
  out : e'.nextOut = (J.final.drop D).take n
  crc : e'.RunningCrc = ucrc32 e.RunningCrc ((J.final.drop D).take n)

theorem returns_readEntry_deflated (h : Inflating info J fuel D e) (htight : J.tight)
    (hmethod : info.compression_method ≠ 0) (hfuel : 0 < fuel) (len : Nat) :
    Returns (readEntry (inflateCall fuel) info len fuel) e fun n e' =>
      n = min len (J.final.length - D) ∧ Unzips info J fuel D n e e' := by
  rw [returns_readEntry_eq]
  have hcalled : Inflating info J fuel D (e.called len) := ⟨⟨h.backed.archive, h.backed.buffer, h.backed.crc⟩, h.header, h.err, h.le,
    h.size, h.remaining, h.running⟩
  have hremaining := h.remaining
  have hrounds : (e.called len).RemainingCompressed + (if (e.called len).nextIn = [] then 0 else 1) + 1 < fuel ∨
      (e.called len).availOut = 0 ∧ 0 < fuel := by
    by_cases hD : D < J.final.length
    · have hrun := (h.running hD).2.2
      have hwait := length_waiting info h.backed
      rw [List.length_append, hwait] at hrun
      left
      change e.RemainingCompressed + (if e.nextIn = [] then 0 else 1) + 1 < fuel
      split <;> omega
    · right
      change min len e.RemainingUncompressed.toNat = 0 ∧ 0 < fuel
      omega
  refine (hcalled.loop htight hmethod (Nat.min_le_right _ _) hrounds).mono ?_
  rintro ok e' ⟨hok, hunzipped⟩
  have hread : e'.iRead = min len (J.final.length - D) := by
    rw [hunzipped.read, ← hremaining]
    exact Nat.zero_add _
  have havail : (e.called len).availOut = min len (J.final.length - D) := congrArg (min len) hremaining
  rw [havail] at hunzipped
  rw [hok, if_pos rfl, hread]
  exact ⟨rfl, hunzipped.toInflating, hunzipped.out, hunzipped.crc⟩

/-! ## Calls one after the other -/

theorem take_add_min (bytes : List UInt8) (n k : Nat) :
    bytes.take (n + k) = bytes.take (min n bytes.length) ++ (bytes.drop (min n bytes.length)).take k := by
  by_cases hn : n ≤ bytes.length
  · rw [Nat.min_eq_left hn, List.take_add]
  · have hle : bytes.length ≤ n := Nat.le_of_not_le hn
    rw [Nat.min_eq_right hle, List.take_of_length_le (Nat.le_add_right_of_le hle), List.take_length, List.drop_length, List.take_nil,
      List.append_nil]

theorem returns_readCalls_deflated (h : Inflating info J fuel D e) (htight : J.tight)
    (hmethod : info.compression_method ≠ 0) (hfuel : 0 < fuel) (lens : List Nat) :
    Returns (readCalls (inflateCall fuel) info fuel lens) e fun pieces e' =>
      pieces.flatten = (J.final.drop D).take lens.sum ∧ e'.RunningCrc = ucrc32 e.RunningCrc pieces.flatten ∧ e'.LastErr = .ok := by
  induction lens generalizing e D with
  | nil =>
    unfold readCalls
    have hcrc := (Unzipped.refl h).crc
    rw [List.take_zero] at hcrc
    rw [returns_pure, List.flatten_nil, List.sum_nil, List.take_zero]
    exact ⟨rfl, hcrc, h.err⟩
  | cons len lens ih =>
    unfold readCalls
    refine (returns_readEntry_deflated h htight hmethod hfuel len).bind ?_
    rintro n e₁ ⟨hn, hunzips⟩
    rw [returns_bind, returns_get]
    refine (ih hunzips.toInflating).bind ?_
    rintro pieces e₂ ⟨hpieces, hcrc, herr⟩
    have hsplit : (J.final.drop D).take (len + lens.sum) = (J.final.drop D).take n ++ pieces.flatten := by
      rw [hpieces, ← List.drop_drop, hn, ← List.length_drop]
      exact take_add_min _ _ _
    rw [returns_pure, List.flatten_cons, List.sum_cons, hunzips.out, List.take_take, Nat.min_self, hsplit]
    obtain ⟨crc, hcrc₀⟩ := h.backed.crc
    refine ⟨rfl, ?_, herr⟩
    rw [hcrc, hunzips.crc, hcrc₀]
    exact crcLoops_append crc _ _

/-- The loop of `unzipEntry`: all that has not been delivered yet. Every call but the last delivers something. -/
theorem returns_unzipLoop_deflated (h : Inflating info J fuel D e) (htight : J.tight)
    (hmethod : info.compression_method ≠ 0) (hfuel : 0 < fuel) {calls : Nat} (hcalls : J.final.length - D < calls)
    (written : List UInt8) :
    Returns (unzipLoop (inflateCall fuel) info fuel calls written) e fun out e' =>
      out = written ++ J.final.drop D ∧ e'.RunningCrc = ucrc32 e.RunningCrc (J.final.drop D) ∧ e'.LastErr = .ok := by
  induction calls generalizing e D written with
  | zero => exact absurd hcalls (Nat.not_lt_zero _)
  | succ calls ih =>
    unfold unzipLoop
    rw [returns_bind, returns_get, if_neg (fun hn => hn h.err)]
    refine (returns_readEntry_deflated h htight hmethod hfuel 16384).bind ?_
    rintro n e₁ ⟨hn, hunzips⟩
    have hcrc := hunzips.crc
    by_cases h0 : n = 0
    · have hall : J.final.drop D = [] := List.drop_eq_nil_of_le (by omega)
      rw [hall, List.take_nil] at hcrc
      rw [if_pos h0, returns_pure, hall, List.append_nil]
      exact ⟨rfl, hcrc, hunzips.err⟩
    · rw [if_neg h0, returns_bind, returns_get]
      refine (ih hunzips.toInflating (by omega) _).mono ?_
      rintro out e' ⟨hout, hcrc', herr⟩
      obtain ⟨crc, hcrc₀⟩ := h.backed.crc
      refine ⟨?_, ?_, herr⟩
      · rw [hout, hunzips.out, List.take_take, Nat.min_self, List.append_assoc, ← List.drop_drop, List.take_append_drop]
      · rw [hcrc', hcrc, hcrc₀, ← List.drop_drop]
        refine (crcLoops_append crc _ _).trans ?_
        rw [List.take_append_drop]
        rfl

/-! ## A deflated entry that is not encrypted -/

variable {InputBuffer data rest window final : List UInt8} {hufts : List Huft} {trailing : List Bool}

/-- The entry when it has been opened. -/
theorem inflating_initEntry (rest : List UInt8) (hufts : List Huft) (hplain : info.encrypted = false)
    (hbuffer : InputBuffer.length = UNZ_BUFSIZE) (hdata : data.length = info.compressed_size) (hwindow : window.length = 32768)
    (hsize : info.uncompressed_size.toNat = final.length) (hstream : FixedStream 32768 trailing final false [] (bytesBits data))
    (hfuel : 64 * data.length + 261 < fuel) :
    Inflating info ⟨True, trailing, final⟩ fuel 0 (initEntry info InputBuffer (data ++ rest) (inflateInit window hufts)) := by
  have hwait : (initEntry info InputBuffer (data ++ rest) (inflateInit window hufts)).waiting info = data := by
    simp [Entry.waiting, initEntry, hplain, ← hdata]
  have hpos : 0 < ((inflateInit window hufts).emptied 0).size := by
    change 0 < window.length
    omega
  refine ⟨backed_initEntry rest _ (Nat.le_of_eq hbuffer.symm) hdata, by simp [initEntry, hplain], rfl, Nat.zero_le _,
    hsize ▸ info.uncompressed_size.isLt, hsize, fun _ => ⟨rfl, ⟨bytesBits data, [], ?_⟩, ?_⟩⟩
  · rw [hwait]
    refine ⟨rfl, ?_, ⟨Nat.le_refl _, ⟨[], 0, rfl, rfl⟩, 0, Nat.le_refl _, rfl⟩,
      ⟨hpos, Nat.zero_le _, Nat.zero_le _, rfl, holdsEnd_nil _, rfl, rfl⟩, hpos, ⟨Nat.zero_le _, .inr ⟨trivial, Nat.zero_le _⟩⟩,
      ?_⟩
    have hleft : Stream True window.length trailing final false hufts [] (bytesBits data) := hwindow ▸ hstream.stream
    · exact hleft
    · change BlocksMode.type ≠ .done
      simp
  · rw [hwait]
    exact hfuel

/-- An entry that is deflated, in stored blocks and blocks with the fixed codes, in an archive that holds its data and knows its
size: however much each call asks for and wherever the buffers end, the calls come back, what they have delivered together is what
the blocks stand for, as far as it was asked for, and the running checksum is that of what was delivered. -/
theorem readCalls_deflated (info : EntryInfo) (InputBuffer data rest window final : List UInt8) (hufts : List Huft) (trailing : List Bool)
    (lens : List Nat) (hmethod : info.compression_method ≠ 0) (hplain : info.encrypted = false)
    (hbuffer : InputBuffer.length = UNZ_BUFSIZE)
    (hdata : data.length = info.compressed_size) (hwindow : window.length = 32768) (hsize : info.uncompressed_size.toNat = final.length)
    (hstream : FixedStream 32768 trailing final false [] (bytesBits data)) :
    Finishes (fun fuel => readCalls (inflateCall fuel) info fuel lens)
      (initEntry info InputBuffer (data ++ rest) (inflateInit window hufts))
      fun pieces e => pieces.flatten = final.take lens.sum ∧
        e.RunningCrc = (Crc32.mgChecksumCrc32 (List.replicate 9 0) pieces.flatten).2.setWidth 64 ∧ e.LastErr = .ok := by
  refine Finishes.of_lt (n := 64 * data.length + 261) fun fuel hfuel => ?_
  have hinit : Inflating info ⟨True, trailing, final⟩ fuel 0 (initEntry info InputBuffer (data ++ rest) (inflateInit window hufts)) :=
    inflating_initEntry rest hufts hplain hbuffer hdata hwindow hsize hstream hfuel
  refine (returns_readCalls_deflated hinit trivial hmethod (by omega) lens).mono ?_
  rintro pieces e ⟨hpieces, hcrc, herr⟩
  refine ⟨hpieces, ?_, herr⟩
  rw [hcrc, Crc32.mgChecksumCrc32, Crc32.mgCrc32_whole]
  exact crcLoops_zero _

/-- A block of one literal byte and a copy of four. -/
theorem fixedStream_aaaaa : FixedStream 32768 [false, false] [97, 97, 97, 97, 97] false [] (bytesBits [75, 4, 1, 0]) := by
  have hbits : bytesBits [75, 4, 1, 0] =
      true :: true :: false :: (fixedCode 97 ++ (fixedCode (257 + 1) ++ ([] ++ (codeBits 5 0 ++ ([] ++
        (fixedCode 256 ++ [false, false])))))) := by decide
  rw [hbits]
  exact .fixed (.lit 97 (.copy (by decide) (by decide) rfl rfl .done)) ⟨trivial, ⟨by decide, by decide, by decide⟩, trivial⟩ .done

theorem readCalls_deflated_aaaaa :
    Finishes (fun fuel => readCalls (inflateCall fuel) ⟨0, 8, 0, 0, 4, 5, none⟩ fuel [2, 100])
      (initEntry ⟨0, 8, 0, 0, 4, 5, none⟩ (List.replicate UNZ_BUFSIZE 0) ([75, 4, 1, 0] ++ [9])
        (inflateInit (List.replicate 32768 0) []))
      fun pieces e => pieces.flatten = [97, 97, 97, 97, 97].take [2, 100].sum ∧
        e.RunningCrc = (Crc32.mgChecksumCrc32 (List.replicate 9 0) pieces.flatten).2.setWidth 64 ∧ e.LastErr = .ok :=
  readCalls_deflated ⟨0, 8, 0, 0, 4, 5, none⟩ (List.replicate UNZ_BUFSIZE 0) [75, 4, 1, 0] [9] (List.replicate 32768 0)
    [97, 97, 97, 97, 97] [] [false, false] [2, 100] (by decide) rfl List.length_replicate rfl List.length_replicate rfl fixedStream_aaaaa

theorem returns_unzipLoop_initEntry (rest : List UInt8) (hufts : List Huft) (hmethod : info.compression_method ≠ 0)
    (hplain : info.encrypted = false) (hbuffer : InputBuffer.length = UNZ_BUFSIZE) (hdata : data.length = info.compressed_size)
    (hwindow : window.length = 32768) (hsize : info.uncompressed_size.toNat = final.length)
    (hstream : FixedStream 32768 trailing final false [] (bytesBits data)) (hfuel : 64 * data.length + 261 + final.length < fuel) :
    Returns (unzipLoop (inflateCall fuel) info fuel fuel []) (initEntry info InputBuffer (data ++ rest) (inflateInit window hufts))
      fun out e => out = final ∧ e.RunningCrc = (Crc32.mgChecksumCrc32 (List.replicate 9 0) final).2.setWidth 64 ∧ e.LastErr = .ok := by
  have hinit : Inflating info ⟨True, trailing, final⟩ fuel 0 (initEntry info InputBuffer (data ++ rest) (inflateInit window hufts)) :=
    inflating_initEntry rest hufts hplain hbuffer hdata hwindow hsize hstream
      (show 64 * data.length + 261 < fuel by omega)
  refine (returns_unzipLoop_deflated hinit trivial hmethod (by omega) (show final.length - 0 < fuel by omega) []).mono ?_
  rintro out e ⟨hout, hcrc, herr⟩
  refine ⟨hout, ?_, herr⟩
  rw [hcrc, Crc32.mgChecksumCrc32, Crc32.mgCrc32_whole]
  exact crcLoops_zero _

/-- The same for the loop of `unzipEntry`: the file has all that the blocks stand for. -/
theorem unzipLoop_deflated (info : EntryInfo) (InputBuffer data rest window final : List UInt8) (hufts : List Huft) (trailing : List Bool)
    (hmethod : info.compression_method ≠ 0) (hplain : info.encrypted = false) (hbuffer : InputBuffer.length = UNZ_BUFSIZE)
    (hdata : data.length = info.compressed_size) (hwindow : window.length = 32768) (hsize : info.uncompressed_size.toNat = final.length)
    (hstream : FixedStream 32768 trailing final false [] (bytesBits data)) :
    Finishes (fun fuel => unzipLoop (inflateCall fuel) info fuel fuel [])
      (initEntry info InputBuffer (data ++ rest) (inflateInit window hufts))
      fun out e => out = final ∧ e.RunningCrc = (Crc32.mgChecksumCrc32 (List.replicate 9 0) final).2.setWidth 64 ∧ e.LastErr = .ok := by
  refine Finishes.of_lt (n := 64 * data.length + 261 + final.length) fun fuel hfuel => ?_
  exact returns_unzipLoop_initEntry rest hufts hmethod hplain hbuffer hdata hwindow hsize hstream hfuel

theorem unzipLoop_deflated_aaaaa :
    Finishes (fun fuel => unzipLoop (inflateCall fuel) ⟨0, 8, 0, 0, 4, 5, none⟩ fuel fuel [])
      (initEntry ⟨0, 8, 0, 0, 4, 5, none⟩ (List.replicate UNZ_BUFSIZE 0) ([75, 4, 1, 0] ++ [9])
        (inflateInit (List.replicate 32768 0) []))
      fun out e => out = [97, 97, 97, 97, 97] ∧
        e.RunningCrc = (Crc32.mgChecksumCrc32 (List.replicate 9 0) [97, 97, 97, 97, 97]).2.setWidth 64 ∧ e.LastErr = .ok :=
  unzipLoop_deflated ⟨0, 8, 0, 0, 4, 5, none⟩ (List.replicate UNZ_BUFSIZE 0) [75, 4, 1, 0] [9] (List.replicate 32768 0)
    [97, 97, 97, 97, 97] [] [false, false] (by decide) rfl List.length_replicate rfl List.length_replicate rfl fixedStream_aaaaa

end MgStd.Zip
