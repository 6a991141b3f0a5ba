import MgStd.Lib.BitString
import MgStd.Inflate.Code
/-!
# The bit buffer of `inflate`

The bits that the inflater has not used yet: those in its buffer, then those of the
input of the call and of the calls behind it. When bytes have gone back to the
input, the buffer still has their bits above those that count; they are the same
bits when these bytes are read again.
-/

namespace MgStd.Inflate

open MgStd.Lib

variable {s s' : Inflater} {future : List UInt8} {bits : List Bool} {j : Nat}

/-- `bits` are ahead: `future` is what the calls behind this one will have as input, and `carry` came before the input of this one. -/
structure Inflater.Ahead (future : List UInt8) (bits : List Bool) (s : Inflater) : Prop where
  read : s.p ≤ s.input.length
  ahead : ∃ carry d, d + s.bitk = carry.length + 8 * s.p ∧ bits = (carry ++ bytesBits (s.input ++ future)).drop d
  buffer : ∃ j, s.bitk ≤ j ∧ s.bitb = bitsNat (bits.take j)

/-- Only the input has changed, and `r`. -/
def Inflater.SameOutput (s s' : Inflater) : Prop :=
  ∃ r b k p, s' = { s with r := r, bitb := b, bitk := k, p := p }

theorem Inflater.SameOutput.refl (s : Inflater) : s.SameOutput s := ⟨_, _, _, _, rfl⟩

theorem Inflater.SameOutput.trans {s'' : Inflater} (h : s.SameOutput s') (h' : s'.SameOutput s'') : s.SameOutput s'' := by
  obtain ⟨_, _, _, _, rfl⟩ := h
  obtain ⟨_, _, _, _, rfl⟩ := h'
  exact ⟨_, _, _, _, rfl⟩

/-- The bits in the buffer, and those behind them. -/
theorem Inflater.Ahead.split (h : s.Ahead future bits) :
    ∃ buffered, buffered.length = s.bitk ∧ bits = buffered ++ bytesBits (s.input.drop s.p ++ future) := by
  obtain ⟨carry, d, hd, hbits⟩ := h.ahead
  have hread := h.read
  have hlen : (carry ++ bytesBits (s.input.take s.p)).length = d + s.bitk := by
    rw [List.length_append, length_bytesBits, List.length_take, Nat.min_eq_left hread, hd]
  refine ⟨(carry ++ bytesBits (s.input.take s.p)).drop d, ?_, ?_⟩
  · rw [List.length_drop, hlen, Nat.add_sub_cancel_left]
  · rw [hbits, ← List.drop_append_of_le_length (by omega), List.append_assoc, ← bytesBits_append, ← List.append_assoc (s.input.take s.p),
      List.take_append_drop]

theorem Inflater.Ahead.le_length (h : s.Ahead future bits) : s.bitk ≤ bits.length := by
  obtain ⟨buffered, hlen, hbits⟩ := h.split
  rw [hbits, List.length_append, hlen]
  exact Nat.le_add_right _ _

/-- What the buffer shows. -/
theorem Inflater.Ahead.peek (h : s.Ahead future bits) (hj : j ≤ s.bitk) : s.peek j = bitsNat (bits.take j) := by
  obtain ⟨i, hi, hbuf⟩ := h.buffer
  rw [Inflater.peek, hbuf, Nat.one_shiftLeft, ← bitsNat_take, List.take_take, Nat.min_eq_left (Nat.le_trans hj hi)]

/-- Behind `DUMPBITS(j)`. -/
def Inflater.dumped (s : Inflater) (j : Nat) : Inflater := { s with bitb := s.bitb >>> j, bitk := s.bitk - j }

@[simp] theorem returns_DUMPBITS (j : Nat) (s : Inflater) (Q : Unit → Inflater → Prop) : Returns (DUMPBITS j) s Q ↔ Q () (s.dumped j) :=
  returns_modify _ _ _

theorem dumped_dumped (s : Inflater) (i j : Nat) : (s.dumped i).dumped j = s.dumped (i + j) := by
  unfold Inflater.dumped
  simp only [Nat.shiftRight_add, Nat.sub_sub]

theorem Inflater.Ahead.dump (h : s.Ahead future bits) (hj : j ≤ s.bitk) : (s.dumped j).Ahead future (bits.drop j) := by
  obtain ⟨hread, ⟨carry, d, hd, hbits⟩, i, hi, hbuf⟩ := h
  refine ⟨hread, ⟨carry, d + j, ?_, ?_⟩, i - j, ?_, ?_⟩
  · change d + j + (s.bitk - j) = carry.length + 8 * s.p
    omega
  · rw [hbits, List.drop_drop]
    rfl
  · exact Nat.sub_le_sub_right hi j
  · change s.bitb >>> j = _
    rw [hbuf, Nat.shiftRight_eq_div_pow, ← bitsNat_drop, List.drop_take]

/-- Bytes go back to the input; the buffer keeps their bits. -/
theorem Inflater.Ahead.ungrab (h : s.Ahead future bits) {c : Nat} (hp : c ≤ s.p) (hk : 8 * c ≤ s.bitk) :
    ({ s with p := s.p - c, bitk := s.bitk - 8 * c } : Inflater).Ahead future bits := by
  obtain ⟨hread, ⟨carry, d, hd, hbits⟩, i, hi, hbuf⟩ := h
  refine ⟨Nat.le_trans (Nat.sub_le _ _) hread, ⟨carry, d, ?_, hbits⟩, i, Nat.le_trans (Nat.sub_le _ _) hi, hbuf⟩
  change d + (s.bitk - 8 * c) = carry.length + 8 * (s.p - c)
  omega

/-- All of the input has been read, and there is more. -/
theorem Inflater.Ahead.refill {chunk : List UInt8} (h : s.Ahead (chunk ++ future) bits) (hp : s.p = s.input.length) :
    ({ s with input := chunk, p := 0 } : Inflater).Ahead future bits := by
  obtain ⟨hread, ⟨carry, d, hd, hbits⟩, hbuf⟩ := h
  refine ⟨Nat.zero_le _, ⟨carry ++ bytesBits s.input, d, ?_, ?_⟩, hbuf⟩
  · rw [List.length_append, length_bytesBits, hd, hp]
    rfl
  · rw [hbits, bytesBits_append, List.append_assoc]

/-- A byte is read into the buffer. -/
theorem Inflater.Ahead.grab (h : s.Ahead future bits) (hp : s.p < s.input.length) (r : Int) :
    ({ s with r := r, bitb := s.bitb ||| (s.input.get ⟨s.p, hp⟩).toNat <<< s.bitk, bitk := s.bitk + 8, p := s.p + 1 } : Inflater).Ahead
      future bits := by
  obtain ⟨buffered, hlen, hbits⟩ := h.split
  obtain ⟨hread, ⟨carry, d, hd, hdrop⟩, i, hi, hbuf⟩ := h
  have hnext : s.input.drop s.p = s.input.get ⟨s.p, hp⟩ :: s.input.drop (s.p + 1) := List.drop_eq_getElem_cons hp
  rw [hnext, List.cons_append, bytesBits_cons] at hbits
  refine ⟨hp, ⟨carry, d, ?_, hdrop⟩, max i (s.bitk + 8), Nat.le_max_right _ _, ?_⟩
  · change d + (s.bitk + 8) = carry.length + 8 * (s.p + 1)
    omega
  · have hbyte : natBits 8 (s.input.get ⟨s.p, hp⟩).toNat = (bits.drop s.bitk).take 8 := by
      rw [hbits, ← hlen, List.drop_left, List.take_left' length_natBits]
    change s.bitb ||| _ = _
    rw [hbuf, bitsNat_take_or hbyte (UInt8.toNat_lt _) hi]

/-- From `s` to `s'` some of the input has gone to the buffer: `r` says so. -/
structure Inflater.Fetched (s s' : Inflater) : Prop where
  same : s.SameOutput s'
  le : s.p ≤ s'.p
  r : s'.p = s.p ∧ s'.r = s.r ∨ s.p < s'.p ∧ s'.r = Z_OK

theorem Inflater.Fetched.refl (s : Inflater) : s.Fetched s := ⟨.refl s, Nat.le_refl _, .inl ⟨rfl, rfl⟩⟩

/-- What `NEEDBITS(j)` comes to: the bits are in the buffer, or all of the input is and it is not enough. -/
structure Inflater.Needed (future : List UInt8) (bits : List Bool) (j : Nat) (s : Inflater) (ok : Bool) (s' : Inflater) : Prop where
  ahead : s'.Ahead future bits
  fetched : s.Fetched s'
  count : s'.bitk + 8 * s.p = s.bitk + 8 * s'.p
  enough : ok = true → j ≤ s'.bitk ∧ (s'.bitk = s.bitk ∨ s.p < s'.p ∧ s'.bitk < j + 8)
  empty : ok = false → s'.p = s'.input.length ∧ s'.bitk < j

theorem returns_needBits (h : s.Ahead future bits) {fuel : Nat} (hfuel : j ≤ s.bitk + fuel) :
    Returns (needBits j (fuel + 1)) s fun ok s' => s.Needed future bits j ok s' := by
  induction fuel generalizing s with
  | zero =>
    unfold needBits
    rw [returns_bind, returns_get, if_neg (show ¬ s.bitk < j by omega), returns_pure]
    exact ⟨h, .refl s, rfl, fun _ => ⟨hfuel, .inl rfl⟩, fun hn => Bool.noConfusion hn⟩
  | succ fuel ih =>
    unfold needBits
    rw [returns_bind, returns_get]
    by_cases hk : s.bitk < j
    · rw [if_pos hk]
      by_cases hp : s.p < s.input.length
      · rw [dif_pos hp, returns_bind, returns_set]
        have hgrab := h.grab hp Z_OK
        refine (ih hgrab (show j ≤ s.bitk + 8 + fuel by omega)).mono ?_
        rintro ok s' ⟨hahead, ⟨hsame, hle, hr⟩, hcount, henough, hempty⟩
        have hlt : s.p < s'.p := hle
        refine ⟨hahead, ⟨.trans ⟨_, _, _, _, rfl⟩ hsame, Nat.le_of_lt hlt, .inr ⟨hlt, ?_⟩⟩, ?_,
          fun hok => ⟨(henough hok).1, .inr ⟨hlt, ?_⟩⟩, hempty⟩
        · rcases hr with ⟨-, hr⟩ | ⟨-, hr⟩ <;> exact hr
        · change s'.bitk + 8 * (s.p + 1) = s.bitk + 8 + 8 * s'.p at hcount
          omega
        · rcases (henough hok).2 with hkeep | ⟨-, hkeep⟩
          · rw [hkeep]
            exact Nat.add_lt_add_right hk 8
          · exact hkeep
      · rw [dif_neg hp, returns_pure]
        exact ⟨h, .refl s, rfl, fun hn => Bool.noConfusion hn, fun _ => ⟨Nat.le_antisymm h.read (Nat.le_of_not_lt hp), hk⟩⟩
    · rw [if_neg hk, returns_pure]
      exact ⟨h, .refl s, rfl, fun _ => ⟨Nat.le_of_not_lt hk, .inl rfl⟩, fun hn => Bool.noConfusion hn⟩

theorem returns_NEEDBITS (h : s.Ahead future bits) (j : Nat) : Returns (NEEDBITS j) s fun ok s' => s.Needed future bits j ok s' :=
  returns_needBits h (Nat.le_add_left j s.bitk)

/-- As long as the input has enough bytes `GRABBITS(j)` is `NEEDBITS(j)`. -/
theorem returns_grabBits (h : s.Ahead future bits) {fuel : Nat} (hfuel : j ≤ s.bitk + fuel)
    (hinput : j + 8 * s.p ≤ s.bitk + 8 * s.input.length) :
    Returns (grabBits j (fuel + 1)) s fun _ s' => s'.Ahead future bits ∧ s.SameOutput s' ∧ s'.r = s.r ∧ s.p ≤ s'.p ∧ j ≤ s'.bitk ∧
      s'.bitk + 8 * s.p = s.bitk + 8 * s'.p ∧ (s'.bitk = s.bitk ∨ s'.bitk < j + 8) := by
  induction fuel generalizing s with
  | zero =>
    unfold grabBits
    rw [returns_bind, returns_get, if_neg (show ¬ s.bitk < j by omega), returns_pure]
    exact ⟨h, .refl s, rfl, Nat.le_refl _, hfuel, rfl, .inl rfl⟩
  | succ fuel ih =>
    unfold grabBits
    rw [returns_bind, returns_get]
    by_cases hk : s.bitk < j
    · have hp : s.p < s.input.length := by omega
      rw [if_pos hk, dif_pos hp, returns_bind, returns_set]
      have hgrab := h.grab hp s.r
      refine (ih hgrab (show j ≤ s.bitk + 8 + fuel by omega) (show j + 8 * (s.p + 1) ≤ s.bitk + 8 + 8 * s.input.length by omega)).mono ?_
      rintro _ s' ⟨hahead, hsame, hr, hle, hj, hcount, hbound⟩
      refine ⟨hahead, .trans ⟨_, _, _, _, rfl⟩ hsame, hr, Nat.le_of_succ_le hle, hj, ?_, ?_⟩
      · change s'.bitk + 8 * (s.p + 1) = s.bitk + 8 + 8 * s'.p at hcount
        omega
      · rcases hbound with hbound | hbound
        · change s'.bitk = s.bitk + 8 at hbound
          omega
        · exact .inr hbound
    · rw [if_neg hk, returns_pure]
      exact ⟨h, .refl s, rfl, Nat.le_refl _, Nat.le_of_not_lt hk, rfl, .inl rfl⟩

end MgStd.Inflate
