import Mathlib.Data.Nat.ModEq
import MgStd.Lib.SlidingWindow
import MgStd.Inflate.Bits
/-!
# The window of `inflate`

The window holds the last bytes of all that has been unpacked. Those between `read`
and `write` have not been copied to the output yet; nothing is lost and nothing is
copied twice when the window wraps or the output buffer is too small.
-/

namespace MgStd.Inflate

open MgStd.Lib

variable {s s' : Inflater} {future out bytes : List UInt8} {bits : List Bool} {done : Nat}

/-- How many bytes wait in the window. -/
def Inflater.waiting (s : Inflater) : Nat := if s.read ≤ s.write then s.write - s.read else s.size - s.read + s.write

/-- `out` is what has been unpacked, and the first `done` bytes of it were copied to the output by calls before. -/
structure Inflater.Holds (done : Nat) (out : List UInt8) (s : Inflater) : Prop where
  pos : 0 < s.size
  write_le : s.write ≤ s.size
  read_le : s.read ≤ s.size
  residue : s.write % s.size = out.length % s.size
  window : HoldsEnd s.window out
  count : done + s.nextOut.length + s.waiting = out.length
  output : out.drop done = s.nextOut ++ out.drop (out.length - s.waiting)

/-- Between the macros: `m` is right, and `read` has wrapped. -/
structure Inflater.Unpacked (done : Nat) (out : List UInt8) (s : Inflater) : Prop extends s.Holds done out where
  read_lt : s.read < s.size
  room : s.m = s.wavail

/-- Only the window and the output have changed, and `r`. -/
def Inflater.SameInput (s s' : Inflater) : Prop :=
  ∃ r a n w rd wr m, s' = { s with r := r, availOut := a, nextOut := n, window := w, read := rd, write := wr, m := m }

theorem Inflater.SameInput.refl (s : Inflater) : s.SameInput s := ⟨_, _, _, _, _, _, _, rfl⟩

theorem Inflater.SameInput.trans {s'' : Inflater} (h : s.SameInput s') (h' : s'.SameInput s'') : s.SameInput s'' := by
  obtain ⟨_, _, _, _, _, _, _, rfl⟩ := h
  obtain ⟨_, _, _, _, _, _, _, rfl⟩ := h'
  exact ⟨_, _, _, _, _, _, _, rfl⟩

theorem Inflater.SameInput.ahead (h : s.SameInput s') (hs : s.Ahead future bits) : s'.Ahead future bits := by
  obtain ⟨_, _, _, _, _, _, _, rfl⟩ := h
  exact ⟨hs.read, hs.ahead, hs.buffer⟩

theorem Inflater.SameOutput.unpacked (h : s.SameOutput s') (hs : s.Unpacked done out) : s'.Unpacked done out := by
  obtain ⟨_, _, _, _, rfl⟩ := h
  obtain ⟨⟨h₁, h₂, h₃, h₄, h₅, h₆, h₇⟩, h₈, h₉⟩ := hs
  exact ⟨⟨h₁, h₂, h₃, h₄, h₅, h₆, h₇⟩, h₈, h₉⟩

theorem Inflater.Holds.waiting_le (h : s.Holds done out) : s.waiting ≤ s.size := by
  have hwrite := h.write_le
  unfold Inflater.waiting
  split <;> omega

theorem Inflater.waiting_eq_zero (h : s.read = s.write) : s.waiting = 0 := by
  unfold Inflater.waiting
  rw [if_pos (Nat.le_of_eq h), h, Nat.sub_self]

/-! ## Bytes into the window -/

/-- These bytes at `write`. -/
def Inflater.put (s : Inflater) (bytes : List UInt8) : Inflater :=
  { s with window := memcpy s.window s.write bytes, write := s.write + bytes.length, m := s.m - bytes.length }

theorem Inflater.Unpacked.fits (h : s.Unpacked done out) (hm : bytes.length ≤ s.m) : s.write + bytes.length ≤ s.size := by
  have hroom := h.room
  have hread := h.read_lt
  have hwrite := h.write_le
  unfold Inflater.wavail at hroom
  split at hroom <;> omega

theorem Inflater.Unpacked.size_put (h : s.Unpacked done out) (hm : bytes.length ≤ s.m) : (s.put bytes).size = s.size :=
  length_memcpy (h.fits hm)

theorem put_nil (s : Inflater) : s.put [] = s := by
  have hcopy : memcpy s.window s.write [] = s.window := by
    rw [memcpy, List.append_nil, List.length_nil, Nat.add_zero, List.take_append_drop]
  rw [Inflater.put, hcopy, List.length_nil, Nat.sub_zero, Nat.add_zero]

/-- The room in the window counts bytes that are not waiting any more. -/
theorem Inflater.Unpacked.put (h : s.Unpacked done out) (hm : bytes.length ≤ s.m) : (s.put bytes).Unpacked done (out ++ bytes) := by
  by_cases hnil : bytes = []
  · rw [hnil, put_nil, List.append_nil]
    exact h
  have hfits := h.fits hm
  have hsize : (s.put bytes).size = s.size := h.size_put hm
  have hlen : 0 < bytes.length := List.length_pos_of_ne_nil hnil
  have hres : s.write = out.length % s.size := by rw [← h.residue, Nat.mod_eq_of_lt (by omega)]
  have hroom := h.room
  have hread := h.read_lt
  have hwait : (s.put bytes).waiting = s.waiting + bytes.length ∧ (s.put bytes).m = (s.put bytes).wavail := by
    unfold Inflater.waiting Inflater.wavail
    unfold Inflater.wavail at hroom
    rw [hsize]
    change (if s.read ≤ s.write + bytes.length then s.write + bytes.length - s.read else s.size - s.read + (s.write + bytes.length))
      = _ ∧ s.m - bytes.length
      = if s.write + bytes.length < s.read then s.read - (s.write + bytes.length) - 1 else s.size - (s.write + bytes.length)
    split_ifs at hroom ⊢ <;> omega
  have hcount := h.count
  refine ⟨⟨?_, ?_, ?_, ?_, ?_, ?_, ?_⟩, ?_, hwait.2⟩
  · exact hsize ▸ h.pos
  · exact hsize ▸ hfits
  · exact hsize ▸ h.read_le
  · rw [hsize, List.length_append, Nat.add_mod, ← h.residue, Nat.mod_add_mod, Nat.add_mod_mod]
    rfl
  · change HoldsEnd (memcpy s.window s.write bytes) (out ++ bytes)
    rw [hres] at hfits ⊢
    exact h.window.write hfits
  · rw [hwait.1, List.length_append]
    change done + s.nextOut.length + _ = _
    omega
  · rw [hwait.1, List.length_append, show out.length + bytes.length - (s.waiting + bytes.length) = out.length - s.waiting by omega,
      List.drop_append_of_le_length (by omega), List.drop_append_of_le_length (by omega), h.output, List.append_assoc]
    rfl
  · exact hsize ▸ h.read_lt

theorem returns_OUTBYTE (b : UInt8) (h : s.write < s.size) (Q : Unit → Inflater → Prop) : Returns (OUTBYTE b) s Q ↔ Q () (s.put [b]) := by
  have hset : s.window.set s.write b = memcpy s.window s.write [b] := by
    rw [memcpy, List.set_eq_take_append_cons_drop, if_pos (show s.write < s.window.length from h), List.append_assoc]
    rfl
  unfold OUTBYTE
  rw [returns_bind, returns_get, if_pos h, returns_set, hset]
  rfl

/-- The byte that lies `d` behind the end of what has been unpacked. -/
theorem Inflater.Holds.back (h : s.Holds done out) {d : Nat} (hpos : 0 < d) (hlen : d ≤ out.length) (hsize : d ≤ s.size) :
    s.back d = (out.length - d) % s.size := by
  have hwrite := h.write_le
  have hback : s.back d < s.size ∧ (s.back d + d = s.write ∨ s.back d + d = s.size + s.write) := by
    unfold Inflater.back
    by_cases hle : d ≤ s.write
    · rw [if_pos hle]
      omega
    · rw [if_neg hle, Nat.mod_eq_of_lt (show d - s.write - 1 < s.size by omega)]
      omega
  have hmod : s.back d + d ≡ out.length - d + d [MOD s.size] := by
    rw [Nat.sub_add_cancel hlen]
    refine Nat.ModEq.trans ?_ h.residue
    rcases hback.2 with hback | hback <;> rw [hback]
    exact Nat.add_mod_left _ _
  rw [← Nat.mod_eq_of_lt hback.1]
  exact hmod.add_right_cancel' d

theorem returns_windowByte {f : Nat} {b : UInt8} (h : s.window[f]? = some b) (Q : UInt8 → Inflater → Prop) :
    Returns (windowByte f) s Q ↔ Q b s := by
  obtain ⟨hf, hb⟩ := List.getElem?_eq_some_iff.1 h
  unfold windowByte
  rw [returns_bind, returns_get, dif_pos hf, returns_pure, List.get_eq_getElem, hb]

/-! ## The window to the output -/

/-- What a copy to the output comes to: it goes on to `s'`. -/
structure Inflater.Flushed (s s' : Inflater) : Prop where
  same : s.SameInput s'
  window : s'.window = s.window
  count : s'.nextOut.length + s'.availOut = s.nextOut.length + s.availOut
  le : s.nextOut.length ≤ s'.nextOut.length
  r : s'.nextOut = s.nextOut ∧ s'.r = s.r ∨ s.nextOut.length < s'.nextOut.length ∧ s'.r = if s.r = Z_BUF_ERROR then Z_OK else s.r

theorem holds_copyOut (h : s.Holds done out) {upto : Nat} (hle : s.read ≤ upto) (hsize : upto ≤ s.size)
    (hupto : s.write < s.read ∨ upto = s.write) :
    (s.copyOut upto).Holds done out ∧ s.Flushed (s.copyOut upto) ∧
      (s.copyOut upto).read = s.read + min (upto - s.read) s.availOut ∧ (s.copyOut upto).write = s.write := by
  have hwait := h.waiting_le
  have hcount := h.count
  have hwrite := h.write_le
  generalize hn : min (upto - s.read) s.availOut = n
  have hle_n : n ≤ upto - s.read := hn ▸ Nat.min_le_left _ _
  have havail : n ≤ s.availOut := hn ▸ Nat.min_le_right _ _
  have hpiece : upto - s.read ≤ s.waiting := by
    unfold Inflater.waiting
    split <;> omega
  have hlength : s.window.length = s.size := rfl
  have hcopy : (s.window.drop s.read).take n = (out.drop (out.length - s.waiting)).take n := by
    by_cases hread : s.read < s.size
    · -- Where the bytes that wait begin.
      have hstart : (out.length - s.waiting) % s.size = s.read := by
        have hmod : out.length - s.waiting + s.waiting ≡ s.read + s.waiting [MOD s.size] := by
          rw [Nat.sub_add_cancel (by omega)]
          refine (Nat.ModEq.symm h.residue).trans ?_
          unfold Inflater.waiting
          split
          next hrw => rw [Nat.add_sub_cancel' hrw]
          next hrw =>
            rw [← Nat.add_assoc, Nat.add_sub_cancel' h.read_le]
            exact (Nat.add_mod_left _ _).symm
        rw [← Nat.mod_eq_of_lt hread]
        exact hmod.add_right_cancel' s.waiting
      rw [← h.window.segment (a := out.length - s.waiting) (n := n) (by omega) (by omega) (by rw [hlength, hstart]; omega), hlength, hstart]
    · have h0 : n = 0 := by omega
      rw [h0, List.take_zero, List.take_zero]
  have hlen : ((s.window.drop s.read).take n).length = n := by
    rw [List.length_take, List.length_drop]
    omega
  have hwaiting : (s.copyOut upto).waiting = s.waiting - n := by
    unfold Inflater.copyOut
    rw [hn]
    unfold Inflater.waiting
    change (if s.read + n ≤ s.write then s.write - (s.read + n) else s.size - (s.read + n) + s.write) = _
    split_ifs <;> omega
  have hnext : (s.copyOut upto).nextOut = s.nextOut ++ (s.window.drop s.read).take n := by
    unfold Inflater.copyOut
    rw [hn]
  have hr : (s.copyOut upto).r = if n ≠ 0 ∧ s.r = Z_BUF_ERROR then Z_OK else s.r := by
    unfold Inflater.copyOut
    rw [hn]
  refine ⟨⟨h.pos, h.write_le, ?_, h.residue, h.window, ?_, ?_⟩, ⟨⟨_, _, _, _, _, _, _, rfl⟩, rfl, ?_, ?_, ?_⟩, ?_, rfl⟩
  · change s.read + min (upto - s.read) s.availOut ≤ s.size
    omega
  · rw [hnext, hwaiting, List.length_append, hlen]
    omega
  · rw [hnext, hwaiting, h.output, hcopy, List.append_assoc]
    congr 1
    conv_lhs => rw [← List.take_append_drop n (out.drop (out.length - s.waiting)), List.drop_drop]
    rw [show out.length - s.waiting + n = out.length - (s.waiting - n) by omega]
  · rw [hnext, List.length_append, hlen]
    change _ + (s.availOut - min (upto - s.read) s.availOut) = _
    omega
  · rw [hnext, List.length_append]
    exact Nat.le_add_right _ _
  · rw [hnext, hr, List.length_append, hlen]
    by_cases h0 : n = 0
    · left
      simp [h0]
    · right
      simp [h0]
      omega
  · change s.read + min (upto - s.read) s.availOut = _
    rw [hn]

theorem Inflater.Flushed.trans {s'' : Inflater} (h : s.Flushed s') (h' : s'.Flushed s'') : s.Flushed s'' := by
  refine ⟨h.same.trans h'.same, h'.window.trans h.window, h'.count.trans h.count, Nat.le_trans h.le h'.le, ?_⟩
  rcases h.r with ⟨hn, hr⟩ | ⟨hn, hr⟩ <;> rcases h'.r with ⟨hn', hr'⟩ | ⟨hn', hr'⟩
  · exact .inl ⟨hn'.trans hn, hr'.trans hr⟩
  · exact .inr ⟨hn ▸ hn', hr ▸ hr'⟩
  · exact .inr ⟨hn' ▸ hn, hr'.trans hr⟩
  · refine .inr ⟨Nat.lt_trans hn hn', hr'.trans ?_⟩
    rw [hr]
    split_ifs with h₁ h₂
    · rfl
    · rfl
    · rfl

/-- `read` has come to the end of the window. -/
def Inflater.wrapped (s : Inflater) : Inflater := { s with read := 0, write := if s.write = s.size then 0 else s.write }

theorem Inflater.Holds.wrapped (h : s.Holds done out) (hread : s.read = s.size) :
    s.wrapped.Holds done out ∧ s.Flushed s.wrapped ∧ s.wrapped.write < s.size := by
  have hle := h.write_le
  have hpos := h.pos
  have hwrite : s.wrapped.write < s.size := by
    unfold Inflater.wrapped
    change (if s.write = s.size then 0 else s.write) < s.size
    split <;> omega
  have hwait : s.wrapped.waiting = s.waiting := by
    unfold Inflater.waiting Inflater.wrapped
    change (if 0 ≤ (if s.write = s.size then 0 else s.write) then (if s.write = s.size then 0 else s.write) - 0 else _) = _
    split_ifs <;> omega
  refine ⟨⟨hpos, Nat.le_of_lt hwrite, Nat.zero_le _, ?_, h.window, ?_, ?_⟩,
    ⟨⟨_, _, _, _, _, _, _, rfl⟩, rfl, rfl, Nat.le_refl _, .inl ⟨rfl, rfl⟩⟩, hwrite⟩
  · refine Eq.trans ?_ h.residue
    change (if s.write = s.size then 0 else s.write) % s.size = s.write % s.size
    split
    next heq => rw [heq, Nat.mod_self, Nat.zero_mod]
    next => rfl
  · rw [hwait]
    exact h.count
  · rw [hwait]
    exact h.output

/-- `inflate_flush`: it copies as much as there is room for. -/
theorem returns_inflateFlush (h : s.Holds done out) :
    Returns inflateFlush s fun _ s' => s'.Holds done out ∧ s.Flushed s' ∧ s'.read < s'.size ∧ (s'.availOut = 0 ∨ s'.read = s'.write) := by
  unfold inflateFlush
  rw [returns_modify]
  have hwrite := h.write_le
  have hread := h.read_le
  generalize hu : (if s.read ≤ s.write then s.write else s.size) = upto
  have hupto : s.read ≤ upto ∧ upto ≤ s.size ∧ (s.write < s.read ∨ upto = s.write) ∧ (upto = s.size ∨ upto = s.write) := by
    split at hu <;> omega
  obtain ⟨hholds, hflush, hread₁, hwrite₁⟩ := holds_copyOut h hupto.1 hupto.2.1 hupto.2.2.1
  have havail : (s.copyOut upto).availOut = s.availOut - min (upto - s.read) s.availOut := rfl
  have hsize : (s.copyOut upto).size = s.size := rfl
  generalize s.copyOut upto = s₁ at hholds hflush hread₁ hwrite₁ havail hsize ⊢
  by_cases hend : s₁.read = s₁.size
  · obtain ⟨hwrap, hflush', hlt⟩ := hholds.wrapped hend
    obtain ⟨hholds₂, hflush₂, hread₂, hwrite₂⟩ := holds_copyOut hwrap (Nat.zero_le _) hwrap.write_le (.inr rfl)
    simp only [if_pos hend]
    change (s₁.wrapped.copyOut s₁.wrapped.write).Holds done out ∧ s.Flushed (s₁.wrapped.copyOut s₁.wrapped.write) ∧
      (s₁.wrapped.copyOut s₁.wrapped.write).read < s₁.size ∧
      (s₁.availOut - min (s₁.wrapped.write - 0) s₁.availOut = 0 ∨
        (s₁.wrapped.copyOut s₁.wrapped.write).read = (s₁.wrapped.copyOut s₁.wrapped.write).write)
    change _ = 0 + min (s₁.wrapped.write - 0) s₁.availOut at hread₂
    refine ⟨hholds₂, (hflush.trans hflush').trans hflush₂, by omega, ?_⟩
    rw [hread₂, hwrite₂]
    omega
  · simp only [if_neg hend]
    have hread_le := hholds.read_le
    refine ⟨hholds, hflush, by omega, ?_⟩
    omega

theorem returns_FLUSH (h : s.Holds done out) :
    Returns FLUSH s fun _ s' => s'.Unpacked done out ∧ s.Flushed s' ∧ (s'.availOut = 0 ∨ s'.read = s'.write) := by
  unfold FLUSH
  refine (returns_inflateFlush h).bind ?_
  rintro _ s' ⟨hholds, hflush, hread, hall⟩
  rw [returns_modify]
  exact ⟨⟨⟨hholds.pos, hholds.write_le, hholds.read_le, hholds.residue, hholds.window, hholds.count, hholds.output⟩, hread, rfl⟩,
    ⟨hflush.same.trans ⟨_, _, _, _, _, _, _, rfl⟩, hflush.window, hflush.count, hflush.le, hflush.r⟩, hall⟩

theorem returns_LEAVE (h : s.Holds done out) :
    Returns LEAVE s fun r s' =>
      s'.Holds done out ∧ s.Flushed s' ∧ s'.read < s'.size ∧ (s'.availOut = 0 ∨ s'.read = s'.write) ∧ r = s'.r := by
  unfold LEAVE
  refine (returns_inflateFlush h).bind ?_
  rintro _ s' ⟨hholds, hflush, hread, hall⟩
  rw [returns_bind, returns_get, returns_pure]
  exact ⟨hholds, hflush, hread, hall, rfl⟩

theorem returns_WRAP (h : s.Unpacked done out) :
    Returns WRAP s fun _ s' => s'.Unpacked done out ∧ s.Flushed s' ∧ s'.availOut = s.availOut ∧ (s.write < s.size → s' = s) := by
  unfold WRAP
  rw [returns_modify]
  by_cases hend : s.write = s.size ∧ s.read ≠ 0
  · rw [if_pos hend]
    have hread := h.read_lt
    have hwait : ({ s with write := 0, m := ({ s with write := 0 } : Inflater).wavail } : Inflater).waiting = s.waiting := by
      unfold Inflater.waiting
      change (if s.read ≤ 0 then 0 - s.read else s.size - s.read + 0) = _
      split_ifs <;> omega
    refine ⟨⟨⟨h.pos, Nat.zero_le _, h.read_le, ?_, h.window, ?_, ?_⟩, hread, rfl⟩,
      ⟨⟨_, _, _, _, _, _, _, rfl⟩, rfl, rfl, Nat.le_refl _, .inl ⟨rfl, rfl⟩⟩, rfl, fun hlt => absurd hend.1 (Nat.ne_of_lt hlt)⟩
    · refine Eq.trans ?_ h.residue
      change 0 % s.size = s.write % s.size
      rw [hend.1, Nat.mod_self, Nat.zero_mod]
    · rw [hwait]
      exact h.count
    · rw [hwait]
      exact h.output
  · rw [if_neg hend]
    exact ⟨h, ⟨.refl s, rfl, rfl, Nat.le_refl _, .inl ⟨rfl, rfl⟩⟩, rfl, fun _ => rfl⟩

/-- What `NEEDOUT` comes to: there is room in the window, or the output buffer is full. -/
structure Inflater.Roomed (done : Nat) (out : List UInt8) (s : Inflater) (ok : Bool) (s' : Inflater) : Prop where
  unpacked : s'.Unpacked done out
  same : s.SameInput s'
  window : s'.window = s.window
  count : s'.nextOut.length + s'.availOut = s.nextOut.length + s.availOut
  le : s.nextOut.length ≤ s'.nextOut.length
  room : ok = true → 0 < s'.m ∧ s'.r = Z_OK
  full : ok = false → s'.availOut = 0 ∧
    (s'.nextOut = s.nextOut ∧ s'.r = s.r ∨ s.nextOut.length < s'.nextOut.length ∧ s'.r = if s.r = Z_BUF_ERROR then Z_OK else s.r)

theorem returns_NEEDOUT (h : s.Unpacked done out) : Returns NEEDOUT s fun ok s' => s.Roomed done out ok s' := by
  have hdone : ∀ {s₁ : Inflater}, s₁.Unpacked done out → s.Flushed s₁ → s₁.m ≠ 0 → s.Roomed done out true { s₁ with r := Z_OK } := by
    intro s₁ hs hflush hm
    exact ⟨⟨⟨hs.pos, hs.write_le, hs.read_le, hs.residue, hs.window, hs.count, hs.output⟩, hs.read_lt, hs.room⟩,
      hflush.same.trans ⟨_, _, _, _, _, _, _, rfl⟩, hflush.window, hflush.count, hflush.le, fun _ => ⟨Nat.pos_of_ne_zero hm, rfl⟩,
      fun hn => Bool.noConfusion hn⟩
  unfold NEEDOUT
  rw [returns_bind, returns_get]
  by_cases hm : s.m = 0
  · rw [if_pos hm]
    refine (returns_WRAP h).bind ?_
    rintro _ s₁ ⟨hs₁, hflush₁, _, _⟩
    rw [returns_bind, returns_get]
    by_cases hm₁ : s₁.m = 0
    · rw [if_pos hm₁]
      refine (returns_FLUSH hs₁.toHolds).bind ?_
      rintro _ s₂ ⟨hs₂, hflush₂, hall⟩
      refine (returns_WRAP hs₂).bind ?_
      rintro _ s₃ ⟨hs₃, hflush₃, havail, hsame⟩
      have hflush := (hflush₁.trans hflush₂).trans hflush₃
      rw [returns_bind, returns_get]
      by_cases hm₃ : s₃.m = 0
      · rw [if_pos hm₃, returns_pure]
        refine ⟨hs₃, hflush.same, hflush.window, hflush.count, hflush.le, fun hn => Bool.noConfusion hn, fun _ => ⟨?_, hflush.r⟩⟩
        rcases hall with hall | hall
        · rw [havail, hall]
        · -- All was copied to the output, so there is room in the window.
          have hread := hs₂.read_lt
          have hroom := hs₂.room
          rw [hsame (by omega)] at hm₃
          unfold Inflater.wavail at hroom
          rw [if_neg (by omega)] at hroom
          omega
      · rw [if_neg hm₃, returns_bind, returns_modify, returns_pure]
        exact hdone hs₃ hflush hm₃
    · rw [if_neg hm₁, returns_bind, returns_modify, returns_pure]
      exact hdone hs₁ hflush₁ hm₁
  · rw [if_neg hm, returns_bind, returns_modify, returns_pure]
    exact hdone h ⟨.refl s, rfl, rfl, Nat.le_refl _, .inl ⟨rfl, rfl⟩⟩ hm

end MgStd.Inflate
