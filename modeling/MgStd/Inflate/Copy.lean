import MgStd.Inflate.Coding
/-!
# The copies of `inflate`

A copy from the window, by `inflate_fast` in one or two pieces and by `inflate_codes`
byte by byte as far as there is room, appends what lies behind the end of all that
has been unpacked.
-/

namespace MgStd.Inflate

open MgStd.Lib

variable {s₀ s s' : Inflater} {future out bytes bytes' : List UInt8} {bits : List Bool} {done c d n f : Nat}

/-- What the unpacking of a block does not change. -/
structure Inflater.Same (s s' : Inflater) : Prop where
  input : s'.input = s.input
  streamMode : s'.streamMode = s.streamMode
  mode : s'.mode = s.mode
  last : s'.last = s.last
  hufts : s'.hufts = s.hufts
  size : s'.size = s.size
  count : s'.nextOut.length + s'.availOut = s.nextOut.length + s.availOut

theorem Inflater.Same.refl (s : Inflater) : s.Same s := ⟨rfl, rfl, rfl, rfl, rfl, rfl, rfl⟩

theorem Inflater.Same.trans {s'' : Inflater} (h : s.Same s') (h' : s'.Same s'') : s.Same s'' :=
  ⟨h'.input.trans h.input, h'.streamMode.trans h.streamMode, h'.mode.trans h.mode, h'.last.trans h.last, h'.hufts.trans h.hufts,
    h'.size.trans h.size, h'.count.trans h.count⟩

theorem Inflater.SameOutput.same (h : s.SameOutput s') : s.Same s' := by
  obtain ⟨_, _, _, _, rfl⟩ := h
  exact ⟨rfl, rfl, rfl, rfl, rfl, rfl, rfl⟩

theorem Inflater.SameInput.same (h : s.SameInput s') (hsize : s'.size = s.size)
    (hcount : s'.nextOut.length + s'.availOut = s.nextOut.length + s.availOut) : s.Same s' := by
  obtain ⟨_, _, _, _, _, _, _, rfl⟩ := h
  exact ⟨rfl, rfl, rfl, rfl, rfl, hsize, hcount⟩

theorem Inflater.SameInput.input (h : s.SameInput s') : s'.p = s.p ∧ s'.bitk = s.bitk ∧ s'.bitb = s.bitb := by
  obtain ⟨_, _, _, _, _, _, _, rfl⟩ := h
  exact ⟨rfl, rfl, rfl⟩

theorem Inflater.Flushed.toSame (h : s.Flushed s') : s.Same s' := h.same.same (congrArg List.length h.window) h.count

theorem Inflater.Roomed.toSame {ok : Bool} (h : s.Roomed done out ok s') : s.Same s' :=
  h.same.same (congrArg List.length h.window) h.count

/-- What `r` says: without progress since `s₀` it is still `Z_BUF_ERROR`. -/
def Inflater.Progress (s₀ s : Inflater) : Prop := s.r = Z_OK ∨ s.r = Z_BUF_ERROR ∧ s.p ≤ s₀.p ∧ s.nextOut = s₀.nextOut

theorem Inflater.Fetched.progress (h : s.Fetched s') (hs : s₀.Progress s) : s₀.Progress s' := by
  obtain ⟨_, _, _, _, rfl⟩ := h.same
  rcases h.r with ⟨hp, hr⟩ | ⟨-, hr⟩
  · rcases hs with hs | ⟨hs, hle, hnext⟩
    · exact .inl (hr.trans hs)
    · exact .inr ⟨hr.trans hs, hp ▸ hle, hnext⟩
  · exact .inl hr

theorem Inflater.Progress.flush (hs : s₀.Progress s) (hp : s'.p = s.p)
    (hr : s'.nextOut = s.nextOut ∧ s'.r = s.r ∨ s.nextOut.length < s'.nextOut.length ∧ s'.r = if s.r = Z_BUF_ERROR then Z_OK else s.r) :
    s₀.Progress s' := by
  rcases hs with hs | ⟨hs, hle, hnext⟩
  · rcases hr with ⟨-, hr⟩ | ⟨-, hr⟩
    · exact .inl (hr.trans hs)
    · rw [hs, ite_self] at hr
      exact .inl hr
  · rcases hr with ⟨hsame, hr⟩ | ⟨-, hr⟩
    · exact .inr ⟨hr.trans hs, hp ▸ hle, hsame.trans hnext⟩
    · rw [if_pos hs] at hr
      exact .inl hr

theorem Inflater.Flushed.progress (h : s.Flushed s') (hs : s₀.Progress s) : s₀.Progress s' := hs.flush h.same.input.1 h.r

theorem Inflater.Roomed.progress {ok : Bool} (h : s.Roomed done out ok s') (hs : s₀.Progress s) : s₀.Progress s' := by
  cases ok with
  | true => exact .inl (h.room rfl).2
  | false => exact hs.flush h.same.input.1 (h.full rfl).2

/-! ## Bytes from behind the end -/

theorem put_put (h : s.write ≤ s.size) : (s.put bytes).put bytes' = s.put (bytes ++ bytes') := by
  have hcopy : memcpy (memcpy s.window s.write bytes) (s.write + bytes.length) bytes' = memcpy s.window s.write (bytes ++ bytes') :=
    memcpy_memcpy h
  unfold Inflater.put
  simp only [hcopy, List.length_append, Nat.add_assoc, Nat.sub_sub]

theorem same_put (h : s.write + bytes.length ≤ s.size) : s.Same (s.put bytes) :=
  ⟨rfl, rfl, rfl, rfl, rfl, length_memcpy h, rfl⟩

theorem sameInput_put : s.SameInput (s.put bytes) := ⟨_, _, _, _, _, _, _, rfl⟩

/-- There are bytes `d` behind the end. -/
def Reaches (out : List UInt8) (size d : Nat) : Prop := 0 < d ∧ d ≤ out.length ∧ d ≤ size

theorem Reaches.append {size : Nat} (h : Reaches out size d) (bytes : List UInt8) : Reaches (out ++ bytes) size d := by
  refine ⟨h.1, ?_, h.2.2⟩
  rw [List.length_append]
  exact Nat.le_add_right_of_le h.2.1

/-- One byte of a copy. -/
theorem Inflater.Holds.windowByte (h : s.Holds done out) (hd : Reaches out s.size d) (Q : UInt8 → Inflater → Prop) :
    Returns (windowByte ((out.length - d) % s.size)) s Q ↔ Q (out.getD (out.length - d) 0) s := by
  obtain ⟨hpos, hlen, hsize⟩ := hd
  have hlt : out.length - d < out.length := by omega
  have hbyte : s.window[(out.length - d) % s.size]? = out[out.length - d]? := h.window.back hpos hlen hsize
  rw [List.getElem?_eq_getElem hlt] at hbyte
  rw [returns_windowByte hbyte, List.getD_eq_getElem?_getD, List.getElem?_eq_getElem hlt, Option.getD_some]

/-- Where the next byte of a copy is. -/
theorem next_index {size : Nat} (hlen : d ≤ out.length) (b : UInt8) (hlt : (out.length - d) % size + 1 < size) :
    (out.length - d) % size + 1 = ((out ++ [b]).length - d) % size := by
  rw [List.length_append, List.length_singleton, Nat.sub_add_comm hlen, add_mod_of_lt hlt]

theorem returns_moveBytes (h : s.Unpacked done out) (hm : n ≤ s.m) (hd : Reaches out s.size d)
    (hf : n ≠ 0 → f = (out.length - d) % s.size) (hfits : f + n ≤ s.size) :
    Returns (moveBytes n f) s fun _ s' => ∃ bytes, bytes.length = n ∧ copyBack d n out = out ++ bytes ∧ s' = s.put bytes := by
  induction n generalizing s out f with
  | zero =>
    unfold moveBytes
    rw [returns_pure]
    exact ⟨[], rfl, (List.append_nil out).symm, (put_nil s).symm⟩
  | succ n ih =>
    have hone : [out.getD (out.length - d) 0].length ≤ s.m := by
      rw [List.length_singleton]
      omega
    have hwrite : s.write < s.size := h.fits hone
    have hput := h.put hone
    have hsize := h.size_put hone
    unfold moveBytes
    rw [hf (Nat.succ_ne_zero n)] at hfits ⊢
    rw [returns_bind, h.windowByte hd, returns_bind, returns_OUTBYTE _ hwrite]
    refine (ih hput (show n ≤ s.m - [out.getD (out.length - d) 0].length by rw [List.length_singleton]; omega) (hsize ▸ hd.append _)
      (fun hn => ?_) (by rw [hsize]; omega)).mono ?_
    · rw [hsize]
      exact next_index hd.2.1 _ (by omega)
    · rintro _ s' ⟨bytes, hlen, hcopy, rfl⟩
      refine ⟨out.getD (out.length - d) 0 :: bytes, ?_, ?_, ?_⟩
      · rw [List.length_cons, hlen]
      · rw [copyBack, hcopy, List.append_assoc, List.singleton_append]
      · exact put_put h.write_le

/-- A copy by `inflate_fast`: it has at least three bytes. -/
theorem returns_fastCopy (h : s.Unpacked done out) (hm : c ≤ s.m) (hc : 3 ≤ c) (hd : Reaches out s.size d) :
    Returns (fastCopy c d) s fun _ s' => ∃ bytes, bytes.length = c ∧ copyBack d c out = out ++ bytes ∧ s' = s.put bytes := by
  -- Two pieces that follow one another.
  have hpieces : ∀ {n m f f' : Nat}, n + m = c → f = (out.length - d) % s.size → f + n ≤ s.size →
      f' = (out.length + n - d) % s.size → f' + m ≤ s.size →
      Returns (moveBytes n f >>= fun _ => moveBytes m f') s fun _ s' =>
        ∃ bytes, bytes.length = c ∧ copyBack d c out = out ++ bytes ∧ s' = s.put bytes := by
    intro n m f f' hnm hf hfits hf' hfits'
    refine (returns_moveBytes h (by omega) hd (fun _ => hf) hfits).bind ?_
    rintro _ s' ⟨bytes, hlen, hcopy, rfl⟩
    have hone : bytes.length ≤ s.m := by omega
    have hsize := h.size_put hone
    refine (returns_moveBytes (h.put hone) (show m ≤ s.m - bytes.length by omega) (hsize ▸ hd.append bytes) (fun _ => ?_) (hsize ▸ hfits')).mono ?_
    · rw [hsize, List.length_append, hlen]
      exact hf'
    · rintro _ s' ⟨bytes', hlen', hcopy', rfl⟩
      refine ⟨bytes ++ bytes', ?_, ?_, ?_⟩
      · rw [List.length_append, hlen, hlen', hnm]
      · rw [← hnm, copyBack_add, hcopy, hcopy', List.append_assoc]
      · exact put_put h.write_le
  have hback := h.toHolds.back hd.1 hd.2.1 hd.2.2
  have hpos := h.pos
  have hlt : (out.length - d) % s.size < s.size := Nat.mod_lt _ hpos
  have hfits : s.write + (List.replicate c (0 : UInt8)).length ≤ s.size := h.fits (by rw [List.length_replicate]; exact hm)
  rw [List.length_replicate] at hfits
  have hmove : ∀ {n f : Nat}, n ≠ 0 → moveBytesDo n f = moveBytes n f := fun hn => if_neg hn
  unfold fastCopy
  rw [returns_bind, returns_get]
  by_cases hwrap : s.write < d ∧ s.size - s.back d < c
  · have hindex : 0 = (out.length + (s.size - (out.length - d) % s.size) - d) % s.size := by
      have hsplit := Nat.div_add_mod (out.length - d) s.size
      have hlen := hd.2.1
      have hmul : out.length + (s.size - (out.length - d) % s.size) - d = s.size * ((out.length - d) / s.size + 1) := by
        rw [Nat.mul_add, Nat.mul_one]
        omega
      rw [hmul, Nat.mul_mod_right]
    simp only [if_pos hwrap]
    rw [hback] at hwrap ⊢
    rw [hmove (by omega), hmove (by omega)]
    exact hpieces (by omega) rfl (by omega) hindex (by omega)
  · simp only [if_neg hwrap]
    have hend : s.back d + c ≤ s.size := by
      by_cases hd : d ≤ s.write
      · unfold Inflater.back
        rw [if_pos hd]
        omega
      · have hlt' : s.back d < s.size := hback ▸ hlt
        omega
    rw [hback] at hend ⊢
    rw [hmove (by omega)]
    refine hpieces (by omega) rfl (by omega) ?_ (by omega)
    rw [Nat.sub_add_comm hd.2.1, add_mod_of_lt (by omega)]

/-- A copy by `inflate_codes`, as far as there is room for it. -/
theorem returns_copyLoop {len : Nat} (h : s.Unpacked done out) (hprogress : s₀.Progress s) (hd : Reaches out s.size d)
    (hf : f = (out.length - d) % s.size) :
    Returns (copyLoop len f) s fun rem s' => ∃ n, n + rem = len ∧ s'.Unpacked done (copyBack d n out) ∧ s.SameInput s' ∧ s.Same s' ∧
      s₀.Progress s' ∧ (rem ≠ 0 → s'.availOut = 0) := by
  induction len generalizing s out f with
  | zero =>
    unfold copyLoop
    rw [returns_pure]
    exact ⟨0, rfl, h, .refl s, .refl s, hprogress, fun hn => absurd rfl hn⟩
  | succ len ih =>
    unfold copyLoop
    refine (returns_NEEDOUT h).bind fun ok s₁ hroom => ?_
    have hsize₁ := hroom.toSame.size
    cases ok with
    | false =>
      simp only [Bool.false_eq_true, if_false, returns_pure]
      exact ⟨0, Nat.zero_add _, hroom.unpacked, hroom.same, hroom.toSame, hroom.progress hprogress, fun _ => (hroom.full rfl).1⟩
    | true =>
      have hone : [out.getD (out.length - d) 0].length ≤ s₁.m := (hroom.room rfl).1
      have hwrite : s₁.write < s₁.size := hroom.unpacked.fits hone
      have hput := hroom.unpacked.put hone
      have hsize := hroom.unpacked.size_put hone
      have hpos := hroom.unpacked.pos
      have hlt : f < s₁.size := by
        rw [hf, ← hsize₁]
        exact Nat.mod_lt _ hpos
      simp only [if_true]
      rw [returns_bind, hf, ← hsize₁, hroom.unpacked.windowByte (hsize₁ ▸ hd), returns_bind, returns_OUTBYTE _ hwrite, returns_bind,
        returns_get]
      refine (ih hput (.inl (hroom.room rfl).2) ?_ ?_).mono ?_
      · rw [hsize, hsize₁]
        exact hd.append _
      · rw [hsize]
        split
        next hend =>
          rw [List.length_append, List.length_singleton, Nat.sub_add_comm hd.2.1, ← Nat.mod_add_mod, hend, Nat.mod_self]
        next hend => exact next_index hd.2.1 _ (by rw [hf, ← hsize₁] at hlt; omega)
      · rintro rem s' ⟨n, hn, hunpacked, hsame, hsame', hprogress', hfull⟩
        refine ⟨n + 1, by omega, ?_, (hroom.same.trans sameInput_put).trans hsame, ?_, hprogress', hfull⟩
        · rw [copyBack]
          exact hunpacked
        · exact (hroom.toSame.trans (same_put (hroom.unpacked.fits hone))).trans hsame'

end MgStd.Inflate
