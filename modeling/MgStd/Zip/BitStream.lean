import MgStd.Zip.BitWriter
/-!
# What the bit writer sends

Fields, and blocks that are copied, one after the other: at the end the destination
has the bits of all of them in their order, each field from its low bit, and zeros
where a block or the end needs a whole byte. An error is reported when the
destination cannot take all of it, or was told to abort, and only then.
-/

namespace MgStd.Zip

open MgStd.Lib MgStd.Lib.Transducer

variable {tzip tzip₀ : TZIP} {bytes buf : List UInt8} {bits : List Bool} {w : Writer}

/-! ## The destination -/

/-- `bytes` have been written since `tzip₀`. -/
structure TZIP.Wrote (tzip₀ : TZIP) (bytes : List UInt8) (tzip : TZIP) : Prop where
  destination : tzip.destination = tzip₀.destination ++ (tzip₀.encode bytes).1
  keys : tzip.keys = (tzip₀.encode bytes).2
  encrypt : tzip.encrypt = tzip₀.encrypt
  abort : tzip.abort = tzip₀.abort
  room : tzip.room + bytes.length = tzip₀.room
  err : tzip.lasterr = .ok
  unaborted : bytes ≠ [] → tzip₀.abort = false

/-- One of the writes of `n` bytes in all has failed. -/
structure TZIP.Failed (tzip₀ : TZIP) (n : Nat) (tzip : TZIP) : Prop where
  err : tzip.lasterr ≠ .ok
  pos : 0 < n
  cause : tzip₀.abort = true ∨ tzip₀.room < n

/-- What the writes of `bytes` come to. -/
def TZIP.After (tzip₀ : TZIP) (bytes : List UInt8) (tzip : TZIP) : Prop := tzip₀.Wrote bytes tzip ∨ tzip₀.Failed bytes.length tzip

theorem TZIP.Failed.mono {m n : Nat} (h : tzip₀.Failed m tzip) (hle : m ≤ n) : tzip₀.Failed n tzip :=
  ⟨h.err, Nat.lt_of_lt_of_le h.pos hle, h.cause.imp_right fun hroom => Nat.lt_of_lt_of_le hroom hle⟩

@[simp] theorem length_encode (tzip : TZIP) (bytes : List UInt8) : (tzip.encode bytes).1.length = bytes.length := by
  unfold TZIP.encode
  split
  · exact length_run tzip.keys bytes
  · rfl

@[simp] theorem encode_nil (tzip : TZIP) : tzip.encode [] = ([], tzip.keys) := by
  unfold TZIP.encode
  split <;> rfl

/-- Bytes behind others are encrypted with the keys that these leave. -/
theorem TZIP.Wrote.encode (h : tzip₀.Wrote bytes tzip) (buf : List UInt8) :
    tzip₀.encode (bytes ++ buf) = ((tzip₀.encode bytes).1 ++ (tzip.encode buf).1, (tzip.encode buf).2) := by
  have hkeys := h.keys
  unfold TZIP.encode at hkeys ⊢
  rw [h.encrypt]
  by_cases henc : tzip₀.encrypt
  · simp only [henc, if_true] at hkeys ⊢
    rw [run_append, hkeys]
  · simp only [henc, if_false, Bool.false_eq_true] at hkeys ⊢
    rw [hkeys]

theorem TZIP.Wrote.refl (herr : tzip.lasterr = .ok) : tzip.Wrote [] tzip := by
  refine ⟨?_, ?_, rfl, rfl, rfl, herr, fun hn => absurd rfl hn⟩ <;> rw [encode_nil]
  exact (List.append_nil _).symm

theorem TZIP.Failed.write {n : Nat} (h : tzip₀.Failed n tzip) (buf : List UInt8) : writeDestination tzip buf = tzip :=
  if_neg fun hn => h.err hn.2

@[simp] theorem accept_abort (tzip : TZIP) (bytes : List UInt8) : (tzip.accept bytes).abort = tzip.abort := by
  unfold TZIP.accept
  split_ifs <;> rfl

theorem TZIP.Wrote.write (h : tzip₀.Wrote bytes tzip) (buf : List UInt8) : tzip₀.After (bytes ++ buf) (writeDestination tzip buf) := by
  by_cases hbuf : buf = []
  · subst hbuf
    rw [List.append_nil, writeDestination, if_neg (fun hn => hn.1 rfl)]
    exact .inl h
  have hlen : buf.length ≠ 0 := fun h0 => hbuf (List.eq_nil_of_length_eq_zero h0)
  have hsum : (bytes ++ buf).length = bytes.length + buf.length := List.length_append
  have hroom := h.room
  unfold writeDestination
  simp only [if_pos (And.intro hlen h.err), accept_abort]
  by_cases habort : tzip.abort = true
  · rw [if_pos habort]
    exact .inr ⟨(by decide : ZipError.abort ≠ .ok), by omega, .inl (h.abort ▸ habort)⟩
  rw [if_neg habort]
  have hunaborted : tzip₀.abort = false := h.abort ▸ Bool.eq_false_iff.2 habort
  unfold TZIP.accept
  rw [length_encode]
  by_cases hfits : buf.length ≤ tzip.room
  · rw [if_pos hfits]
    refine .inl ⟨?_, ?_, h.encrypt, h.abort, ?_, h.err, fun _ => hunaborted⟩
    · rw [h.encode buf, h.destination, List.append_assoc]
    · rw [h.encode buf]
    · change tzip.room - buf.length + (bytes ++ buf).length = tzip₀.room
      omega
  · rw [if_neg hfits]
    refine .inr ⟨?_, by omega, .inr (by omega)⟩
    split_ifs
    · exact (by decide : ZipError.memsize ≠ .ok)
    · exact (by decide : ZipError.write ≠ .ok)

theorem TZIP.After.write (h : tzip₀.After bytes tzip) (buf : List UInt8) : tzip₀.After (bytes ++ buf) (writeDestination tzip buf) := by
  rcases h with h | h
  · exact h.write buf
  · rw [h.write]
    exact .inr (h.mono (by rw [List.length_append]; omega))

theorem TZIP.After.failed (h : tzip₀.After bytes tzip) (herr : tzip.lasterr ≠ .ok) : tzip₀.Failed bytes.length tzip :=
  h.resolve_left fun hwrote => herr hwrote.err

/-! ## The two buffers -/

/-- The bytes in `out_buf`. -/
def Writer.out (w : Writer) : List UInt8 := w.out_buf.take w.out_offset

/-- These bytes put into `out_buf`. -/
def Writer.put (w : Writer) (bytes : List UInt8) : Writer :=
  { w with out_buf := memcpy w.out_buf w.out_offset bytes, out_offset := w.out_offset + bytes.length }

theorem size_put (h : w.out_offset + bytes.length ≤ w.out_size) : (w.put bytes).out_size = w.out_size := length_memcpy h

theorem out_put (h : w.out_offset ≤ w.out_size) : (w.put bytes).out = w.out ++ bytes := take_memcpy h

theorem returns_putByte (c : UInt8) (h : w.out_offset < w.out_size) (Q : Unit → Writer → Prop) :
    Returns (putByte c) w Q ↔ Q () (w.put [c]) := by
  have hset : w.out_buf.set w.out_offset c = memcpy w.out_buf w.out_offset [c] := by
    rw [memcpy, List.set_eq_take_append_cons_drop, if_pos (show w.out_offset < w.out_buf.length from h), List.append_assoc]
    rfl
  unfold putByte
  simp only [returns_bind, returns_get, returns_ite, returns_set, h, not_true_eq_false, false_imp_iff, and_true, true_imp_iff, hset]
  exact Iff.rfl

theorem put_put {bytes' : List UInt8} (h : w.out_offset ≤ w.out_size) : (w.put bytes).put bytes' = w.put (bytes ++ bytes') := by
  unfold Writer.put
  rw [memcpy_memcpy h, List.length_append, Nat.add_assoc]

theorem returns_putShort (n : Nat) (h : w.out_offset + 1 < w.out_size) (Q : Unit → Writer → Prop) :
    Returns (putShort n) w Q ↔ Q () (w.put [UInt8.ofNat n, UInt8.ofNat (n / 256)]) := by
  have hone : (w.put [UInt8.ofNat n]).out_offset < (w.put [UInt8.ofNat n]).out_size := by
    rw [size_put (by simp; omega)]
    exact h
  unfold putShort
  rw [returns_bind, returns_putByte _ (by omega), returns_putByte _ hone, put_put (by omega)]
  rfl

/-- `out_buf` is written to the destination when it has no room for `k` more bytes. -/
def makeRoom (k : Nat) (w : Writer) : Writer :=
  if w.out_size ≤ w.out_offset + k then { w with tzip := writeDestination w.tzip w.out, out_offset := 0 } else w

/-- What the writer has for `bits`: bytes that were written, bytes in `out_buf`, and bits in `bi_buf`. -/
structure Writer.Holds (tzip₀ : TZIP) (bits : List Bool) (w : Writer) : Prop where
  size : 4 ≤ w.out_size
  offset : w.out_offset ≤ w.out_size
  valid : w.bi_valid ≤ 16
  sent : ∃ flushed pend, tzip₀.After flushed w.tzip ∧ bits = bytesBits (flushed ++ w.out) ++ pend ∧
    w.bi_valid = pend.length ∧ w.bi_buf.toNat = bitsNat pend

/-- It has given up in front of the end of `bits`. -/
structure Writer.GivenUp (tzip₀ : TZIP) (bits : List Bool) (w : Writer) : Prop where
  size : 4 ≤ w.out_size
  offset : w.out_offset ≤ w.out_size
  full : w.out_size ≤ w.out_offset + 1
  valid : 16 < w.bi_valid
  failed : ∃ n, tzip₀.Failed n w.tzip ∧ 8 * n ≤ bits.length

/-- The writer after fields and blocks that have the bits `bits`. -/
def Writer.At (tzip₀ : TZIP) (bits : List Bool) (w : Writer) : Prop := w.Holds tzip₀ bits ∨ w.GivenUp tzip₀ bits

theorem size_makeRoom (k : Nat) (w : Writer) : (makeRoom k w).out_size = w.out_size := by
  unfold makeRoom
  split <;> rfl

@[simp] theorem bi_valid_makeRoom (k : Nat) (w : Writer) : (makeRoom k w).bi_valid = w.bi_valid := by
  unfold makeRoom
  split <;> rfl

theorem offset_makeRoom {k : Nat} (hk : k < w.out_size) : (makeRoom k w).out_offset + k < (makeRoom k w).out_size := by
  rw [size_makeRoom]
  unfold makeRoom
  split
  · rwa [Nat.zero_add]
  · omega

/-- What is in the buffers stays in front of what follows. -/
theorem Writer.Holds.makeRoom (h : w.Holds tzip₀ bits) (k : Nat) : (makeRoom k w).Holds tzip₀ bits := by
  obtain ⟨hsize, hoffset, hvalid, flushed, pend, hafter, hbits, hlen, hbuf⟩ := h
  unfold Zip.makeRoom
  split
  · refine ⟨hsize, Nat.zero_le _, hvalid, flushed ++ w.out, pend, hafter.write w.out, ?_, hlen, hbuf⟩
    rw [hbits, Writer.out, Writer.out, List.take_zero, List.append_nil]
  · exact ⟨hsize, hoffset, hvalid, flushed, pend, hafter, hbits, hlen, hbuf⟩

theorem returns_flushFull (k : Nat) (Q : Unit → Writer → Prop) : Returns (flushFull k) w Q ↔ Q () (makeRoom k w) := by
  unfold flushFull makeRoom writeOut resetOut
  rw [returns_bind, returns_get, returns_bind, returns_get]
  by_cases h : w.out_size ≤ w.out_offset + k
  · rw [if_pos h, if_pos h, returns_bind, returns_modify, returns_modify]
    rfl
  · rw [if_neg h, if_neg h, returns_pure]

/-- A field behind the bits in `bi_buf`. -/
theorem toNat_bi_buf {pend : List Bool} {buf : BitVec 32} {value length : Nat} (hpend : pend.length ≤ 16) (hbuf : buf.toNat = bitsNat pend)
    (hlength : length ≤ 16) (hvalue : value < 2 ^ length) :
    (buf ||| BitVec.ofNat 32 value <<< pend.length).toNat = bitsNat (pend ++ natBits length value) := by
  have hvalue' : value < 2 ^ 16 := Nat.lt_of_lt_of_le hvalue (Nat.pow_le_pow_right Nat.two_pos hlength)
  have hshift : value * 2 ^ pend.length < 2 ^ 32 := by
    have hpow : 2 ^ pend.length ≤ 2 ^ 16 := Nat.pow_le_pow_right Nat.two_pos hpend
    calc value * 2 ^ pend.length ≤ value * 2 ^ 16 := Nat.mul_le_mul_left _ hpow
      _ < 2 ^ 32 := by omega
  rw [BitVec.toNat_or, hbuf, BitVec.toNat_shiftLeft, BitVec.toNat_ofNat, Nat.mod_eq_of_lt (show value < 2 ^ 32 by omega), Nat.shiftLeft_eq,
    Nat.mod_eq_of_lt hshift, ← Nat.shiftLeft_eq, bitsNat_or_shiftLeft, bitsNat_append, bitsNat_natBits, Nat.mod_eq_of_lt hvalue]

theorem bytesBits_short (n : Nat) : bytesBits [UInt8.ofNat n, UInt8.ofNat (n / 256)] = natBits 16 n := by
  have hpair : [UInt8.ofNat n, UInt8.ofNat (n / 256)] = [UInt8.ofNat n] ++ [UInt8.ofNat (n / 256)] := rfl
  rw [hpair, bytesBits_append, bytesBits_ofNat, bytesBits_ofNat]
  exact (natBits_add (k := 8) (l := 8)).symm

/-- A field that fills `bi_buf`: the first 16 bits go on to `out_buf`, when it has room for them. -/
theorem holds_stored {flushed : List UInt8} {pend : List Bool} {value length : Nat} (hsize : 4 ≤ w.out_size)
    (hoffset : w.out_offset + 1 < w.out_size) (hafter : tzip₀.After flushed w.tzip) (hpend : pend.length ≤ 16)
    (hfull : 16 < pend.length + length) (hlength : length ≤ 16) (hvalue : value < 2 ^ length)
    (hvalid : w.bi_valid = pend.length + length) (hbuf : w.bi_buf.toNat = bitsNat (pend ++ natBits length value)) :
    let w' : Writer := { w.put [UInt8.ofNat w.bi_buf.toNat, UInt8.ofNat (w.bi_buf.toNat / 256)] with
      bi_valid := w.bi_valid - ZIP_BUF_SIZE, bi_buf := BitVec.ofNat 32 value >>> (length - (w.bi_valid - ZIP_BUF_SIZE)) }
    w'.Holds tzip₀ (bytesBits (flushed ++ w.out) ++ (pend ++ natBits length value)) := by
  intro w'
  have hlen : (pend ++ natBits length value).length = pend.length + length := by rw [List.length_append, length_natBits]
  have hput : w'.out_size = w.out_size := size_put hoffset
  have hout : w'.out = w.out ++ [UInt8.ofNat w.bi_buf.toNat, UInt8.ofNat (w.bi_buf.toNat / 256)] := out_put (by omega)
  have hkeep : w'.bi_valid = pend.length + length - 16 := congrArg (· - 16) hvalid
  refine ⟨hput ▸ hsize, hput ▸ hoffset, by omega, flushed, (pend ++ natBits length value).drop 16, hafter, ?_, ?_, ?_⟩
  · have htake : natBits 16 (bitsNat (pend ++ natBits length value)) = (pend ++ natBits length value).take 16 := by
      rw [← take_natBits (show 16 ≤ (pend ++ natBits length value).length by omega), natBits_bitsNat]
    rw [hout, ← List.append_assoc flushed, bytesBits_append (flushed ++ w.out), bytesBits_short, hbuf, htake, List.append_assoc,
      List.take_append_drop]
  · rw [List.length_drop, hlen, hkeep]
  · have hshift : length - (w.bi_valid - ZIP_BUF_SIZE) = 16 - pend.length := by
      rw [hvalid, ZIP_BUF_SIZE]
      omega
    have hvalue' : value < 2 ^ 32 :=
      Nat.lt_of_lt_of_le hvalue (Nat.pow_le_pow_right Nat.two_pos (Nat.le_trans hlength (by decide)))
    change (BitVec.ofNat 32 value >>> (length - (w.bi_valid - ZIP_BUF_SIZE))).toNat = _
    rw [hshift, List.drop_append, List.drop_eq_nil_of_le hpend, List.nil_append, bitsNat_drop, bitsNat_natBits,
      Nat.mod_eq_of_lt hvalue, BitVec.toNat_ushiftRight, BitVec.toNat_ofNat, Nat.mod_eq_of_lt hvalue', Nat.shiftRight_eq_div_pow]

theorem returns_storeBits {flushed : List UInt8} {pend : List Bool} {value length : Nat} (hsize : 4 ≤ w.out_size)
    (hoffset : w.out_offset ≤ w.out_size) (hafter : tzip₀.After flushed w.tzip) (hpend : pend.length ≤ 16)
    (hfull : 16 < pend.length + length) (hlength : length ≤ 16) (hvalue : value < 2 ^ length)
    (hvalid : w.bi_valid = pend.length + length) (hbuf : w.bi_buf.toNat = bitsNat (pend ++ natBits length value))
    (hbits : bits = bytesBits (flushed ++ w.out) ++ (pend ++ natBits length value)) :
    Returns (storeBits value length) w fun ok w' => w'.At tzip₀ bits ∧ (ok = true → w'.Holds tzip₀ bits) := by
  unfold storeBits writeOut resetOut
  simp only [returns_bind, returns_get]
  by_cases hroom : w.out_size ≤ w.out_offset + 1
  · rw [if_pos hroom]
    have hwrite := hafter.write w.out
    rw [returns_bind, returns_modify, returns_bind, returns_get]
    by_cases herr : (writeDestination w.tzip w.out).lasterr = .ok
    · rw [if_neg (fun hn => hn herr), returns_bind, returns_modify, returns_bind, returns_get, returns_bind]
      have hfree : 1 < w.out_size := by omega
      rw [returns_putShort _ (by rwa [Nat.zero_add])]
      simp only [returns_bind, returns_modify, returns_pure]
      have hholds := holds_stored (w := { w with tzip := writeDestination w.tzip w.out, out_offset := 0 }) hsize
        (by rwa [Nat.zero_add]) hwrite hpend hfull hlength hvalue hvalid hbuf
      have hempty : ({ w with tzip := writeDestination w.tzip w.out, out_offset := 0 } : Writer).out = [] := List.take_zero
      rw [hempty, List.append_nil, ← hbits] at hholds
      exact ⟨.inl hholds, fun _ => hholds⟩
    · rw [if_pos (show ¬ (writeDestination w.tzip (w.out_buf.take w.out_offset)).lasterr = .ok from herr), returns_pure]
      have hcount : 8 * (flushed ++ w.out).length ≤ bits.length := by
        have hlen := congrArg List.length hbits
        rw [List.length_append, length_bytesBits] at hlen
        omega
      have hgiven : Writer.GivenUp tzip₀ bits { w with tzip := writeDestination w.tzip w.out } :=
        ⟨hsize, hoffset, hroom, hvalid ▸ hfull, _, hwrite.failed herr, hcount⟩
      exact ⟨.inr hgiven, fun hn => Bool.noConfusion hn⟩
  · rw [if_neg hroom]
    have hoff : w.out_offset + 1 < w.out_size := Nat.lt_of_not_le hroom
    rw [returns_bind, returns_get, returns_bind, returns_putShort _ hoff]
    simp only [returns_bind, returns_modify, returns_pure]
    have hholds := holds_stored hsize hoff hafter hpend hfull hlength hvalue hvalid hbuf
    rw [← hbits] at hholds
    exact ⟨.inl hholds, fun _ => hholds⟩

theorem returns_storeBits_failed {n : Nat} (hfull : w.out_size ≤ w.out_offset + 1) (hfailed : tzip₀.Failed n w.tzip) (value length : Nat)
    (Q : Bool → Writer → Prop) : Returns (storeBits value length) w Q ↔ Q false w := by
  unfold storeBits writeOut
  simp only [returns_bind, returns_get]
  rw [if_pos hfull, returns_bind, returns_modify, returns_bind, returns_get, hfailed.write, if_pos hfailed.err, returns_pure]

/-- A field is sent, or the writer gives up. -/
theorem returns_sendBits (h : w.At tzip₀ bits) {value length : Nat} (hlength : length ≤ 16) (hvalue : value < 2 ^ length) :
    Returns (sendBits value length) w fun ok w' =>
      w'.At tzip₀ (bits ++ natBits length value) ∧ (ok = true → w'.Holds tzip₀ (bits ++ natBits length value)) := by
  unfold sendBits
  rw [returns_bind, returns_modify, returns_bind, returns_get]
  rcases h with h | h
  · obtain ⟨hsize, hoffset, hvalid, flushed, pend, hafter, hbits, hlen, hbuf⟩ := h
    have hload := toNat_bi_buf (by omega) hbuf hlength hvalue
    rw [← hlen] at hload
    have hbits' : bits ++ natBits length value = bytesBits (flushed ++ w.out) ++ (pend ++ natBits length value) := by
      rw [hbits, List.append_assoc]
    by_cases hfull : 16 < w.bi_valid + length
    · rw [if_pos (show ZIP_BUF_SIZE < w.bi_valid + length from hfull)]
      exact returns_storeBits hsize hoffset hafter (by omega) (by omega) hlength hvalue (by rw [← hlen]) hload hbits'
    · rw [if_neg (show ¬ ZIP_BUF_SIZE < w.bi_valid + length from hfull), returns_pure]
      have hholds : Writer.Holds tzip₀ (bits ++ natBits length value)
          { w with bi_buf := w.bi_buf ||| BitVec.ofNat 32 value <<< w.bi_valid, bi_valid := w.bi_valid + length } := by
        refine ⟨hsize, hoffset, Nat.le_of_not_lt hfull, flushed, pend ++ natBits length value, hafter, hbits', ?_, hload⟩
        rw [List.length_append, length_natBits, ← hlen]
      exact ⟨.inl hholds, fun _ => hholds⟩
  · obtain ⟨hsize, hoffset, hfull, hvalid, n, hfailed, hn⟩ := h
    rw [if_pos (show ZIP_BUF_SIZE < w.bi_valid + length from Nat.lt_add_right _ hvalid)]
    have hgiven : Writer.GivenUp tzip₀ (bits ++ natBits length value)
        { w with bi_buf := w.bi_buf ||| BitVec.ofNat 32 value <<< w.bi_valid, bi_valid := w.bi_valid + length } :=
      ⟨hsize, hoffset, hfull, Nat.lt_add_right _ hvalid, n, hfailed, by rw [List.length_append]; omega⟩
    refine (returns_storeBits_failed hgiven.full hfailed value length _).2 ⟨.inr hgiven, fun hn => Bool.noConfusion hn⟩

/-! ## To a whole byte -/

/-- There are whole bytes for `bits`, or a write has failed. -/
structure Writer.Whole (tzip₀ : TZIP) (bits : List Bool) (w : Writer) : Prop where
  size : 4 ≤ w.out_size
  offset : w.out_offset ≤ w.out_size
  sent : (∃ flushed, tzip₀.After flushed w.tzip ∧ bits = bytesBits (flushed ++ w.out)) ∨ ∃ n, tzip₀.Failed n w.tzip ∧ 8 * n ≤ bits.length

theorem Writer.Whole.put {flushed : List UInt8} {pend : List Bool} (hsize : 4 ≤ w.out_size)
    (hoffset : w.out_offset + bytes.length ≤ w.out_size)
    (hafter : tzip₀.After flushed w.tzip) (hbits : bits = bytesBits (flushed ++ w.out) ++ pend) (hbytes : align pend = bytesBits bytes) :
    (w.put bytes).Whole tzip₀ (align bits) := by
  have hput : (w.put bytes).out_size = w.out_size := size_put hoffset
  refine ⟨hput ▸ hsize, hput ▸ hoffset, .inl ⟨flushed, hafter, ?_⟩⟩
  rw [hbits, align_bytesBits_append, hbytes, out_put (by omega), ← bytesBits_append, List.append_assoc]

theorem Writer.GivenUp.put (h : w.GivenUp tzip₀ bits) {w' : Writer} (hsize : w'.out_size = w.out_size)
    (hoffset : w'.out_offset ≤ w'.out_size)
    (htzip : w'.tzip = w.tzip) : w'.Whole tzip₀ (align bits) := by
  obtain ⟨n, hfailed, hn⟩ := h.failed
  refine ⟨hsize ▸ h.size, hoffset, .inr ⟨n, htzip ▸ hfailed, ?_⟩⟩
  rw [align, List.length_append]
  omega

theorem returns_storeRest (h : w.At tzip₀ bits) : Returns storeRest w fun _ w' => w'.Whole tzip₀ (align bits) := by
  unfold storeRest
  rw [returns_bind, returns_get]
  rcases h with h | h
  · have hvalid := h.valid
    by_cases hlong : 8 < w.bi_valid
    · have hroom := offset_makeRoom (k := 1) (Nat.lt_of_lt_of_le (by decide) h.size)
      obtain ⟨hsize, -, -, flushed, pend, hafter, hbits, hlen, hbuf⟩ := h.makeRoom 1
      rw [bi_valid_makeRoom] at hlen
      rw [if_pos hlong, returns_bind, returns_flushFull, returns_bind, returns_get, returns_putShort _ hroom]
      refine Writer.Whole.put hsize hroom hafter hbits ?_
      rw [bytesBits_short, hbuf, align_eq_natBits (k := 16) ⟨2, rfl⟩ (by omega) (by omega)]
    · rw [if_neg hlong, returns_bind, returns_get]
      by_cases hshort : 0 < w.bi_valid
      · have hroom := offset_makeRoom (k := 0) (Nat.lt_of_lt_of_le (by decide) h.size)
        obtain ⟨hsize, -, -, flushed, pend, hafter, hbits, hlen, hbuf⟩ := h.makeRoom 0
        rw [bi_valid_makeRoom] at hlen
        rw [if_pos hshort, returns_bind, returns_flushFull, returns_bind, returns_get, returns_putByte _ hroom]
        refine Writer.Whole.put hsize hroom hafter hbits ?_
        rw [bytesBits_ofNat, hbuf, align_eq_natBits (k := 8) ⟨1, rfl⟩ (by omega) (by omega)]
      · obtain ⟨hsize, hoffset, -, flushed, pend, hafter, hbits, hlen, -⟩ := h
        rw [if_neg hshort, returns_pure]
        have hnil : pend = [] := List.eq_nil_of_length_eq_zero (by omega)
        rw [hnil, List.append_nil] at hbits
        refine ⟨hsize, hoffset, .inl ⟨flushed, hafter, ?_⟩⟩
        rw [align_eq_self (by rw [hbits, length_bytesBits]; exact Nat.dvd_mul_right 8 _), hbits]
  · have hvalid := h.valid
    have hroom := offset_makeRoom (k := 1) (Nat.lt_of_lt_of_le (by decide) h.size)
    obtain ⟨n, hfailed, -⟩ := h.failed
    have htzip : (makeRoom 1 w).tzip = w.tzip := by
      unfold makeRoom
      rw [if_pos h.full, hfailed.write]
    rw [if_pos (by omega), returns_bind, returns_flushFull, returns_bind, returns_get, returns_putShort _ hroom]
    have hput : ∀ n : Nat, ((makeRoom 1 w).put [UInt8.ofNat n, UInt8.ofNat (n / 256)]).out_size = (makeRoom 1 w).out_size :=
      fun n => size_put hroom
    exact h.put ((hput _).trans (size_makeRoom 1 w)) (hput _ ▸ hroom) htzip

/-- Whole bytes, all of them with the destination. -/
def Writer.Flushed (tzip₀ : TZIP) (bits : List Bool) (w : Writer) : Prop :=
  4 ≤ w.out_size ∧ w.bi_buf = 0 ∧ w.bi_valid = 0 ∧ w.out_offset = 0 ∧ ∃ bytes, tzip₀.After bytes w.tzip ∧ bits = bytesBits bytes

theorem Writer.Whole.after (h : w.Whole tzip₀ (align bits)) :
    ∃ bytes, tzip₀.After bytes (writeDestination w.tzip w.out) ∧ align bits = bytesBits bytes := by
  rcases h.sent with ⟨flushed, hafter, hbits⟩ | ⟨n, hfailed, hn⟩
  · exact ⟨flushed ++ w.out, hafter.write w.out, hbits⟩
  · refine ⟨packed bits, .inr ?_, (bytesBits_packed bits).symm⟩
    rw [hfailed.write]
    rw [← bytesBits_packed, length_bytesBits] at hn
    exact hfailed.mono (by omega)

theorem returns_biWindup (h : w.At tzip₀ bits) : Returns biWindup w fun _ w' => w'.Flushed tzip₀ (align bits) := by
  unfold biWindup
  refine (returns_storeRest h).bind fun _ w₁ hwhole => ?_
  rw [returns_bind, writeOut, returns_modify, returns_modify]
  exact ⟨hwhole.size, rfl, rfl, rfl, hwhole.after⟩

theorem Writer.Flushed.holds (h : w.Flushed tzip₀ bits) : w.Holds tzip₀ bits := by
  obtain ⟨hsize, hbuf, hvalid, hoffset, bytes, hafter, hbits⟩ := h
  refine ⟨hsize, by omega, by omega, bytes, [], hafter, ?_, hvalid, ?_⟩
  · rw [Writer.out, hoffset, List.take_zero, List.append_nil, List.append_nil, hbits]
  · rw [hbuf]
    rfl

/-! ## Blocks that are copied -/

/-- The bits of the header of a stored block: 16 bits of the length, and their complement. -/
def headerBits (len : Nat) : List Bool := natBits 16 len ++ natBits 16 (65535 - len % 65536)

theorem returns_storeHeader (h : w.Flushed tzip₀ bits) (len : Nat) :
    Returns (storeHeader (BitVec.ofNat 64 len)) w fun _ w' => w'.Flushed tzip₀ (bits ++ headerBits len) := by
  obtain ⟨hsize, hbuf, hvalid, hoffset, bytes, hafter, hbits⟩ := h
  have hlow : ((BitVec.ofNat 64 len).setWidth 16).toNat = len % 2 ^ 16 := by
    rw [BitVec.toNat_setWidth, BitVec.toNat_ofNat]
    omega
  have hhigh : ((~~~BitVec.ofNat 64 len).setWidth 16).toNat = 65535 - len % 65536 := by
    rw [BitVec.toNat_setWidth, BitVec.toNat_not, BitVec.toNat_ofNat]
    omega
  have hroom : makeRoom 3 w = w := if_neg (by omega)
  unfold storeHeader
  rw [returns_bind, returns_flushFull, hroom, returns_bind, returns_putShort _ (by omega), returns_bind, hlow, hhigh]
  have hput : ∀ a b : UInt8, (w.put [a, b]).out_size = w.out_size := 
    fun a b => size_put (show w.out_offset + 2 ≤ w.out_size by omega)
  have hnext : ∀ a b : UInt8, (w.put [a, b]).out_offset + 1 < (w.put [a, b]).out_size := by
    intro a b
    rw [hput, Writer.put, hoffset]
    exact Nat.le_trans (by decide : 0 + 2 + 1 + 1 ≤ 4) hsize
  rw [returns_putShort _ (hnext _ _), put_put (by omega), returns_bind, writeOut, returns_modify, resetOut, returns_modify]
  generalize hshorts : [UInt8.ofNat (len % 2 ^ 16), UInt8.ofNat (len % 2 ^ 16 / 256)] ++
    [UInt8.ofNat (65535 - len % 65536), UInt8.ofNat ((65535 - len % 65536) / 256)] = shorts
  have hout : (w.put shorts).out = shorts := by
    rw [out_put (by omega), Writer.out, hoffset, List.take_zero, List.nil_append]
  have hfour : shorts.length = 4 := by
    rw [← hshorts]
    rfl
  have hsize' : (w.put shorts).out_size = w.out_size := size_put (by omega)
  have hwrite := hafter.write (w.put shorts).out
  refine ⟨Nat.le_trans hsize (Nat.le_of_eq hsize'.symm), hbuf, hvalid, rfl, bytes ++ (w.put shorts).out, hwrite, ?_⟩
  rw [hout, bytesBits_append, hbits, ← hshorts, bytesBits_append, bytesBits_short, bytesBits_short, natBits_mod (Nat.le_refl 16)]
  rfl

/-- What `copy_block` adds to the bits. -/
def copyBits (bits : List Bool) (block : List UInt8) (header : Bool) : List Bool :=
  align bits ++ (if header then headerBits block.length else []) ++ bytesBits block

theorem returns_copyBlock (h : w.At tzip₀ bits) (block : List UInt8) (header : Bool) :
    Returns (copyBlock block header) w fun _ w' => w'.Flushed tzip₀ (copyBits bits block header) := by
  have hcopy : ∀ {bits' w'}, Writer.Flushed tzip₀ bits' w' →
      Writer.Flushed tzip₀ (bits' ++ bytesBits block) { w' with tzip := writeDestination w'.tzip block } := by
    rintro bits' w' ⟨hsize, hbuf, hvalid, hoffset, bytes, hafter, hbits⟩
    exact ⟨hsize, hbuf, hvalid, hoffset, bytes ++ block, hafter.write block, by rw [bytesBits_append, hbits]⟩
  unfold copyBlock copyBits
  refine (returns_biWindup h).bind fun _ w₁ hwind => ?_
  cases header with
  | true =>
    rw [if_pos rfl, if_pos rfl]
    refine (returns_storeHeader hwind block.length).bind fun _ w₂ hheader => ?_
    rw [returns_modify]
    exact hcopy hheader
  | false =>
    rw [if_neg (by decide), if_neg (by decide), List.append_nil]
    rw [returns_modify]
    exact hcopy hwind

/-! ## Everything that an entry sends -/

/-- A call that sends something. -/
inductive Sent
  | bits (value length : Nat)
  | copy (block : List UInt8) (header : Bool)

/-- What may be sent as a field. -/
def Sent.Fits : Sent → Prop
  | .bits value length => length ≤ 16 ∧ value < 2 ^ length
  | .copy _ _ => True

/-- The bits of an entry, with this behind those before. -/
def Sent.after (bits : List Bool) : Sent → List Bool
  | .bits value length => bits ++ natBits length value
  | .copy block header => copyBits bits block header

/-- The calls one after the other, whatever they come to, and `bi_windup`. -/
def sendAll : List Sent → Prog Writer Unit
  | [] => biWindup
  | .bits value length :: sent => do
    let _ ← sendBits value length
    sendAll sent
  | .copy block header :: sent => do
    copyBlock block header
    sendAll sent

theorem returns_sendAll (h : w.At tzip₀ bits) (sent : List Sent) (hfits : ∀ s ∈ sent, s.Fits) :
    Returns (sendAll sent) w fun _ w' => w'.Flushed tzip₀ (align (sent.foldl Sent.after bits)) := by
  induction sent generalizing w bits with
  | nil => exact returns_biWindup h
  | cons s sent ih =>
    have hrest : ∀ s ∈ sent, s.Fits := fun s hs => hfits s (List.mem_cons_of_mem _ hs)
    have hfit := hfits s List.mem_cons_self
    cases s with
    | bits value length =>
      exact (returns_sendBits h hfit.1 hfit.2).bind fun _ w₁ hsend => ih hsend.1 hrest
    | copy block header =>
      exact (returns_copyBlock h block header).bind fun _ w₁ hcopy => ih (.inl hcopy.holds) hrest

/-- From an empty writer and a destination without an error: all calls come back and stay within the buffers. There is
an error afterwards exactly when there is something to write and the destination has been told to abort or has no room for
all of it; without an error the destination has all bits that were sent, encrypted if there is a password. -/
theorem sendAll_destination (w : Writer) (sent : List Sent) (hsize : 4 ≤ w.out_size) (hvalid : w.bi_valid = 0) (hbuf : w.bi_buf = 0)
    (hoffset : w.out_offset = 0) (hok : w.tzip.lasterr = .ok) (hfits : ∀ s ∈ sent, s.Fits) :
    Returns (sendAll sent) w fun _ w' =>
      (w'.tzip.lasterr = .ok ↔
        packed (sent.foldl Sent.after []) = [] ∨
          w.tzip.abort = false ∧ (packed (sent.foldl Sent.after [])).length ≤ w.tzip.room) ∧
      (w'.tzip.lasterr = .ok → w'.tzip.destination = w.tzip.destination ++ (w.tzip.encode (packed (sent.foldl Sent.after []))).1) := by
  have hstart : w.Flushed w.tzip [] := ⟨hsize, hbuf, hvalid, hoffset, [], .inl (.refl hok), rfl⟩
  refine (returns_sendAll (.inl hstart.holds) sent hfits).mono ?_
  rintro _ w' ⟨-, -, -, -, bytes, hafter, hbits⟩
  rw [packed_eq hbits]
  rcases hafter with hwrote | hfailed
  · have hroom := hwrote.room
    have hfit : bytes = [] ∨ w.tzip.abort = false ∧ bytes.length ≤ w.tzip.room := by
      by_cases hnil : bytes = []
      · exact .inl hnil
      · exact .inr ⟨hwrote.unaborted hnil, by omega⟩
    exact ⟨iff_of_true hwrote.err hfit, fun _ => hwrote.destination⟩
  · refine ⟨iff_of_false hfailed.err ?_, fun hn => absurd hn hfailed.err⟩
    rintro (hnil | ⟨habort, hroom⟩)
    · have hpos := hfailed.pos
      rw [hnil, List.length_nil] at hpos
      omega
    · rcases hfailed.cause with hcause | hcause
      · rw [habort] at hcause
        cases hcause
      · omega

/-- Three bits, a stored block of two bytes behind them, and a bit are eight bytes: an error for a destination that has
room for seven, and none for one with room for eight. -/
theorem sendAll_destination_seven :
    Returns (sendAll [.bits 5 3, .copy [1, 2] true, .bits 1 1])
        ⟨0, 0, [0, 0, 0, 0], 0, ⟨false, true, false, Keys.start, .ok, [], 7⟩⟩ (fun _ w' => w'.tzip.lasterr ≠ .ok) ∧
      Returns (sendAll [.bits 5 3, .copy [1, 2] true, .bits 1 1])
        ⟨0, 0, [0, 0, 0, 0], 0, ⟨false, true, false, Keys.start, .ok, [], 8⟩⟩ fun _ w' =>
          w'.tzip.lasterr = .ok ∧ w'.tzip.destination = [5, 2, 0, 253, 255, 1, 2, 1] := by
  have hfits : ∀ s ∈ [Sent.bits 5 3, .copy [1, 2] true, .bits 1 1], s.Fits := by simp [Sent.Fits]
  have hpacked : packed ([Sent.bits 5 3, .copy [1, 2] true, .bits 1 1].foldl Sent.after []) = [5, 2, 0, 253, 255, 1, 2, 1] := by
    decide +kernel
  have hseven := sendAll_destination ⟨0, 0, [0, 0, 0, 0], 0, ⟨false, true, false, Keys.start, .ok, [], 7⟩⟩ _ (by decide) rfl rfl rfl
    rfl hfits
  have height := sendAll_destination ⟨0, 0, [0, 0, 0, 0], 0, ⟨false, true, false, Keys.start, .ok, [], 8⟩⟩ _ (by decide) rfl rfl rfl
    rfl hfits
  rw [hpacked] at hseven height
  constructor
  · refine hseven.mono ?_
    rintro _ w' ⟨hiff, -⟩ hok
    exact absurd (hiff.1 hok) (by decide)
  · refine height.mono ?_
    rintro _ w' ⟨hiff, hdestination⟩
    have hok := hiff.2 (.inr ⟨rfl, by decide⟩)
    exact ⟨hok, hdestination hok⟩

end MgStd.Zip
