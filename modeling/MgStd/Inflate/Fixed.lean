import MgStd.Inflate.Calls
/-!
# Streams of stored blocks and of blocks with the fixed codes

The format of these blocks without the tables: a code for each literal byte, for each
range of lengths and of distances, and the extra bits behind it. The tables of the
source are the tables for these codes, and no code leaves many bits in the buffer.
-/

namespace MgStd.Inflate

open MgStd.Lib

variable {tail bits : List Bool} {ts : List Token} {size need n : Nat} {rest : List Bool} {final out : List UInt8}

/-! ## The format -/

/-- A code of `n` bits; the first bit is the highest one. -/
def codeBits (n code : Nat) : List Bool := (natBits n code).reverse

/-- The code for a literal byte, for the end of the block (256) or for a range of lengths. -/
def fixedCode (symbol : Nat) : List Bool :=
  if symbol < 144 then codeBits 8 (0x30 + symbol)
  else if symbol < 256 then codeBits 9 (0x190 + (symbol - 144))
  else if symbol < 280 then codeBits 7 (symbol - 256)
  else codeBits 8 (0xc0 + (symbol - 280))

/-- The bits of the tokens and of the end of the block, with `tail` behind it. -/
inductive FixedBits (tail : List Bool) : List Token → List Bool → Prop
  | done : FixedBits tail [] (fixedCode 256 ++ tail)
  | lit {ts : List Token} {bits : List Bool} (b : UInt8) (hnext : FixedBits tail ts bits) :
      FixedBits tail (.lit b :: ts) (fixedCode b.toNat ++ bits)
  | copy {ts : List Token} {extra extra' bits : List Bool} {k j : Nat} (hk : k < 29) (hj : j < 30) (hextra : extra.length = CpLExt.getD k 0)
      (hextra' : extra'.length = CpDExt.getD j 0) (hnext : FixedBits tail ts bits) :
      FixedBits tail (.copy (CpLens.getD k 0 + bitsNat extra) (CpDist.getD j 0 + bitsNat extra') :: ts)
        (fixedCode (257 + k) ++ (extra ++ (codeBits 5 j ++ (extra' ++ bits))))

/-- Behind a block that is the last one or not, when `out` has been unpacked: the bits are blocks, `rest` is behind the last one,
and all comes to `final`. -/
inductive FixedStream (size : Nat) (rest : List Bool) (final : List UInt8) : Bool → List UInt8 → List Bool → Prop
  | done : FixedStream size rest final true final rest
  | stored {last : Bool} {out bytes : List UInt8} {pad bits : List Bool} (hpad : pad.length < 8) (halign : 8 ∣ bits.length)
      (hbytes : bytes.length < 65536) (hnext : FixedStream size rest final last (out ++ bytes) bits) :
      FixedStream size rest final false out
        (last :: false :: false :: (pad ++ (lensBits bytes.length ++ (bytesBits bytes ++ bits))))
  | fixed {last : Bool} {out : List UInt8} {ts : List Token} {bits tail : List Bool} (hbits : FixedBits tail ts bits)
      (hvalid : Valid size out ts) (hnext : FixedStream size rest final last (expand out ts) tail) :
      FixedStream size rest final false out (last :: true :: false :: bits)

/-! ## The tables -/

theorem length_codeBits (n code : Nat) : (codeBits n code).length = n := by
  rw [codeBits, List.length_reverse, length_natBits]

/-- An entry that is there for all the bits that may follow. -/
theorem leads_here {h : Huft} {space : List Huft} {code : List Bool} (hneed : need ≤ n) (hpos : 0 < code.length) (hle : code.length ≤ need)
    (hbits : h.Bits = code.length)
    (hentry : ∀ r < 2 ^ (need - code.length), space[bitsNat code + 2 ^ code.length * r]? = some h) :
    Leads h n (some ⟨space, 0⟩) need code := by
  refine .here hneed hpos hle hbits ?_
  intro rest hlen
  have hlt := bitsNat_lt rest
  rw [show rest.length = need - code.length by omega] at hlt
  rw [Nat.zero_add, bitsNat_append]
  exact hentry _ hlt

theorem fixed_lit : ∀ b < 256, (fixedCode b).length = 8 ∨ (fixedCode b).length = 9 := by
  intro b hb
  rw [fixedCode, if_pos hb]
  split
  · exact .inl (length_codeBits _ _)
  · exact .inr (length_codeBits _ _)

theorem fixed_lit_entry : ∀ b < 256, ∀ r < 2 ^ (9 - (fixedCode b).length),
    Fixed_tl[bitsNat (fixedCode b) + 2 ^ (fixedCode b).length * r]? = some ⟨0, (fixedCode b).length, b⟩ := by decide +kernel

theorem fixed_len : ∀ k < 29, ((fixedCode (257 + k)).length = 7 ∨ (fixedCode (257 + k)).length = 8) ∧ CpLExt.getD k 0 ≤ 5 ∧
    3 ≤ CpLens.getD k 0 ∧ CpLens.getD k 0 + 2 ^ CpLExt.getD k 0 ≤ 259 := by decide

theorem fixed_len_entry : ∀ k < 29, ∀ r < 2 ^ (9 - (fixedCode (257 + k)).length),
    Fixed_tl[bitsNat (fixedCode (257 + k)) + 2 ^ (fixedCode (257 + k)).length * r]? =
      some ⟨extraOp (CpLExt.getD k 0), (fixedCode (257 + k)).length, CpLens.getD k 0⟩ := by decide +kernel

theorem fixed_end_entry : ∀ r < 2 ^ (9 - (fixedCode 256).length),
    Fixed_tl[bitsNat (fixedCode 256) + 2 ^ (fixedCode 256).length * r]? = some ⟨endOp, (fixedCode 256).length, 256⟩ := by decide +kernel

theorem fixed_dist_entry : ∀ j < 30, CpDExt.getD j 0 ≤ 13 ∧
    Fixed_td[bitsNat (codeBits 5 j)]? = some ⟨extraOp (CpDExt.getD j 0), 5, CpDist.getD j 0⟩ := by decide +kernel

/-- The fixed tables say what the format says. -/
theorem FixedBits.spells (h : FixedBits tail ts bits) : fixedCoding.Spells True tail ts bits := by
  induction h with
  | done =>
    exact ⟨_, _, rfl, leads_here (by decide) (by decide) (by decide) rfl fixed_end_entry, fun _ => by decide, rfl, fun _ => by decide⟩
  | @lit ts bits b hnext ih =>
    have hb : b.toNat < 256 := b.toNat_lt
    have hlen := fixed_lit b.toNat hb
    refine ⟨_, _, _, rfl, leads_here (by decide) (by omega) (show _ ≤ 9 by omega) rfl (fixed_lit_entry _ hb), fun _ => show _ ≤ 9 by omega,
      .inl ⟨rfl, fun _ => show 9 ≤ _ by omega, ?_, ih⟩⟩
    change Token.lit b = .lit (UInt8.ofNat b.toNat)
    rw [UInt8.ofNat_toNat]
  | @copy ts extra extra' bits k j hk hj hextra hextra' hnext ih =>
    obtain ⟨hlen, hext, hmin, hmax⟩ := fixed_len k hk
    obtain ⟨hdext, hdist⟩ := fixed_dist_entry j hj
    have hlt := bitsNat_lt extra
    rw [hextra] at hlt
    refine ⟨_, _, _, rfl, leads_here (by decide) (by omega) (show _ ≤ 9 by omega) rfl (fixed_len_entry _ hk), fun _ => show _ ≤ 9 by omega,
      .inr ⟨_, rfl, fun _ => show 9 ≤ _ by omega, hext, ?_, ?_, extra, _, rfl, hextra, ⟨extraOp (CpDExt.getD j 0), 5, CpDist.getD j 0⟩, _,
        codeBits 5 j, _, rfl, ?_, ?_, rfl, hdext, extra', _, rfl, hextra', rfl, ih⟩⟩
    · change 3 ≤ CpLens.getD k 0 + bitsNat extra
      omega
    · change CpLens.getD k 0 + bitsNat extra ≤ 258
      omega
    · refine leads_here (by decide) (by rw [length_codeBits]; decide) (by rw [length_codeBits]; decide) (length_codeBits _ _).symm ?_
      intro r hr
      rw [length_codeBits] at hr
      have hzero : r = 0 := by
        change r < 2 ^ (5 - 5) at hr
        omega
      rw [hzero, Nat.mul_zero, Nat.add_zero]
      exact hdist
    · intro _
      exact ⟨length_codeBits _ _, by decide⟩

theorem FixedStream.stream {last : Bool} {hufts : List Huft} (h : FixedStream size rest final last out bits) :
    Stream True size rest final last hufts out bits := by
  induction h with
  | done => exact .done
  | stored hpad halign hbytes hnext ih => exact .stored hpad halign hbytes ih
  | fixed hbits hvalid hnext ih => exact .fixed hbits.spells hvalid ih

end MgStd.Inflate
