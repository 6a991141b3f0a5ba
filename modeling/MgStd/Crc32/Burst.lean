import MgStd.Crc32.Serial
/-!
# Bursts

A message of which up to 32 consecutive bits have changed has another checksum:
the table computes the reflected CRC-32, and its polynomial has a constant term.
-/

namespace MgStd.Crc32

open MgStd.Lib.Crc

variable {a b : List UInt8}

theorem length_messageBits (message : List UInt8) : (messageBits message).length = 8 * message.length := by
  induction message with
  | nil => rfl
  | cons byte message ih =>
    unfold messageBits at ih ⊢
    rw [List.flatMap_cons, List.length_append, length_bitsOf, ih, List.length_cons]
    omega

/-- A message is known from its bits. -/
theorem messageBits_injective : Function.Injective messageBits := by
  intro a b h
  induction a generalizing b with
  | nil =>
    have hlen := congrArg List.length h
    rw [length_messageBits, length_messageBits, List.length_nil] at hlen
    exact (List.length_eq_zero_iff.1 (by omega)).symm
  | cons x a ih =>
    cases b with
    | nil =>
      have hlen := congrArg List.length h
      rw [length_messageBits, length_messageBits, List.length_nil, List.length_cons] at hlen
      omega
    | cons y b =>
      obtain ⟨hbyte, hrest⟩ := List.append_inj h (by rw [length_bitsOf, length_bitsOf])
      have hword := congrArg (ofBits (w := 8)) hbyte
      rw [ofBits_bitsOf, ofBits_bitsOf, BitVec.setWidth_eq, BitVec.setWidth_eq] at hword
      rw [UInt8.toBitVec_inj.1 hword, ih hrest]

/-- Two different byte strings of one length whose differing bits lie within 32 consecutive positions have different checksums. -/
theorem mg_checksum_crc32_burst (a b : List UInt8) (hlen : a.length = b.length) (hne : a ≠ b)
    (hburst : Burst 32 (messageBits a) (messageBits b)) (output output' : List UInt8) :
    (mgChecksumCrc32 output a).2 ≠ (mgChecksumCrc32 output' b).2 := by
  intro h
  rw [mgChecksumCrc32, mgChecksumCrc32, mgCrc32_whole, mgCrc32_whole, reflectedCrc32, reflectedCrc32] at h
  have hregister := BitVec.not_inj.1 h
  refine serial_burst (by decide) (by decide) _ hburst ?_ (mt (messageBits_injective ·) hne) hregister
  rw [length_messageBits, length_messageBits, hlen]

theorem mg_checksum_crc32_burst_five : (mgChecksumCrc32 (List.replicate 9 0) [0, 0, 0, 0, 0]).2 ≠ (mgChecksumCrc32 (List.replicate 9 0) [0x80, 0, 0, 0, 0x40]).2 := by
  apply mg_checksum_crc32_burst [0, 0, 0, 0, 0] [0x80, 0, 0, 0, 0x40] rfl (by decide)
  have hinside : ∀ i < 40, (messageBits [0, 0, 0, 0, 0])[i]? ≠ (messageBits [0x80, 0, 0, 0, 0x40])[i]? → 7 ≤ i ∧ i < 39 := by
    decide
  refine ⟨7, fun i hi => ?_⟩
  rcases Nat.lt_or_ge i 40 with hlt | hge
  · exact hinside i hlt hi
  · rw [List.getElem?_eq_none hge, List.getElem?_eq_none hge] at hi
    exact absurd rfl hi

end MgStd.Crc32
