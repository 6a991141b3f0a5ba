import MgStd.Lib.Crc
import MgStd.Crc32.Code
/-!
# The table computes the reflected CRC-32

The abstract side is the checksum of a sequence of bits, one shift for each. In
the code a register of 32 bits lies in a word of 64 whose upper half stays clear,
and a byte is looked up in the table.
-/

namespace MgStd.Crc32

open MgStd.Lib MgStd.Lib.Crc

def reflectedPoly : BitVec 32 := 0xEDB88320

/-- The bits of a message in the order in which they are sent. -/
def messageBits (message : List UInt8) : List Bool := message.flatMap fun byte => bitsOf byte.toBitVec

/-- The reflected CRC-32: all ones at first, complemented at the end. -/
def reflectedCrc32 (message : List UInt8) : BitVec 32 :=
  ~~~ serial reflectedPoly (BitVec.allOnes 32) (messageBits message)

/-- The context whose register holds `r`. -/
def Ctx.at (r : BitVec 32) : Ctx := { mgCrc32Init with mask := r.setWidth 64 }

theorem mgCrc32Init_eq : mgCrc32Init = Ctx.at (BitVec.allOnes 32) := rfl

/-! ## The table -/

/-- The upper half of the word stays clear. -/
theorem crcRound_setWidth (r : BitVec 32) : crcRound (r.setWidth 64) = (shift reflectedPoly r).setWidth 64 := by
  have hbit : r.setWidth 64 &&& 1 ≠ 0 ↔ r.getLsbD 0 = true := by
    rw [show (1 : BitVec 64) = 1#64 from rfl, BitVec.and_one_eq_setWidth_ofBool_getLsbD, BitVec.getLsbD_setWidth]
    cases r.getLsbD 0 <;> decide
  have hhalf : r.setWidth 64 >>> 1 = (r >>> 1).setWidth 64 := by
    apply BitVec.eq_of_getLsbD_eq
    intro i hi
    simp
  unfold crcRound shift
  by_cases h : r.getLsbD 0 = true
  · rw [if_pos (hbit.2 h), if_pos h, hhalf, BitVec.setWidth_xor]
    rfl
  · rw [if_neg (mt hbit.1 h), if_neg h, hhalf]

theorem crcRounds_setWidth (n : Nat) (r : BitVec 32) :
    crcRound^[n] (r.setWidth 64) = ((shift reflectedPoly)^[n] r).setWidth 64 := by
  induction n generalizing r with
  | zero => rfl
  | succ n ih => rw [Function.iterate_succ_apply, crcRound_setWidth, ih]; rfl

theorem crcEntry_eq (b : BitVec 8) : crcEntry b.toNat = (shift reflectedPoly)^[8] (b.setWidth 32) := by
  have hword : BitVec.ofNat 64 b.toNat = (b.setWidth 32).setWidth 64 := by
    apply BitVec.eq_of_toNat_eq
    simp
  unfold crcEntry
  rw [hword, crcRounds_setWidth, BitVec.setWidth_setWidth_of_le _ (by omega), BitVec.setWidth_eq]

theorem crcTab_getD (b : BitVec 8) : (mgCrc32Init.crcTab).getD b.toNat 0 = (shift reflectedPoly)^[8] (b.setWidth 32) := by
  have hlt : b.toNat < 256 := b.isLt
  rw [← crcEntry_eq, mgCrc32Init, List.getD_eq_getElem?_getD, List.getElem?_map, List.getElem?_range hlt]
  rfl

/-! ## The update -/

/-- One byte is eight bits of the message. -/
theorem crcByte_eq (r : BitVec 32) (byte : UInt8) :
    crcByte mgCrc32Init.crcTab (r.setWidth 64) byte = (serial reflectedPoly r (bitsOf byte.toBitVec)).setWidth 64 := by
  have hword : BitVec.ofNat 64 byte.toNat = byte.toBitVec.setWidth 64 := by
    apply BitVec.eq_of_toNat_eq
    simp
  have hindex : ((r.setWidth 64 ^^^ BitVec.ofNat 64 byte.toNat) &&& 0xFF).toNat =
      ((r ^^^ byte.toBitVec.setWidth 32).setWidth 8).toNat := by
    have hmask : (0xFF : Nat) = 2 ^ 8 - 1 := rfl
    have hr : r.toNat % 2 ^ 64 = r.toNat := by omega
    rw [hword, BitVec.toNat_and, BitVec.toNat_setWidth 8, ← Nat.and_two_pow_sub_one_eq_mod, ← hmask, BitVec.toNat_xor,
      BitVec.toNat_setWidth 64, hr]
    simp
  have hhigh : r.setWidth 64 >>> 8 &&& (0x00FFFFFF : Long) = (r >>> 8).setWidth 64 := by
    have hlt : r.toNat / 2 ^ 8 < 2 ^ 24 := by omega
    apply BitVec.eq_of_toNat_eq
    rw [BitVec.toNat_and, BitVec.toNat_ushiftRight, BitVec.toNat_setWidth, BitVec.toNat_setWidth, BitVec.toNat_ushiftRight,
      Nat.shiftRight_eq_div_pow, show BitVec.toNat (0x00FFFFFF : Long) = 2 ^ 24 - 1 from rfl, Nat.and_two_pow_sub_one_eq_mod]
    omega
  unfold crcByte
  rw [hindex, hhigh, crcTab_getD, serial_bitsOf _ _ _ (by omega), ← BitVec.setWidth_xor]

theorem mgCrc32Update_eq (r : BitVec 32) (block : List UInt8) :
    mgCrc32Update (Ctx.at r) block = Ctx.at (serial reflectedPoly r (messageBits block)) := by
  induction block generalizing r with
  | nil => rfl
  | cons byte block ih =>
    calc mgCrc32Update (Ctx.at r) (byte :: block)
        = mgCrc32Update (Ctx.at (serial reflectedPoly r (bitsOf byte.toBitVec))) block := by
          simp only [mgCrc32Update, List.foldl_cons, Ctx.at, crcByte_eq]
      _ = Ctx.at (serial reflectedPoly r (messageBits (byte :: block))) := by
          rw [ih, messageBits, messageBits, List.flatMap_cons, serial_append]

theorem mgCrc32Final_eq (r : BitVec 32) : mgCrc32Final (Ctx.at r) = ~~~ r := by
  unfold mgCrc32Final Ctx.at
  rw [show (0xFFFFFFFF : Long) = (BitVec.allOnes 32).setWidth 64 from rfl, ← BitVec.setWidth_xor,
    BitVec.setWidth_setWidth_of_le _ (by omega), BitVec.setWidth_eq, BitVec.xor_allOnes]

theorem mgCrc32_whole (message : List UInt8) : mgCrc32Final (mgCrc32Update mgCrc32Init message) = reflectedCrc32 message := by
  rw [mgCrc32Init_eq, mgCrc32Update_eq, mgCrc32Final_eq, reflectedCrc32]

/-- However a message is cut, and with one call for all of it, the result is the reflected CRC-32. -/
theorem mgCrc32_reflected :
    (∀ pieces : List (List UInt8), mgCrc32Final (pieces.foldl mgCrc32Update mgCrc32Init) = reflectedCrc32 pieces.flatten) ∧
    (∀ output block : List UInt8, (mgChecksumCrc32 output block).2 = reflectedCrc32 block) ∧
    ∀ (ctx : Ctx) (a b : List UInt8), mgCrc32Update (mgCrc32Update ctx a) b = mgCrc32Update ctx (a ++ b) := by
  refine ⟨?_, ?_, ?_⟩
  · intro pieces
    rw [foldl_mgCrc32Update, mgCrc32_whole]
  · intro output block
    exact mgCrc32_whole block
  · intro ctx a b
    simp only [mgCrc32Update, List.foldl_append]

end MgStd.Crc32
