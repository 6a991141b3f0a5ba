import Mathlib.Logic.Function.Iterate
import MgStd.Sha.Code
/-!
# mgcrc32.c

Memory is a list of bytes. An `unsigned long` has 64 bits; the entries of the
table and the result have 32.
-/

namespace MgStd.Crc32

open MgStd.Lib

/-- `unsigned long` -/
abbrev Long := BitVec 64

/-- `MG_CRC32_CTX` -/
structure Ctx where
  crcTab : List (BitVec 32)
  mask : Long
  deriving DecidableEq

def poly : Long := 0xEDB88320

/-- The body of `for (j = 8; j > 0; j--)`. -/
def crcRound (crc : Long) : Long := if crc &&& 1 ≠ 0 then crc >>> 1 ^^^ poly else crc >>> 1

/-- `crc_tab[i]` -/
def crcEntry (i : Nat) : BitVec 32 := (Nat.iterate crcRound 8 (BitVec.ofNat 64 i)).setWidth 32

/-- All of the context is set. -/
def mgCrc32Init : Ctx := ⟨(List.range 256).map crcEntry, 0xFFFFFFFF⟩

/-- The body of the loop of `mg_crc32_update`. -/
def crcByte (crcTab : List (BitVec 32)) (mask : Long) (byte : UInt8) : Long :=
  (mask >>> 8 &&& 0x00FFFFFF) ^^^
    (crcTab.getD ((mask ^^^ BitVec.ofNat 64 byte.toNat) &&& 0xFF).toNat 0).setWidth 64

def mgCrc32Update (ctx : Ctx) (block : List UInt8) : Ctx := { ctx with mask := block.foldl (crcByte ctx.crcTab) ctx.mask }

def mgCrc32Final (ctx : Ctx) : BitVec 32 := (ctx.mask ^^^ 0xFFFFFFFF).setWidth 32

/-- What `sprintf` makes of `output`, nine bytes of it, and the result. -/
def mgChecksumCrc32 (output block : List UInt8) : Except Fault (List UInt8) × BitVec 32 :=
  let result := mgCrc32Final (mgCrc32Update mgCrc32Init block)
  (Sha.printWord 8 output 0 result, result)

/-- "123456789" -/
example : (mgChecksumCrc32 (List.replicate 9 0) [0x31, 0x32, 0x33, 0x34, 0x35, 0x36, 0x37, 0x38, 0x39]).2 = 0xcbf43926 := by
  decide +kernel

/-- The pieces of a message, one after the other, are the message. -/
theorem foldl_mgCrc32Update (ctx : Ctx) (pieces : List (List UInt8)) :
    pieces.foldl mgCrc32Update ctx = mgCrc32Update ctx pieces.flatten := by
  unfold mgCrc32Update
  induction pieces generalizing ctx with
  | nil => rfl
  | cons piece pieces ih => rw [List.foldl_cons, ih, List.flatten_cons, List.foldl_append]

end MgStd.Crc32
