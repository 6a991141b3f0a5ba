import MgStd.Lib.Bytes
import MgStd.Lib.Transducer
import MgStd.Zip.Checksum
/-!
# The encryption of mglite_zip.c and the decryption of mglite_unzip.c

An `unsigned long` has 64 bits here, so two of the three keys have more bits
than the format gives them; what is read from them is the same. A `char` is
signed where it is converted.
-/

namespace MgStd.Zip

open MgStd.Lib MgStd.Lib.Transducer

/-- `keys[3]` -/
@[ext] structure Keys where
  zero : ULG
  one : ULG
  two : ULG
deriving DecidableEq

/-- The constants of `addSrc` and of `initEntry`. -/
def Keys.start : Keys := ⟨305419896, 591751049, 878082192⟩

/-- `update_keys` and `Uupdate_keys`, for the table of their file. The conversion to `int` in `CRC32` changes bits only
that `& 0xff` drops. -/
def updateKeysBy (table : List ULG) (keys : Keys) (c : UInt8) : Keys :=
  let zero := CRC32 table keys.zero (c.toBitVec.signExtend 64)
  let one := keys.one + (zero &&& 0xFF)
  let one := one * 134775813 + 1
  ⟨zero, one, CRC32 table keys.two (one >>> 24)⟩

/-! ## mglite_zip.c -/

def updateKeys : Keys → UInt8 → Keys := updateKeysBy CrcTable

/-- `temp` is an `unsigned`. -/
def decryptByte (keys : Keys) : UInt8 :=
  let temp : BitVec 32 := (keys.two.setWidth 32 &&& 0xffff) ||| 2
  ⟨(((temp * (temp ^^^ 1)) >>> 8) &&& 0xff).setWidth 8⟩

/-- The result, and the keys afterwards. -/
def zencode (keys : Keys) (c : UInt8) : UInt8 × Keys := (decryptByte keys ^^^ c, updateKeys keys c)

/-- `for (cp = tzip->password; cp && *cp; cp++) update_keys(tzip->keys, *cp)` -/
def passwordKeys (password : List UInt8) : Keys := (cString password).foldl updateKeys Keys.start

/-- The twelve bytes of `encbuf` before they are encrypted: what `rand` gave, and a byte of the time. -/
def encryptionHeader (rand : List UInt8) (tim : ULG) : List UInt8 := rand.take 11 ++ [⟨((tim >>> 8) &&& 0xff).setWidth 8⟩]

/-- What `addSrc` and then `writeDestination` put behind the local header of an entry with a password, one piece for each
call of the latter. -/
def encryptedEntry (password rand : List UInt8) (tim : ULG) (pieces : List (List UInt8)) : List (List UInt8) :=
  (run (run zencode) (passwordKeys password) (encryptionHeader rand tim :: pieces)).1

/-! ## mglite_unzip.c -/

def uUpdateKeys : Keys → UInt8 → Keys := updateKeysBy Crc_table

/-- `while(*cp) Uupdate_keys(&tunzip->EntryReadVars.Keys[0], *(cp)++)` -/
def uPasswordKeys (password : List UInt8) : Keys := (cString password).foldl uUpdateKeys Keys.start

/-- The body of the loop of `readEntry` that decrypts `InputBuffer`: `temp` is a `DWORD`. -/
def decryptInput (keys : Keys) (c : UInt8) : UInt8 × Keys :=
  let temp : ULG := (keys.two &&& 0xffff) ||| 2
  let c := c ^^^ ⟨(((temp * (temp ^^^ 1)) >>> 8) &&& 0xff).setWidth 8⟩
  (c, uUpdateKeys keys c)

/-! ## The two together -/

/-- The writer multiplies 32 bits and the reader 64. -/
theorem mask_eq (two : ULG) :
    let small : BitVec 32 := (two.setWidth 32 &&& 0xffff) ||| 2
    let big : ULG := (two &&& 0xffff) ||| 2
    (((small * (small ^^^ 1)) >>> 8) &&& 0xff).setWidth 8 = (((big * (big ^^^ 1)) >>> 8) &&& 0xff).setWidth 8 := by
  intro small big
  have hbig : small = big.setWidth 32 := by
    simp only [small, big, BitVec.setWidth_or, BitVec.setWidth_and]
    rfl
  have hone : (1 : BitVec 32) = (1 : ULG).setWidth 32 := rfl
  rw [hbig, hone, ← BitVec.setWidth_xor]
  rw [← BitVec.setWidth_mul _ _ (by decide)]
  apply BitVec.eq_of_getLsbD_eq
  intro i hi
  have h32 : 8 + i < 32 := by omega
  simp [BitVec.getLsbD_ushiftRight, hi, h32]

theorem decrypt_zencode : Undoes decryptInput zencode := by
  intro keys c
  have hmask : decryptByte keys = ⟨((((keys.two &&& 0xffff) ||| 2) * (((keys.two &&& 0xffff) ||| 2) ^^^ 1)) >>> 8 &&& 0xff).setWidth 8⟩ :=
    congrArg UInt8.ofBitVec (mask_eq keys.two)
  have hback : (zencode keys c).1 ^^^ decryptByte keys = c := by
    rw [zencode, UInt8.xor_comm (decryptByte keys), UInt8.xor_assoc, UInt8.xor_self, UInt8.xor_zero]
  unfold decryptInput
  simp only [← hmask, hback]
  rfl

theorem uPasswordKeys_eq (password : List UInt8) : uPasswordKeys password = passwordKeys password := rfl

/-- The reader with the same password gets the header and the bytes of the entry, and goes on with the keys of the writer. -/
theorem run_decryptInput_encryptedEntry (password rand : List UInt8) (tim : ULG) (pieces : List (List UInt8)) :
    run decryptInput (uPasswordKeys password) (encryptedEntry password rand tim pieces).flatten
      = (encryptionHeader rand tim ++ pieces.flatten,
          (run (run zencode) (passwordKeys password) (encryptionHeader rand tim :: pieces)).2) := by
  obtain ⟨hwrite, hwriteKeys⟩ := run_pieces (f := zencode) (passwordKeys password) (encryptionHeader rand tim :: pieces)
  rw [encryptedEntry, hwrite, uPasswordKeys_eq, decrypt_zencode.run, hwriteKeys, List.flatten_cons]

/-- However the writer cuts the bytes of an entry when it writes them and the reader when it reads them back, with the same
password the reader gets the twelve bytes of the header and then those of the entry, and goes on with the keys that the
writer has. -/
theorem encryptedEntry_round_trip (password rand : List UInt8) (tim : ULG) (pieces reads : List (List UInt8))
    (hreads : reads.flatten = (encryptedEntry password rand tim pieces).flatten) :
    (run (run decryptInput) (uPasswordKeys password) reads).1.flatten = encryptionHeader rand tim ++ pieces.flatten ∧
    (run (run decryptInput) (uPasswordKeys password) reads).2
      = (run (run zencode) (passwordKeys password) (encryptionHeader rand tim :: pieces)).2 := by
  obtain ⟨hread, hreadKeys⟩ := run_pieces (f := decryptInput) (uPasswordKeys password) reads
  rw [hread, hreadKeys, hreads, run_decryptInput_encryptedEntry]
  exact ⟨rfl, rfl⟩

/-- Two pieces are written, and read in one. -/
theorem encryptedEntry_round_trip_two :
    (run (run decryptInput) (uPasswordKeys [0x6b]) [(encryptedEntry [0x6b] (List.replicate 11 7) 0x5a00 [[1], [2]]).flatten]).1.flatten
      = List.replicate 11 7 ++ [0x5a, 1, 2] :=
  (encryptedEntry_round_trip [0x6b] (List.replicate 11 7) 0x5a00 [[1], [2]] _ List.flatten_singleton).1

end MgStd.Zip
