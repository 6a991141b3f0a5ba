import MgStd.Lib.Prog
import MgStd.Lib.Bytes
import MgStd.Zip.Encryption
/-!
# `initEntry`, `readEntry` and the copying of `unzipEntry`

An archive in memory (`TZIP_ARCMEMORY`) is what lies at its current position and
behind it. The decompression of a `DEFLATE` entry is a parameter: from its state,
the `avail_in` bytes at `next_in` and `avail_out` it comes to a result, the bytes
left, those written to `next_out`, and its state afterwards. The branches of
`initEntry` about GZIP and raw archives are left out, and so are allocations that
fail.
-/

namespace MgStd.Zip

open MgStd.Lib MgStd.Lib.Transducer

def UNZ_BUFSIZE : Nat := 16384

def Z_STREAM_END : Int := 1

/-- Values of `LastErr`. -/
inductive UnzError
  | ok
  | read
  | flate
  | password
  deriving DecidableEq, Repr

/-- What `initEntry` and `readEntry` read of `CurrentEntryInfo`, and `Password`. -/
structure EntryInfo where
  flag : BitVec 16
  compression_method : Nat
  dosDate : ULG
  crc : ULG
  compressed_size : Nat
  uncompressed_size : ULG
  Password : Option (List UInt8)

/-- `CurrentEntryInfo.flag & 1` -/
def EntryInfo.encrypted (info : EntryInfo) : Bool := info.flag.getLsbD 0

/-- `EntryReadVars` with the archive, `LastErr`, and the local variables of `readEntry`. -/
structure Entry (ι : Type) where
  /-- the archive from its current position on -/
  archive : List UInt8
  LastErr : UnzError
  InputBuffer : List UInt8
  /-- the `avail_in` bytes at `next_in` -/
  nextIn : List UInt8
  /-- what has been written to the buffer of the call -/
  nextOut : List UInt8
  availOut : Nat
  inflateState : ι
  RunningCrc : ULG
  RemainingCompressed : Nat
  RemainingUncompressed : ULG
  Keys : Keys
  RemainingEncrypt : Nat
  CrcEncTest : UInt8
  iRead : Nat

variable {ι : Type}

/-- `inflate`: the result, the bytes left at `next_in`, those written to `next_out`, and the state. -/
abbrev Inflate (ι : Type) := ι → List UInt8 → Nat → Int × List UInt8 × List UInt8 × ι

/-- `initEntry`, when the archive is at the first byte of the entry's data. -/
def initEntry (info : EntryInfo) (InputBuffer archive : List UInt8) (inflateState : ι) : Entry ι where
  archive := archive
  LastErr := .ok
  InputBuffer := InputBuffer
  nextIn := []
  nextOut := []
  availOut := 0
  inflateState := inflateState
  RunningCrc := 0
  RemainingCompressed := info.compressed_size
  RemainingUncompressed := info.uncompressed_size
  Keys := if info.encrypted then uPasswordKeys (info.Password.getD []) else ⟨0, 0, 0⟩
  RemainingEncrypt := if info.encrypted then 12 else 0
  CrcEncTest :=
    if info.flag.getLsbD 3 then ⟨((info.dosDate >>> 8) &&& 0xff).setWidth 8⟩ else ⟨(info.crc >>> 24).setWidth 8⟩
  iRead := 0

/-- `InputBuffer` is filled when it is empty and there is something to fill it with; `uReadThis` is not 0 then, and what the
source does when it is 0 cannot happen. Without a byte from the archive it goes to `none`. -/
def fillInput (info : EntryInfo) : Prog (Entry ι) Bool := do
  let e ← get
  if e.nextIn = [] ∧ e.RemainingCompressed ≠ 0 then
    let uReadThis := min UNZ_BUFSIZE e.RemainingCompressed
    let bytes := e.archive.take uReadThis
    let InputBuffer := memcpy e.InputBuffer 0 bytes
    if bytes = [] then
      set { e with LastErr := .read }
      return false
    -- `avail_in` is what was asked for, also when the archive has less.
    let input := InputBuffer.take uReadThis
    let decrypted := if info.encrypted then run decryptInput e.Keys input else (input, e.Keys)
    set { e with
      archive := e.archive.drop uReadThis
      RemainingCompressed := e.RemainingCompressed - uReadThis
      InputBuffer := decrypted.1 ++ InputBuffer.drop uReadThis
      nextIn := decrypted.1
      Keys := decrypted.2 }
  return true

/-- The encryption header, as far as it has not been read yet, and the check of the password behind it. -/
def readEncryptionHeader : Prog (Entry ι) Bool := do
  let e ← get
  let uDoEncHead := min e.RemainingEncrypt e.nextIn.length
  if uDoEncHead ≠ 0 then
    let bufcrc := e.nextIn.getD (uDoEncHead - 1) 0
    let e' : Entry ι := { e with
      RemainingUncompressed := e.RemainingUncompressed - BitVec.ofNat 64 uDoEncHead
      nextIn := e.nextIn.drop uDoEncHead
      RemainingEncrypt := e.RemainingEncrypt - uDoEncHead }
    set e'
    if e'.RemainingEncrypt = 0 ∧ bufcrc ≠ e'.CrcEncTest then
      set { e' with LastErr := .password }
      return false
  return true

/-- The branch for `STORE`. -/
def copyStored : Prog (Entry ι) Unit := modify fun e =>
  let uDoCopy := min e.availOut e.nextIn.length
  let bytes := e.nextIn.take uDoCopy
  { e with
    nextOut := e.nextOut ++ bytes
    RunningCrc := ucrc32 e.RunningCrc bytes
    RemainingUncompressed := e.RemainingUncompressed - BitVec.ofNat 64 uDoCopy
    nextIn := e.nextIn.drop uDoCopy
    availOut := e.availOut - uDoCopy
    iRead := e.iRead + uDoCopy }

/-- The branch for `DEFLATE`: the result of `inflate`. -/
def inflateEntry (inflate : Inflate ι) : Prog (Entry ι) Int := do
  let e ← get
  let (err, rest, bytes, inflateState) := inflate e.inflateState e.nextIn e.availOut
  if err ≠ 0 ∧ err ≠ Z_STREAM_END then
    set { e with
      nextIn := rest
      nextOut := e.nextOut ++ bytes
      availOut := e.availOut - bytes.length
      inflateState := inflateState
      LastErr := .flate }
  else
    set { e with
      nextIn := rest
      nextOut := e.nextOut ++ bytes
      availOut := e.availOut - bytes.length
      inflateState := inflateState
      RunningCrc := ucrc32 e.RunningCrc bytes
      RemainingUncompressed := e.RemainingUncompressed - BitVec.ofNat 64 bytes.length
      iRead := e.iRead + bytes.length }
  return err

/-- `while (avail_out)`. It comes to `false` where the source goes to `none`. -/
def readLoop (inflate : Inflate ι) (info : EntryInfo) : Nat → Prog (Entry ι) Bool
  | 0 => fault .fuel
  | fuel + 1 => do
    if (← get).availOut = 0 then return true
    if ¬(← fillInput info) then return false
    if ¬(← readEncryptionHeader) then return false
    if info.compression_method = 0 then
      copyStored
      if (← get).RemainingUncompressed = 0 then return true
      readLoop inflate info fuel
    else
      let err ← inflateEntry inflate
      if err ≠ 0 ∧ err ≠ Z_STREAM_END then return false
      if err = Z_STREAM_END ∨ (← get).RemainingUncompressed = 0 then return true
      readLoop inflate info fuel

/-- A call with a buffer of `len` bytes: `nextOut` is what it has put there. -/
def readEntry (inflate : Inflate ι) (info : EntryInfo) (len : Nat) (fuel : Nat) : Prog (Entry ι) Nat := do
  modify fun e => { e with iRead := 0, nextOut := [], availOut := min len e.RemainingUncompressed.toNat }
  if ← readLoop inflate info fuel then return (← get).iRead
  return 0

/-- The loop of `unzipEntry` that copies an entry to a file, up to an error: all bytes written. Each call may take `fuel` rounds. -/
def unzipLoop (inflate : Inflate ι) (info : EntryInfo) (fuel : Nat) : Nat → List UInt8 → Prog (Entry ι) (List UInt8)
  | 0, _ => fault .fuel
  | calls + 1, written => do
    if (← get).LastErr ≠ .ok then return written
    let read ← readEntry inflate info 16384 fuel
    if read = 0 then return written
    unzipLoop inflate info fuel calls (written ++ (← get).nextOut.take read)

end MgStd.Zip
