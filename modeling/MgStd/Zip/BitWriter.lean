import MgStd.Lib.Prog
import MgStd.Lib.BitString
import MgStd.Zip.Encryption
/-!
# `send_bits`, `bi_windup` and `copy_block` of mglite_zip.c

The bits of a compressed entry go through two buffers, `bi_buf` and `out_buf`, to
`writeDestination`, which encrypts them when there is a password. However the
fields fall over these buffers, what arrives at the destination is the sequence of
their bits, and the writer stays within its buffers also when the destination
fails. Allocations that fail are left out.
-/

namespace MgStd.Zip

open MgStd.Lib MgStd.Lib.Transducer

/-- Values of `lasterr`. -/
inductive ZipError
  | ok
  | write
  | memsize
  | abort
  deriving DecidableEq, Repr

/-- What `writeDestination` uses of a `TZIP`. -/
structure TZIP where
  /-- `TZIP_ENCRYPT` -/
  encrypt : Bool
  /-- `TZIP_DESTMEMORY` -/
  destmemory : Bool
  /-- `TZIP_OPTION_ABORT` -/
  abort : Bool
  keys : Keys
  lasterr : ZipError
  /-- what has been written -/
  destination : List UInt8
  /-- how many bytes the destination takes before `realloc` or `write` fails -/
  room : Nat

/-- The bytes as they arrive at the destination, and the keys afterwards. -/
def TZIP.encode (tzip : TZIP) (bytes : List UInt8) : List UInt8 × Keys :=
  if tzip.encrypt then run zencode tzip.keys bytes else (bytes, tzip.keys)

/-- The bytes to the memory, which grows with `realloc`, or to the handle. -/
def TZIP.accept (tzip : TZIP) (bytes : List UInt8) : TZIP :=
  if bytes.length ≤ tzip.room then { tzip with destination := tzip.destination ++ bytes, room := tzip.room - bytes.length }
  else if tzip.destmemory then { tzip with lasterr := .memsize }
  else { tzip with destination := tzip.destination ++ bytes.take tzip.room, room := 0, lasterr := .write }

def writeDestination (tzip : TZIP) (buf : List UInt8) : TZIP :=
  if buf.length ≠ 0 ∧ tzip.lasterr = .ok then
    let encoded := tzip.encode buf
    let written := { tzip with keys := encoded.2 }.accept encoded.1
    if written.abort then { written with lasterr := .abort } else written
  else tzip

/-- `TBITSTATE`, with the `TZIP`. -/
structure Writer where
  bi_buf : BitVec 32
  bi_valid : Nat
  out_buf : List UInt8
  out_offset : Nat
  tzip : TZIP

def Writer.out_size (w : Writer) : Nat := w.out_buf.length

def ZIP_BUF_SIZE : Nat := 16

/-- `writeDestination(state->tzip, state->bs.out_buf, state->bs.out_offset)` -/
def writeOut : Prog Writer Unit := modify fun w => { w with tzip := writeDestination w.tzip (w.out_buf.take w.out_offset) }

/-- `state->bs.out_offset = 0` -/
def resetOut : Prog Writer Unit := modify fun w => { w with out_offset := 0 }

/-- `state->bs.out_buf[state->bs.out_offset++] = c` -/
def putByte (c : UInt8) : Prog Writer Unit := do
  let w ← get
  if w.out_offset < w.out_size then set { w with out_buf := w.out_buf.set w.out_offset c, out_offset := w.out_offset + 1 }
  else fault .bounds

/-- `if (state->bs.out_offset + k >= state->bs.out_size)`: `out_buf` is written to the destination. -/
def flushFull (k : Nat) : Prog Writer Unit := do
  if (← get).out_size ≤ (← get).out_offset + k then
    writeOut
    resetOut

/-- The low byte of a number, and the next. -/
def putShort (n : Nat) : Prog Writer Unit := do
  putByte (UInt8.ofNat n)
  putByte (UInt8.ofNat (n / 256))

/-- `send_bits`, when `bi_buf` is full: its low bits go to `out_buf`, and the other bits of `value` stay. -/
def storeBits (value length : Nat) : Prog Writer Bool := do
  if (← get).out_size ≤ (← get).out_offset + 1 then
    writeOut
    if (← get).tzip.lasterr ≠ .ok then return false
    resetOut
  putShort (← get).bi_buf.toNat
  modify fun w => { w with bi_valid := w.bi_valid - ZIP_BUF_SIZE }
  modify fun w => { w with bi_buf := BitVec.ofNat 32 value >>> (length - w.bi_valid) }
  return true

/-- Behind a write that has failed `bi_valid` grows, also to values by which a shift is undefined. What it comes to then is
not written any more. -/
def sendBits (value length : Nat) : Prog Writer Bool := do
  modify fun w => { w with bi_buf := w.bi_buf ||| BitVec.ofNat 32 value <<< w.bi_valid, bi_valid := w.bi_valid + length }
  if ZIP_BUF_SIZE < (← get).bi_valid then storeBits value length else return true

/-- `bi_windup` up to the last write: what is left in `bi_buf`. -/
def storeRest : Prog Writer Unit := do
  if 8 < (← get).bi_valid then
    flushFull 1
    putShort (← get).bi_buf.toNat
  else if 0 < (← get).bi_valid then
    flushFull 0
    putByte (UInt8.ofNat (← get).bi_buf.toNat)

def biWindup : Prog Writer Unit := do
  storeRest
  writeOut
  modify fun w => { w with bi_buf := 0, out_offset := 0, bi_valid := 0 }

/-- The header of a stored block: the length and its complement. -/
def storeHeader (len : BitVec 64) : Prog Writer Unit := do
  flushFull 3
  putShort (len.setWidth 16).toNat
  putShort ((~~~len).setWidth 16).toNat
  writeOut
  resetOut

def copyBlock (block : List UInt8) (header : Bool) : Prog Writer Unit := do
  biWindup
  if header then storeHeader (BitVec.ofNat 64 block.length)
  modify fun w => { w with tzip := writeDestination w.tzip block }

end MgStd.Zip
