import MgStd.Lib.Prog
import MgStd.Lib.Bytes
/-!
# mgbase64.c

The functions of `mgbase64.c`. What is written to the buffer that a function
allocates is a list, next to the size it asked for. Sizes are numbers: no block
of memory is so large that they wrap.

The encoder reads from a memory that goes on behind its buffer.
-/

namespace MgStd.Base64

open MgStd.Lib

def MAX_LINE : Nat := 76

def basis_64 : String := "ABCDEFGHIJKLMNOPQRSTUVWXYZabcdefghijklmnopqrstuvwxyz0123456789+/"

/-- `basis_64[i]` -/
def basis64 (i : UInt8) : UInt8 := UInt8.ofNat (basis_64.toList.getD i.toNat 'A').toNat

def XX : UInt8 := 255
def EQ : UInt8 := 254
def INVALID : UInt8 := XX

/-- The first half; the other is `XX`. -/
def index_64 : List UInt8 := [
  XX, XX, XX, XX, XX, XX, XX, XX, XX, XX, XX, XX, XX, XX, XX, XX,
  XX, XX, XX, XX, XX, XX, XX, XX, XX, XX, XX, XX, XX, XX, XX, XX,
  XX, XX, XX, XX, XX, XX, XX, XX, XX, XX, XX, 62, XX, XX, XX, 63,
  52, 53, 54, 55, 56, 57, 58, 59, 60, 61, XX, XX, XX, EQ, XX, XX,
  XX, 0, 1, 2, 3, 4, 5, 6, 7, 8, 9, 10, 11, 12, 13, 14,
  15, 16, 17, 18, 19, 20, 21, 22, 23, 24, 25, XX, XX, XX, XX, XX,
  XX, 26, 27, 28, 29, 30, 31, 32, 33, 34, 35, 36, 37, 38, 39, 40,
  41, 42, 43, 44, 45, 46, 47, 48, 49, 50, 51, XX, XX, XX, XX, XX]

/-- `index_64[c]`. A `char` is signed: a byte from 0x80 up is a negative index. -/
def index64 (c : UInt8) : Except Fault UInt8 := if c.toNat < 128 then .ok (index_64.getD c.toNat XX) else .error .bounds

/-- `'='` -/
def pad : UInt8 := 61

def eol : List UInt8 := [10]

/-! ## Encoding -/

structure Encoded where
  rlen : Nat
  result : List UInt8
  rindex : Nat
  deriving DecidableEq

/-- The characters of one round, from `str + i`. -/
def encodeGroup (str : Nat → UInt8) (i len : Nat) : List UInt8 :=
  let c1 := str i
  let c2 := str (i + 1)
  [basis64 (c1 >>> 2), basis64 (((c1 &&& 0x3) <<< 4) ||| ((c2 &&& 0xF0) >>> 4))] ++
    if 2 < len then
      let c3 := str (i + 2)
      [basis64 (((c2 &&& 0xF) <<< 2) ||| ((c3 &&& 0xC0) >>> 6)), basis64 (c3 &&& 0x3F)]
    else if len = 2 then [basis64 ((c2 &&& 0xF) <<< 2), pad]
    else [pad, pad]

def encodeChunks (str : Nat → UInt8) : Nat → Nat → Nat → Nat → Except Fault (List UInt8)
  | 0, _, _, _ => .error .fuel
  | fuel + 1, i, len, chunk =>
    if 0 < len then do
      let line := if chunk = MAX_LINE / 4 then eol else []
      let chunk := if chunk = MAX_LINE / 4 then 0 else chunk
      let rest ← encodeChunks str fuel (i + 3) (if len < 3 then 0 else len - 3) (chunk + 1)
      pure (line ++ encodeGroup str i len ++ rest)
    else pure []

def mgEncodeBase64 (str : Nat → UInt8) (len : Nat) : Except Fault Encoded := do
  let rlen := (len + 2) / 3 * 4 + 1
  let rlen := if rlen ≠ 0 then rlen + ((rlen - 1) / MAX_LINE + 1) * eol.length else rlen
  let r ← encodeChunks str (len + 1) 0 len 0
  let r := if rlen ≠ 0 then r ++ eol else r
  pure { rlen, result := r ++ [0], rindex := r.length }

/-! ## Decoding -/

structure Decoded where
  rlen : Nat
  result : List UInt8
  rindex : Nat
  deriving DecidableEq

/-- The inner loop: the symbols of one group, and what is left of the string. No group is `goto finished`. -/
def gather : List UInt8 → List UInt8 → Except Fault (Option (List UInt8) × List UInt8)
  | _, [] => .error .bounds
  | c, b :: str => do
    let uc ← index64 b
    let c := if uc ≠ INVALID then c ++ [uc] else c
    if str = [] then
      if c.length < 4 then
        if c.length < 2 then pure (none, str)
        else if c.length = 2 then pure (some (c ++ [EQ, EQ]), str)
        else pure (some (c ++ [EQ]), str)
      else pure (some c, str)
    else if c.length < 4 then gather c str
    else pure (some c, str)

def decodeRounds : Nat → List UInt8 → Except Fault (List UInt8)
  | 0, _ => .error .fuel
  | fuel + 1, str => do
    if str ≠ [] then
      match ← gather [] str with
      | (some [c0, c1, c2, c3], str) =>
        if c0 = EQ ∨ c1 = EQ then pure []
        else do
          let r0 := (c0 <<< 2) ||| ((c1 &&& 0x30) >>> 4)
          if c2 = EQ then pure [r0]
          else do
            let r1 := ((c1 &&& 0x0F) <<< 4) ||| ((c2 &&& 0x3C) >>> 2)
            if c3 = EQ then pure [r0, r1]
            else do
              let r2 := ((c2 &&& 0x03) <<< 6) ||| c3
              pure ([r0, r1, r2] ++ (← decodeRounds fuel str))
      | _ => pure []
    else pure []

/-- `str` is what is in memory from the string on. -/
def mgDecodeBase64 (str : List UInt8) : Except Fault Decoded := do
  let str := cString str
  let rlen := str.length * 3 / 4 + 1
  let r ← decodeRounds (str.length + 1) str
  pure { rlen, result := r ++ [0], rindex := r.length }

end MgStd.Base64
