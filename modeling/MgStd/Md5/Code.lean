import MgStd.Lib.Bytes
/-!
# mgmd5.c

Memory is a list of bytes. The number of bytes that an update is given, a
`size_t`, is the length of the list.
-/

namespace MgStd.Md5

open MgStd.Lib

/-- `unsigned int` -/
abbrev Word := BitVec 32

def MD5_BLOCK_LENGTH : Nat := 64

/-- `state[0]` to `state[3]` -/
structure State where
  a : Word
  b : Word
  c : Word
  d : Word
  deriving DecidableEq

/-- `MG_MD5_CTX` -/
structure Ctx where
  state : State
  count : Word × Word
  buffer : List UInt8

/-- The byte that an assignment to an `unsigned char` keeps of `value`. -/
def toByte (value : Word) : UInt8 := UInt8.ofNat value.toNat

/-- `PUT_32BIT_LE` -/
def put32bitLE (value : Word) : List UInt8 :=
  [toByte value, toByte (value >>> 8), toByte (value >>> 16), toByte (value >>> 24)]

/-- `PUT_64BIT_LE` -/
def put64bitLE (value : Word × Word) : List UInt8 := put32bitLE value.1 ++ put32bitLE value.2

def PADDING : List UInt8 := 0x80 :: List.replicate 63 0

/-! ## mg_MD5Transform -/

def F1 (x y z : Word) : Word := z ^^^ (x &&& (y ^^^ z))

def F2 (x y z : Word) : Word := F1 z x y

def F3 (x y z : Word) : Word := x ^^^ y ^^^ z

def F4 (x y z : Word) : Word := y ^^^ (x ||| ~~~z)

/-- `MD5STEP`: the new value of `w` -/
def md5Step (f : Word → Word → Word → Word) (w x y z data : Word) (s : Nat) : Word :=
  let w := w + (f x y z + data)
  let w := w <<< s ||| w >>> (32 - s)
  w + x

/-- The steps that use one function: the index into `in`, the constant that is added and the shift. -/
abbrev Steps := List (Nat × Word × Nat)

def steps1 : Steps :=
  [
    (0, 0xd76aa478, 7), (1, 0xe8c7b756, 12), (2, 0x242070db, 17), (3, 0xc1bdceee, 22),
    (4, 0xf57c0faf, 7), (5, 0x4787c62a, 12), (6, 0xa8304613, 17), (7, 0xfd469501, 22),
    (8, 0x698098d8, 7), (9, 0x8b44f7af, 12), (10, 0xffff5bb1, 17), (11, 0x895cd7be, 22),
    (12, 0x6b901122, 7), (13, 0xfd987193, 12), (14, 0xa679438e, 17), (15, 0x49b40821, 22)]

def steps2 : Steps :=
  [
    (1, 0xf61e2562, 5), (6, 0xc040b340, 9), (11, 0x265e5a51, 14), (0, 0xe9b6c7aa, 20),
    (5, 0xd62f105d, 5), (10, 0x02441453, 9), (15, 0xd8a1e681, 14), (4, 0xe7d3fbc8, 20),
    (9, 0x21e1cde6, 5), (14, 0xc33707d6, 9), (3, 0xf4d50d87, 14), (8, 0x455a14ed, 20),
    (13, 0xa9e3e905, 5), (2, 0xfcefa3f8, 9), (7, 0x676f02d9, 14), (12, 0x8d2a4c8a, 20)]

def steps3 : Steps :=
  [
    (5, 0xfffa3942, 4), (8, 0x8771f681, 11), (11, 0x6d9d6122, 16), (14, 0xfde5380c, 23),
    (1, 0xa4beea44, 4), (4, 0x4bdecfa9, 11), (7, 0xf6bb4b60, 16), (10, 0xbebfbc70, 23),
    (13, 0x289b7ec6, 4), (0, 0xeaa127fa, 11), (3, 0xd4ef3085, 16), (6, 0x04881d05, 23),
    (9, 0xd9d4d039, 4), (12, 0xe6db99e5, 11), (15, 0x1fa27cf8, 16), (2, 0xc4ac5665, 23)]

def steps4 : Steps :=
  [
    (0, 0xf4292244, 6), (7, 0x432aff97, 10), (14, 0xab9423a7, 15), (5, 0xfc93a039, 21),
    (12, 0x655b59c3, 6), (3, 0x8f0ccc92, 10), (10, 0xffeff47d, 15), (1, 0x85845dd1, 21),
    (8, 0x6fa87e4f, 6), (15, 0xfe2ce6e0, 10), (6, 0xa3014314, 15), (13, 0x4e0811a1, 21),
    (4, 0xf7537e82, 6), (11, 0xbd3af235, 10), (2, 0x2ad7d2bb, 15), (9, 0xeb86d391, 21)]

/-- Each step changes the register that comes before the one changed last: `a`, `d`, `c`, `b`, `a` and so on. -/
def runSteps (f : Word → Word → Word → Word) (words : Nat → Word) (steps : Steps) (r : State) : State :=
  steps.foldl (fun r row => ⟨r.d, md5Step f r.a r.b r.c r.d (words row.1 + row.2.1) row.2.2, r.b, r.c⟩) r

/-- `in[i]` -/
def inWord (block : List UInt8) (i : Nat) : Word :=
  let byte j : Word := BitVec.ofNat 32 (block.getD (i * 4 + j) 0).toNat
  byte 0 ||| byte 1 <<< 8 ||| byte 2 <<< 16 ||| byte 3 <<< 24

def mgMD5Transform (state : State) (block : List UInt8) : State :=
  let words := inWord block
  let r := runSteps F4 words steps4 (runSteps F3 words steps3 (runSteps F2 words steps2 (runSteps F1 words steps1 state)))
  ⟨state.a + r.a, state.b + r.b, state.c + r.c, state.d + r.d⟩

/-! ## Contexts -/

/-- The buffer is left as it is. -/
def mgMD5Init (ctx : Ctx) : Ctx :=
  { ctx with state := ⟨0x67452301, 0xefcdab89, 0x98badcfe, 0x10325476⟩, count := (0, 0) }

/-- `count` counts `len` more bytes. -/
def addCount (count : Word × Word) (len : Nat) : Word × Word :=
  let len : Word := BitVec.ofNat 32 len
  let count0 := count.1 + len <<< 3
  let count1 := if count0 < len then count.2 + 1 else count.2
  (count0, count1 + len >>> 29)

/-- The bytes that are in the buffer. -/
def have_ (count : Word × Word) : Nat := (count.1 >>> 3 &&& 63).toNat

/-- `while (len >= MD5_BLOCK_LENGTH)`, at most `n` times: the state, and the input that is left. -/
def transformBlocks : Nat → State → List UInt8 → State × List UInt8
  | 0, state, input => (state, input)
  | n + 1, state, input =>
    if input.length ≥ MD5_BLOCK_LENGTH then
      transformBlocks n (mgMD5Transform state (input.take MD5_BLOCK_LENGTH)) (input.drop MD5_BLOCK_LENGTH)
    else (state, input)

def mgMD5Update (ctx : Ctx) (input : List UInt8) : Ctx :=
  let len := input.length
  let got := have_ ctx.count
  let need := MD5_BLOCK_LENGTH - got
  let ctx := { ctx with count := addCount ctx.count len }
  if len ≥ need then
    let (state, buffer, input) :=
      if got ≠ 0 then
        let buffer := memcpy ctx.buffer got (input.take need)
        (mgMD5Transform ctx.state buffer, buffer, input.drop need)
      else (ctx.state, ctx.buffer, input)
    let (state, input) := transformBlocks input.length state input
    { ctx with state, buffer := if input.length ≠ 0 then memcpy buffer 0 input else buffer }
  else { ctx with buffer := if len ≠ 0 then memcpy ctx.buffer got input else ctx.buffer }

/-- `digest` tells whether there is a place for the result. -/
def mgMD5Final (digest : Bool) (ctx : Ctx) : Option (List UInt8) × Ctx :=
  let count := put64bitLE ctx.count
  let padlen := MD5_BLOCK_LENGTH - have_ ctx.count
  let padlen := if padlen < 1 + 8 then padlen + MD5_BLOCK_LENGTH else padlen
  let ctx := mgMD5Update ctx (PADDING.take (padlen - 8))
  let ctx := mgMD5Update ctx count
  let out := put32bitLE ctx.state.a ++ put32bitLE ctx.state.b ++ put32bitLE ctx.state.c ++ put32bitLE ctx.state.d
  (if digest then some out else none, ⟨⟨0, 0, 0, 0⟩, (0, 0), List.replicate MD5_BLOCK_LENGTH 0⟩)

/-- `context` is what the local variable happens to hold. -/
def mgMd5Calc (context : Ctx) (input : List UInt8) : Option (List UInt8) :=
  (mgMD5Final true (mgMD5Update (mgMD5Init context) input)).1

end MgStd.Md5
