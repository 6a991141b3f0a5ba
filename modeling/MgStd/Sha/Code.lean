import MgStd.Lib.Blocks
import MgStd.Lib.Bytes
import MgStd.Sha.Words
/-!
# mgsha1.c, mgsha256.c, mgsha384.c and mgsha512.c

Memory is a list of bytes, and the host is little-endian. What the four files
share is written once: the calls on a context, with the length of a block and
what is done with one as parameters, and the message schedule and the rounds of
the last three. `M`, `W` and the variables of a round live during one block
only, so they are no fields of a context here.
-/

namespace MgStd.Sha

open MgStd.Lib

variable {σ : Type} {w : Nat}

/-- `MG_SHA1_CTX` and the others. -/
structure Ctx (σ : Type) (w : Nat) where
  h : σ
  k : List (BitVec w)
  lastString : List UInt8
  lastStringLen : Nat
  allLen : Nat

/-- What the `init` functions set besides `H` and `K`. The length of `LastString` is that of two blocks. -/
def Ctx.new (n : Nat) (h : σ) (k : List (BitVec w)) : Ctx σ w := ⟨h, k, List.replicate (2 * n) 0, 0, 0⟩

/-! ## The calls on a context

`process` stands for `setw` and `round` on the block that was copied to `M`. -/

section Calls

variable (n : Nat) (process : List (BitVec w) → σ → List UInt8 → σ)

/-- A block is copied to `M` and processed. -/
def Ctx.block (ctx : Ctx σ w) (M : List UInt8) : Ctx σ w := { ctx with h := process ctx.k ctx.h M }

/-- The loops of `update` take their blocks one after the other, the first `inputLen / n` ones of `input`. In
the branch that completes a block `inputLen` is at least what the block lacks, as less than a block waits. -/
def update (ctx : Ctx σ w) (input : List UInt8) : Ctx σ w :=
  let inputLen := input.length
  let ctx := { ctx with allLen := (ctx.allLen + inputLen) % 2 ^ 64 }
  if (inputLen + ctx.lastStringLen) % 2 ^ 32 < n then
    { ctx with
      lastString := memcpy ctx.lastString ctx.lastStringLen input
      lastStringLen := (ctx.lastStringLen + inputLen) % 2 ^ 32 }
  else
    let ctx := (blocksOf n (ctx.lastStringLen / n) ctx.lastString).foldl (Ctx.block process) ctx
    let processLen := n * (ctx.lastStringLen / n)
    let M := memcpy (List.replicate n 0) 0 ((ctx.lastString.drop processLen).take (ctx.lastStringLen % n))
    let M := memcpy M (ctx.lastStringLen % n) (input.take (n - ctx.lastStringLen % n))
    let inputLen := inputLen - (n - ctx.lastStringLen % n)
    let processLen := n - ctx.lastStringLen % n
    let ctx := Ctx.block process ctx M
    let ctx := (blocksOf n (inputLen / n) (input.drop processLen)).foldl (Ctx.block process) ctx
    let processLen := processLen + n * (inputLen / n)
    { ctx with
      lastString := memcpy (List.replicate (2 * n) 0) 0 ((input.drop processLen).take (inputLen % n))
      lastStringLen := inputLen % n }

/-- `LastString[end - i] = (char)((realLen<<3)>>((i-1)*8))` for each of the `i`. -/
def putLen (realLen stop : Nat) (is : List Nat) (lastString : List UInt8) : List UInt8 :=
  is.foldl (fun s i => s.set (stop - i) (UInt8.ofNat ((realLen * 2 ^ 3 % 2 ^ 64) >>> ((i - 1) * 8)))) lastString

/-- `final` up to the printing: one round with the length in the same block, or two. `limit` is the
number of bytes that leave room for it. -/
def finish (limit : Nat) (ctx : Ctx σ w) : Ctx σ w :=
  let realLen := ctx.allLen
  let lastString := ctx.lastString.set (realLen % n) 0x80
  if ctx.lastStringLen ≤ limit then
    let lastString := putLen realLen n [8, 7, 6, 5, 4, 3, 2, 1] lastString
    (blocksOf n 1 lastString).foldl (Ctx.block process) { ctx with lastString }
  else
    let lastString := putLen realLen (n * 2) [1, 2, 3, 4, 5, 6, 7, 8] lastString
    (blocksOf n 2 lastString).foldl (Ctx.block process) { ctx with lastString }

end Calls

/-- The characters as bytes. -/
def ascii (text : List Char) : List UInt8 := text.map fun c => UInt8.ofNat c.toNat

/-- `sprintf(output + i * digits, "%08x", H[i])`, or with 16 digits: the text and a NUL. `output` is as long as
the object it points to. -/
def printWord (digits : Nat) (output : List UInt8) (i : Nat) (word : BitVec w) : Except Fault (List UInt8) :=
  storeBytes output (i * digits) (ascii ((Nat.toDigits 16 word.toNat).leftpad digits '0') ++ [0])

/-- The words in their order. -/
def printWords (digits : Nat) (output : List UInt8) (words : List (BitVec w)) : Except Fault (List UInt8) :=
  words.zipIdx.foldlM (fun output word => printWord digits output word.2 word.1) output

/-- `M[index]`, of `w` bits. -/
def loadWord (w : Nat) (M : List UInt8) (index : Nat) : BitVec w :=
  BitVec.ofNat w (leNat ((M.drop (index * (w / 8))).take (w / 8)))

/-- `W[index]` for the next `n` indices. -/
def extend (next : (Nat → BitVec w) → Nat → BitVec w) : Nat → List (BitVec w) → List (BitVec w)
  | 0, W => W
  | n + 1, W => extend next n (W ++ [next (fun i => W.getD i 0) W.length])

/-! ## mgsha1.c -/

/-- `unsigned int` -/
abbrev Word := BitVec 32

def mgSha1Init : Ctx (Five 32) 32 :=
  Ctx.new 64 ⟨0x67452301, 0xefcdab89, 0x98badcfe, 0x10325476, 0xc3d2e1f0⟩ [0x5a827999, 0x6ed9eba1, 0x8f1bbcdc, 0xca62c1d6]

/-- The bytes in the opposite order, as the first loop of `mg_sha1_setW` and of `mg_sha256_setw` has it. -/
def swap32 (word : Word) : Word :=
  word >>> 24 ||| word <<< 24 ||| (word &&& 0x00ff0000) >>> 8 ||| (word &&& 0x0000ff00) <<< 8

def mgSha1SetW (M : List UInt8) : List Word :=
  extend
    (fun W index =>
      let temp := W (index - 16) ^^^ W (index - 14) ^^^ W (index - 8) ^^^ W (index - 3)
      temp <<< 1 ||| temp >>> (32 - 1))
    64 ((List.range 16).map fun index => swap32 (loadWord 32 M index))

def mgSha1Temp (K W : Nat → Word) (v : Five 32) (index : Nat) : Word :=
  if index ≤ 19 then
    v.e + ((v.b &&& v.c) ||| (~~~v.b &&& v.d)) + (v.a <<< 5 ||| v.a >>> (32 - 5)) + W index + K 0
  else if index ≤ 39 then
    v.e + (v.b ^^^ v.c ^^^ v.d) + (v.a <<< 5 ||| v.a >>> (32 - 5)) + W index + K 1
  else if index ≤ 59 then
    v.e + ((v.b &&& v.c) ||| (v.c &&& v.d) ||| (v.b &&& v.d)) + (v.a <<< 5 ||| v.a >>> (32 - 5)) + W index + K 2
  else
    v.e + (v.b ^^^ v.c ^^^ v.d) + (v.a <<< 5 ||| v.a >>> (32 - 5)) + W index + K 3

def mgSha1Round (K : List Word) (H : Five 32) (W : List Word) : Five 32 :=
  H.add ((List.range 80).foldl
    (fun v index =>
      ⟨mgSha1Temp (fun i => K.getD i 0) (fun i => W.getD i 0) v index, v.a, v.b <<< 30 ||| v.b >>> (32 - 30), v.c, v.d⟩) H)

def mgSha1Process (K : List Word) (H : Five 32) (M : List UInt8) : Five 32 := mgSha1Round K H (mgSha1SetW M)

def mgSha1Update : Ctx (Five 32) 32 → List UInt8 → Ctx (Five 32) 32 := update 64 mgSha1Process

/-- The bytes at `output` afterwards, and the context. -/
def mgSha1Final (output : List UInt8) (ctx : Ctx (Five 32) 32) : Except Fault (List UInt8 × Ctx (Five 32) 32) := do
  let ctx := finish 64 mgSha1Process 55 ctx
  return (← printWords 8 output ctx.h.words, ctx)

def mgSha1Calc (output buf : List UInt8) : Except Fault (List UInt8) := do
  let (output, _) ← mgSha1Final output (mgSha1Update mgSha1Init buf)
  return output

/-! ## The schedule and the rounds of mgsha256.c, mgsha384.c and mgsha512.c -/

/-- `mg_sha256_shift_num3` and the others: three rotations, or two and a shift by `-Opthree`. -/
def shiftNum3 (input : BitVec w) (OpOne OpTwo : Nat) (Opthree : Int) : BitVec w :=
  let ans := 0 ^^^ (input >>> OpOne ||| input <<< (w - OpOne))
  let ans := ans ^^^ (input >>> OpTwo ||| input <<< (w - OpTwo))
  if Opthree > 0 then ans ^^^ (input >>> Opthree.toNat ||| input <<< (w - Opthree.toNat))
  else ans ^^^ input >>> (0 - Opthree).toNat

/-- The amounts that one call of `shift_num3` has. -/
abbrev Amounts := Nat × Nat × Int

/-- `setw`: the words of the block with `swap`, and the others up to `rounds`. -/
def setw (swap : BitVec w → BitVec w) (am0 am1 : Amounts) (rounds : Nat) (M : List UInt8) : List (BitVec w) :=
  extend
    (fun W index =>
      let s0 := shiftNum3 (W (index - 2)) am0.1 am0.2.1 am0.2.2
      let s1 := shiftNum3 (W (index - 15)) am1.1 am1.2.1 am1.2.2
      s0 + W (index - 7) + s1 + W (index - 16))
    (rounds - 16) ((List.range 16).map fun index => swap (loadWord w M index))

/-- `round` -/
def round (am0 am1 : Amounts) (rounds : Nat) (K : List (BitVec w)) (H : Eight w) (W : List (BitVec w)) : Eight w :=
  H.add ((List.range rounds).foldl
    (fun v index =>
      let s0 := shiftNum3 v.a am0.1 am0.2.1 am0.2.2
      let t2 := s0 + ((v.a &&& v.b) ^^^ (v.a &&& v.c) ^^^ (v.b &&& v.c))
      let s1 := shiftNum3 v.e am1.1 am1.2.1 am1.2.2
      let t1 := v.h + s1 + ((v.e &&& v.f) ^^^ (~~~v.e &&& v.g)) + K.getD index 0 + W.getD index 0
      ⟨t1 + t2, v.a, v.b, v.c, v.d + t1, v.e, v.f, v.g⟩) H)

/-! ## mgsha256.c -/

def SHA256_ROUNDNUM : Nat := 64

def mgSha256Init : Ctx (Eight 32) 32 :=
  Ctx.new 64
    ⟨0x6a09e667, 0xbb67ae85, 0x3c6ef372, 0xa54ff53a, 0x510e527f, 0x9b05688c, 0x1f83d9ab, 0x5be0cd19⟩
    [
      0x428a2f98, 0x71374491, 0xb5c0fbcf, 0xe9b5dba5, 0x3956c25b, 0x59f111f1,
      0x923f82a4, 0xab1c5ed5, 0xd807aa98, 0x12835b01, 0x243185be, 0x550c7dc3,
      0x72be5d74, 0x80deb1fe, 0x9bdc06a7, 0xc19bf174, 0xe49b69c1, 0xefbe4786,
      0x0fc19dc6, 0x240ca1cc, 0x2de92c6f, 0x4a7484aa, 0x5cb0a9dc, 0x76f988da,
      0x983e5152, 0xa831c66d, 0xb00327c8, 0xbf597fc7, 0xc6e00bf3, 0xd5a79147,
      0x06ca6351, 0x14292967, 0x27b70a85, 0x2e1b2138, 0x4d2c6dfc, 0x53380d13,
      0x650a7354, 0x766a0abb, 0x81c2c92e, 0x92722c85, 0xa2bfe8a1, 0xa81a664b,
      0xc24b8b70, 0xc76c51a3, 0xd192e819, 0xd6990624, 0xf40e3585, 0x106aa070,
      0x19a4c116, 0x1e376c08, 0x2748774c, 0x34b0bcb5, 0x391c0cb3, 0x4ed8aa4a,
      0x5b9cca4f, 0x682e6ff3, 0x748f82ee, 0x78a5636f, 0x84c87814, 0x8cc70208,
      0x90befffa, 0xa4506ceb, 0xbef9a3f7, 0xc67178f2]

def mgSha256Setw : List UInt8 → List Word := setw swap32 (17, 19, -10) (7, 18, -3) SHA256_ROUNDNUM

def mgSha256Round : List Word → Eight 32 → List Word → Eight 32 := round (2, 13, 22) (6, 11, 25) SHA256_ROUNDNUM

def mgSha256Process (K : List Word) (H : Eight 32) (M : List UInt8) : Eight 32 := mgSha256Round K H (mgSha256Setw M)

def mgSha256Update : Ctx (Eight 32) 32 → List UInt8 → Ctx (Eight 32) 32 := update 64 mgSha256Process

def mgSha256Final (output : List UInt8) (ctx : Ctx (Eight 32) 32) : Except Fault (List UInt8 × Ctx (Eight 32) 32) := do
  let ctx := finish 64 mgSha256Process 55 ctx
  return (← printWords 8 output ctx.h.words, ctx)

def mgSha256Calc (output buf : List UInt8) : Except Fault (List UInt8) := do
  let (output, _) ← mgSha256Final output (mgSha256Update mgSha256Init buf)
  return output

/-! ## mgsha384.c -/

/-- `unsigned long long` -/
abbrev LongWord := BitVec 64

/-- The first loop of `mg_sha384_setw` and of `mg_sha512_setw`. -/
def swap64 (word : LongWord) : LongWord :=
  word >>> 56 ||| word <<< 56 |||
    (word &&& 0x00ff000000000000) >>> 40 ||| (word &&& 0x000000000000ff00) <<< 40 |||
    (word &&& 0x0000ff0000000000) >>> 24 ||| (word &&& 0x0000000000ff0000) <<< 24 |||
    (word &&& 0x000000ff00000000) >>> 8 ||| (word &&& 0x00000000ff000000) <<< 8

def SHA384_ROUNDNUM : Nat := 80

def SHA384_BLOCKWIDTHNUM : Nat := 16

def SHA384_CONSTNUM : Nat := 8

def mgSha384Init : Ctx (Eight 64) 64 :=
  Ctx.new (SHA384_BLOCKWIDTHNUM * 8)
    ⟨0xcbbb9d5dc1059ed8, 0x629a292a367cd507, 0x9159015a3070dd17, 0x152fecd8f70e5939,
      0x67332667ffc00b31, 0x8eb44a8768581511, 0xdb0c2e0d64f98fa7, 0x47b5481dbefa4fa4⟩
    [
      0x428a2f98d728ae22, 0x7137449123ef65cd, 0xb5c0fbcfec4d3b2f, 0xe9b5dba58189dbbc, 0x3956c25bf348b538,
      0x59f111f1b605d019, 0x923f82a4af194f9b, 0xab1c5ed5da6d8118, 0xd807aa98a3030242, 0x12835b0145706fbe,
      0x243185be4ee4b28c, 0x550c7dc3d5ffb4e2, 0x72be5d74f27b896f, 0x80deb1fe3b1696b1, 0x9bdc06a725c71235,
      0xc19bf174cf692694, 0xe49b69c19ef14ad2, 0xefbe4786384f25e3, 0x0fc19dc68b8cd5b5, 0x240ca1cc77ac9c65,
      0x2de92c6f592b0275, 0x4a7484aa6ea6e483, 0x5cb0a9dcbd41fbd4, 0x76f988da831153b5, 0x983e5152ee66dfab,
      0xa831c66d2db43210, 0xb00327c898fb213f, 0xbf597fc7beef0ee4, 0xc6e00bf33da88fc2, 0xd5a79147930aa725,
      0x06ca6351e003826f, 0x142929670a0e6e70, 0x27b70a8546d22ffc, 0x2e1b21385c26c926, 0x4d2c6dfc5ac42aed,
      0x53380d139d95b3df, 0x650a73548baf63de, 0x766a0abb3c77b2a8, 0x81c2c92e47edaee6, 0x92722c851482353b,
      0xa2bfe8a14cf10364, 0xa81a664bbc423001, 0xc24b8b70d0f89791, 0xc76c51a30654be30, 0xd192e819d6ef5218,
      0xd69906245565a910, 0xf40e35855771202a, 0x106aa07032bbd1b8, 0x19a4c116b8d2d0c8, 0x1e376c085141ab53,
      0x2748774cdf8eeb99, 0x34b0bcb5e19b48a8, 0x391c0cb3c5c95a63, 0x4ed8aa4ae3418acb, 0x5b9cca4f7763e373,
      0x682e6ff3d6b2b8a3, 0x748f82ee5defb2fc, 0x78a5636f43172f60, 0x84c87814a1f0ab72, 0x8cc702081a6439ec,
      0x90befffa23631e28, 0xa4506cebde82bde9, 0xbef9a3f7b2c67915, 0xc67178f2e372532b, 0xca273eceea26619c,
      0xd186b8c721c0c207, 0xeada7dd6cde0eb1e, 0xf57d4f7fee6ed178, 0x06f067aa72176fba, 0x0a637dc5a2c898a6,
      0x113f9804bef90dae, 0x1b710b35131c471b, 0x28db77f523047d84, 0x32caab7b40c72493, 0x3c9ebe0a15c9bebc,
      0x431d67c49c100d4c, 0x4cc5d4becb3e42b6, 0x597f299cfc657e2a, 0x5fcb6fab3ad6faec, 0x6c44198c4a475817]

def mgSha384Setw : List UInt8 → List LongWord := setw swap64 (19, 61, -6) (1, 8, -7) SHA384_ROUNDNUM

def mgSha384Round : List LongWord → Eight 64 → List LongWord → Eight 64 :=
  round (28, 34, 39) (14, 18, 41) SHA384_ROUNDNUM

def mgSha384Process (K : List LongWord) (H : Eight 64) (M : List UInt8) : Eight 64 := mgSha384Round K H (mgSha384Setw M)

def mgSha384Update : Ctx (Eight 64) 64 → List UInt8 → Ctx (Eight 64) 64 := update 128 mgSha384Process

def mgSha384Final (output : List UInt8) (ctx : Ctx (Eight 64) 64) : Except Fault (List UInt8 × Ctx (Eight 64) 64) := do
  let ctx := finish (SHA384_BLOCKWIDTHNUM * 8) mgSha384Process (SHA384_BLOCKWIDTHNUM * 8 - 1 - 16) ctx
  return (← printWords 16 output (ctx.h.words.take (SHA384_CONSTNUM - 2)), ctx)

def mgSha384Calc (output buf : List UInt8) : Except Fault (List UInt8) := do
  let (output, _) ← mgSha384Final output (mgSha384Update mgSha384Init buf)
  return output

/-! ## mgsha512.c -/

def SHA512_ROUNDNUM : Nat := 80

def SHA512_BLOCKWIDTHNUM : Nat := 16

def mgSha512Init : Ctx (Eight 64) 64 :=
  Ctx.new (SHA512_BLOCKWIDTHNUM * 8)
    ⟨0x6a09e667f3bcc908, 0xbb67ae8584caa73b, 0x3c6ef372fe94f82b, 0xa54ff53a5f1d36f1,
      0x510e527fade682d1, 0x9b05688c2b3e6c1f, 0x1f83d9abfb41bd6b, 0x5be0cd19137e2179⟩
    [
      0x428a2f98d728ae22, 0x7137449123ef65cd, 0xb5c0fbcfec4d3b2f, 0xe9b5dba58189dbbc, 0x3956c25bf348b538,
      0x59f111f1b605d019, 0x923f82a4af194f9b, 0xab1c5ed5da6d8118, 0xd807aa98a3030242, 0x12835b0145706fbe,
      0x243185be4ee4b28c, 0x550c7dc3d5ffb4e2, 0x72be5d74f27b896f, 0x80deb1fe3b1696b1, 0x9bdc06a725c71235,
      0xc19bf174cf692694, 0xe49b69c19ef14ad2, 0xefbe4786384f25e3, 0x0fc19dc68b8cd5b5, 0x240ca1cc77ac9c65,
      0x2de92c6f592b0275, 0x4a7484aa6ea6e483, 0x5cb0a9dcbd41fbd4, 0x76f988da831153b5, 0x983e5152ee66dfab,
      0xa831c66d2db43210, 0xb00327c898fb213f, 0xbf597fc7beef0ee4, 0xc6e00bf33da88fc2, 0xd5a79147930aa725,
      0x06ca6351e003826f, 0x142929670a0e6e70, 0x27b70a8546d22ffc, 0x2e1b21385c26c926, 0x4d2c6dfc5ac42aed,
      0x53380d139d95b3df, 0x650a73548baf63de, 0x766a0abb3c77b2a8, 0x81c2c92e47edaee6, 0x92722c851482353b,
      0xa2bfe8a14cf10364, 0xa81a664bbc423001, 0xc24b8b70d0f89791, 0xc76c51a30654be30, 0xd192e819d6ef5218,
      0xd69906245565a910, 0xf40e35855771202a, 0x106aa07032bbd1b8, 0x19a4c116b8d2d0c8, 0x1e376c085141ab53,
      0x2748774cdf8eeb99, 0x34b0bcb5e19b48a8, 0x391c0cb3c5c95a63, 0x4ed8aa4ae3418acb, 0x5b9cca4f7763e373,
      0x682e6ff3d6b2b8a3, 0x748f82ee5defb2fc, 0x78a5636f43172f60, 0x84c87814a1f0ab72, 0x8cc702081a6439ec,
      0x90befffa23631e28, 0xa4506cebde82bde9, 0xbef9a3f7b2c67915, 0xc67178f2e372532b, 0xca273eceea26619c,
      0xd186b8c721c0c207, 0xeada7dd6cde0eb1e, 0xf57d4f7fee6ed178, 0x06f067aa72176fba, 0x0a637dc5a2c898a6,
      0x113f9804bef90dae, 0x1b710b35131c471b, 0x28db77f523047d84, 0x32caab7b40c72493, 0x3c9ebe0a15c9bebc,
      0x431d67c49c100d4c, 0x4cc5d4becb3e42b6, 0x597f299cfc657e2a, 0x5fcb6fab3ad6faec, 0x6c44198c4a475817]

def mgSha512Setw : List UInt8 → List LongWord := setw swap64 (19, 61, -6) (1, 8, -7) SHA512_ROUNDNUM

def mgSha512Round : List LongWord → Eight 64 → List LongWord → Eight 64 :=
  round (28, 34, 39) (14, 18, 41) SHA512_ROUNDNUM

def mgSha512Process (K : List LongWord) (H : Eight 64) (M : List UInt8) : Eight 64 := mgSha512Round K H (mgSha512Setw M)

def mgSha512Update : Ctx (Eight 64) 64 → List UInt8 → Ctx (Eight 64) 64 := update 128 mgSha512Process

def mgSha512Final (output : List UInt8) (ctx : Ctx (Eight 64) 64) : Except Fault (List UInt8 × Ctx (Eight 64) 64) := do
  let ctx := finish (SHA512_BLOCKWIDTHNUM * 8) mgSha512Process (SHA512_BLOCKWIDTHNUM * 8 - 1 - 16) ctx
  return (← printWords 16 output ctx.h.words, ctx)

def mgSha512Calc (output buf : List UInt8) : Except Fault (List UInt8) := do
  let (output, _) ← mgSha512Final output (mgSha512Update mgSha512Init buf)
  return output

end MgStd.Sha
