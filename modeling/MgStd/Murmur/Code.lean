import MgStd.Lib.Bytes
import MgStd.Lib.Mixing
/-!
# mgmurmurhash.c

A key is a list of bytes, `len` is its length, and the host is little-endian.
The statements that the functions repeat with other constants are written once.
A `switch` that falls through from the last byte of the tail to the first is
`gather`.
-/

namespace MgStd.Murmur

open MgStd.Lib

variable {w : Nat}

/-- `data[i]` for a `data` of words, as `getblock32` and `getblock64` have it. -/
def getblock (w : Nat) (data : List UInt8) (i : Nat) : BitVec w :=
  BitVec.ofNat w (leNat ((data.drop (w / 8 * i)).take (w / 8)))

/-- `k ^= tail[i] << 8 * i` from the last byte on. -/
def gather (k : BitVec w) (tail : List UInt8) : BitVec w :=
  tail.zipIdx.foldr (fun b k => k ^^^ BitVec.ofNat w b.1.toNat <<< (8 * b.2)) k

/-! ## The functions of the second generation -/

/-- `k *= m; k ^= k >> r; k *= m` -/
def mixKey (m : BitVec w) (r : Nat) (k : BitVec w) : BitVec w := ((k * m) ^^^ (k * m) >>> r) * m

def mgMurmurhash64 (key : List UInt8) (seed : BitVec 32) : BitVec 64 :=
  let m : BitVec 64 := 0xc6a4a7935bd1e995
  let r := 47
  let len := key.length
  let h := seed.setWidth 64 ^^^ (BitVec.ofNat 64 len * m)
  let h := (List.range (len / 8)).foldl (fun h i => (h ^^^ mixKey m r (getblock 64 key i)) * m) h
  let data2 := key.drop (8 * (len / 8))
  let h := if data2.length = 0 then h else gather h data2 * m
  let h := h ^^^ h >>> r
  let h := h * m
  h ^^^ h >>> r

namespace Murmurhash32

def m : BitVec 32 := 0x5bd1e995

/-- `h1` and `h2` -/
@[ext] structure Words where
  one : BitVec 32
  two : BitVec 32
deriving DecidableEq, Repr

/-- `k1` or `k2` goes into its word. -/
def absorb (h k : BitVec 32) : BitVec 32 := h * m ^^^ mixKey m 24 k

/-- One round of the loop, for the words `data[i]` and `data[i + 1]`. -/
def body (h k : Words) : Words := ⟨absorb h.one k.one, absorb h.two k.two⟩

/-- The `len` bytes behind the loop, less than eight. -/
def tail (h : Words) (data : List UInt8) : Words :=
  let h1 := if 4 ≤ data.length then absorb h.one (getblock 32 data 0) else h.one
  let data := if 4 ≤ data.length then data.drop 4 else data
  let h2 := if data.length = 0 then h.two else gather h.two data * m
  ⟨h1, h2⟩

def finish (h : Words) : Words :=
  let h1 := (h.one ^^^ h.two >>> 18) * m
  let h2 := (h.two ^^^ h1 >>> 22) * m
  let h1 := (h1 ^^^ h2 >>> 17) * m
  let h2 := (h2 ^^^ h1 >>> 19) * m
  ⟨h1, h2⟩

/-- `h1` and `h2` before the last statement. -/
def words (key : List UInt8) (seed : BitVec 32) : Words :=
  let len := key.length
  let h := (List.range (len / 8)).foldl
    (fun h i => body h ⟨getblock 32 key (i * 2 + 0), getblock 32 key (i * 2 + 1)⟩) ⟨seed ^^^ BitVec.ofNat 32 len, 0⟩
  finish (tail h (key.drop (8 * (len / 8))))

end Murmurhash32

def mgMurmurhash32 (key : List UInt8) (seed : BitVec 32) : BitVec 32 :=
  let h := Murmurhash32.words key seed
  h.one ||| h.two

/-! ## The functions of the third generation -/

/-- `k *= c1; k = ROTL(k, r); k *= c2` -/
def scramble (c1 : BitVec w) (r : Nat) (c2 k : BitVec w) : BitVec w := rotl (k * c1) r * c2

def fmix32 (h : BitVec 32) : BitVec 32 :=
  let h := h ^^^ h >>> 16
  let h := h * 0x85ebca6b
  let h := h ^^^ h >>> 13
  let h := h * 0xc2b2ae35
  h ^^^ h >>> 16

def fmix64 (k : BitVec 64) : BitVec 64 :=
  let k := k ^^^ k >>> 33
  let k := k * 0xff51afd7ed558ccd
  let k := k ^^^ k >>> 33
  let k := k * 0xc4ceb9fe1a85ec53
  k ^^^ k >>> 33

/-! ### `mgMurmurhash3_x86_32` -/

namespace X86_32

def scramble1 : BitVec 32 → BitVec 32 := scramble 0xcc9e2d51 15 0x1b873593

/-- One round of the loop. -/
def body (h1 k1 : BitVec 32) : BitVec 32 :=
  let h1 := h1 ^^^ scramble1 k1
  let h1 := rotl h1 13
  h1 * 5 + 0xe6546b64

def tail (h1 : BitVec 32) (tail : List UInt8) : BitVec 32 :=
  if tail.length = 0 then h1 else h1 ^^^ scramble1 (gather 0 tail)

end X86_32

def mgMurmurhash3X86_32 (key : List UInt8) (seed : BitVec 32) : BitVec 32 :=
  let len := key.length
  let nblocks := len / 4
  let h1 := (List.range nblocks).foldl (fun h1 i => X86_32.body h1 (getblock 32 key i)) seed
  let h1 := X86_32.tail h1 (key.drop (4 * nblocks))
  fmix32 (h1 ^^^ BitVec.ofNat 32 len)

/-! ### `mgMurmurhash3_x86_128` -/

namespace X86_128

/-- `h1` to `h4`, or `k1` to `k4`. -/
@[ext] structure Words where
  one : BitVec 32
  two : BitVec 32
  three : BitVec 32
  four : BitVec 32
deriving DecidableEq, Repr

def scramble1 : BitVec 32 → BitVec 32 := scramble 0x239b961b 15 0xab0e9789
def scramble2 : BitVec 32 → BitVec 32 := scramble 0xab0e9789 16 0x38b34ae5
def scramble3 : BitVec 32 → BitVec 32 := scramble 0x38b34ae5 17 0xa1e38b93
def scramble4 : BitVec 32 → BitVec 32 := scramble 0xa1e38b93 18 0x239b961b

/-- The four words of a block. -/
def block (key : List UInt8) (i : Nat) : Words :=
  ⟨getblock 32 key (i * 4 + 0), getblock 32 key (i * 4 + 1), getblock 32 key (i * 4 + 2), getblock 32 key (i * 4 + 3)⟩

/-- One round of the loop. -/
def body (h k : Words) : Words :=
  let h1 := h.one ^^^ scramble1 k.one
  let h1 := (rotl h1 19 + h.two) * 5 + 0x561ccd1b
  let h2 := h.two ^^^ scramble2 k.two
  let h2 := (rotl h2 17 + h.three) * 5 + 0x0bcaa747
  let h3 := h.three ^^^ scramble3 k.three
  let h3 := (rotl h3 15 + h.four) * 5 + 0x96cd1c35
  let h4 := h.four ^^^ scramble4 k.four
  let h4 := (rotl h4 13 + h1) * 5 + 0x32ac3b17
  ⟨h1, h2, h3, h4⟩

def tail (h : Words) (tail : List UInt8) : Words :=
  let h4 := if 12 < tail.length then h.four ^^^ scramble4 (gather 0 (tail.drop 12)) else h.four
  let h3 := if 8 < tail.length then h.three ^^^ scramble3 (gather 0 ((tail.drop 8).take 4)) else h.three
  let h2 := if 4 < tail.length then h.two ^^^ scramble2 (gather 0 ((tail.drop 4).take 4)) else h.two
  let h1 := if 0 < tail.length then h.one ^^^ scramble1 (gather 0 (tail.take 4)) else h.one
  ⟨h1, h2, h3, h4⟩

/-- `h1 += h2; h1 += h3; h1 += h4; h2 += h1; h3 += h1; h4 += h1` -/
def mingle (h : Words) : Words :=
  let h1 := h.one + h.two + h.three + h.four
  ⟨h1, h.two + h1, h.three + h1, h.four + h1⟩

def finish (h : Words) (len : BitVec 32) : Words :=
  let h := mingle ⟨h.one ^^^ len, h.two ^^^ len, h.three ^^^ len, h.four ^^^ len⟩
  mingle ⟨fmix32 h.one, fmix32 h.two, fmix32 h.three, fmix32 h.four⟩

end X86_128

/-- The words at `out`. -/
def mgMurmurhash3X86_128 (key : List UInt8) (seed : BitVec 32) : X86_128.Words :=
  let len := key.length
  let nblocks := len / 16
  let h := (List.range nblocks).foldl (fun h i => X86_128.body h (X86_128.block key i)) ⟨seed, seed, seed, seed⟩
  let h := X86_128.tail h (key.drop (16 * nblocks))
  X86_128.finish h (BitVec.ofNat 32 len)

/-! ### `mgMurmurhash3_x64_128` -/

namespace X64_128

/-- `h1` and `h2`, or `k1` and `k2`. -/
@[ext] structure Words where
  one : BitVec 64
  two : BitVec 64
deriving DecidableEq, Repr

def scramble1 : BitVec 64 → BitVec 64 := scramble 0x87c37b91114253d5 31 0x4cf5ad432745937f
def scramble2 : BitVec 64 → BitVec 64 := scramble 0x4cf5ad432745937f 33 0x87c37b91114253d5

/-- The two words of a block. -/
def block (key : List UInt8) (i : Nat) : Words := ⟨getblock 64 key (i * 2 + 0), getblock 64 key (i * 2 + 1)⟩

/-- One round of the loop. -/
def body (h k : Words) : Words :=
  let h1 := h.one ^^^ scramble1 k.one
  let h1 := (rotl h1 27 + h.two) * 5 + 0x52dce729
  let h2 := h.two ^^^ scramble2 k.two
  let h2 := (rotl h2 31 + h1) * 5 + 0x38495ab5
  ⟨h1, h2⟩

def tail (h : Words) (tail : List UInt8) : Words :=
  let h2 := if 8 < tail.length then h.two ^^^ scramble2 (gather 0 (tail.drop 8)) else h.two
  let h1 := if 0 < tail.length then h.one ^^^ scramble1 (gather 0 (tail.take 8)) else h.one
  ⟨h1, h2⟩

/-- `h1 += h2; h2 += h1` -/
def mingle (h : Words) : Words :=
  let h1 := h.one + h.two
  ⟨h1, h.two + h1⟩

def finish (h : Words) (len : BitVec 64) : Words :=
  let h := mingle ⟨h.one ^^^ len, h.two ^^^ len⟩
  mingle ⟨fmix64 h.one, fmix64 h.two⟩

end X64_128

/-- The words at `out`. -/
def mgMurmurhash3X64_128 (key : List UInt8) (seed : BitVec 32) : X64_128.Words :=
  let len := key.length
  let nblocks := len / 16
  let h := (List.range nblocks).foldl (fun h i => X64_128.body h (X64_128.block key i)) ⟨seed.setWidth 64, seed.setWidth 64⟩
  let h := X64_128.tail h (key.drop (16 * nblocks))
  X64_128.finish h (BitVec.ofNat 64 len)

end MgStd.Murmur
