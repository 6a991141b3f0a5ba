import Mathlib.Analysis.SpecialFunctions.Pow.NthRootLemmas
import Mathlib.Data.Nat.Prime.Basic
import Mathlib.Order.Bounds.Defs
import MgStd.Lib.Blocks
import MgStd.Lib.Bytes
import MgStd.Sha.Words
/-!
# The Secure Hash Standard

SHA-1, SHA-256, SHA-384 and SHA-512 as FIPS 180-4 defines them, for messages
of whole bytes. The constants are those of the standard: the first bits of the
fractional parts of roots of the first primes.
-/

namespace MgStd.Sha.Standard

open MgStd.Lib

variable {w n l len : Nat}

/-! ## Padding -/

/-- The number of zero bytes between the `0x80` and the `l` bytes of the length. -/
def zeros (n l len : Nat) : Nat := (n - (len + 1 + l) % n) % n

/-- The smallest number that completes a block of `n` bytes. -/
theorem isLeast_zeros (hn : 0 < n) : IsLeast {z | (len + 1 + z + l) % n = 0} (zeros n l len) := by
  have hlt := Nat.mod_lt (len + 1 + l) hn
  have hdiv := Nat.div_add_mod (len + 1 + l) n
  unfold zeros
  constructor
  · show (len + 1 + (n - (len + 1 + l) % n) % n + l) % n = 0
    rw [Nat.add_right_comm, Nat.add_mod_mod]
    have hsum : len + 1 + l + (n - (len + 1 + l) % n) = n * ((len + 1 + l) / n + 1) := by
      rw [Nat.mul_add]
      omega
    rw [hsum, Nat.mul_mod_right]
  · intro z hz
    have hz' : (len + 1 + z + l) % n = 0 := hz
    rw [Nat.add_right_comm, Nat.add_mod] at hz'
    by_contra hlow
    have hzn : z < n := Nat.lt_trans (Nat.lt_of_not_le hlow) (Nat.mod_lt _ hn)
    rw [Nat.mod_eq_of_lt hzn] at hz'
    by_cases hzero : (len + 1 + l) % n = 0
    · rw [hzero, Nat.sub_zero, Nat.mod_self] at hlow
      exact hlow (Nat.zero_le z)
    · have hfull : n - (len + 1 + l) % n < n := by omega
      rw [Nat.mod_eq_of_lt hfull] at hlow
      rw [Nat.mod_eq_of_lt (by omega)] at hz'
      omega

/-- Blocks of `n` bytes with the length in bits as `l` bytes. -/
def pad (n l : Nat) (m : List UInt8) : List UInt8 :=
  m ++ 0x80 :: List.replicate (zeros n l m.length) 0 ++ beBytes l (8 * m.length)

/-- Word `t` of a block. -/
def word (w : Nat) (block : List UInt8) (t : Nat) : BitVec w :=
  BitVec.ofNat w (beNat ((block.drop (t * (w / 8))).take (w / 8)))

/-- The bytes of a hash value. -/
def digest (words : List (BitVec w)) : List UInt8 := words.flatMap fun x => beBytes (w / 8) x.toNat

/-! ## Constants -/

/-- The first `w` bits of the fractional part of the `r`-th root of `p`. -/
def fraction (r w p : Nat) : Nat := Nat.nthRoot r (p * 2 ^ (r * w)) % 2 ^ w

/-- With `q` before the point, these are the bits that keep the power just below `p`. -/
theorem fraction_eq {r q k p : Nat} (hk : k < 2 ^ w) (hlow : (q * 2 ^ w + k) ^ r ≤ p * 2 ^ (r * w))
    (hhigh : p * 2 ^ (r * w) < (q * 2 ^ w + k + 1) ^ r) : fraction r w p = k := by
  unfold fraction
  rw [Nat.nthRoot_eq_of_le_of_lt hlow hhigh, Nat.mul_comm, Nat.mul_add_mod, Nat.mod_eq_of_lt hk]

/-- The first eighty primes. -/
def primes : List Nat :=
  [
    2, 3, 5, 7, 11, 13, 17, 19, 23, 29, 31, 37, 41, 43, 47, 53, 59, 61, 67, 71, 73, 79, 83, 89, 97, 101, 103, 107, 109,
    113, 127, 131, 137, 139, 149, 151, 157, 163, 167, 173, 179, 181, 191, 193, 197, 199, 211, 223, 227, 229, 233, 239,
    241, 251, 257, 263, 269, 271, 277, 281, 283, 293, 307, 311, 313, 317, 331, 337, 347, 349, 353, 359, 367, 373, 379,
    383, 389, 397, 401, 409]

/-- A divisor of `p`, if there is one, is found below a number whose square is above `p`. -/
theorem prime_iff_of_lt {p : Nat} (h : p < n * n) : p.Prime ↔ 2 ≤ p ∧ ∀ d < n, 2 ≤ d → d < p → ¬ d ∣ p := by
  constructor
  · intro hp
    refine ⟨hp.two_le, fun d _ hd hdp hdvd => ?_⟩
    rcases (Nat.dvd_prime hp).1 hdvd with rfl | rfl <;> omega
  · rintro ⟨htwo, hd⟩
    rw [Nat.prime_def_le_sqrt]
    refine ⟨htwo, fun d hd' hsqrt hdvd => hd d ?_ hd' ?_ hdvd⟩
    · exact Nat.lt_of_le_of_lt hsqrt (Nat.sqrt_lt.2 h)
    · exact Nat.lt_of_le_of_lt hsqrt (Nat.sqrt_lt_self htwo)

theorem primes_eq : primes = (List.range 410).filter fun p => p.Prime := by
  have hfilter : ((List.range 410).filter fun p => p.Prime) =
      (List.range 410).filter fun p => 2 ≤ p ∧ ∀ d < 21, 2 ≤ d → d < p → ¬ d ∣ p := by
    refine List.filter_congr fun p hp => ?_
    rw [decide_eq_decide]
    exact prime_iff_of_lt (Nat.lt_trans (List.mem_range.1 hp) (by decide))
  rw [hfilter]
  decide +kernel

/-- `K` of SHA-256, SHA-384 and SHA-512: the cube roots. -/
def cubeRoot (w t : Nat) : BitVec w := BitVec.ofNat w (fraction 3 w (primes.getD t 0))

/-- The square roots of eight primes, as an initial hash value. -/
def squareRoots (w first : Nat) : Eight w :=
  let root i : BitVec w := BitVec.ofNat w (fraction 2 w (primes.getD (first + i) 0))
  ⟨root 0, root 1, root 2, root 3, root 4, root 5, root 6, root 7⟩

/-! ## SHA-1 -/

def ch (x y z : BitVec w) : BitVec w := (x &&& y) ^^^ (~~~x &&& z)

def parity (x y z : BitVec w) : BitVec w := x ^^^ y ^^^ z

def maj (x y z : BitVec w) : BitVec w := (x &&& y) ^^^ (x &&& z) ^^^ (y &&& z)

/-- The function and the constant of round `t`. -/
def f1 (t : Nat) : BitVec 32 → BitVec 32 → BitVec 32 → BitVec 32 :=
  if t ≤ 19 then ch else if t ≤ 39 then parity else if t ≤ 59 then maj else parity

def k1 (t : Nat) : BitVec 32 :=
  if t ≤ 19 then 0x5a827999 else if t ≤ 39 then 0x6ed9eba1 else if t ≤ 59 then 0x8f1bbcdc else 0xca62c1d6

def schedule1 (M : Nat → BitVec 32) (t : Nat) : BitVec 32 :=
  if t < 16 then M t
  else (schedule1 M (t - 3) ^^^ schedule1 M (t - 8) ^^^ schedule1 M (t - 14) ^^^ schedule1 M (t - 16)).rotateLeft 1
termination_by t

def compress1 (H : Five 32) (block : List UInt8) : Five 32 :=
  H.add ((List.range 80).foldl
    (fun v t => ⟨v.a.rotateLeft 5 + f1 t v.b v.c v.d + v.e + k1 t + schedule1 (word 32 block) t, v.a, v.b.rotateLeft 30, v.c, v.d⟩)
    H)

def initial1 : Five 32 := ⟨0x67452301, 0xefcdab89, 0x98badcfe, 0x10325476, 0xc3d2e1f0⟩

/-- The message digest of SHA-1. -/
def sha1 (m : List UInt8) : List UInt8 := digest ((blocks 64 (pad 64 8 m)).foldl compress1 initial1).words

/-! ## SHA-256, SHA-384 and SHA-512 -/

/-- What differs with the length of a word. -/
structure Variant (w : Nat) where
  rounds : Nat
  upper0 : BitVec w → BitVec w
  upper1 : BitVec w → BitVec w
  lower0 : BitVec w → BitVec w
  lower1 : BitVec w → BitVec w

def words32 : Variant 32 where
  rounds := 64
  upper0 x := x.rotateRight 2 ^^^ x.rotateRight 13 ^^^ x.rotateRight 22
  upper1 x := x.rotateRight 6 ^^^ x.rotateRight 11 ^^^ x.rotateRight 25
  lower0 x := x.rotateRight 7 ^^^ x.rotateRight 18 ^^^ x >>> 3
  lower1 x := x.rotateRight 17 ^^^ x.rotateRight 19 ^^^ x >>> 10

def words64 : Variant 64 where
  rounds := 80
  upper0 x := x.rotateRight 28 ^^^ x.rotateRight 34 ^^^ x.rotateRight 39
  upper1 x := x.rotateRight 14 ^^^ x.rotateRight 18 ^^^ x.rotateRight 41
  lower0 x := x.rotateRight 1 ^^^ x.rotateRight 8 ^^^ x >>> 7
  lower1 x := x.rotateRight 19 ^^^ x.rotateRight 61 ^^^ x >>> 6

def Variant.schedule (v : Variant w) (M : Nat → BitVec w) (t : Nat) : BitVec w :=
  if t < 16 then M t
  else v.lower1 (v.schedule M (t - 2)) + v.schedule M (t - 7) + v.lower0 (v.schedule M (t - 15)) + v.schedule M (t - 16)
termination_by t

def Variant.compress (v : Variant w) (H : Eight w) (block : List UInt8) : Eight w :=
  H.add ((List.range v.rounds).foldl
    (fun x t =>
      let t1 := x.h + v.upper1 x.e + ch x.e x.f x.g + cubeRoot w t + v.schedule (word w block) t
      let t2 := v.upper0 x.a + maj x.a x.b x.c
      ⟨t1 + t2, x.a, x.b, x.c, x.d + t1, x.e, x.f, x.g⟩)
    H)

def sha256 (m : List UInt8) : List UInt8 :=
  digest ((blocks 64 (pad 64 8 m)).foldl words32.compress (squareRoots 32 0)).words

def sha384 (m : List UInt8) : List UInt8 :=
  digest (((blocks 128 (pad 128 16 m)).foldl words64.compress (squareRoots 64 8)).words.take 6)

def sha512 (m : List UInt8) : List UInt8 :=
  digest ((blocks 128 (pad 128 16 m)).foldl words64.compress (squareRoots 64 0)).words

end MgStd.Sha.Standard
