import Mathlib.Algebra.Group.Nat.Defs
import Mathlib.Data.List.Basic
import Mathlib.Data.List.TakeWhile
import MgStd.Lib.Prog
/-!
# Bytes of numbers

A number as a sequence of bytes, the least significant first (`leNat`,
`leBytes`) or the most significant first (`beNat`, `beBytes`).
-/

namespace MgStd.Lib

open List

variable {bs cs : List UInt8} {b : UInt8} {k n i : Nat}

/-- The number whose bytes these are, the least significant first. -/
def leNat : List UInt8 → Nat
  | [] => 0
  | b :: bs => b.toNat + 256 * leNat bs

/-- The number whose bytes these are, the most significant first. -/
def beNat (bs : List UInt8) : Nat := leNat bs.reverse

/-- The `k` low bytes of `n`, the least significant first. -/
def leBytes : Nat → Nat → List UInt8
  | 0, _ => []
  | k + 1, n => UInt8.ofNat n :: leBytes k (n / 256)

/-- The `k` low bytes of `n`, the most significant first. -/
def beBytes (k n : Nat) : List UInt8 := (leBytes k n).reverse

theorem toNat_ofNat_byte (n : Nat) : (UInt8.ofNat n).toNat = n % 256 := rfl

@[simp] theorem length_leBytes : (leBytes k n).length = k := by
  induction k generalizing n with
  | zero => rfl
  | succ k ih => rw [leBytes, length_cons, ih]

@[simp] theorem length_beBytes : (beBytes k n).length = k := by
  unfold beBytes
  rw [length_reverse, length_leBytes]

theorem leNat_lt (bs : List UInt8) : leNat bs < 256 ^ bs.length := by
  induction bs with
  | nil => exact Nat.one_pos
  | cons b bs ih =>
    have hb := b.toNat_lt
    rw [leNat, length_cons, Nat.pow_succ]
    omega

theorem leNat_leBytes : leNat (leBytes k n) = n % 256 ^ k := by
  induction k generalizing n with
  | zero => rw [leBytes, leNat, Nat.pow_zero, Nat.mod_one]
  | succ k ih => rw [leBytes, leNat, ih, toNat_ofNat_byte, Nat.pow_succ', Nat.mod_mul]

/-- Bytes of one length are known from their number. -/
theorem leNat_inj (hlen : bs.length = cs.length) (h : leNat bs = leNat cs) : bs = cs := by
  induction bs generalizing cs with
  | nil => exact (eq_nil_of_length_eq_zero hlen.symm).symm
  | cons b bs ih =>
    cases cs with
    | nil => exact absurd hlen (Nat.succ_ne_zero _)
    | cons c cs =>
      have hb := b.toNat_lt
      have hc := c.toNat_lt
      rw [leNat, leNat] at h
      have hfirst : b = c := UInt8.toNat_inj.1 (by omega)
      rw [hfirst, ih (Nat.succ.inj hlen) (by omega)]

theorem leNat_append (bs cs : List UInt8) : leNat (bs ++ cs) = leNat bs + 256 ^ bs.length * leNat cs := by
  induction bs with
  | nil => rw [nil_append, leNat, length_nil, Nat.pow_zero, Nat.one_mul, Nat.zero_add]
  | cons b bs ih => rw [cons_append, leNat, leNat, ih, length_cons, Nat.pow_succ', Nat.mul_add, Nat.mul_assoc, Nat.add_assoc]

theorem leNat_zeros : leNat (replicate k 0) = 0 := by
  induction k with
  | zero => rfl
  | succ k ih => rw [replicate_succ, leNat, ih]; rfl

/-- Bytes 0xff make the greatest number of their length. -/
theorem leNat_ones : leNat (replicate k 255) + 1 = 256 ^ k := by
  induction k with
  | zero => rfl
  | succ k ih =>
    have hff : (255 : UInt8).toNat = 255 := rfl
    rw [replicate_succ, leNat, hff, Nat.pow_succ', ← ih]
    omega

/-- Byte `i` of a number. -/
theorem getElem_leBytes (h : i < (leBytes k n).length) : (leBytes k n)[i] = UInt8.ofNat (n / 256 ^ i) := by
  induction k generalizing n i with
  | zero => exact absurd h (Nat.not_lt_zero i)
  | succ k ih =>
    cases i with
    | zero => rw [Nat.pow_zero, Nat.div_one]; rfl
    | succ i =>
      have hrest := ih (n := n / 256) (i := i) (by rw [length_leBytes] at h ⊢; omega)
      rw [Nat.div_div_eq_div_mul, ← Nat.pow_succ'] at hrest
      exact hrest

theorem leBytes_eq_map : leBytes k n = (range k).map fun i => UInt8.ofNat (n / 256 ^ i) := by
  apply ext_getElem
  · rw [length_leBytes, length_map, length_range]
  · intro i hi _
    rw [getElem_leBytes hi, getElem_map, getElem_range]

theorem leBytes_append {l : Nat} : leBytes (k + l) n = leBytes k n ++ leBytes l (n / 256 ^ k) := by
  induction k generalizing n with
  | zero => rw [Nat.zero_add, leBytes, nil_append, Nat.pow_zero, Nat.div_one]
  | succ k ih =>
    rw [Nat.add_right_comm, leBytes, leBytes, ih, cons_append, Nat.div_div_eq_div_mul, ← Nat.pow_succ']

theorem leBytes_mod : leBytes k (n % 256 ^ k) = leBytes k n := by
  induction k generalizing n with
  | zero => rfl
  | succ k ih =>
    rw [leBytes, leBytes, Nat.pow_succ', Nat.mod_mul_right_div_self, ih]
    congr 1
    apply UInt8.toNat_inj.1
    rw [toNat_ofNat_byte, toNat_ofNat_byte, Nat.mod_mul_right_mod]

theorem leBytes_zero : leBytes k 0 = replicate k 0 := by
  induction k with
  | zero => rfl
  | succ k ih => rw [leBytes, Nat.zero_div, ih, replicate_succ]; rfl

/-- A number that fits into `k` bytes has zeros in front of them. -/
theorem beBytes_zeros {l : Nat} (h : n < 256 ^ k) : beBytes (l + k) n = replicate l 0 ++ beBytes k n := by
  unfold beBytes
  rw [Nat.add_comm, leBytes_append, Nat.div_eq_of_lt h, leBytes_zero, reverse_append, reverse_replicate]

/-- The bits of a number, eight to a byte. -/
theorem testBit_leNat (bs : List UInt8) (i : Nat) : (leNat bs).testBit i = (bs.getD (i / 8) 0).toNat.testBit (i % 8) := by
  induction bs generalizing i with
  | nil => simp [leNat]
  | cons b bs ih =>
    have hb := b.toNat_lt
    rw [leNat, Nat.add_comm, show (256 : Nat) = 2 ^ 8 from rfl, Nat.testBit_two_pow_mul_add _ hb]
    by_cases hi : i < 8
    · rw [if_pos hi, Nat.div_eq_of_lt hi, Nat.mod_eq_of_lt hi]
      rfl
    · rw [if_neg hi, ih]
      have hdiv : i / 8 = (i - 8) / 8 + 1 := by omega
      have hmod : i % 8 = (i - 8) % 8 := by omega
      rw [hdiv, hmod]
      rfl

/-! ## Fields of a byte -/

theorem toNat_and_mask {m : UInt8} (hm : m.toNat = 2 ^ k - 1) : (b &&& m).toNat = b.toNat % 2 ^ k := by
  rw [UInt8.toNat_and, hm, Nat.and_two_pow_sub_one_eq_mod]

theorem toNat_shiftRight {s : UInt8} (hs : s.toNat < 8) : (b >>> s).toNat = b.toNat / 2 ^ s.toNat := by
  rw [UInt8.toNat_shiftRight, Nat.mod_eq_of_lt hs, Nat.shiftRight_eq_div_pow]

/-- The `k` bits under the mask `m`, from bit `s` on. -/
theorem toNat_field {m s : UInt8} (hs : s.toNat < 8) (hm : m.toNat >>> s.toNat = 2 ^ k - 1) :
    ((b &&& m) >>> s).toNat = b.toNat / 2 ^ s.toNat % 2 ^ k := by
  rw [UInt8.toNat_shiftRight, Nat.mod_eq_of_lt hs, UInt8.toNat_and, Nat.shiftRight_and_distrib, hm, Nat.and_two_pow_sub_one_eq_mod,
    Nat.shiftRight_eq_div_pow]

/-- Two fields side by side. -/
theorem toNat_pack {c s : UInt8} (hs : s.toNat < 8) (hb : b.toNat * 2 ^ s.toNat < 256) (hc : c.toNat < 2 ^ s.toNat) :
    ((b <<< s) ||| c).toNat = b.toNat * 2 ^ s.toNat + c.toNat := by
  rw [UInt8.toNat_or, UInt8.toNat_shiftLeft, Nat.mod_eq_of_lt hs, Nat.shiftLeft_eq, Nat.mod_eq_of_lt hb, ← Nat.shiftLeft_eq,
    ← Nat.shiftLeft_add_eq_or_of_lt hc]

/-! ## Strings -/

/-- The bytes of a string in memory: those before the first NUL. -/
def cString (bs : List UInt8) : List UInt8 := bs.takeWhile (· ≠ 0)

theorem zero_notMem_cString : 0 ∉ cString bs := by
  intro h
  simpa using mem_takeWhile_imp h

theorem cString_eq_self (h : 0 ∉ bs) : cString bs = bs := by
  refine takeWhile_eq_self_iff.2 fun b hb => ?_
  have hne : b ≠ 0 := fun hzero => h (hzero ▸ hb)
  simpa using hne

/-- What stands behind a NUL makes no difference. -/
theorem cString_append_zero : cString (bs ++ 0 :: cs) = cString bs := by
  unfold cString
  induction bs with
  | nil => rfl
  | cons b bs ih => rw [cons_append, takeWhile_cons, takeWhile_cons, ih]

/-- A string without a NUL, and what follows its end. -/
theorem cString_append (h : ∀ b ∈ bs, b ≠ 0) : cString (bs ++ 0 :: cs) = bs := by
  rw [cString_append_zero, cString_eq_self fun hzero => h 0 hzero rfl]

/-! ## Hexadecimal digits -/

/-- Two digits for each byte. -/
def hex (bs : List UInt8) : List Char := bs.flatMap fun b => [Nat.digitChar (b.toNat / 16), Nat.digitChar (b.toNat % 16)]

theorem hex_append (bs cs : List UInt8) : hex (bs ++ cs) = hex bs ++ hex cs := flatMap_append

theorem length_hex : (hex bs).length = 2 * bs.length := by
  induction bs with
  | nil => rfl
  | cons b bs ih =>
    unfold hex at ih ⊢
    rw [flatMap_cons, length_append, ih, length_cons, length_cons, length_cons, length_nil]
    omega

/-- The `k` low digits of a number. -/
def hexDigits : Nat → Nat → List Char
  | 0, _ => []
  | k + 1, n => hexDigits k (n / 16) ++ [Nat.digitChar (n % 16)]

theorem hexDigits_zero : hexDigits k 0 = replicate k '0' := by
  induction k with
  | zero => rfl
  | succ k ih => rw [hexDigits, Nat.zero_div, ih, replicate_succ']; rfl

/-- Digits with zeros in front of them. -/
theorem leftpad_toDigits (hk : 0 < k) (h : n < 16 ^ k) : (Nat.toDigits 16 n).leftpad k '0' = hexDigits k n := by
  induction k generalizing n with
  | zero => exact absurd hk (Nat.lt_irrefl 0)
  | succ k ih =>
    unfold leftpad at ih ⊢
    rw [hexDigits]
    by_cases hsmall : n < 16
    · rw [Nat.toDigits_of_lt_base hsmall, length_singleton, Nat.add_sub_cancel, Nat.div_eq_of_lt hsmall, hexDigits_zero,
        Nat.mod_eq_of_lt hsmall]
    · have hpos : 0 < k := by
        rcases Nat.eq_zero_or_pos k with rfl | hpos
        · exact absurd h hsmall
        · exact hpos
      have hrest := ih hpos (n := n / 16) (by rw [Nat.pow_succ] at h; omega)
      rw [Nat.toDigits_of_base_le (by decide) (Nat.le_of_not_lt hsmall), length_append, length_singleton,
        Nat.add_sub_add_right, ← append_assoc, hrest]

theorem hexDigits_eq : hexDigits (2 * k) n = hex (beBytes k n) := by
  induction k generalizing n with
  | zero => rfl
  | succ k ih =>
    have hbytes : beBytes (k + 1) n = beBytes k (n / 256) ++ [UInt8.ofNat n] := by
      unfold beBytes
      rw [leBytes, reverse_cons]
    have hlast : hex [UInt8.ofNat n] = [Nat.digitChar (n / 16 % 16), Nat.digitChar (n % 16)] := by
      unfold hex
      rw [flatMap_singleton, toNat_ofNat_byte, show n % 256 / 16 = n / 16 % 16 by omega, show n % 256 % 16 = n % 16 by omega]
    rw [hbytes, hex_append, ← ih, hlast, Nat.mul_succ, hexDigits, hexDigits, append_assoc, Nat.div_div_eq_div_mul]
    rfl

/-! ## Copies -/

/-- `memcpy(dst + off, src, length of src)` -/
def memcpy (dst : List UInt8) (off : Nat) (src : List UInt8) : List UInt8 := dst.take off ++ src ++ dst.drop (off + src.length)

variable {dst src : List UInt8} {off : Nat}

/-- A copy inside of a block leaves a block. -/
theorem length_memcpy (h : off + src.length ≤ dst.length) : (memcpy dst off src).length = dst.length := by
  unfold memcpy
  rw [length_append, length_append, length_take_of_le (by omega), length_drop]
  omega

theorem take_memcpy (h : off ≤ dst.length) : (memcpy dst off src).take (off + src.length) = dst.take off ++ src := by
  unfold memcpy
  rw [take_left' (by rw [length_append, length_take_of_le h])]

/-- Two copies, one behind the other. -/
theorem memcpy_memcpy {src' : List UInt8} (h : off ≤ dst.length) :
    memcpy (memcpy dst off src) (off + src.length) src' = memcpy dst off (src ++ src') := by
  have hhead : (dst.take off ++ src).length = off + src.length := by rw [length_append, length_take, Nat.min_eq_left h]
  have hdrop : (memcpy dst off src).drop (off + src.length + src'.length) = dst.drop (off + src.length + src'.length) := by
    rw [← drop_drop, memcpy, drop_left' hhead, drop_drop]
  rw [memcpy, take_memcpy h, hdrop, memcpy, length_append, Nat.add_assoc, append_assoc, append_assoc, append_assoc, append_assoc]

/-- A copy behind the bytes in use, into what is free. -/
theorem memcpy_free (bs cs : List UInt8) (k : Nat) (z : UInt8) :
    memcpy (bs ++ replicate k z) bs.length cs = bs ++ cs ++ replicate (k - cs.length) z := by
  unfold memcpy
  rw [take_left, ← drop_drop, drop_left, drop_replicate]

/-- A copy over as many bytes. -/
theorem memcpy_over (bs : List UInt8) {cs ds : List UInt8} (hoff : bs.length = off) (hlen : cs.length = src.length) :
    memcpy (bs ++ (cs ++ ds)) off src = bs ++ (src ++ ds) := by
  unfold memcpy
  rw [← hoff, ← hlen, take_left, ← drop_drop, drop_left, drop_left, append_assoc]

/-- A copy up to the end. -/
theorem memcpy_end (h : off + src.length = dst.length) : memcpy dst off src = dst.take off ++ src := by
  unfold memcpy
  rw [drop_eq_nil_of_le (by omega), append_nil]

/-- A copy into an object that may be too small for it. -/
def storeBytes (dst : List UInt8) (off : Nat) (src : List UInt8) : Except Fault (List UInt8) :=
  if off + src.length ≤ dst.length then .ok (memcpy dst off src) else .error .bounds

theorem storeBytes_ok (h : off + src.length ≤ dst.length) : storeBytes dst off src = .ok (memcpy dst off src) := if_pos h

/-- A copy behind some bytes of an object. -/
theorem storeBytes_behind (bs ds : List UInt8) (hoff : bs.length = off) :
    storeBytes (bs ++ ds) off src = if src.length ≤ ds.length then .ok (bs ++ src ++ ds.drop src.length) else .error .bounds := by
  have hroom : off + src.length ≤ (bs ++ ds).length ↔ src.length ≤ ds.length := by
    rw [length_append, hoff]
    exact Nat.add_le_add_iff_left
  unfold storeBytes memcpy
  simp only [hroom]
  rw [← hoff, take_left, ← drop_drop, drop_left]

end MgStd.Lib
