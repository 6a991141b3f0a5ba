import Mathlib.Algebra.Group.Nat.Defs
import Mathlib.Data.List.Basic
import MgStd.Lib.Bytes
/-!
# Bits of numbers

A number as a sequence of bits, the least significant first, and a sequence of
bits as a number or as bytes. A last byte that is not full is filled up with
zeros.
-/

namespace MgStd.Lib

open List

variable {bs cs : List Bool} {k l n m : Nat}

/-- The number whose bits these are, the least significant first. -/
def bitsNat : List Bool → Nat
  | [] => 0
  | b :: bs => b.toNat + 2 * bitsNat bs

/-- The `k` low bits of `n`, the least significant first. -/
def natBits : Nat → Nat → List Bool
  | 0, _ => []
  | k + 1, n => n.testBit 0 :: natBits k (n / 2)

@[simp] theorem length_natBits : (natBits k n).length = k := by
  induction k generalizing n with
  | zero => rfl
  | succ k ih => rw [natBits, length_cons, ih]

theorem bitsNat_lt (bs : List Bool) : bitsNat bs < 2 ^ bs.length := by
  induction bs with
  | nil => exact Nat.one_pos
  | cons b bs ih =>
    have hb := b.toNat_le
    rw [bitsNat, length_cons, Nat.pow_succ]
    omega

theorem bitsNat_append (bs cs : List Bool) : bitsNat (bs ++ cs) = bitsNat bs + 2 ^ bs.length * bitsNat cs := by
  induction bs with
  | nil => rw [nil_append, bitsNat, length_nil, Nat.pow_zero, Nat.one_mul, Nat.zero_add]
  | cons b bs ih => rw [cons_append, bitsNat, bitsNat, ih, length_cons, Nat.pow_succ', Nat.mul_add, ← Nat.mul_assoc, Nat.add_assoc]

theorem toNat_testBit_zero (n : Nat) : (n.testBit 0).toNat = n % 2 := by
  rw [Nat.testBit_zero]
  rcases Nat.mod_two_eq_zero_or_one n with h | h <;> rw [h] <;> rfl

theorem bitsNat_natBits : bitsNat (natBits k n) = n % 2 ^ k := by
  induction k generalizing n with
  | zero => rw [natBits, bitsNat, Nat.pow_zero, Nat.mod_one]
  | succ k ih => rw [natBits, bitsNat, ih, toNat_testBit_zero, Nat.pow_succ', Nat.mod_mul]

theorem natBits_bitsNat (bs : List Bool) : natBits bs.length (bitsNat bs) = bs := by
  induction bs with
  | nil => rfl
  | cons b bs ih =>
    have hb := b.toNat_le
    have hhead : (b.toNat + 2 * bitsNat bs).testBit 0 = b := by
      rw [Nat.testBit_zero, Nat.add_mul_mod_self_left]
      cases b <;> rfl
    have htail : (b.toNat + 2 * bitsNat bs) / 2 = bitsNat bs := by omega
    rw [length_cons, bitsNat, natBits, hhead, htail, ih]

/-- Bits of one length are known from their number. -/
theorem bitsNat_inj (hlen : bs.length = cs.length) (h : bitsNat bs = bitsNat cs) : bs = cs := by
  rw [← natBits_bitsNat bs, hlen, h, natBits_bitsNat]

theorem natBits_add : natBits (k + l) n = natBits k n ++ natBits l (n / 2 ^ k) := by
  induction k generalizing n with
  | zero => rw [Nat.zero_add, Nat.pow_zero, Nat.div_one, natBits, nil_append]
  | succ k ih => rw [Nat.add_right_comm, natBits, natBits, ih, cons_append, Nat.pow_succ', Nat.div_div_eq_div_mul]

theorem natBits_mod (h : k ≤ l) : natBits k (n % 2 ^ l) = natBits k n := by
  apply bitsNat_inj (by simp)
  rw [bitsNat_natBits, bitsNat_natBits, Nat.mod_mod_of_dvd _ (Nat.pow_dvd_pow 2 h)]

theorem natBits_zero : natBits k 0 = replicate k false := by
  induction k with
  | zero => rfl
  | succ k ih => rw [natBits, Nat.zero_div, ih, replicate_succ, Nat.zero_testBit]

theorem take_natBits (h : k ≤ l) : (natBits l n).take k = natBits k n := by
  obtain ⟨d, rfl⟩ := Nat.exists_eq_add_of_le h
  rw [natBits_add, take_left' length_natBits]

theorem bitsNat_take (bs : List Bool) (k : Nat) : bitsNat (bs.take k) = bitsNat bs % 2 ^ k := by
  by_cases h : k ≤ bs.length
  · rw [← bitsNat_natBits, ← take_natBits h, natBits_bitsNat]
  · have hlt := bitsNat_lt bs
    have hle : 2 ^ bs.length ≤ 2 ^ k := Nat.pow_le_pow_right Nat.two_pos (by omega)
    rw [take_of_length_le (by omega), Nat.mod_eq_of_lt (by omega)]

theorem bitsNat_drop (bs : List Bool) (k : Nat) : bitsNat (bs.drop k) = bitsNat bs / 2 ^ k := by
  by_cases h : k ≤ bs.length
  · conv_rhs => rw [← take_append_drop k bs, bitsNat_append, length_take, Nat.min_eq_left h]
    have hlt := bitsNat_lt (bs.take k)
    rw [length_take, Nat.min_eq_left h] at hlt
    rw [Nat.add_mul_div_left _ _ (Nat.two_pow_pos k), Nat.div_eq_of_lt hlt, Nat.zero_add]
  · have hlt := bitsNat_lt bs
    have hle : 2 ^ bs.length ≤ 2 ^ k := Nat.pow_le_pow_right Nat.two_pos (by omega)
    rw [drop_eq_nil_of_le (by omega), bitsNat, Nat.div_eq_of_lt (by omega)]

theorem testBit_bitsNat (bs : List Bool) (i : Nat) : (bitsNat bs).testBit i = bs.getD i false := by
  induction bs generalizing i with
  | nil => simp [bitsNat]
  | cons b bs ih =>
    cases i with
    | zero =>
      rw [bitsNat, Nat.testBit_zero, Nat.add_mul_mod_self_left, getD_cons_zero]
      cases b <;> rfl
    | succ i =>
      have hb := b.toNat_le
      have htail : (b.toNat + 2 * bitsNat bs) / 2 = bitsNat bs := by omega
      rw [bitsNat, Nat.testBit_succ, htail, ih, getD_cons_succ]

theorem getD_take (bs : List Bool) (k i : Nat) : (bs.take k).getD i false = (decide (i < k) && bs.getD i false) := by
  rw [← testBit_bitsNat, bitsNat_take, Nat.testBit_mod_two_pow, testBit_bitsNat]

theorem getD_drop (bs : List Bool) (k i : Nat) : (bs.drop k).getD i false = bs.getD (k + i) false := by
  rw [getD_eq_getElem?_getD, getD_eq_getElem?_getD, getElem?_drop]

/-- Bits that are there already may be written once more. -/
theorem bitsNat_take_or {v i : Nat} (hv : natBits l v = (bs.drop k).take l) (hlt : v < 2 ^ l) (hi : k ≤ i) :
    bitsNat (bs.take i) ||| v <<< k = bitsNat (bs.take (max i (k + l))) := by
  apply Nat.eq_of_testBit_eq
  intro n
  have hbit : v.testBit (n - k) = (decide (n - k < l) && bs.getD (k + (n - k)) false) := by
    conv_lhs => rw [← Nat.mod_eq_of_lt hlt, ← bitsNat_natBits, testBit_bitsNat, hv, getD_take, getD_drop]
  rw [Nat.testBit_or, Nat.testBit_shiftLeft, testBit_bitsNat, testBit_bitsNat, getD_take, getD_take, hbit]
  by_cases hk : k ≤ n
  · have hmax : n < max i (k + l) ↔ n < i ∨ n - k < l := by omega
    rw [Nat.add_sub_cancel' hk, decide_eq_decide.2 hmax, Bool.decide_or, Bool.and_or_distrib_right]
    simp [hk]
  · have hmax : n < max i (k + l) := by omega
    simp [hk, hmax, show n < i by omega]

/-- To write bits behind others is to shift them and to take both together. -/
theorem bitsNat_or_shiftLeft (bs : List Bool) (n : Nat) : bitsNat bs ||| n <<< bs.length = bitsNat bs + 2 ^ bs.length * n := by
  rw [Nat.or_comm, ← Nat.shiftLeft_add_eq_or_of_lt (bitsNat_lt bs), Nat.shiftLeft_eq, Nat.mul_comm, Nat.add_comm]

/-- Zeros behind bits. -/
theorem natBits_bitsNat_of_le (h : bs.length ≤ k) : natBits k (bitsNat bs) = bs ++ replicate (k - bs.length) false := by
  obtain ⟨d, rfl⟩ := Nat.exists_eq_add_of_le h
  rw [natBits_add, natBits_bitsNat, Nat.div_eq_of_lt (bitsNat_lt bs), natBits_zero, Nat.add_sub_cancel_left]

/-! ## Bytes -/

/-- The bits of bytes, each from its least significant one. -/
def bytesBits (bytes : List UInt8) : List Bool := bytes.flatMap fun b => natBits 8 b.toNat

@[simp] theorem bytesBits_nil : bytesBits [] = [] := rfl

theorem bytesBits_cons (b : UInt8) (bytes : List UInt8) : bytesBits (b :: bytes) = natBits 8 b.toNat ++ bytesBits bytes := rfl

theorem bytesBits_append (bytes bytes' : List UInt8) : bytesBits (bytes ++ bytes') = bytesBits bytes ++ bytesBits bytes' :=
  flatMap_append

@[simp] theorem length_bytesBits (bytes : List UInt8) : (bytesBits bytes).length = 8 * bytes.length := by
  induction bytes with
  | nil => rfl
  | cons b bytes ih => rw [bytesBits_cons, length_append, length_natBits, ih, length_cons, Nat.mul_succ, Nat.add_comm]

theorem bytesBits_ofNat (n : Nat) : bytesBits [UInt8.ofNat n] = natBits 8 n := by
  rw [bytesBits_cons, bytesBits_nil, append_nil, toNat_ofNat_byte, show 256 = 2 ^ 8 from rfl, natBits_mod (Nat.le_refl 8)]

theorem take_bytesBits (n : Nat) (bytes : List UInt8) : (bytesBits bytes).take (8 * n) = bytesBits (bytes.take n) := by
  rw [← take_append_drop n bytes, bytesBits_append, take_append_drop]
  by_cases h : n ≤ bytes.length
  · rw [take_left' (by rw [length_bytesBits, length_take, Nat.min_eq_left h])]
  · rw [drop_eq_nil_of_le (by omega), bytesBits_nil, append_nil, take_of_length_le (by rw [length_bytesBits, length_take]; omega)]

theorem drop_bytesBits (n : Nat) (bytes : List UInt8) : (bytesBits bytes).drop (8 * n) = bytesBits (bytes.drop n) := by
  apply append_cancel_left
  rw [take_append_drop, take_bytesBits, ← bytesBits_append, take_append_drop]

/-- Bytes are known from their bits. -/
theorem bytesBits_inj {bytes bytes' : List UInt8} (h : bytesBits bytes = bytesBits bytes') : bytes = bytes' := by
  induction bytes generalizing bytes' with
  | nil =>
    have hlen := congrArg length h
    rw [length_bytesBits, length_bytesBits, length_nil] at hlen
    exact (eq_nil_of_length_eq_zero (by omega)).symm
  | cons b bytes ih =>
    cases bytes' with
    | nil =>
      have hlen := congrArg length h
      rw [length_bytesBits, length_bytesBits, length_nil, length_cons] at hlen
      omega
    | cons b' bytes' =>
      rw [bytesBits_cons, bytesBits_cons] at h
      obtain ⟨hhead, htail⟩ := append_inj h (by rw [length_natBits, length_natBits])
      have hnat := congrArg bitsNat hhead
      rw [bitsNat_natBits, bitsNat_natBits, Nat.mod_eq_of_lt b.toNat_lt, Nat.mod_eq_of_lt b'.toNat_lt] at hnat
      rw [UInt8.toNat_inj.1 hnat, ih htail]

/-- The zeros that are missing to a whole byte. -/
def padding (bs : List Bool) : List Bool := replicate ((8 - bs.length % 8) % 8) false

/-- The bits with zeros behind them up to a whole byte. -/
def align (bs : List Bool) : List Bool := bs ++ padding bs

theorem align_bytesBits_append (bytes : List UInt8) (bs : List Bool) : align (bytesBits bytes ++ bs) = bytesBits bytes ++ align bs := by
  have hlen : (bytesBits bytes ++ bs).length % 8 = bs.length % 8 := by
    rw [length_append, length_bytesBits, Nat.mul_add_mod]
  rw [align, padding, hlen, append_assoc]
  rfl

/-- Zeros up to a whole byte are those that a byte or two have above the bits. -/
theorem align_eq_natBits {k : Nat} (hk : 8 ∣ k) (hle : bs.length ≤ k) (hlt : k < bs.length + 8) : align bs = natBits k (bitsNat bs) := by
  have hpad : (8 - bs.length % 8) % 8 = k - bs.length := by omega
  rw [natBits_bitsNat_of_le hle, align, padding, hpad]

theorem align_eq_self (h : 8 ∣ bs.length) : align bs = bs := by
  obtain ⟨n, hn⟩ := h
  rw [align, padding, hn, Nat.mul_mod_right]
  exact append_nil bs

/-- Bits as bytes. -/
def bitsBytes : List Bool → List UInt8
  | [] => []
  | b :: bs => UInt8.ofNat (bitsNat ((b :: bs).take 8)) :: bitsBytes ((b :: bs).drop 8)
termination_by bs => bs.length

theorem bitsBytes_of_ne_nil (h : bs ≠ []) : bitsBytes bs = UInt8.ofNat (bitsNat (bs.take 8)) :: bitsBytes (bs.drop 8) := by
  cases bs with
  | nil => exact absurd rfl h
  | cons b bs => rw [bitsBytes]

theorem natBits_byte (hlen : bs.length = 8) : natBits 8 (UInt8.ofNat (bitsNat bs)).toNat = bs := by
  have hlt := bitsNat_lt bs
  rw [hlen] at hlt
  have hbyte : (UInt8.ofNat (bitsNat bs)).toNat = bitsNat bs := Nat.mod_eq_of_lt hlt
  rw [hbyte]
  conv_lhs => rw [← hlen]
  exact natBits_bitsNat bs

/-- Whole bytes. -/
theorem bytesBits_bitsBytes (h : 8 ∣ bs.length) : bytesBits (bitsBytes bs) = bs := by
  obtain ⟨n, hn⟩ := h
  induction n generalizing bs with
  | zero => rw [eq_nil_of_length_eq_zero hn, bitsBytes, bytesBits_nil]
  | succ n ih =>
    have htake : (bs.take 8).length = 8 := by rw [length_take]; omega
    rw [bitsBytes_of_ne_nil (by rintro rfl; simp at hn), bytesBits_cons, natBits_byte htake, ih (by rw [length_drop]; omega),
      take_append_drop]

/-- Bits as bytes, with zeros behind them. -/
def packed (bs : List Bool) : List UInt8 := bitsBytes (align bs)

theorem dvd_length_align (bs : List Bool) : 8 ∣ (align bs).length := by
  rw [align, length_append, padding, length_replicate]
  omega

@[simp] theorem bytesBits_packed (bs : List Bool) : bytesBits (packed bs) = align bs := bytesBits_bitsBytes (dvd_length_align bs)

theorem packed_eq {bytes : List UInt8} (h : align bs = bytesBits bytes) : packed bs = bytes :=
  bytesBits_inj ((bytesBits_packed bs).trans h)

end MgStd.Lib
