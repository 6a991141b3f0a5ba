import Mathlib.Logic.Function.Iterate
/-!
# Cyclic redundancy checks

A register of `w` bits takes a message bit by bit and shifts down. A shift is
linear in exclusive or, so up to `w` bits of the message may go into the register
at once, and what the low bits of the register turn into may come from a table.
-/

namespace MgStd.Lib.Crc

variable {w k n : Nat} (poly : BitVec w)

/-- A one that falls out at the low end brings the polynomial in. -/
def shift (r : BitVec w) : BitVec w := if r.getLsbD 0 then r >>> 1 ^^^ poly else r >>> 1

/-- One bit of the message: it meets the bit that falls out. -/
def feed (r : BitVec w) (b : Bool) : BitVec w := if r.getLsbD 0 ^^ b then r >>> 1 ^^^ poly else r >>> 1

/-- The register after a message. -/
def serial (r : BitVec w) (message : List Bool) : BitVec w := message.foldl (feed poly) r

/-- The bits of a word, least significant bit first. -/
def bitsOf (x : BitVec k) : List Bool := (List.range k).map x.getLsbD

/-- The word with these bits, least significant bit first. -/
def ofBits : List Bool → BitVec w
  | [] => 0
  | b :: bs => (BitVec.ofBool b).setWidth w ^^^ ofBits bs <<< 1

/-! ## Words and their bits -/

theorem getLsbD_ofBits (bs : List Bool) (i : Nat) :
    (ofBits bs : BitVec w).getLsbD i = (decide (i < w) && bs.getD i false) := by
  induction bs generalizing i with
  | nil => simp [ofBits]
  | cons b bs ih =>
    cases i with
    | zero => simp [ofBits, ih]
    | succ i =>
      simp [ofBits, ih]
      grind

@[simp] theorem length_bitsOf (x : BitVec k) : (bitsOf x).length = k := by simp [bitsOf]

theorem ofBits_bitsOf (x : BitVec k) : (ofBits (bitsOf x) : BitVec w) = x.setWidth w := by
  apply BitVec.eq_of_getLsbD_eq
  intro i hi
  rw [getLsbD_ofBits, BitVec.getLsbD_setWidth]
  simp only [bitsOf, List.getD_eq_getElem?_getD, List.getElem?_map]
  by_cases h : i < k
  · simp [h]
  · simp [h, BitVec.getLsbD_of_ge x i (by omega)]

/-! ## Shifts -/

theorem shift_xor (x y : BitVec w) : shift poly (x ^^^ y) = shift poly x ^^^ shift poly y := by
  unfold shift
  rw [BitVec.getLsbD_xor, BitVec.ushiftRight_xor_distrib]
  have hcancel : ∀ a b : BitVec w, a ^^^ poly ^^^ (b ^^^ poly) = a ^^^ b := by
    intro a b
    rw [BitVec.xor_assoc, ← BitVec.xor_assoc poly, BitVec.xor_comm poly b, BitVec.xor_assoc b, BitVec.xor_self,
      BitVec.xor_zero]
  cases x.getLsbD 0 <;> cases y.getLsbD 0
  · rfl
  · simp only [Bool.false_xor, if_true, Bool.false_eq_true, if_false, BitVec.xor_assoc]
  · simp only [Bool.xor_false, if_true, Bool.false_eq_true, if_false]
    rw [BitVec.xor_assoc, BitVec.xor_comm _ poly, BitVec.xor_assoc]
  · simpa using (hcancel _ _).symm

theorem shifts_xor (x y : BitVec w) (n : Nat) : (shift poly)^[n] (x ^^^ y) = (shift poly)^[n] x ^^^ (shift poly)^[n] y := by
  induction n generalizing x y with
  | zero => rfl
  | succ n ih => rw [Function.iterate_succ_apply, shift_xor, ih]; rfl

/-- While no one falls out, a word only moves down. -/
theorem shifts_of_low {x : BitVec w} (hlow : ∀ i < n, x.getLsbD i = false) : (shift poly)^[n] x = x >>> n := by
  induction n with
  | zero => simp
  | succ n ih =>
    have hbit : (x >>> n).getLsbD 0 = false := by simpa using hlow n (by omega)
    rw [Function.iterate_succ_apply', ih fun i hi => hlow i (by omega), shift, hbit, BitVec.shiftRight_add]
    simp

/-- The low `k` bits of a register decide what `k` shifts bring in; the others move down. -/
theorem shifts_eq (x : BitVec w) (k : Nat) :
    (shift poly)^[k] x = x >>> k ^^^ (shift poly)^[k] ((x.setWidth k).setWidth w) := by
  have hsplit : x = (x ^^^ (x.setWidth k).setWidth w) ^^^ (x.setWidth k).setWidth w := by
    rw [BitVec.xor_assoc, BitVec.xor_self, BitVec.xor_zero]
  have hlow : ∀ i < k, (x ^^^ (x.setWidth k).setWidth w).getLsbD i = false := by
    intro i hi
    by_cases hiw : i < w
    · simp [hi, hiw]
    · exact BitVec.getLsbD_of_ge _ i (by omega)
  have hhigh : (x ^^^ (x.setWidth k).setWidth w) >>> k = x >>> k := by
    apply BitVec.eq_of_getLsbD_eq
    intro i hi
    simp
  calc (shift poly)^[k] x = (shift poly)^[k] ((x ^^^ (x.setWidth k).setWidth w) ^^^ (x.setWidth k).setWidth w) := by
        rw [← hsplit]
    _ = x >>> k ^^^ (shift poly)^[k] ((x.setWidth k).setWidth w) := by rw [shifts_xor, shifts_of_low poly hlow, hhigh]

/-! ## Messages -/

theorem feed_eq (hw : 0 < w) (r : BitVec w) (b : Bool) : feed poly r b = shift poly (r ^^^ (BitVec.ofBool b).setWidth w) := by
  have hshift : (r ^^^ (BitVec.ofBool b).setWidth w) >>> 1 = r >>> 1 := by
    apply BitVec.eq_of_getLsbD_eq
    intro i hi
    simp
  unfold feed shift
  rw [hshift, BitVec.getLsbD_xor]
  simp [hw]

/-- As many bits as fit may go into the register at once. -/
theorem serial_eq (r : BitVec w) (bs : List Bool) (hbs : bs.length ≤ w) :
    serial poly r bs = (shift poly)^[bs.length] (r ^^^ ofBits bs) := by
  induction bs generalizing r with
  | nil => simp [serial, ofBits]
  | cons b bs ih =>
    have hlen : bs.length < w := hbs
    have hmove : (ofBits bs : BitVec w) = shift poly (ofBits bs <<< 1) := by
      rw [show shift poly = (shift poly)^[1] from rfl, shifts_of_low]
      · apply BitVec.eq_of_getLsbD_eq
        intro i hi
        simp [getLsbD_ofBits]
        grind
      · simp
    calc serial poly r (b :: bs) = serial poly (feed poly r b) bs := rfl
      _ = (shift poly)^[bs.length] (feed poly r b ^^^ ofBits bs) := ih _ (Nat.le_of_lt hlen)
      _ = (shift poly)^[bs.length] (shift poly (r ^^^ ofBits (b :: bs))) := by
        rw [feed_eq poly (by omega), ofBits, ← BitVec.xor_assoc, shift_xor poly (_ ^^^ _), ← hmove]

theorem serial_append (r : BitVec w) (bs cs : List Bool) : serial poly r (bs ++ cs) = serial poly (serial poly r bs) cs :=
  List.foldl_append

/-- A word of the message, by a table of what `k` shifts make of `k` bits. -/
theorem serial_bitsOf (r : BitVec w) (x : BitVec k) (hk : k ≤ w) :
    serial poly r (bitsOf x) = r >>> k ^^^ (shift poly)^[k] (((r ^^^ x.setWidth w).setWidth k).setWidth w) := by
  rw [serial_eq poly r _ (by rwa [length_bitsOf]), length_bitsOf, ofBits_bitsOf, shifts_eq]
  congr 1
  apply BitVec.eq_of_getLsbD_eq
  intro i hi
  simp

/-! ## Bursts

Where the polynomial has a constant term, nothing that is in the register gets lost: two registers that
differ stay different, and a message of up to `w` bits can be read back from what it does.
-/

variable {poly}

theorem shift_injective (hpoly : poly.getLsbD (w - 1) = true) : Function.Injective (shift poly) := by
  have hzero : ∀ z : BitVec w, shift poly z = 0 → z = 0 := by
    intro z hz
    have hw : 0 < w := by
      rcases Nat.eq_zero_or_pos w with rfl | hw
      · simp at hpoly
      · exact hw
    have hbits : ∀ i < w, (shift poly z).getLsbD i = false := by
      intro i _
      rw [hz]
      exact BitVec.getLsbD_zero
    have hlow : z.getLsbD 0 = false := by
      -- else the constant term is left at the high end
      by_contra hone
      have htop := hbits (w - 1) (by omega)
      rw [shift, if_pos (eq_true_of_ne_false hone), BitVec.getLsbD_xor, BitVec.getLsbD_ushiftRight, hpoly] at htop
      rw [BitVec.getLsbD_of_ge z (1 + (w - 1)) (by omega)] at htop
      cases htop
    apply BitVec.eq_of_getLsbD_eq
    intro i hi
    rw [show (0 : BitVec w) = 0#w from rfl, BitVec.getLsbD_zero]
    cases i with
    | zero => exact hlow
    | succ i =>
      have hnext := hbits i (by omega)
      rw [shift, hlow, if_neg Bool.false_ne_true, BitVec.getLsbD_ushiftRight, Nat.add_comm] at hnext
      exact hnext
  intro x y hxy
  apply BitVec.xor_eq_zero_iff.1
  apply hzero
  rw [shift_xor, hxy, BitVec.xor_self]
  rfl

theorem serial_injective (hw : 0 < w) (hpoly : poly.getLsbD (w - 1) = true) (message : List Bool) :
    Function.Injective fun r => serial poly r message := by
  induction message with
  | nil => exact Function.injective_id
  | cons b bs ih =>
    intro r r' h
    have hfeed : feed poly r b = feed poly r' b := ih h
    rw [feed_eq poly hw, feed_eq poly hw] at hfeed
    exact (BitVec.xor_left_inj _).1 (shift_injective hpoly hfeed)

theorem ofBits_injective {bs cs : List Bool} (hlen : bs.length = cs.length) (hbs : bs.length ≤ w)
    (h : (ofBits bs : BitVec w) = ofBits cs) : bs = cs := by
  apply List.ext_getElem hlen
  intro i hi hi'
  have hbit := congrArg (fun x : BitVec w => x.getLsbD i) h
  have hiw : i < w := by omega
  simpa only [getLsbD_ofBits, hiw, decide_true, Bool.true_and, List.getD_eq_getElem?_getD, List.getElem?_eq_getElem hi,
    List.getElem?_eq_getElem hi', Option.getD_some] using hbit

/-- The messages differ within `k` consecutive places only. -/
def Burst (k : Nat) (as bs : List Bool) : Prop := ∃ p, ∀ i, as[i]? ≠ bs[i]? → p ≤ i ∧ i < p + k

theorem Burst.split {as bs : List Bool} (h : Burst k as bs) (hlen : as.length = bs.length) :
    ∃ pre xs ys post, as = pre ++ (xs ++ post) ∧ bs = pre ++ (ys ++ post) ∧ xs.length = ys.length ∧ xs.length ≤ k := by
  obtain ⟨p, h⟩ := h
  have hpre : as.take p = bs.take p := by
    apply List.ext_getElem?
    intro i
    rw [List.getElem?_take, List.getElem?_take]
    split
    · by_contra hne
      have hp := (h i hne).1
      omega
    · rfl
  have hpost : (as.drop p).drop k = (bs.drop p).drop k := by
    apply List.ext_getElem?
    intro i
    rw [List.drop_drop, List.drop_drop, List.getElem?_drop, List.getElem?_drop]
    by_contra hne
    have hp := (h _ hne).2
    omega
  refine ⟨as.take p, (as.drop p).take k, (bs.drop p).take k, (as.drop p).drop k, ?_, ?_, ?_, ?_⟩
  · rw [List.take_append_drop, List.take_append_drop]
  · rw [hpre, hpost, List.take_append_drop, List.take_append_drop]
  · rw [List.length_take, List.length_take, List.length_drop, List.length_drop, hlen]
  · exact List.length_take_le k _

/-- Two messages that differ in a burst of up to `w` bits leave different registers. -/
theorem serial_burst (hw : 0 < w) (hpoly : poly.getLsbD (w - 1) = true) (r : BitVec w) {as bs : List Bool} (h : Burst w as bs)
    (hlen : as.length = bs.length) (hne : as ≠ bs) : serial poly r as ≠ serial poly r bs := by
  obtain ⟨pre, xs, ys, post, rfl, rfl, hxy, hxs⟩ := h.split hlen
  intro heq
  simp only [serial_append] at heq
  have hpiece := serial_injective hw hpoly post heq
  rw [serial_eq poly _ xs hxs, serial_eq poly _ ys (by omega), ← hxy] at hpiece
  have hword := (shift_injective hpoly).iterate xs.length hpiece
  have hbits := ofBits_injective hxy hxs ((BitVec.xor_right_inj _).1 hword)
  exact hne (by rw [hbits])

end MgStd.Lib.Crc
