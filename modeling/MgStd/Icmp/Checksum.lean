import MgStd.Lib.OnesComplement
import MgStd.Icmp.Code
/-!
# The checksum of the Internet

Up to 65537 words the sum fits in 32 bits. Folded twice, it is the one's
complement sum, so that a buffer that carries its own checksum sums up to all
ones.
-/

namespace MgStd.Icmp

open MgStd.Lib List

variable {data pre post : List UInt8} {ret : UInt32} {k s : Nat}

/-- The 16-bit words of a buffer, an odd last byte with a zero behind it. -/
def wordsOf : List UInt8 → List Nat
  | lo :: hi :: data => leNat [lo, hi] :: wordsOf data
  | [last] => [leNat [last, 0]]
  | [] => []

theorem word_le (lo hi : UInt8) : leNat [lo, hi] ≤ 0xFFFF := by
  have hlt := leNat_lt [lo, hi]
  rw [length_cons, length_singleton] at hlt
  omega

theorem wordsOf_le : ∀ {data : List UInt8}, ∀ w ∈ wordsOf data, w ≤ 0xFFFF
  | [], w, h => absurd h not_mem_nil
  | [last], w, h => by
    rw [mem_singleton.1 h]
    exact word_le last 0
  | lo :: hi :: data, w, h => by
    rcases mem_cons.1 h with rfl | h
    · exact word_le lo hi
    · exact wordsOf_le w h

/-- A word for every two bytes, and for the odd one. -/
theorem sum_wordsOf_le : ∀ data : List UInt8, (wordsOf data).sum ≤ (data.length + 1) / 2 * 0xFFFF
  | [] => Nat.le_refl 0
  | [last] => by
    have hword := word_le last 0
    simpa [wordsOf] using hword
  | lo :: hi :: data => by
    have hword := word_le lo hi
    have hrest := sum_wordsOf_le data
    rw [wordsOf, sum_cons, length_cons, length_cons]
    omega

/-- Behind a whole number of words. -/
theorem wordsOf_append : ∀ {k : Nat} {pre : List UInt8}, pre.length = 2 * k → wordsOf (pre ++ post) = wordsOf pre ++ wordsOf post
  | 0, [], _ => rfl
  | k + 1, lo :: hi :: pre, h => by
    rw [cons_append, cons_append, wordsOf, wordsOf, cons_append, wordsOf_append (k := k) (by simp at h; omega)]
  | k + 1, [_], h => by
    simp at h
    omega

/-! ## The accumulator -/

theorem toNat_checksumLoop : ∀ {data : List UInt8} {ret : UInt32}, ret.toNat + (wordsOf data).sum < 2 ^ 32 →
    (checksumLoop ret data).toNat = ret.toNat + (wordsOf data).sum
  | [], ret, _ => rfl
  | [last], ret, h => by
    have hword : leNat [last, 0] = last.toNat := rfl
    have hlast := last.toNat_lt
    rw [wordsOf, sum_singleton, hword] at h ⊢
    rw [checksumLoop, UInt32.toNat_add, UInt32.toNat_ofNat_of_lt' (by rw [UInt32.size]; omega), Nat.mod_eq_of_lt h]
  | lo :: hi :: data, ret, h => by
    have hword := word_le lo hi
    rw [wordsOf, sum_cons] at h ⊢
    have hadd : (ret + UInt32.ofNat (leNat [lo, hi])).toNat = ret.toNat + leNat [lo, hi] := by
      rw [UInt32.toNat_add, UInt32.toNat_ofNat_of_lt' (by rw [UInt32.size]; omega), Nat.mod_eq_of_lt (by omega)]
    rw [checksumLoop, toNat_checksumLoop (by rw [hadd]; omega), hadd, Nat.add_assoc]

/-- The accumulator for a buffer of at most 65537 words, started with zero. -/
theorem toNat_accumulator (h : data.length ≤ 131074) : (checksumLoop 0 data).toNat = (wordsOf data).sum := by
  have hsum := sum_wordsOf_le data
  rw [toNat_checksumLoop (by rw [UInt32.toNat_zero]; omega), UInt32.toNat_zero, Nat.zero_add]

/-! ## The result -/

/-- The result is the complement of the one's complement sum. -/
theorem toNat_checksum (h : data.length ≤ 131074) : (checksum data).toNat = 0xFFFF - onesSum 0xFFFF (wordsOf data) := by
  have hsum := sum_wordsOf_le data
  have hfold := foldCarry_twice (m := 0xFFFF) (s := (wordsOf data).sum) (by omega) (by decide)
  rw [(onesWord_onesSum wordsOf_le).unique hfold]
  unfold checksum foldCarry
  dsimp only
  have hacc := toNat_accumulator h
  generalize checksumLoop 0 data = ret at hacc
  have hshift : ∀ r : UInt32, (r >>> 16).toNat = r.toNat / 65536 := fun r => by
    rw [UInt32.toNat_shiftRight, Nat.shiftRight_eq_div_pow]
    rfl
  have hmask : (ret &&& 0xFFFF).toNat = ret.toNat % 65536 := by
    rw [UInt32.toNat_and]
    exact Nat.and_two_pow_sub_one_eq_mod ret.toNat 16
  have hone : ((ret >>> 16) + (ret &&& 0xFFFF)).toNat = ret.toNat / 65536 + ret.toNat % 65536 := by
    have hlt := ret.toNat_lt
    rw [UInt32.toNat_add, hshift, hmask]
    omega
  generalize (ret >>> 16) + (ret &&& 0xFFFF) = once at hone
  have htwo : (once + once >>> 16).toNat = once.toNat + once.toNat / 65536 := by
    have hlt := ret.toNat_lt
    rw [UInt32.toNat_add, hshift]
    omega
  have hsize : UInt32.size = 4294967296 := rfl
  rw [UInt32.toNat_toUInt16, UInt32.toNat_not, htwo, hone, hacc, hsize]
  omega

/-- A buffer that carries its checksum, in a word that was zero. -/
theorem checksum_carried (hpre : pre.length = 2 * k) (h : (pre ++ 0 :: 0 :: post).length ≤ 131074) :
    checksum (pre ++ (leBytes 2 (checksum (pre ++ 0 :: 0 :: post)).toNat ++ post)) = 0 := by
  obtain ⟨c, hc⟩ : ∃ c, checksum (pre ++ 0 :: 0 :: post) = c := ⟨_, rfl⟩
  have hnat := toNat_checksum h
  rw [hc] at hnat ⊢
  have hword : leNat (leBytes 2 c.toNat) = c.toNat := by
    rw [leNat_leBytes]
    exact Nat.mod_eq_of_lt c.toNat_lt
  have hzero : (wordsOf (pre ++ 0 :: 0 :: post)).sum = (wordsOf pre).sum + (wordsOf post).sum := by
    rw [wordsOf_append hpre, sum_append]
    exact congrArg _ (Nat.zero_add _)
  have hsum : (wordsOf (pre ++ (leBytes 2 c.toNat ++ post))).sum = (wordsOf pre).sum + (wordsOf post).sum + c.toNat := by
    rw [wordsOf_append hpre, sum_append, Nat.add_assoc, Nat.add_comm (wordsOf post).sum]
    exact congrArg (fun w => (wordsOf pre).sum + (w + (wordsOf post).sum)) hword
  have hlen : (pre ++ (leBytes 2 c.toNat ++ post)).length ≤ 131074 := by
    simp only [length_append, length_leBytes, length_cons] at h ⊢
    omega
  have hones : OnesWord 0xFFFF 0xFFFF (wordsOf (pre ++ (leBytes 2 c.toNat ++ post))).sum := by
    rw [hsum, ← hzero, hnat]
    exact onesWord_complement (onesWord_onesSum wordsOf_le) (by decide)
  apply UInt16.toNat_inj.1
  rw [toNat_checksum hlen, (onesWord_onesSum wordsOf_le).unique hones]
  rfl

/-! ## Packets -/

theorem length_bytes (t : Timeval) : t.bytes.length = 16 := by
  rw [Timeval.bytes, length_append, length_leBytes, length_leBytes]

/-- Identifier, sequence number, time, and zeros up to the end of the packet. -/
def body (getpid num : Int) (tval : Timeval) : List UInt8 :=
  leBytes 2 (uint16 getpid) ++ (leBytes 2 (uint16 num) ++ (tval.bytes ++ replicate 40 0))

theorem length_body (getpid num : Int) (tval : Timeval) : (body getpid num tval).length = 60 := by
  simp only [body, length_append, length_leBytes, length_bytes, length_replicate]

/-- Type, code and checksum in front. -/
def packet (type : UInt8) (getpid num : Int) (tval : Timeval) : List UInt8 :=
  [type, 0] ++ (leBytes 2 (checksum ([type, 0] ++ 0 :: 0 :: body getpid num tval)).toNat ++ body getpid num tval)

theorem length_packet (type : UInt8) (getpid num : Int) (tval : Timeval) : (packet type getpid num tval).length = 64 := by
  simp only [packet, length_append, length_leBytes, length_body, length_cons, length_nil]

theorem checksum_packet (type : UInt8) (getpid num : Int) (tval : Timeval) : checksum (packet type getpid num tval) = 0 := by
  have hlen : ([type, 0] ++ 0 :: 0 :: body getpid num tval).length ≤ 131074 := by
    simp [length_body]
  have hpre : [type, 0].length = 2 * 1 := rfl
  exact checksum_carried hpre hlen

/-- The fields are written one after the other into a block of zeros. -/
theorem fields_eq {ident seqNum time rest : List UInt8} (hid : ident.length = 2) (hseq : seqNum.length = 2) (htime : time.length = 16) :
    memcpy (memcpy (memcpy (memcpy (memcpy (memcpy
      ([0, 0] ++ ([0, 0] ++ ([0, 0] ++ ([0, 0] ++ (replicate 16 0 ++ rest)))))
      0 [ICMP_ECHO]) 1 [0]) 2 (leBytes 2 0)) 6 seqNum) 4 ident) 8 time =
    [ICMP_ECHO, 0] ++ ([0, 0] ++ (ident ++ (seqNum ++ (time ++ rest)))) := by
  have htype : ∀ x : List UInt8, memcpy (memcpy (memcpy ([0, 0] ++ ([0, 0] ++ x)) 0 [ICMP_ECHO]) 1 [0]) 2 (leBytes 2 0) =
      [ICMP_ECHO, 0] ++ ([0, 0] ++ x) := fun _ => rfl
  have hseqNum : ∀ x : List UInt8, memcpy ([ICMP_ECHO, 0] ++ ([0, 0] ++ ([0, 0] ++ ([0, 0] ++ x)))) 6 seqNum =
      [ICMP_ECHO, 0] ++ ([0, 0] ++ ([0, 0] ++ (seqNum ++ x))) := by
    intro x
    exact memcpy_over [ICMP_ECHO, 0, 0, 0, 0, 0] rfl hseq.symm
  have hident : ∀ x : List UInt8, memcpy ([ICMP_ECHO, 0] ++ ([0, 0] ++ ([0, 0] ++ x))) 4 ident =
      [ICMP_ECHO, 0] ++ ([0, 0] ++ (ident ++ x)) := by
    intro x
    exact memcpy_over [ICMP_ECHO, 0, 0, 0] rfl hid.symm
  rw [htype, hseqNum, hident]
  have hfront : ([ICMP_ECHO, 0] ++ ([0, 0] ++ (ident ++ seqNum))).length = 8 := by
    simp only [length_append, hid, hseq]
    rfl
  have hover : ∀ x : List UInt8, x.length = 16 → memcpy ([ICMP_ECHO, 0] ++ ([0, 0] ++ (ident ++ seqNum)) ++ (x ++ rest)) 8 time =
      [ICMP_ECHO, 0] ++ ([0, 0] ++ (ident ++ seqNum)) ++ (time ++ rest) :=
    fun x hx => memcpy_over _ hfront (hx.trans htime.symm)
  simpa only [append_assoc] using hover (replicate 16 0) length_replicate

theorem icmpPack_eq (getpid num : Int) (tval : Timeval) {buf : List UInt8} (h : 64 ≤ buf.length) :
    icmpPack getpid tval num buf = (64, packet ICMP_ECHO getpid num tval ++ replicate (buf.length - 64) 0) := by
  obtain ⟨n, hn⟩ := Nat.exists_eq_add_of_le h
  have hzeros : replicate buf.length (0 : UInt8) =
      [0, 0] ++ ([0, 0] ++ ([0, 0] ++ ([0, 0] ++ (replicate 16 0 ++ (replicate 40 0 ++ replicate n 0))))) := by
    rw [hn, show 64 + n = 8 + (16 + (40 + n)) by omega, replicate_add, replicate_add, replicate_add]
    rfl
  have hshort : ¬ buf.length < PACK_LEN + 8 := Nat.not_lt.2 h
  have hbody : ∀ x : List UInt8, leBytes 2 (uint16 getpid) ++ (leBytes 2 (uint16 num) ++ (tval.bytes ++ (replicate 40 0 ++ x))) =
      body getpid num tval ++ x := by
    intro x
    simp only [body, append_assoc]
  have htake : ([ICMP_ECHO, 0] ++ ([0, 0] ++ (body getpid num tval ++ replicate n 0))).take (PACK_LEN + 8) =
      [ICMP_ECHO, 0] ++ 0 :: 0 :: body getpid num tval := by
    have hlen : ([ICMP_ECHO, 0] ++ ([0, 0] ++ body getpid num tval)).length = PACK_LEN + 8 := by
      simp only [length_append, length_body]
      rfl
    exact (congrArg _ (append_assoc _ _ (replicate n 0)).symm).trans (take_left' hlen)
  have hcksum : ∀ c x : List UInt8, c.length = 2 → memcpy ([ICMP_ECHO, 0] ++ ([0, 0] ++ x)) 2 c = [ICMP_ECHO, 0] ++ (c ++ x) :=
    fun c x hc => memcpy_over [ICMP_ECHO, 0] rfl hc.symm
  unfold icmpPack
  rw [if_neg hshort, hzeros]
  dsimp only
  rw [fields_eq length_leBytes length_leBytes (length_bytes tval), hbody, htake, hcksum _ _ length_leBytes, hn, Nat.add_sub_cancel_left]
  simp only [packet, append_assoc]
  rfl

/-- The sum never wraps, and the result is the complement of the one's complement
sum. With the result stored in a word that was zero, the sum is all ones. -/
theorem checksum_ones_complement (h : data.length ≤ 131074) :
    (∀ i, (checksumLoop 0 (data.take i)).toNat = (wordsOf (data.take i)).sum) ∧
    (checksum data).toNat = 0xFFFF - onesSum 0xFFFF (wordsOf data) ∧
    (∀ {pre post : List UInt8} {k : Nat}, data = pre ++ ([0, 0] ++ post) → pre.length = 2 * k →
      checksum (memcpy data (2 * k) (leBytes 2 (checksum data).toNat)) = 0) ∧
    (∀ (getpid num : Int) (tval : Timeval) {buf : List UInt8}, 64 ≤ buf.length →
      (icmpPack getpid tval num buf).1 = 64 ∧ checksum ((icmpPack getpid tval num buf).2.take 64) = 0) := by
  refine ⟨fun i => ?_, toNat_checksum h, ?_, ?_⟩
  · apply toNat_accumulator
    rw [length_take]
    omega
  · rintro pre post k rfl hpre
    have hstore : ∀ c : List UInt8, c.length = 2 → memcpy (pre ++ ([0, 0] ++ post)) (2 * k) c = pre ++ (c ++ post) :=
      fun c hc => memcpy_over pre hpre hc.symm
    rw [hstore _ length_leBytes]
    exact checksum_carried hpre h
  · intro getpid num tval buf hbuf
    rw [icmpPack_eq getpid num tval hbuf]
    refine ⟨rfl, ?_⟩
    have htake : (packet ICMP_ECHO getpid num tval ++ replicate (buf.length - 64) 0).take 64 = packet ICMP_ECHO getpid num tval :=
      take_left' (length_packet ICMP_ECHO getpid num tval)
    rw [htake]
    exact checksum_packet ICMP_ECHO getpid num tval

/-- An odd length, with the result in the second word. -/
theorem checksum_ones_complement_odd :
    (checksum [1, 2, 0, 0, 7]).toNat = 0xFFFF - onesSum 0xFFFF (wordsOf [1, 2, 0, 0, 7]) ∧
    checksum (memcpy [1, 2, 0, 0, 7] (2 * 1) (leBytes 2 (checksum [1, 2, 0, 0, 7]).toNat)) = 0 := by
  have hlen : ([1, 2, 0, 0, 7] : List UInt8).length ≤ 131074 := by decide
  have hpre : ([1, 2] : List UInt8).length = 2 * 1 := rfl
  have hdata : ([1, 2, 0, 0, 7] : List UInt8) = [1, 2] ++ ([0, 0] ++ [7]) := rfl
  obtain ⟨_, hsum, hstore, _⟩ := checksum_ones_complement hlen
  exact ⟨hsum, hstore hdata hpre⟩

end MgStd.Icmp
