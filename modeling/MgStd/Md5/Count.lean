import Mathlib.Data.List.Induction
import MgStd.Md5.Code
/-!
# The bit count

`count` holds the number of bits in two words. An addition to the low word
that overflows has to be carried into the high one. The code looks for that by
comparing the new low word, which counts bits, with the number of bytes that
were added.
-/

namespace MgStd.Md5

open MgStd.Lib

variable {ctx : Ctx} {count : Word × Word} {total len : Nat} {pieces fed : List (List UInt8)} {piece xs : List UInt8}

/-- The count is that of `total` bytes. -/
def Counts (count : Word × Word) (total : Nat) : Prop := count.2.toNat * 2 ^ 32 + count.1.toNat = 8 * total % 2 ^ 64

/-- The low word overflows when `len` bytes come after `total` ones. -/
def Overflows (total len : Nat) : Prop := 2 ^ 29 ≤ total % 2 ^ 29 + len % 2 ^ 29

/-- The low word is below `len` afterwards. -/
def FallsBelow (total len : Nat) : Prop := 8 * ((total + len) % 2 ^ 29) < len

instance : Decidable (Counts count total) := inferInstanceAs (Decidable (_ = _))

/-! ## One addition -/

theorem toNat_addCount_low (count : Word × Word) (len : Nat) :
    (addCount count len).1.toNat = (count.1.toNat + 8 * len) % 2 ^ 32 := by
  unfold addCount
  simp only [BitVec.toNat_add, BitVec.toNat_shiftLeft, BitVec.toNat_ofNat, Nat.shiftLeft_eq]
  omega

theorem toNat_addCount_high (count : Word × Word) (hlen : len < 2 ^ 32) :
    (addCount count len).2.toNat =
      (count.2.toNat + (if (addCount count len).1.toNat < len then 1 else 0) + len / 2 ^ 29) % 2 ^ 32 := by
  have hword : (BitVec.ofNat 32 len).toNat = len := by rw [BitVec.toNat_ofNat, Nat.mod_eq_of_lt hlen]
  unfold addCount
  simp only [BitVec.lt_def, hword, BitVec.toNat_add, BitVec.toNat_ushiftRight, Nat.shiftRight_eq_div_pow]
  split
  · rw [BitVec.toNat_add, show (1 : Word).toNat = 1 from rfl, Nat.mod_add_mod]
  · rw [Nat.add_zero]

/-- The two words of a right count. -/
theorem counts_iff : Counts count total ↔ count.1.toNat = 8 * (total % 2 ^ 29) ∧ count.2.toNat = total / 2 ^ 29 % 2 ^ 32 := by
  have hc := count.1.isLt
  have hsplit : 8 * total % 2 ^ 64 = total / 2 ^ 29 % 2 ^ 32 * 2 ^ 32 + 8 * (total % 2 ^ 29) := by omega
  unfold Counts
  rw [hsplit]
  omega

theorem counts_unique {count' : Word × Word} (h : Counts count total) (h' : Counts count' total) : count = count' := by
  obtain ⟨hlow, hhigh⟩ := counts_iff.1 h
  obtain ⟨hlow', hhigh'⟩ := counts_iff.1 h'
  exact Prod.ext (BitVec.eq_of_toNat_eq (hlow.trans hlow'.symm)) (BitVec.eq_of_toNat_eq (hhigh.trans hhigh'.symm))

/-- The count stays right if it is carried exactly when it has to be. -/
theorem counts_addCount (h : Counts count total) (hlen : len < 2 ^ 32) :
    Counts (addCount count len) (total + len) ↔ (Overflows total len ↔ FallsBelow total len) := by
  obtain ⟨hlow, hhigh⟩ := counts_iff.1 h
  have hlow' : (addCount count len).1.toNat = 8 * ((total + len) % 2 ^ 29) := by
    rw [toNat_addCount_low, hlow]
    omega
  have hhigh' := toNat_addCount_high count hlen
  rw [hlow', hhigh] at hhigh'
  rw [counts_iff, hlow', hhigh']
  unfold Overflows FallsBelow
  clear hlow hhigh hlow' hhigh' h
  -- the high word is short of the right one by the carry that is due, less the one that was made
  split
  · next hbelow =>
    rw [iff_true_right hbelow]
    omega
  · next hbelow =>
    rw [iff_false_right hbelow]
    omega

/-! ## Runs -/

@[simp] theorem count_mgMD5Update : (mgMD5Update ctx xs).count = addCount ctx.count xs.length := by
  unfold mgMD5Update
  simp only
  split <;> rfl

theorem counts_init : Counts (mgMD5Init ctx).count 0 := counts_iff.2 ⟨rfl, rfl⟩

theorem count_foldl (ctx : Ctx) (pieces : List (List UInt8)) :
    (pieces.foldl mgMD5Update ctx).count = (pieces.map List.length).foldl addCount ctx.count := by
  induction pieces generalizing ctx with
  | nil => rfl
  | cons p pieces ih => rw [List.foldl_cons, ih, count_mgMD5Update, List.map_cons, List.foldl_cons]

/-- One more piece. -/
theorem counts_concat (h : Counts (fed.foldl mgMD5Update ctx).count fed.flatten.length) (hlen : piece.length < 2 ^ 32) :
    Counts ((fed ++ [piece]).foldl mgMD5Update ctx).count (fed ++ [piece]).flatten.length ↔
      (Overflows fed.flatten.length piece.length ↔ FallsBelow fed.flatten.length piece.length) := by
  rw [List.foldl_concat, count_mgMD5Update, List.flatten_concat, List.length_append]
  exact counts_addCount h hlen

theorem counts_of_steps (hlen : ∀ p ∈ pieces, p.length < 2 ^ 32)
    (hsteps : ∀ fed piece, fed ++ [piece] <+: pieces →
      (Overflows fed.flatten.length piece.length ↔ FallsBelow fed.flatten.length piece.length)) :
    ∀ fed, fed <+: pieces → Counts (fed.foldl mgMD5Update (mgMD5Init ctx)).count fed.flatten.length := by
  intro fed
  induction fed using List.reverseRecOn with
  | nil => exact fun _ => counts_init
  | append_singleton fed piece ih =>
    intro hpre
    have hmem : piece ∈ pieces := hpre.subset (List.mem_append_right fed (List.mem_singleton_self piece))
    have hbefore := ih ((List.prefix_append fed [piece]).trans hpre)
    exact (counts_concat hbefore (hlen piece hmem)).2 (hsteps fed piece hpre)

/-- In a run whose updates have less than 2 ^ 32 bytes, the count is right all the way if and only if it
is carried exactly by the updates that overflow the low word. -/
theorem mg_MD5Update_counts_iff (ctx : Ctx) (pieces : List (List UInt8)) (hlen : ∀ p ∈ pieces, p.length < 2 ^ 32) :
    (∀ fed, fed <+: pieces → Counts (fed.foldl mgMD5Update (mgMD5Init ctx)).count fed.flatten.length) ↔
      ∀ fed piece, fed ++ [piece] <+: pieces →
        (Overflows fed.flatten.length piece.length ↔ FallsBelow fed.flatten.length piece.length) := by
  constructor
  · intro h fed piece hpre
    have hmem : piece ∈ pieces := hpre.subset (List.mem_append_right fed (List.mem_singleton_self piece))
    have hbefore := h fed ((List.prefix_append fed [piece]).trans hpre)
    exact (counts_concat hbefore (hlen piece hmem)).1 (h _ hpre)
  · exact counts_of_steps hlen

/-- An update of 2 ^ 29 - 1 bytes and one of a single byte, which overflows the low word and leaves 0 in it. -/
theorem mg_MD5Update_counts_iff_two :
    (∀ p ∈ [List.replicate (2 ^ 29 - 1) (0 : UInt8), [4]], p.length < 2 ^ 32) ∧
      ∀ fed, fed <+: [List.replicate (2 ^ 29 - 1) 0, [4]] →
        Counts (fed.foldl mgMD5Update (mgMD5Init ⟨⟨0, 0, 0, 0⟩, (0, 0), []⟩)).count fed.flatten.length := by
  have hlen : ∀ p ∈ [List.replicate (2 ^ 29 - 1) (0 : UInt8), [4]], p.length < 2 ^ 32 := by
    simp only [List.forall_mem_cons, List.length_replicate]
    decide
  refine ⟨hlen, (mg_MD5Update_counts_iff _ _ hlen).2 ?_⟩
  intro fed piece hpre
  unfold Overflows FallsBelow
  cases fed with
  | nil =>
    obtain ⟨rfl, -⟩ := List.cons_prefix_cons.1 hpre
    rw [List.length_replicate]
    decide
  | cons first fed =>
    obtain ⟨rfl, htail : fed ++ [piece] <+: [[4]]⟩ := List.cons_prefix_cons.1 hpre
    cases fed with
    | nil =>
      obtain ⟨rfl, -⟩ := List.cons_prefix_cons.1 htail
      rw [List.flatten_singleton, List.length_replicate]
      decide
    | cons second fed =>
      have hnil : fed ++ [piece] <+: [] := (List.cons_prefix_cons.1 htail).2
      exact absurd (List.prefix_nil.1 hnil) (List.append_ne_nil_of_right_ne_nil fed (List.cons_ne_nil piece []))

/-- An update of 2 ^ 29 - 1 bytes and one of two: the low word goes from 2 ^ 32 - 8 to 8, which is not
below 2, and nothing is carried. -/
theorem mg_MD5Update_carry_lost :
    ¬ ∀ (ctx : Ctx) (pieces : List (List UInt8)), (∀ p ∈ pieces, p.length < 2 ^ 32) →
      Counts (pieces.foldl mgMD5Update (mgMD5Init ctx)).count pieces.flatten.length := by
  intro h
  have hcounts := h ⟨⟨0, 0, 0, 0⟩, (0, 0), []⟩ [List.replicate (2 ^ 29 - 1) 0, List.replicate 2 0]
    (by simp only [List.forall_mem_cons, List.length_replicate]; decide)
  rw [count_foldl, List.map_cons, List.map_cons, List.map_nil, List.flatten_cons, List.flatten_cons, List.flatten_nil,
    List.append_nil, List.length_append, List.length_replicate, List.length_replicate] at hcounts
  exact absurd hcounts (by decide)

/-! ## What the digest says -/

theorem put32bitLE_eq (value : Word) : put32bitLE value = leBytes 4 value.toNat := by
  unfold put32bitLE toByte
  simp only [BitVec.toNat_ushiftRight, Nat.shiftRight_eq_div_pow, leBytes, Nat.div_div_eq_div_mul]

/-- A right count is the length in bits, eight bytes of it. -/
theorem put64bitLE_of_counts (h : Counts count total) : put64bitLE count = leBytes 8 (8 * total) := by
  obtain ⟨hlow, hhigh⟩ := counts_iff.1 h
  have hlow' : count.1.toNat = 8 * total % 256 ^ 4 := by omega
  have hhigh' : count.2.toNat = 8 * total / 256 ^ 4 % 256 ^ 4 := by omega
  unfold put64bitLE
  rw [put32bitLE_eq, put32bitLE_eq, hlow', hhigh', leBytes_mod, leBytes_mod, ← leBytes_append]

/-- Below 2 ^ 29 bytes nothing overflows. -/
theorem counts_small (ctx : Ctx) (pieces : List (List UInt8)) (h : pieces.flatten.length < 2 ^ 29) :
    Counts (pieces.foldl mgMD5Update (mgMD5Init ctx)).count pieces.flatten.length := by
  have hpart : ∀ {fed : List (List UInt8)}, fed <+: pieces → fed.flatten.length ≤ pieces.flatten.length :=
    fun {_} hpre => by
      obtain ⟨more, rfl⟩ := hpre
      rw [List.flatten_append, List.length_append]
      omega
  refine counts_of_steps (fun p hp => ?_) (fun fed piece hpre => ?_) pieces List.prefix_rfl
  · have hle := (List.sublist_flatten_of_mem hp).length_le
    omega
  · have hle := hpart hpre
    rw [List.flatten_concat, List.length_append] at hle
    unfold Overflows FallsBelow
    omega

end MgStd.Md5
