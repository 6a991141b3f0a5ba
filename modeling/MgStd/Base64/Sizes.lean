import MgStd.Base64.Access
/-!
# Sizes

Both functions ask for the memory that they write at most, whatever the input is.
-/

namespace MgStd.Base64

open MgStd.Lib List

variable {s a b : List UInt8} {x : UInt8} {bits : Nat}

/-- `rlen` of `mg_encode_base64`, in `size_t`. -/
def encodedSize (len : UInt64) : UInt64 :=
  let rlen := (len + 2) / 3 * 4 + 1
  if rlen ≠ 0 then rlen + ((rlen - 1) / 76 + 1) * 1 else rlen

/-- The same without a limit. -/
def exactSize (len : Nat) : Nat := (len + 2) / 3 * 4 + 1 + ((len + 2) / 3 * 4 / 76 + 1)

/-- No line is longer than 76 characters: between newlines there are at most as many. -/
def ShortLines (text : List UInt8) : Prop := ∀ s, s <:+: text → 10 ∉ s → s.length ≤ 76

theorem toNat_encodedSize {len : UInt64} (h : exactSize len.toNat < 2 ^ 64) : (encodedSize len).toNat = exactSize len.toNat := by
  unfold exactSize at h
  have hadd : (len + 2).toNat = len.toNat + 2 := by
    rw [UInt64.toNat_add, show (2 : UInt64).toNat = 2 from rfl]
    omega
  have hrlen : ((len + 2) / 3 * 4 + 1).toNat = (len.toNat + 2) / 3 * 4 + 1 := by
    rw [UInt64.toNat_add, UInt64.toNat_mul, UInt64.toNat_div, hadd, show (3 : UInt64).toNat = 3 from rfl,
      show (4 : UInt64).toNat = 4 from rfl, show (1 : UInt64).toNat = 1 from rfl]
    omega
  have hne : (len + 2) / 3 * 4 + 1 ≠ 0 := by
    intro h0
    rw [h0] at hrlen
    exact absurd hrlen.symm (Nat.succ_ne_zero _)
  have hpred : ((len + 2) / 3 * 4 + 1 - 1).toNat = (len.toNat + 2) / 3 * 4 := by
    rw [UInt64.toNat_sub_of_le _ _ (by rw [UInt64.le_iff_toNat_le, hrlen]; exact Nat.le_add_left 1 _), hrlen]
    rfl
  have hlines : ((((len + 2) / 3 * 4 + 1 - 1) / 76 + 1) * 1).toNat = (len.toNat + 2) / 3 * 4 / 76 + 1 := by
    rw [UInt64.mul_one, UInt64.toNat_add, UInt64.toNat_div, hpred, show (76 : UInt64).toNat = 76 from rfl,
      show (1 : UInt64).toNat = 1 from rfl]
    omega
  unfold encodedSize exactSize
  dsimp only
  rw [if_pos hne, UInt64.toNat_add, hrlen, hlines]
  omega

/-! ## The text -/

theorem length_encodeWith (bits : Nat) : ∀ x : List UInt8, (encodeWith bits x).length = (x.length + 2) / 3 * 4
  | [] => rfl
  | [_] => by simp [encodeWith]
  | [_, _] => by simp [encodeWith]
  | _ :: _ :: _ :: x => by
    simp only [encodeWith, cons_append, nil_append, length_cons, length_encodeWith bits x]
    omega

theorem length_lines_le (s : List UInt8) : (lines s).length ≤ s.length + (s.length / 76 + 1) := by
  have heol : eol.length = 1 := rfl
  induction s using lines.induct with
  | case1 s hs =>
    rw [lines_short hs, length_append, heol]
    omega
  | case2 s hs ih =>
    rw [lines, if_neg hs, length_append, length_append, heol, length_take]
    rw [length_drop] at ih
    omega

/-- A piece without `x` lies on one side of it. -/
theorem infix_of_notMem (h : s <:+: a ++ x :: b) (hx : x ∉ s) : s <:+: a ∨ s <:+: b := by
  obtain ⟨p, q, hpq⟩ := h
  rcases append_eq_append_iff.1 hpq with ⟨c, ha, -⟩ | ⟨c, hps, hxb⟩
  · exact .inl ⟨p, c, ha.symm⟩
  · rcases append_eq_append_iff.1 hps with ⟨d, hd, hs⟩ | ⟨d, hp, hc⟩
    · cases c with
      | nil =>
        rw [append_nil] at hs
        exact .inl ⟨p, [], by rw [append_nil, hd, hs]⟩
      | cons y c =>
        cases hxb
        exact absurd (hs ▸ mem_append_right d mem_cons_self) hx
    · cases d with
      | nil =>
        rw [nil_append] at hc
        cases c with
        | nil =>
          rw [← hc]
          exact .inl nil_infix
        | cons y c =>
          cases hxb
          exact absurd (hc ▸ mem_cons_self) hx
      | cons y d =>
        rw [hc, cons_append] at hxb
        cases hxb
        exact .inr ⟨d, q, rfl⟩

theorem shortLines_lines (s : List UInt8) : ShortLines (lines s) := by
  intro piece hpiece hnl
  induction s using lines.induct with
  | case1 s hs =>
    rw [lines_short hs] at hpiece
    rcases infix_of_notMem hpiece hnl with h | h
    · exact h.length_le.trans hs
    · exact h.length_le.trans (Nat.zero_le _)
  | case2 s hs ih =>
    rw [lines, if_neg hs, append_assoc] at hpiece
    rcases infix_of_notMem hpiece hnl with h | h
    · exact h.length_le.trans (length_take_le 76 s)
    · exact ih h

/-- The encoder writes at most `rlen` bytes, in lines of at most 76 characters, and gives their number without the NUL; the decoder
writes at most `rlen` bytes, whatever lies in front of its table. -/
theorem mg_base64_sizes :
    (∀ (str : Nat → UInt8) (len : UInt64), exactSize len.toNat < 2 ^ 64 → ∃ e, mgEncodeBase64 str len.toNat = .ok e ∧
      e.rlen = (encodedSize len).toNat ∧ e.result.length ≤ e.rlen ∧ ShortLines (cString e.result) ∧
      e.rindex = (cString e.result).length) ∧
    ∀ (table : Int → UInt8) (str : List UInt8), ∃ accesses d, mgDecodeBase64In table str = .ok (accesses, d) ∧
      d.rlen = (cString str).length * 3 / 4 + 1 ∧ d.result.length ≤ d.rlen := by
  constructor
  · intro str len hlen
    have hx : Holds str 0 ((range len.toNat).map str) := by
      intro j hj
      rw [getElem_map, getElem_range, Nat.zero_add]
    have hlength : ((range len.toNat).map str).length = len.toNat := by rw [length_map, length_range]
    have hbits : (str len.toNat).toNat / 16 < 16 := by
      have := (str len.toNat).toNat_lt
      omega
    have henc := mgEncodeBase64_eq hx
    rw [hlength] at henc
    refine ⟨_, henc, ?_⟩
    dsimp only
    rw [cString_text hbits, toNat_encodedSize hlen]
    refine ⟨rfl, ?_, shortLines_lines _, rfl⟩
    have hlines := length_lines_le (encodeWith ((str len.toNat).toNat / 16) ((range len.toNat).map str))
    rw [length_encodeWith, hlength] at hlines
    rw [length_append, length_singleton, show MAX_LINE = 76 from rfl]
    omega
  · intro table str
    obtain ⟨accesses, d, hd, hrlen, hle, -⟩ := mgDecodeBase64In_eq table str
    exact ⟨accesses, d, hd, hrlen, hle⟩

/-- 58 bytes: the text has 80 characters in two lines, and 83 bytes in all. -/
theorem mg_base64_sizes_two_lines : ∃ e, mgEncodeBase64 (fun _ => 65) 58 = .ok e ∧ e.rlen = (encodedSize 58).toNat ∧
    e.result.length ≤ e.rlen ∧ ShortLines (cString e.result) ∧ e.rindex = (cString e.result).length :=
  mg_base64_sizes.1 (fun _ => 65) 58 (by decide)

end MgStd.Base64
