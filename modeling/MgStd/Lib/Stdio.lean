import MgStd.Lib.Bytes
/-!
# Reading a file line by line

`fgets` on a file whose bytes are known, and a loop that hands the string in
the buffer on after each call. A string ends at its first NUL, so what stands
behind a NUL in a line is read and not handed on.
-/

namespace MgStd.Lib

open List

variable {σ : Type} {n size : Nat} {b : UInt8} {bs buf content line : List UInt8} {ls : List (List UInt8)}

/-- The bytes of one line: at most `n`, up to the first newline and with it. -/
def lineOf : Nat → List UInt8 → List UInt8
  | 0, _ => []
  | _ + 1, [] => []
  | n + 1, b :: content => b :: if b = 10 then [] else lineOf n content

/-- `fgets(buf, size, fp)`: the buffer, and what is left of the file. `none` is the NULL at its end. -/
def fgets (buf : List UInt8) (size : Nat) (content : List UInt8) : Option (List UInt8 × List UInt8) :=
  if content = [] then none
  else
    let line := lineOf (size - 1) content
    some (memcpy buf 0 (line ++ [0]), content.drop line.length)

theorem lineOf_append_drop : lineOf n content ++ content.drop (lineOf n content).length = content := by
  induction n generalizing content with
  | zero => rfl
  | succ n ih =>
    cases content with
    | nil => rfl
    | cons b content =>
      unfold lineOf
      split
      · rfl
      · rw [cons_append, length_cons, drop_succ_cons, ih]

theorem lineOf_ne_nil (hn : 0 < n) (hc : content ≠ []) : lineOf n content ≠ [] := by
  cases n with
  | zero => exact absurd hn (Nat.lt_irrefl 0)
  | succ n =>
    cases content with
    | nil => exact absurd rfl hc
    | cons b content => exact cons_ne_nil _ _

theorem length_lineOf_le : (lineOf n content).length ≤ n := by
  induction n generalizing content with
  | zero => exact Nat.le_refl 0
  | succ n ih =>
    cases content with
    | nil => exact Nat.zero_le _
    | cons b content =>
      unfold lineOf
      split
      · exact Nat.succ_le_succ (Nat.zero_le n)
      · exact Nat.succ_le_succ ih

/-- Less of the file is left. -/
theorem length_drop_lineOf (hn : 0 < n) (hc : content ≠ []) :
    (content.drop (lineOf n content).length).length < content.length := by
  have hline := length_pos_iff.2 (lineOf_ne_nil hn hc)
  have hpos := length_pos_iff.2 hc
  rw [length_drop]
  omega

theorem length_fgets {rest : List UInt8} (hsize : 1 < size) (h : fgets buf size content = some (bs, rest)) :
    rest.length < content.length := by
  unfold fgets at h
  split at h
  · cases h
  · next hc =>
    cases h
    exact length_drop_lineOf (Nat.sub_pos_of_lt hsize) hc

/-! ## Whole files -/

/-- The lines that one call after the other reads. A buffer of one byte has no room for any. -/
def lines (size : Nat) (content : List UInt8) : List (List UInt8) :=
  if h : content = [] ∨ size ≤ 1 then []
  else lineOf (size - 1) content :: lines size (content.drop (lineOf (size - 1) content).length)
termination_by content.length
decreasing_by
  obtain ⟨hc, hsize⟩ := not_or.1 h
  exact length_drop_lineOf (Nat.sub_pos_of_lt (Nat.lt_of_not_le hsize)) hc

@[simp] theorem lines_nil : lines size [] = [] := by
  rw [lines]
  exact dif_pos (.inl rfl)

theorem lines_of_ne_nil (hsize : 1 < size) (hc : content ≠ []) :
    lines size content = lineOf (size - 1) content :: lines size (content.drop (lineOf (size - 1) content).length) := by
  rw [lines, dif_neg (not_or.2 ⟨hc, Nat.not_le_of_lt hsize⟩)]

/-- Line by line, the whole file is read. -/
theorem flatten_lines (hsize : 1 < size) : (lines size content).flatten = content := by
  induction hlen : content.length using Nat.strongRecOn generalizing content with
  | _ len ih =>
    subst hlen
    by_cases hc : content = []
    · rw [hc, lines_nil, flatten_nil]
    · have hrest := ih _ (length_drop_lineOf (Nat.sub_pos_of_lt hsize) hc) rfl
      rw [lines_of_ne_nil hsize hc, flatten_cons, hrest, lineOf_append_drop]

/-- A line fits into the buffer, with its NUL. -/
theorem length_of_mem_lines (hsize : 1 < size) (h : line ∈ lines size content) : line.length < size := by
  induction hlen : content.length using Nat.strongRecOn generalizing content with
  | _ len ih =>
    subst hlen
    by_cases hc : content = []
    · rw [hc, lines_nil] at h
      exact absurd h not_mem_nil
    · rw [lines_of_ne_nil hsize hc] at h
      rcases mem_cons.1 h with rfl | hrest
      · have hle : (lineOf (size - 1) content).length ≤ size - 1 := length_lineOf_le
        omega
      · exact ih _ (length_drop_lineOf (Nat.sub_pos_of_lt hsize) hc) hrest rfl

/-! ## What is handed on -/

/-- A line in the buffer, with the NUL that `fgets` puts behind it. -/
theorem cString_line (buf line : List UInt8) : cString (memcpy buf 0 (line ++ [0])) = cString line := by
  unfold memcpy
  rw [take_zero, nil_append, append_assoc, singleton_append, cString_append_zero]

/-- Lines without a NUL are handed on as they are. -/
theorem map_cString_eq_self (h : 0 ∉ ls.flatten) : ls.map cString = ls := by
  rw [map_congr_left fun line hline => cString_eq_self fun hmem => h (mem_flatten_of_mem hline hmem), map_id']

/-- The bytes of the strings are those of the lines if and only if there is no NUL in the lines. -/
theorem flatten_cString_iff : (ls.map cString).flatten = ls.flatten ↔ 0 ∉ ls.flatten := by
  constructor
  · intro h hzero
    rw [← h] at hzero
    obtain ⟨s, hs, hmem⟩ := mem_flatten.1 hzero
    obtain ⟨line, -, rfl⟩ := mem_map.1 hs
    exact zero_notMem_cString hmem
  · intro hzero
    rw [map_cString_eq_self hzero]

end MgStd.Lib
