import MgStd.Bitmap.Bits
/-!
# The scan of mgbitmap_alloc

The scan starts behind `last`, tries the numbers strictly between `min` and
`max` in cyclic order (`tried`) and takes the first whose bit is clear; `count`
makes it stop when it has gone round once.
-/

namespace MgStd.Bitmap

open MgStd.Lib

variable {len : Nat} {bm bm' : Mgbitmap len} {n k offset count fuel : Nat}

/-- The number is strictly between `min` and `max`. -/
def Mgbitmap.Between (bm : Mgbitmap len) (n : Nat) : Prop := bm.min < n ∧ n < bm.max

/-- The `k`-th number that is tried. -/
def Mgbitmap.tried (bm : Mgbitmap len) (k : Nat) : Nat :=
  bm.min + 1 + (bm.last + k - bm.min - 1) % (bm.max - bm.min - 1)

/-- The state in which the scan works: there are numbers between `min` and `max`, and `last` is below `max`. -/
structure Scanning (bm : Mgbitmap len) : Prop where
  pos : 0 < bm.min
  wide : bm.min + 1 < bm.max
  small : bm.max < 2 ^ 16
  low : bm.min ≤ bm.last
  high : bm.last < bm.max
  room : ∀ n, bm.Between n → wordOf n < len

theorem Scanning.tried_between (h : Scanning bm) (k : Nat) : bm.Between (bm.tried k) := by
  have hw := h.wide
  have hlt := Nat.mod_lt (bm.last + k - bm.min - 1) (show bm.max - bm.min - 1 > 0 by omega)
  unfold Mgbitmap.Between Mgbitmap.tried
  omega

/-- One number further, or from the last one to the first. -/
theorem Scanning.tried_succ (h : Scanning bm) (hk : 0 < k) :
    bm.tried (k + 1) = if bm.tried k + 1 ≥ bm.max then bm.min + 1 else bm.tried k + 1 := by
  have hw := h.wide
  have hl := h.low
  unfold Mgbitmap.tried
  have hsucc : bm.last + (k + 1) - bm.min - 1 = bm.last + k - bm.min - 1 + 1 := by omega
  rw [hsucc, Nat.add_mod_eq_ite]
  by_cases h1 : bm.max - bm.min - 1 = 1
  · simp only [h1, Nat.mod_one]
    split <;> split <;> omega
  · have hone : 1 % (bm.max - bm.min - 1) = 1 := Nat.mod_eq_of_lt (by omega)
    have hlt := Nat.mod_lt (bm.last + k - bm.min - 1) (show bm.max - bm.min - 1 > 0 by omega)
    rw [hone]
    split <;> split <;> omega

theorem Scanning.tried_one (h : Scanning bm) :
    bm.tried 1 = if bm.last + 1 ≥ bm.max then bm.min + 1 else bm.last + 1 := by
  have hw := h.wide
  have hl := h.low
  have hh := h.high
  unfold Mgbitmap.tried
  split
  · have : bm.last + 1 - bm.min - 1 = bm.max - bm.min - 1 := by omega
    rw [this, Nat.mod_self]
  · rw [Nat.mod_eq_of_lt (by omega)]
    omega

/-- Once round, every number has been tried. -/
theorem Scanning.tried_all (h : Scanning bm) (hn : bm.Between n) :
    ∃ k, 0 < k ∧ k < bm.max - bm.min ∧ bm.tried k = n := by
  obtain ⟨hlo, hhi⟩ := hn
  have hw := h.wide
  have hl := h.low
  have hh := h.high
  by_cases hlast : bm.last < n
  · refine ⟨n - bm.last, by omega, by omega, ?_⟩
    unfold Mgbitmap.tried
    rw [Nat.mod_eq_of_lt (by omega)]
    omega
  · -- behind the end of the range
    refine ⟨n - bm.last + (bm.max - bm.min - 1) - (bm.last - n), by omega, by omega, ?_⟩
    unfold Mgbitmap.tried
    have : bm.last + (n - bm.last + (bm.max - bm.min - 1) - (bm.last - n)) - bm.min - 1 =
        (n - bm.min - 1) + (bm.max - bm.min - 1) := by omega
    rw [this, Nat.add_mod_right, Nat.mod_eq_of_lt (by omega)]
    omega

/-- The answer of `mgbitmap_alloc`: `max` when all bits are set, or the first number in the order of the scan whose
bit is clear. -/
inductive Allocated (bm : Mgbitmap len) : Nat → Mgbitmap len → Prop
  | full : (∀ n, bm.Between n → bm.bit n = true) → Allocated bm bm.max bm
  | found {k : Nat} {bm' bm₁ : Mgbitmap len} : 0 < k → (∀ j, 0 < j → j < k → bm.bit (bm.tried j) = true) →
      bm.bit (bm.tried k) = false → Marked bm (bm.tried k) true bm₁ → bm' = { bm₁ with last := bm.tried k } →
      Allocated bm (bm.tried k) bm'

/-- At the head of the loop: `count` numbers were tried, `offset` is the last of them. -/
structure Tried (bm : Mgbitmap len) (offset count : Nat) (bm' : Mgbitmap len) : Prop where
  same : bm' = bm
  le : count ≤ bm.max - bm.min
  offset : offset = if count = 0 then bm.last else bm.tried count
  taken : ∀ j, 0 < j → j ≤ count → bm.bit (bm.tried j) = true

theorem Scanning.next_eq (h : Scanning bm) (ht : Tried bm offset count bm') :
    (if u16 (offset + 1) ≥ bm.max then u16 (bm.min + 1) else u16 (offset + 1)) = bm.tried (count + 1) := by
  have hw := h.wide
  have hs := h.small
  have hmin : u16 (bm.min + 1) = bm.min + 1 := Nat.mod_eq_of_lt (by omega)
  have hoff : offset < bm.max := by
    rw [ht.offset]
    split
    · exact h.high
    · exact (h.tried_between _).2
  have hnext : u16 (offset + 1) = offset + 1 := Nat.mod_eq_of_lt (by omega)
  rw [hmin, hnext]
  by_cases hc : count = 0
  · have hlast : offset = bm.last := by rw [ht.offset, if_pos hc]
    rw [hc, Nat.zero_add, h.tried_one, hlast]
  · have hlast : offset = bm.tried count := by rw [ht.offset, if_neg hc]
    rw [h.tried_succ (by omega), hlast]

/-- One round either ends the scan with its answer, or has tried one number more. -/
theorem returns_allocRound (h : Scanning bm) (ht : Tried bm offset count bm') :
    Returns (allocRound (offset, count)) bm' fun r bm₁ =>
      match r with
      | .inl (offset', count') => count < bm.max - bm.min ∧ count' = count + 1 ∧ Tried bm offset' count' bm₁
      | .inr a => Allocated bm a bm₁ := by
  obtain rfl := ht.same
  have hw := h.wide
  have hpos : offset ≠ 0 := by
    have hb := (h.tried_between count).1
    have hp := h.pos
    have hl := h.low
    rw [ht.offset]
    split <;> omega
  unfold allocRound
  simp only [returns_bind, returns_get, hpos, if_false, returns_ite, returns_pure, h.next_eq ht]
  refine ⟨fun hc => .full fun n hn => ?_, fun hc => ?_⟩
  · -- all have been tried
    obtain ⟨k, hk, hlt, rfl⟩ := h.tried_all hn
    exact ht.taken k hk (by omega)
  · have hle := ht.le
    refine (returns_testAndSetBit (h.room _ (h.tried_between _))).mono fun r bm₁ hr => ?_
    rcases hr with ⟨hbit, rfl, rfl⟩ | ⟨hbit, rfl, hm⟩
    · have hcount : u16 (count + 1) = count + 1 := Nat.mod_eq_of_lt (by have := h.small; omega)
      rw [hcount]
      refine ⟨fun h => absurd h Bool.false_ne_true, fun _ => ⟨by omega, rfl, rfl, by omega, by simp, fun j hj hjc => ?_⟩⟩
      rcases Nat.lt_or_ge j (count + 1) with hlt | hge
      · exact ht.taken j hj (by omega)
      · obtain rfl : j = count + 1 := by omega
        exact hbit
    · refine ⟨fun _ => ?_, fun hf => absurd rfl hf⟩
      exact (returns_modify _ _ _).2 (.found (Nat.succ_pos count) (fun j hj hjc => ht.taken j hj (by omega)) hbit hm rfl)

theorem returns_mgbitmapAlloc (h : Scanning bm) (hfuel : bm.max - bm.min < fuel) :
    Returns (mgbitmapAlloc fuel) bm (Allocated bm) := by
  unfold mgbitmapAlloc
  rw [returns_bind, returns_get]
  refine returns_loop (fun k (x : Nat × Nat) bm' => Tried bm x.1 x.2 bm' ∧ k = bm.max - bm.min - x.2) ?_ fuel
    (bm.max - bm.min) _ _ ⟨⟨rfl, Nat.zero_le _, rfl, fun j hj hj0 => by omega⟩, rfl⟩ hfuel
  rintro k ⟨offset, count⟩ bm' ⟨ht, rfl⟩
  refine (returns_allocRound h ht).mono fun r bm₁ hr => ?_
  cases r with
  | inl y =>
    obtain ⟨hlt, hc, ht'⟩ := hr
    exact ⟨bm.max - bm.min - y.2, by omega, ht', rfl⟩
  | inr a => exact hr

end MgStd.Bitmap
