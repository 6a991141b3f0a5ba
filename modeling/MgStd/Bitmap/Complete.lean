import MgStd.Bitmap.Scan
/-!
# The scan finds what is free

Over any contents of the map: the answer is the first number in the cyclic order
whose bit is clear, and no bit but its own changes.
-/

namespace MgStd.Bitmap

open MgStd.Lib

variable {len : Nat} {bm bm' : Mgbitmap len} {n r fuel : Nat}

/-- The numbers strictly between `min` and `max` in cyclic order, from the one behind `last` on. -/
def Mgbitmap.scanOrder (bm : Mgbitmap len) : List Nat :=
  List.range' (bm.last + 1) (bm.max - 1 - bm.last) ++ List.range' (bm.min + 1) (bm.last - bm.min)

/-- `bm'` is `bm` with `n` handed out: one bit of one word is set, and `last` is `n`. -/
structure Taken (bm : Mgbitmap len) (n : Nat) (bm' : Mgbitmap len) : Prop where
  last : bm'.last = n
  min : bm'.min = bm.min
  max : bm'.max = bm.max
  map : ∀ (i : Fin len) (j : Nat), j < 16 →
    (bm'.map i).getLsbD j = if i.val = wordOf n ∧ j = n % 16 then true else (bm.map i).getLsbD j

theorem Scanning.scanOrder_eq (h : Scanning bm) :
    bm.scanOrder = (List.range (bm.max - bm.min - 1)).map fun j => bm.tried (j + 1) := by
  have hl := h.low
  have hh := h.high
  unfold Mgbitmap.scanOrder
  apply List.ext_getElem
  · rw [List.length_append, List.length_range', List.length_range', List.length_map, List.length_range]
    omega
  · intro j h₁ h₂
    rw [List.length_map, List.length_range] at h₂
    rw [List.getElem_append, List.getElem_map, List.getElem_range]
    unfold Mgbitmap.tried
    split
    · next hfirst =>
      rw [List.length_range'] at hfirst
      rw [List.getElem_range', Nat.mod_eq_of_lt (by omega)]
      omega
    · next hwrap =>
      -- behind the end of the range
      rw [List.length_range'] at hwrap
      have hround : bm.last + (j + 1) - bm.min - 1 =
          j - (bm.max - 1 - bm.last) + (bm.max - bm.min - 1) := by omega
      rw [List.getElem_range', List.length_range', hround, Nat.add_mod_right, Nat.mod_eq_of_lt (by omega)]
      omega

theorem Scanning.mem_scanOrder (h : Scanning bm) : n ∈ bm.scanOrder ↔ bm.Between n := by
  have hl := h.low
  have hh := h.high
  unfold Mgbitmap.scanOrder Mgbitmap.Between
  rw [List.mem_append, List.mem_range'_1, List.mem_range'_1]
  omega

theorem ensures_testAndSetBit_map : Ensures (testAndSetBit n) bm fun r bm' => r = true → Taken bm n { bm' with last := n } := by
  unfold testAndSetBit readWord writeWord
  by_cases hn : wordOf n < len
  · simp only [hn, dite_true, ensures_bind, ensures_get, ensures_pure, ensures_ite, ensures_modify]
    refine ⟨fun _ h => absurd h Bool.false_ne_true, fun _ _ => ⟨rfl, rfl, rfl, fun i j hj => ?_⟩⟩
    by_cases hi : i = ⟨wordOf n, hn⟩
    · subst hi
      simp [getLsbD_maskOf hj, Bool.or_comm]
    · have hne : i.val ≠ wordOf n := fun e => hi (Fin.ext e)
      simp [hne, Function.update_of_ne hi]
  · simp [hn]

/-- A number that is handed out costs its own bit only. -/
theorem ensures_mgbitmapAlloc_taken :
    Ensures (mgbitmapAlloc fuel) bm fun r bm' => r = 0 ∨ r = bm.max ∨ Taken bm r bm' := by
  unfold mgbitmapAlloc
  rw [ensures_bind, ensures_get]
  refine ensures_loop (fun _ bm' => bm' = bm) ?_ fuel _ _ rfl
  rintro ⟨offset, count⟩ bm' rfl
  unfold allocRound
  simp only [ensures_bind, ensures_get, ensures_ite, ensures_modify, ensures_pure]
  refine ⟨fun h0 => .inl h0, fun _ => ⟨fun _ => .inr (.inl trivial), fun _ => ?_⟩⟩
  refine (ensures_testAndSetBit.and ensures_testAndSetBit_map).mono fun r bm₁ hr => ?_
  obtain ⟨⟨-, ⟨-, rfl, rfl⟩ | ⟨-, rfl, -⟩⟩, htaken⟩ := hr
  · exact ⟨fun h => absurd h Bool.false_ne_true, fun _ => rfl⟩
  · exact ⟨fun _ => .inr (.inr (htaken rfl)), fun hf => absurd rfl hf⟩

/-- What an allocation answers, by the first number of the scan whose bit is clear. -/
theorem Scanning.answer (h : Scanning bm) (ha : Allocated bm r bm') (ht : r = 0 ∨ r = bm.max ∨ Taken bm r bm') :
    match bm.scanOrder.find? fun n => !bm.bit n with
    | none => r = bm.max ∧ bm' = bm
    | some n => r = n ∧ Taken bm n bm' := by
  cases ha with
  | full hall =>
    have hnone : (bm.scanOrder.find? fun n => !bm.bit n) = none := by
      rw [List.find?_eq_none]
      intro n hn
      simp [hall n (h.mem_scanOrder.1 hn)]
    rw [hnone]
    exact ⟨rfl, rfl⟩
  | @found k _ bm₁ hk hbefore hclear hm hbm =>
    have hb := h.tried_between k
    -- no number is tried twice before all have been tried
    have hlt : k - 1 < bm.max - bm.min - 1 := by
      by_contra hge
      obtain ⟨j, hj, hjlt, heq⟩ := h.tried_all hb
      have hset := hbefore j hj (by omega)
      rw [heq, hclear] at hset
      cases hset
    have hsome : (bm.scanOrder.find? fun n => !bm.bit n) = some (bm.tried k) := by
      rw [h.scanOrder_eq, List.find?_map, List.find?_range_eq_some.2 ⟨?_, List.mem_range.2 hlt, ?_⟩]
      · rw [Option.map_some, Nat.sub_add_cancel hk]
      · simp [Nat.sub_add_cancel hk, hclear]
      · intro j hj
        simp [hbefore (j + 1) (by omega) (by omega)]
    rw [hsome]
    have hlo := hb.1
    have hhi := hb.2
    refine ⟨rfl, ?_⟩
    rcases ht with h0 | hmax | ht
    · omega
    · omega
    · exact ht

/-- Over any map with room for the numbers: the loop goes round at most `max - min` times. The answer is `max`, and
nothing changes, exactly when all bits are set; or it is the first number behind `last` whose bit is clear, and that
bit is set. -/
theorem mgbitmap_alloc_complete (bm : Mgbitmap len) (hpos : 1 ≤ bm.min) (hwide : 2 ≤ bm.max - bm.min)
    (hsmall : bm.max < 2 ^ 16) (hlow : bm.min ≤ bm.last) (hhigh : bm.last < bm.max)
    (hroom : ∀ n, bm.Between n → wordOf n < len) (hfuel : bm.max - bm.min < fuel) :
    (∀ n, n ∈ bm.scanOrder ↔ bm.Between n) ∧
    Returns (mgbitmapAlloc fuel) bm fun r bm' =>
      (r = bm.max ↔ ∀ n, bm.Between n → bm.bit n = true) ∧
      (match bm.scanOrder.find? fun n => !bm.bit n with
        | none => r = bm.max ∧ bm' = bm
        | some n => r = n ∧ Taken bm n bm') ∧
      bm.min ≤ bm'.last ∧ bm'.last < bm.max := by
  have h : Scanning bm := ⟨hpos, by omega, hsmall, hlow, hhigh, hroom⟩
  refine ⟨fun n => h.mem_scanOrder, ?_⟩
  refine ((returns_mgbitmapAlloc h hfuel).of_ensures ensures_mgbitmapAlloc_taken).mono ?_
  rintro r bm' ⟨ha, ht⟩
  have hanswer := h.answer ha ht
  refine ⟨?_, hanswer, ?_⟩
  · cases ha with
    | full hall => exact iff_of_true rfl hall
    | @found k _ bm₁ hk hbefore hclear hm hbm =>
      apply iff_of_false (Nat.ne_of_lt (h.tried_between k).2)
      intro hall
      rw [hall _ (h.tried_between k)] at hclear
      cases hclear
  · cases ha with
    | full hall => exact ⟨hlow, hhigh⟩
    | @found k _ bm₁ hk hbefore hclear hm hbm =>
      rw [hbm]
      exact ⟨Nat.le_of_lt (h.tried_between k).1, (h.tried_between k).2⟩

/-- Numbers from 1 to 4, with `last` at 2 and the bit of 3 set: the scan wraps and finds 2 again. -/
theorem mgbitmap_alloc_complete_wrap :
    Returns (mgbitmapAlloc 4) (⟨2, 1, 4, fun _ => 8⟩ : Mgbitmap 1) fun r bm' =>
      (r = 4 ↔ ∀ n, 1 < n ∧ n < 4 → (⟨2, 1, 4, fun _ => 8⟩ : Mgbitmap 1).bit n = true) ∧
        (r = 2 ∧ Taken (⟨2, 1, 4, fun _ => 8⟩ : Mgbitmap 1) 2 bm') ∧ 1 ≤ bm'.last ∧ bm'.last < 4 :=
  (mgbitmap_alloc_complete (⟨2, 1, 4, fun _ => 8⟩ : Mgbitmap 1) (by decide) (by decide) (by decide) (by decide) (by decide)
    (fun n hn => by have hlt : n < 4 := hn.2; rw [wordOf_eq]; omega) (by decide)).2

end MgStd.Bitmap
