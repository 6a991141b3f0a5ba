import MgStd.FastSort.Sort
/-!
# The sort keeps to its range

`cmp` and `swap` are any that do what the header says. Guarded against all
elements outside of the range they never fault, unless the sort computes the
index behind the greatest `int`.
-/

namespace MgStd.FastSort

open MgStd.Lib

variable {V : Type} {cmp : Cmp (Arr V)} {swap : Swap (Arr V)} {f : V → V → Int} {ok : V → Prop} {len lo hi size : Int} {a : Arr V}
  {fuel : Nat}

/-- Behind the greatest `int` the index wraps, and the sort goes on before the start of the list. -/
theorem mgfastsort_keyLast (hc : TotalPreorder f) (hhi : hi = 2 ^ 31 - 1)
    (hbad : ∀ a, Ensures (cmp (offset hi len) (offset (-2 ^ 31) len)) a fun _ _ => False) : ∀ {lo : Int} {a : Arr V},
    KeyLast f hi lo a.elt → 0 ≤ lo → Sorting cmp swap f ok len lo hi size → a.size = size →
    (∀ k, lo ≤ k → k ≤ hi → ok (a.elt k)) → (hi - lo + 1).toNat < fuel →
    Ensures (mgfastsort (some cmp) (some swap) fuel lo hi len) a fun _ _ => False := by
  induction fuel with
  | zero => exact fun _ _ _ _ _ _ => ensures_fault _ _ _
  | succ fuel ih =>
    intro lo a hlast h0 h hs hok hf
    have hlt : lo < hi := by cases hlast <;> assumption
    rw [mgfastsort_succ fuel hlt, ensures_bind]
    refine (returns_place hc h hs hok hlt (by omega)).ensures.mono fun j b₂ hplace => ?_
    obtain ⟨hsize₂, hre₂, hj1, hj2, -, -, g, hparts, hg⟩ := hplace
    have hok₂ := hre₂.forall hok
    rw [ensures_bind, toInt_small (x := j - 1) (by omega) (by omega)]
    have hleft := returns_mgfastsort hc h0 (.inl (by omega)) (h.narrow (Int.le_refl lo) (by omega : j - 1 ≤ hi)) (hsize₂.trans hs)
      (fun k hk hkj => hok₂ k hk (by omega)) (show (j - 1 - lo + 1).toNat < fuel by omega)
    refine hleft.ensures.mono fun _ b₃ hb₃ => ?_
    obtain ⟨hsize₃, hre₃, -⟩ := hb₃
    have hok₃ := (hre₃.widen (Int.le_refl lo) (by omega : j - 1 ≤ hi)).forall hok₂
    by_cases hend : j = hi
    · have hwrap : toInt (j + 1) = -2 ^ 31 := by
        rw [hend, hhi]
        decide
      rw [hwrap]
      exact mgfastsort_fails (by omega) hbad fuel
    · rw [toInt_small (x := j + 1) (by omega) (by omega)]
      have hlast₃ : KeyLast f hi (j + 1) b₃.elt := by
        have hrest : KeyLast f hi (j + 1) (g ∘ Equiv.swap lo j) := by
          cases hlast with
          | here _ hparts' => exact absurd (hparts.unique hparts').1 hend
          | later _ hparts' _ hrest =>
            obtain ⟨rfl, rfl⟩ := hparts.unique hparts'
            exact hrest
        refine hrest.congr fun k hk hkh => ?_
        rw [← hg]
        exact hre₃.outside (.inr (by omega))
      exact ih hlast₃ (by omega) (h.narrow (by omega) (Int.le_refl hi)) (hsize₃.trans (hsize₂.trans hs))
        (fun k hk hkh => hok₃ k (by omega) hkh) (by omega)

/-! ## Any comparator and any exchange -/

/-- `cmp` compares the contents of the two elements whose addresses it is given. -/
def Compares (cmp : Cmp (Arr V)) (f : V → V → Int) (len size : Int) : Prop :=
  ∀ (a : Arr V) (i j : Int), a.size = size → 0 ≤ i → i < size → 0 ≤ j → j < size →
    Returns (cmp (i * len) (j * len)) a fun r b => r = f (a.elt i) (a.elt j) ∧ b = a

/-- `swap` exchanges two elements. -/
def Exchanges (swap : Swap (Arr V)) (size : Int) : Prop :=
  ∀ (a : Arr V) (i j : Int), a.size = size → 0 ≤ i → i < size → 0 ≤ j → j < size →
    Returns (swap i j) a fun _ b => b = { a with elt := a.elt ∘ Equiv.swap i j }

/-- `cmp` on the elements from `lo` to `hi`; to go to another place is a fault. -/
def cmpWithin (lo hi len : Int) (cmp : Cmp (Arr V)) : Cmp (Arr V) := fun p q =>
  if (lo * len ≤ p ∧ p ≤ hi * len ∧ p % len = 0) ∧ lo * len ≤ q ∧ q ≤ hi * len ∧ q % len = 0 then cmp p q else fault .bounds

/-- `swap` on the elements from `lo` to `hi`. -/
def swapWithin (lo hi : Int) (swap : Swap (Arr V)) : Swap (Arr V) := fun i j =>
  if (lo ≤ i ∧ i ≤ hi) ∧ lo ≤ j ∧ j ≤ hi then swap i j else fault .bounds

theorem offset_eq {i : Int} (hlen : 0 < len) (h0 : 0 ≤ i) (hi' : i ≤ hi) (hfit : hi * len < 2 ^ 31) : offset i len = i * len := by
  have hpos : 0 ≤ i * len := Int.mul_nonneg h0 (Int.le_of_lt hlen)
  have hle : i * len ≤ hi * len := Int.mul_le_mul_of_nonneg_right hi' (Int.le_of_lt hlen)
  exact toInt_small (by omega) (by omega)

theorem sorting_of_specs (hcmp : Compares cmp f len size) (hswap : Exchanges swap size) (hlen : 0 < len) (h0 : 0 ≤ lo)
    (hin : hi < size) (hfit : hi * len < 2 ^ 31) : Sorting cmp swap f (fun _ => True) len lo hi size where
  cmp a i j hs hi hi' hj hj' _ _ := by
    rw [offset_eq hlen (by omega) hi' hfit, offset_eq hlen (by omega) hj' hfit]
    exact hcmp a i j hs (by omega) (by omega) (by omega) (by omega)
  swap a i j hs hi hi' hj hj' := hswap a i j hs (by omega) (by omega) (by omega) (by omega)

theorem offset_within {i : Int} (hlen : 0 < len) (h0 : 0 ≤ lo) (hlo : lo ≤ i) (hi' : i ≤ hi) (hfit : hi * len < 2 ^ 31) :
    lo * len ≤ offset i len ∧ offset i len ≤ hi * len ∧ offset i len % len = 0 := by
  rw [offset_eq hlen (by omega) hi' hfit]
  exact ⟨Int.mul_le_mul_of_nonneg_right hlo (Int.le_of_lt hlen), Int.mul_le_mul_of_nonneg_right hi' (Int.le_of_lt hlen),
    Int.mul_emod_left i len⟩

/-- The guards let the elements of the range through. -/
theorem Sorting.within (h : Sorting cmp swap f ok len lo hi size) (hlen : 0 < len) (h0 : 0 ≤ lo) (hfit : hi * len < 2 ^ 31) :
    Sorting (cmpWithin lo hi len cmp) (swapWithin lo hi swap) f ok len lo hi size where
  cmp a i j hs hi1 hi2 hj1 hj2 hin hjn := by
    unfold cmpWithin
    rw [if_pos ⟨offset_within hlen h0 hi1 hi2 hfit, offset_within hlen h0 hj1 hj2 hfit⟩]
    exact h.cmp a i j hs hi1 hi2 hj1 hj2 hin hjn
  swap a i j hs hi1 hi2 hj1 hj2 := by
    unfold swapWithin
    rw [if_pos ⟨⟨hi1, hi2⟩, hj1, hj2⟩]
    exact h.swap a i j hs hi1 hi2 hj1 hj2

/-- What the sort has to make of the elements from `lo` to `hi`. -/
structure RangeSorted (f : V → V → Int) (lo hi : Int) (a b : Arr V) : Prop where
  size : b.size = a.size
  elements : Permuted lo hi a.elt b.elt
  order : InOrder f lo hi b.elt
  others : ∀ k, k < lo ∨ hi < k → b.elt k = a.elt k

theorem returns_rangeSorted (hc : TotalPreorder f) (h0 : 0 ≤ lo) (hsafe : hi < 2 ^ 31 - 1 ∨ hi < 2 ^ 31 ∧ ¬ KeyLast f hi lo a.elt)
    (h : Sorting cmp swap f (fun _ => True) len lo hi a.size) (hf : (hi - lo + 1).toNat < fuel) :
    Returns (mgfastsort (some cmp) (some swap) fuel lo hi len) a fun _ b => RangeSorted f lo hi a b := by
  refine (returns_mgfastsort hc h0 hsafe h rfl (fun _ _ _ => trivial) hf).mono fun _ b hb => ?_
  obtain ⟨hsize, hre, hord⟩ := hb
  exact ⟨hsize, hre, hord, fun k hk => hre.outside hk⟩

/-- The sort orders the range, with any `cmp` and `swap`, and touches no element outside of it, exactly when the index behind
`hi` is an `int` or no key goes to `hi`. -/
theorem mgfastsort_within_iff (hc : TotalPreorder f) (hcmp : Compares cmp f len a.size) (hswap : Exchanges swap a.size)
    (hlen : 0 < len) (h0 : 0 ≤ lo) (hle : lo ≤ hi) (hin : hi < a.size) (hfit : hi * len < 2 ^ 31)
    (hf : (hi - lo + 1).toNat < fuel) :
    ((Returns (mgfastsort (some cmp) (some swap) fuel lo hi len) a fun _ b => RangeSorted f lo hi a b) ∧
      Returns (mgfastsort (some (cmpWithin lo hi len cmp)) (some (swapWithin lo hi swap)) fuel lo hi len) a fun _ b =>
        RangeSorted f lo hi a b) ↔
      hi < 2 ^ 31 - 1 ∨ ¬ KeyLast f hi lo a.elt := by
  have h := sorting_of_specs hcmp hswap hlen h0 hin hfit
  have hhi : hi < 2 ^ 31 := by
    have hmul : hi * 1 ≤ hi * len := Int.mul_le_mul_of_nonneg_left hlen (by omega)
    omega
  constructor
  · rintro ⟨-, hret⟩
    by_contra hbad
    rw [not_or, Classical.not_not] at hbad
    have hmax : hi = 2 ^ 31 - 1 := by omega
    -- the elements have one byte
    have hone : len = 1 := by
      rw [hmax] at hfit
      omega
    refine (mgfastsort_keyLast hc hmax (fun b => ?_) hbad.2 h0 (h.within hlen h0 hfit) rfl (fun _ _ _ => trivial) hf).not_returns _ hret
    have hbefore : offset (-2 ^ 31) len = -2 ^ 31 := by
      rw [hone]
      decide
    unfold cmpWithin
    rw [if_neg]
    · exact ensures_fault _ _ _
    · rintro ⟨-, hlo, -⟩
      rw [hbefore, hone] at hlo
      omega
  · intro hsafe
    have hsafe' := hsafe.imp_right fun hkey => And.intro hhi hkey
    exact ⟨returns_rangeSorted hc h0 hsafe' h hf, returns_rangeSorted hc h0 hsafe' (h.within hlen h0 hfit) hf⟩

/-! ## A list of numbers -/

/-- A comparator of the numbers at two addresses, for elements of `len` bytes. -/
def cmpElt (len : Int) : Cmp (Arr Int) := fun p q => do pure ((← eltAt len p) - (← eltAt len q))

def swapElt : Swap (Arr Int) := fun i j => do
  let tmp ← getElt i
  setElt i (← getElt j)
  setElt j tmp

theorem compares_cmpElt (hlen : 0 < len) : Compares (cmpElt len) (fun x y => x - y) len size := by
  intro a i j hs hi1 hi2 hj1 hj2
  have helt : ∀ k (Q : Int → Arr Int → Prop), 0 ≤ k → k < size → (Returns (eltAt len (k * len)) a Q ↔ Q (a.elt k) a) := by
    intro k Q hk hks
    have hdiv : k * len / len = k := Int.mul_ediv_cancel k (by omega)
    unfold eltAt
    rw [returns_bind, returns_get, hdiv, if_pos ⟨Int.mul_emod_left k len, hk, by omega⟩, returns_pure]
  unfold cmpElt
  rw [returns_bind, helt i _ hi1 hi2, returns_bind, helt j _ hj1 hj2, returns_pure]
  exact ⟨rfl, rfl⟩

theorem exchanges_swapElt : Exchanges swapElt size := by
  intro a i j hs hi1 hi2 hj1 hj2
  unfold swapElt
  rw [returns_bind, returns_getElt hi1 (by omega), returns_bind, returns_getElt hj1 (by omega), returns_bind,
    returns_setElt hi1 (by omega)]
  refine (returns_setElt (a := { a with elt := Function.update a.elt i (a.elt j) }) hj1 (by simp only; omega) _ _).2 ?_
  rw [Equiv.swap_comm, Equiv.comp_swap_eq_update]

/-- Ten numbers in elements of 16 bytes. -/
theorem mgfastsort_within_iff_ten :
    Returns (mgfastsort (some (cmpWithin 0 9 16 (cmpElt 16))) (some (swapWithin 0 9 swapElt)) 11 0 9 16)
      ⟨10, fun k => [12, 4, 5, 3, 8, 6, 9, 1, 7, 10].getD k.toNat 0⟩
      fun _ b => RangeSorted (fun x y => x - y) 0 9 ⟨10, fun k => [12, 4, 5, 3, 8, 6, 9, 1, 7, 10].getD k.toNat 0⟩ b :=
  ((mgfastsort_within_iff (.of_key id) (compares_cmpElt (by decide)) exchanges_swapElt (by decide) (by decide)
    (by decide) (by decide) (by decide) (show (9 - 0 + 1 : Int).toNat < 11 by decide)).2 (.inl (by decide))).2

/-- The `2 ^ 31` bytes of a list; the last two are 2 and 1. -/
def bytesDown : Arr Int := ⟨2 ^ 31, fun k => 2 ^ 31 - k⟩

/-- The greater one of the last two bytes goes to the place of the greatest `int`, and the next call is for the range from
`-2 ^ 31` on. -/
theorem mgfastsort_int_max :
    TotalPreorder (fun x y : Int => x - y) ∧ Compares (cmpElt 1) (fun x y => x - y) 1 bytesDown.size ∧
    Exchanges swapElt bytesDown.size ∧ (2 ^ 31 - 1 : Int) < bytesDown.size ∧ ∀ fuel : Nat, 2 < fuel →
      ¬ Returns (mgfastsort (some (cmpWithin (2 ^ 31 - 2) (2 ^ 31 - 1) 1 (cmpElt 1)))
        (some (swapWithin (2 ^ 31 - 2) (2 ^ 31 - 1) swapElt)) fuel (2 ^ 31 - 2) (2 ^ 31 - 1) 1) bytesDown fun _ b =>
          RangeSorted (fun x y => x - y) (2 ^ 31 - 2) (2 ^ 31 - 1) bytesDown b := by
  have hc : TotalPreorder fun x y : Int => x - y := .of_key id
  have hcmp : Compares (cmpElt 1) (fun x y => x - y) 1 bytesDown.size := compares_cmpElt (by decide)
  have hin : (2 ^ 31 - 1 : Int) < bytesDown.size := by decide
  refine ⟨hc, hcmp, exchanges_swapElt, hin, fun fuel hf => ?_⟩
  -- both scans stop at the last element
  have hlast : KeyLast (fun x y : Int => x - y) (2 ^ 31 - 1) (2 ^ 31 - 2) bytesDown.elt := by
    have hup : StopsUp (fun x y : Int => x - y) bytesDown.elt (2 ^ 31 - 2) (2 ^ 31 - 1) (2 ^ 31 - 2) (2 ^ 31 - 1) := by
      refine ⟨by decide, by decide, fun k hk hk' => ?_, fun hlt => absurd hlt (by decide)⟩
      obtain rfl : k = 2 ^ 31 - 2 := by omega
      decide
    exact .here (by decide) (.crossed (by decide) hup ⟨by decide, by decide, by omega, fun _ => by decide⟩ (by decide))
  have h := (sorting_of_specs hcmp exchanges_swapElt (by decide) (show 0 ≤ (2 ^ 31 - 2 : Int) by decide) hin (by decide)).within
    (by decide) (by decide) (by decide)
  refine (mgfastsort_keyLast hc rfl (fun b => ?_) hlast (by decide) h rfl (fun _ _ _ => trivial) (by omega)).not_returns _
  unfold cmpWithin
  rw [if_neg (by decide)]
  exact ensures_fault _ _ _

end MgStd.FastSort
