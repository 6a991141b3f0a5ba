import MgStd.FastSort.Code
import MgStd.Lib.Order
import MgStd.Lib.Rearrange
/-!
# What mgfastsort does

`Sorting` states what the sort may rely on: between `lo` and `hi`, `cmp` tells
how two elements compare, if they are `ok`, and `swap` exchanges two elements. The partition is two
scans towards each other; its invariant separates the elements passed from below
and those passed from above by the key, which stays in the first place.
-/

namespace MgStd.FastSort

open MgStd.Lib

variable {V : Type} {cmp : Cmp (Arr V)} {swap : Swap (Arr V)} {f : V → V → Int} {ok : V → Prop}
  {len lo hi i j size : Int} {a b : Arr V}

/-- `cmp` compares and `swap` exchanges the elements from `lo` to `hi`. -/
structure Sorting (cmp : Cmp (Arr V)) (swap : Swap (Arr V)) (f : V → V → Int) (ok : V → Prop) (len lo hi size : Int) :
    Prop where
  cmp : ∀ a i j, a.size = size → lo ≤ i → i ≤ hi → lo ≤ j → j ≤ hi → ok (a.elt i) → ok (a.elt j) →
    Returns (cmp (offset i len) (offset j len)) a fun r b => r = f (a.elt i) (a.elt j) ∧ b = a
  swap : ∀ a i j, a.size = size → lo ≤ i → i ≤ hi → lo ≤ j → j ≤ hi →
    Returns (swap i j) a fun _ b => b = { a with elt := a.elt ∘ Equiv.swap i j }

theorem Sorting.narrow (h : Sorting cmp swap f ok len lo hi size) {lo' hi' : Int} (hlo : lo ≤ lo') (hhi : hi' ≤ hi) :
    Sorting cmp swap f ok len lo' hi' size where
  cmp a i j hs hi hi' hj hj' := h.cmp a i j hs (by omega) (by omega) (by omega) (by omega)
  swap a i j hs hi hi' hj hj' := h.swap a i j hs (by omega) (by omega) (by omega) (by omega)

theorem toInt_small {x : Int} (h0 : -2 ^ 31 ≤ x) (h1 : x < 2 ^ 31) : toInt x = x := by
  unfold toInt
  rw [Int.bmod_def]
  omega

/-! ## The scans -/

/-- The first scan goes from `i` to `i'`. -/
structure StopsUp (f : V → V → Int) (g : Int → V) (lo hi i i' : Int) : Prop where
  ge : i ≤ i'
  le : i' ≤ hi
  passed : ∀ k, i ≤ k → k < i' → f (g k) (g lo) ≤ 0
  stop : i' < hi → 0 < f (g i') (g lo)

/-- The second scan goes from `j` to `j'`. -/
structure StopsDown (f : V → V → Int) (g : Int → V) (lo j j' : Int) : Prop where
  ge : lo ≤ j'
  le : j' ≤ j
  passed : ∀ k, j' < k → k ≤ j → 0 ≤ f (g k) (g lo)
  stop : lo < j' → f (g j') (g lo) < 0

theorem returns_up (h : Sorting cmp swap f ok len lo hi size) (hs : a.size = size)
    (hok : ∀ k, lo ≤ k → k ≤ hi → ok (a.elt k)) (hlo : lo ≤ i) (hi' : i ≤ hi) {fuel : Nat} (hf : hi - i < fuel) :
    Returns (loop (upRound cmp (offset lo len) hi len) fuel i) a fun r b => b = a ∧ StopsUp f a.elt lo hi i r := by
  -- the elements from `i` to `x` have been passed
  refine returns_loop (fun n x b => b = a ∧ n = (hi - x).toNat ∧ i ≤ x ∧ x ≤ hi ∧
    ∀ k, i ≤ k → k < x → f (a.elt k) (a.elt lo) ≤ 0) ?_ fuel (hi - i).toNat i a
    ⟨rfl, rfl, Int.le_refl i, hi', fun k _ _ => by omega⟩ (by omega)
  rintro n x b ⟨rfl, rfl, hix, hxh, hpast⟩
  unfold upRound
  rw [returns_ite]
  refine ⟨fun hlt => ?_, fun hge => ?_⟩
  · have hle := Int.le_trans hlo hix
    refine (h.cmp b x lo hs hle hxh (Int.le_refl lo) (by omega) (hok x hle hxh) (hok lo (Int.le_refl lo) (by omega))).bind fun r b' hr => ?_
    obtain ⟨rfl, rfl⟩ := hr
    rw [returns_ite, returns_pure, returns_pure]
    refine ⟨fun hle => ⟨_, by omega, rfl, rfl, by omega, by omega, fun k hk hkx => ?_⟩, fun hgt => ?_⟩
    · by_cases hkx' : k = x
      · exact hkx' ▸ hle
      · exact hpast k hk (by omega)
    · exact ⟨rfl, hix, hxh, hpast, fun _ => by omega⟩
  · rw [returns_pure]
    exact ⟨rfl, hix, hxh, hpast, fun hlt => absurd hlt hge⟩

theorem returns_down (h : Sorting cmp swap f ok len lo hi size) (hs : a.size = size)
    (hok : ∀ k, lo ≤ k → k ≤ hi → ok (a.elt k)) (hlo : lo ≤ j) (hj : j ≤ hi) {fuel : Nat} (hf : j - lo < fuel) :
    Returns (loop (downRound cmp (offset lo len) lo len) fuel j) a fun r b => b = a ∧ StopsDown f a.elt lo j r := by
  refine returns_loop (fun n x b => b = a ∧ n = (x - lo).toNat ∧ lo ≤ x ∧ x ≤ j ∧
    ∀ k, x < k → k ≤ j → 0 ≤ f (a.elt k) (a.elt lo)) ?_ fuel (j - lo).toNat j a
    ⟨rfl, rfl, hlo, Int.le_refl j, fun k _ _ => by omega⟩ (by omega)
  rintro n x b ⟨rfl, rfl, hlx, hxj, hpast⟩
  unfold downRound
  rw [returns_ite]
  refine ⟨fun hlt => ?_, fun hge => ?_⟩
  · have hxh := Int.le_trans hxj hj
    refine (h.cmp b x lo hs hlx hxh (Int.le_refl lo) (by omega) (hok x hlx hxh) (hok lo (Int.le_refl lo) (by omega))).bind fun r b' hr => ?_
    obtain ⟨rfl, rfl⟩ := hr
    rw [returns_ite, returns_pure, returns_pure]
    refine ⟨fun hle => ⟨_, by omega, rfl, rfl, by omega, by omega, fun k hk hkx => ?_⟩, fun hgt => ?_⟩
    · by_cases hkx' : k = x
      · exact hkx' ▸ hle
      · exact hpast k (by omega) hkx
    · exact ⟨rfl, hlx, hxj, hpast, fun _ => by omega⟩
  · rw [returns_pure]
    exact ⟨rfl, hlx, hxj, hpast, fun hlt => absurd hlt hge⟩

/-! ## The partition -/

/-- The outer loop goes from `i`, `j` and the elements `g` to the elements `g'`, and leaves with `p`. -/
inductive Parts (f : V → V → Int) (lo hi : Int) : Int → Int → (Int → V) → Int → (Int → V) → Prop
  | met {i j : Int} {g : Int → V} : ¬ i < j → Parts f lo hi i j g j g
  | crossed {i j i' j' : Int} {g : Int → V} : i < j → StopsUp f g lo hi i i' → StopsDown f g lo j j' → ¬ i' < j' →
      Parts f lo hi i j g j' g
  | swapped {i j i' j' p : Int} {g g' : Int → V} : i < j → StopsUp f g lo hi i i' → StopsDown f g lo j j' → i' < j' →
      Parts f lo hi i' j' (g ∘ Equiv.swap i' j') p g' → Parts f lo hi i j g p g'

/-- The outer loop came from `a` to `b`: what is before `i` is not greater than the key, what is behind `j` is not less, and
where the indices have met, or still will, stands an element that is not greater. -/
structure Parted (f : V → V → Int) (lo hi : Int) (a b : Arr V) (i j : Int) : Prop where
  size : b.size = a.size
  elts : Permuted lo hi a.elt b.elt
  left : lo ≤ i ∧ i ≤ hi
  right : lo ≤ j ∧ j ≤ hi
  low : ∀ k, lo ≤ k → k < i → f (b.elt k) (b.elt lo) ≤ 0
  high : ∀ k, j < k → k ≤ hi → 0 ≤ f (b.elt k) (b.elt lo)
  front : f (b.elt (min i j)) (b.elt lo) ≤ 0

theorem Parted.start (hc : TotalPreorder f) (hlt : lo < hi) : Parted f lo hi a a lo hi where
  size := rfl
  elts := .refl lo hi a.elt
  left := ⟨Int.le_refl lo, by omega⟩
  right := ⟨by omega, Int.le_refl hi⟩
  low k _ _ := by omega
  high k _ _ := by omega
  front := by
    rw [Int.min_eq_left (by omega)]
    exact Int.le_of_eq (hc.refl _)

/-- Both scans, and the exchange of what stopped them. -/
theorem Parted.round (hc : TotalPreorder f) (h : Sorting cmp swap f ok len lo hi size) (hs : a.size = size)
    (hok : ∀ k, lo ≤ k → k ≤ hi → ok (a.elt k)) (hp : Parted f lo hi a b i j) (hij : i < j) {fuel : Nat}
    (hf : hi - lo < fuel) :
    Returns (partRound cmp swap fuel lo hi len (i, j)) b fun r b' => ∃ i' j', r = .inl (i', j') ∧ j' - i' < j - i ∧
      Parted f lo hi a b' i' j' ∧ ∀ p g, Parts f lo hi i' j' b'.elt p g → Parts f lo hi i j b.elt p g := by
  have hl := hp.left
  have hr := hp.right
  have hsb := hp.size.trans hs
  have hokb := hp.elts.forall hok
  have hfront : f (b.elt i) (b.elt lo) ≤ 0 := by
    have := hp.front
    rwa [Int.min_eq_left (by omega)] at this
  unfold partRound
  simp only [hij, if_true]
  refine (returns_up h hsb hokb hl.1 hl.2 (by omega)).bind fun i' b₁ hup => ?_
  obtain ⟨rfl, hup⟩ := hup
  refine (returns_down h hsb hokb hr.1 hr.2 (by omega)).bind fun j' b₂ hdown => ?_
  obtain ⟨rfl, hdown⟩ := hdown
  obtain ⟨hi1, hi2, hpast, hstop⟩ := hup
  obtain ⟨hj1, hj2, hpast', hstop'⟩ := hdown
  -- the element at `i` does not stop the first scan
  have hmoved : i < i' := by
    by_contra hstay
    obtain rfl : i' = i := by omega
    have := hstop (by omega)
    omega
  have hlow : ∀ k, lo ≤ k → k < i' → f (b₂.elt k) (b₂.elt lo) ≤ 0 := by
    intro k hk hki
    by_cases hk' : k < i
    · exact hp.low k hk hk'
    · exact hpast k (by omega) hki
  have hhigh : ∀ k, j' < k → k ≤ hi → 0 ≤ f (b₂.elt k) (b₂.elt lo) := by
    intro k hk hkh
    by_cases hk' : j < k
    · exact hp.high k hk' hkh
    · exact hpast' k hk (by omega)
  have hless : f (b₂.elt j') (b₂.elt lo) ≤ 0 := by
    by_cases hj : j' = lo
    · exact hj ▸ Int.le_of_eq (hc.refl _)
    · exact Int.le_of_lt (hstop' (by omega))
  by_cases hcross : i' < j'
  · rw [if_pos hcross]
    refine (h.swap b₂ i' j' hsb (by omega) hi2 hj1 (by omega)).bind fun _ b₃ hb₃ => ?_
    subst hb₃
    rw [returns_pure]
    have hgreater := hstop (by omega)
    have hkeep : ∀ k, k ≠ i' → k ≠ j' → b₂.elt (Equiv.swap i' j' k) = b₂.elt k := fun k hk hk' => by
      rw [Equiv.swap_apply_of_ne_of_ne hk hk']
    refine ⟨i', j', rfl, by omega, ⟨hp.size, hp.elts.trans (permuted_swap ⟨by omega, hi2⟩ ⟨hj1, by omega⟩), ⟨by omega, hi2⟩,
      ⟨hj1, by omega⟩, fun k hk hki => ?_, fun k hk hkh => ?_, ?_⟩,
      fun p g => .swapped hij ⟨hi1, hi2, hpast, hstop⟩ ⟨hj1, hj2, hpast', hstop'⟩ hcross⟩
    · simp only [Function.comp_apply]
      rw [hkeep k (by omega) (by omega), hkeep lo (by omega) (by omega)]
      exact hlow k hk hki
    · simp only [Function.comp_apply]
      rw [hkeep k (by omega) (by omega), hkeep lo (by omega) (by omega)]
      exact hhigh k hk hkh
    · simp only [Function.comp_apply]
      rw [Int.min_eq_left (by omega), Equiv.swap_apply_left, hkeep lo (by omega) (by omega)]
      exact hless
  · rw [if_neg hcross, returns_pure]
    refine ⟨i', j', rfl, by omega, ⟨hp.size, hp.elts, ⟨by omega, hi2⟩, ⟨hj1, by omega⟩, hlow, hhigh, ?_⟩, fun p g hparts => ?_⟩
    · rwa [Int.min_eq_right (by omega)]
    · -- the loop is left in the next round
      cases hparts with
      | met _ => exact .crossed hij ⟨hi1, hi2, hpast, hstop⟩ ⟨hj1, hj2, hpast', hstop'⟩ hcross
      | crossed hlt => exact absurd hlt hcross
      | swapped hlt => exact absurd hlt hcross

theorem returns_part (hc : TotalPreorder f) (h : Sorting cmp swap f ok len lo hi size) (hs : a.size = size)
    (hok : ∀ k, lo ≤ k → k ≤ hi → ok (a.elt k)) (hlt : lo < hi) {fuel : Nat} (hf : hi - lo < fuel) :
    Returns (loop (partRound cmp swap fuel lo hi len) fuel (lo, hi)) a fun j b =>
      b.size = a.size ∧ Permuted lo hi a.elt b.elt ∧ lo ≤ j ∧ j ≤ hi ∧
      (∀ k, lo ≤ k → k ≤ j → f (b.elt k) (b.elt lo) ≤ 0) ∧ (∀ k, j < k → k ≤ hi → 0 ≤ f (b.elt k) (b.elt lo)) ∧
      Parts f lo hi lo hi a.elt j b.elt := by
  -- what the rest of the loop makes of the elements, the whole loop makes of those of `a`
  refine returns_loop (fun n x b => n = (x.2 - x.1).toNat ∧ Parted f lo hi a b x.1 x.2 ∧
    ∀ p g, Parts f lo hi x.1 x.2 b.elt p g → Parts f lo hi lo hi a.elt p g) ?_ fuel (hi - lo).toNat (lo, hi) a
    ⟨rfl, Parted.start hc hlt, fun _ _ hparts => hparts⟩ (by omega)
  rintro n ⟨i, j⟩ b ⟨rfl, hp, hback⟩
  by_cases hij : i < j
  · refine (hp.round hc h hs hok hij hf).mono fun r b' hr => ?_
    obtain ⟨i', j', rfl, hless, hp', hround⟩ := hr
    exact ⟨_, by dsimp only; omega, rfl, hp', fun p g hparts => hback p g (hround p g hparts)⟩
  · unfold partRound
    simp only [hij, if_false, returns_pure]
    refine ⟨hp.size, hp.elts, hp.right.1, hp.right.2, fun k hk hkj => ?_, hp.high, hback _ _ (.met hij)⟩
    by_cases hk' : k < i
    · exact hp.low k hk hk'
    · -- `k`, `i` and `j` are one index
      have hfront := hp.front
      rwa [Int.min_eq_right (by omega), show j = k by omega] at hfront

/-! ## Keys that go to the last place

Behind such a key the code computes an index that may be too great for an `int`.
-/

/-- Somewhere on the way the key of a part that ends with `hi` goes to `hi`. -/
inductive KeyLast (f : V → V → Int) (hi : Int) : Int → (Int → V) → Prop
  | here {lo : Int} {g g' : Int → V} : lo < hi → Parts f lo hi lo hi g hi g' → KeyLast f hi lo g
  | later {lo p : Int} {g g' : Int → V} : lo < hi → Parts f lo hi lo hi g p g' → p < hi →
      KeyLast f hi (p + 1) (g' ∘ Equiv.swap lo p) → KeyLast f hi lo g

section
variable {i' i'' j' j'' p q : Int} {g g₁ g' g₁' : Int → V}

theorem StopsUp.unique (h : StopsUp f g lo hi i i') (h' : StopsUp f g lo hi i i'') : i' = i'' := by
  have hge := h.ge
  have hge' := h'.ge
  have hle := h.le
  have hle' := h'.le
  rcases Int.lt_trichotomy i' i'' with hlt | heq | hlt
  · have hpos := h.stop (by omega)
    have hneg := h'.passed i' hge hlt
    omega
  · exact heq
  · have hpos := h'.stop (by omega)
    have hneg := h.passed i'' hge' hlt
    omega

theorem StopsDown.unique (h : StopsDown f g lo j j') (h' : StopsDown f g lo j j'') : j' = j'' := by
  have hge := h.ge
  have hge' := h'.ge
  have hle := h.le
  have hle' := h'.le
  rcases Int.lt_trichotomy j' j'' with hlt | heq | hlt
  · have hneg := h'.stop (by omega)
    have hpos := h.passed j'' hlt hle'
    omega
  · exact heq
  · have hneg := h.stop (by omega)
    have hpos := h'.passed j' hlt hle
    omega

/-- A partition has one outcome. -/
theorem Parts.unique (h : Parts f lo hi i j g p g') (h' : Parts f lo hi i j g q g₁') : p = q ∧ g' = g₁' := by
  induction h with
  | met hij =>
    cases h' with
    | met _ => exact ⟨rfl, rfl⟩
    | crossed hij' => exact absurd hij' hij
    | swapped hij' => exact absurd hij' hij
  | crossed hij hup hdown hcross =>
    cases h' with
    | met hij' => exact absurd hij hij'
    | crossed _ hup' hdown' _ =>
      obtain rfl := hdown.unique hdown'
      exact ⟨rfl, rfl⟩
    | swapped _ hup' hdown' hcross' =>
      obtain rfl := hup.unique hup'
      obtain rfl := hdown.unique hdown'
      exact absurd hcross' hcross
  | swapped hij hup hdown hcross _ ih =>
    cases h' with
    | met hij' => exact absurd hij hij'
    | crossed _ hup' hdown' hcross' =>
      obtain rfl := hup.unique hup'
      obtain rfl := hdown.unique hdown'
      exact absurd hcross hcross'
    | swapped _ hup' hdown' _ hrest =>
      obtain rfl := hup.unique hup'
      obtain rfl := hdown.unique hdown'
      exact ih hrest

theorem Parts.bounds (h : Parts f lo hi i j g p g') (hlo : lo ≤ j) (hhi : j ≤ hi) : lo ≤ p ∧ p ≤ hi := by
  induction h with
  | met _ => exact ⟨hlo, hhi⟩
  | crossed _ _ hdown _ => exact ⟨hdown.ge, Int.le_trans hdown.le hhi⟩
  | swapped _ _ hdown _ _ ih => exact ih hdown.ge (Int.le_trans hdown.le hhi)

/-! What happens to a range depends on the elements of the range only. -/

theorem StopsUp.congr (h : StopsUp f g lo hi i i') (he : ∀ k, lo ≤ k → k ≤ hi → g₁ k = g k) (hlo : lo ≤ i) :
    StopsUp f g₁ lo hi i i' := by
  have hge := h.ge
  have hle := h.le
  have hkey := he lo (Int.le_refl lo) (by omega)
  refine ⟨hge, hle, fun k hk hki => ?_, fun hlt => ?_⟩
  · rw [hkey, he k (by omega) (by omega)]
    exact h.passed k hk hki
  · rw [hkey, he i' (by omega) hle]
    exact h.stop hlt

theorem StopsDown.congr (h : StopsDown f g lo j j') (he : ∀ k, lo ≤ k → k ≤ hi → g₁ k = g k) (hhi : j ≤ hi) :
    StopsDown f g₁ lo j j' := by
  have hge := h.ge
  have hle := h.le
  have hkey := he lo (Int.le_refl lo) (by omega)
  refine ⟨hge, hle, fun k hk hkj => ?_, fun hlt => ?_⟩
  · rw [hkey, he k (by omega) (by omega)]
    exact h.passed k hk hkj
  · rw [hkey, he j' hge (by omega)]
    exact h.stop hlt

theorem Parts.congr (h : Parts f lo hi i j g p g') (he : ∀ k, lo ≤ k → k ≤ hi → g₁ k = g k) (hlo : lo ≤ i) (hhi : j ≤ hi) :
    ∃ g₁', Parts f lo hi i j g₁ p g₁' ∧ ∀ k, lo ≤ k → k ≤ hi → g₁' k = g' k := by
  induction h generalizing g₁ with
  | met hij => exact ⟨g₁, .met hij, he⟩
  | crossed hij hup hdown hcross => exact ⟨g₁, .crossed hij (hup.congr he hlo) (hdown.congr he hhi) hcross, he⟩
  | @swapped i j i' j' p g g' hij hup hdown hcross _ ih =>
    have hup1 := hup.ge
    have hdown1 := hdown.ge
    have hdown2 := hdown.le
    have hswapped : ∀ k, lo ≤ k → k ≤ hi → (g₁ ∘ Equiv.swap i' j') k = (g ∘ Equiv.swap i' j') k := by
      intro k hk hkh
      rw [Function.comp_apply, Function.comp_apply, Equiv.swap_apply_def]
      split
      · exact he j' (by omega) (by omega)
      · split
        · exact he i' (by omega) (by omega)
        · exact he k hk hkh
    obtain ⟨g₁', hrest, hout⟩ := ih hswapped (by omega) (by omega)
    exact ⟨g₁', .swapped hij (hup.congr he hlo) (hdown.congr he hhi) hcross hrest, hout⟩

theorem KeyLast.congr (h : KeyLast f hi lo g) (he : ∀ k, lo ≤ k → k ≤ hi → g₁ k = g k) : KeyLast f hi lo g₁ := by
  induction h generalizing g₁ with
  | here hlt hparts =>
    obtain ⟨g₁', hparts', -⟩ := hparts.congr he (Int.le_refl _) (Int.le_refl _)
    exact .here hlt hparts'
  | @later lo p g g' hlt hparts hp _ ih =>
    obtain ⟨g₁', hparts', hout⟩ := hparts.congr he (Int.le_refl _) (Int.le_refl _)
    have hbounds := hparts.bounds (Int.le_of_lt hlt) (Int.le_refl _)
    refine .later hlt hparts' hp (ih fun k hk hkh => ?_)
    rw [Function.comp_apply, Function.comp_apply, Equiv.swap_apply_of_ne_of_ne (by omega) (by omega)]
    exact hout k (by omega) hkh

end

/-! ## The sort -/

/-- The elements from `lo` to `hi` are in non-decreasing order. -/
def InOrder (f : V → V → Int) (lo hi : Int) (a : Int → V) : Prop := ∀ i j, lo ≤ i → i ≤ j → j ≤ hi → f (a i) (a j) ≤ 0

/-- Two parts in order around a key that separates them. -/
theorem InOrder.join (hc : TotalPreorder f) {g : Int → V} (hl : InOrder f lo (j - 1) g) (hr : InOrder f (j + 1) hi g)
    (hlow : ∀ k, lo ≤ k → k ≤ j - 1 → f (g k) (g j) ≤ 0) (hhigh : ∀ k, j + 1 ≤ k → k ≤ hi → f (g j) (g k) ≤ 0) :
    InOrder f lo hi g := by
  intro p q hp hpq hq
  by_cases hqj : q < j
  · exact hl p q hp hpq (by omega)
  by_cases hpj : j < p
  · exact hr p q (by omega) hpq hq
  -- `j` is between them
  have hpkey : f (g p) (g j) ≤ 0 := by
    by_cases he : p = j
    · exact he ▸ Int.le_of_eq (hc.refl _)
    · exact hlow p hp (by omega)
  have hkeyq : f (g j) (g q) ≤ 0 := by
    by_cases he : q = j
    · exact he ▸ Int.le_of_eq (hc.refl _)
    · exact hhigh q (by omega) hq
  exact hc.trans _ _ _ hpkey hkeyq

/-- The parts on both sides of the key are put in order, one after the other. -/
theorem InOrder.sides (hc : TotalPreorder f) {g₁ g₂ g₃ : Int → V} (hlow : ∀ k, lo ≤ k → k ≤ j - 1 → f (g₁ k) (g₁ j) ≤ 0)
    (hhigh : ∀ k, j + 1 ≤ k → k ≤ hi → f (g₁ j) (g₁ k) ≤ 0) (hl : Permuted lo (j - 1) g₁ g₂) (hol : InOrder f lo (j - 1) g₂)
    (hr : Permuted (j + 1) hi g₂ g₃) (hor : InOrder f (j + 1) hi g₃) : InOrder f lo hi g₃ := by
  have hkey : g₃ j = g₁ j := (hr.outside (.inl (by omega))).trans (hl.outside (.inr (by omega)))
  have hleft : ∀ k, k ≤ j - 1 → g₃ k = g₂ k := fun k hk => hr.outside (.inl (by omega))
  have hright : ∀ k, j + 1 ≤ k → g₂ k = g₁ k := fun k hk => hl.outside (.inr (by omega))
  refine InOrder.join (j := j) hc (fun p q hp hpq hq => ?_) hor (fun k hk hkj => ?_) fun k hk hkh => ?_
  · rw [hleft p (by omega), hleft q hq]
    exact hol p q hp hpq hq
  · rw [hkey, hleft k hkj]
    exact hl.forall (P := fun v => f v (g₁ j) ≤ 0) hlow k hk hkj
  · rw [hkey]
    refine hr.forall (P := fun v => f (g₁ j) v ≤ 0) (fun k hk hkh => ?_) k hk hkh
    rw [hright k hk]
    exact hhigh k hk hkh

/-- The partition and the exchange that puts the key to its place `j`. -/
theorem returns_place (hc : TotalPreorder f) (h : Sorting cmp swap f ok len lo hi size) (hs : a.size = size)
    (hok : ∀ k, lo ≤ k → k ≤ hi → ok (a.elt k)) (hlt : lo < hi) {fuel : Nat} (hf : hi - lo < fuel) :
    Returns (do
      let j ← loop (partRound cmp swap fuel lo hi len) fuel (lo, hi)
      swap lo j
      pure j) a fun j b =>
      b.size = a.size ∧ Permuted lo hi a.elt b.elt ∧ lo ≤ j ∧ j ≤ hi ∧
      (∀ k, lo ≤ k → k ≤ j - 1 → f (b.elt k) (b.elt j) ≤ 0) ∧ (∀ k, j + 1 ≤ k → k ≤ hi → f (b.elt j) (b.elt k) ≤ 0) ∧
      ∃ g, Parts f lo hi lo hi a.elt j g ∧ b.elt = g ∘ Equiv.swap lo j := by
  refine (returns_part hc h hs hok hlt hf).bind fun j b₁ hpart => ?_
  obtain ⟨hsize, hre, hj1, hj2, hlow, hhigh, hparts⟩ := hpart
  refine (h.swap b₁ lo j (hsize.trans hs) (Int.le_refl lo) (by omega) hj1 hj2).bind fun _ b₂ hb₂ => ?_
  have helt : ∀ k, b₂.elt k = b₁.elt (Equiv.swap lo j k) := fun k => by
    rw [hb₂]
    rfl
  have hkey : b₂.elt j = b₁.elt lo := by rw [helt, Equiv.swap_apply_right]
  rw [returns_pure]
  refine ⟨by rw [hb₂, hsize], ?_, hj1, hj2, fun k hk hkj => ?_, fun k hk hkh => ?_, b₁.elt, hparts, by rw [hb₂]⟩
  · rw [hb₂]
    exact hre.trans (permuted_swap ⟨Int.le_refl lo, by omega⟩ ⟨hj1, hj2⟩)
  · rw [hkey, helt]
    by_cases he : k = lo
    · rw [he, Equiv.swap_apply_left]
      exact hlow j hj1 (Int.le_refl j)
    · rw [Equiv.swap_apply_of_ne_of_ne he (by omega)]
      exact hlow k hk (by omega)
  · rw [hkey, helt, Equiv.swap_apply_of_ne_of_ne (by omega) (by omega)]
    exact (hc.le_iff _ _).2 (hhigh k (by omega) hkh)

/-- One call, with the partition and the exchange as one step. -/
theorem mgfastsort_succ (fuel : Nat) (hlt : lo < hi) :
    mgfastsort (some cmp) (some swap) (fuel + 1) lo hi len = (do
      let j ← (do
        let j ← loop (partRound cmp swap fuel lo hi len) fuel (lo, hi)
        swap lo j
        pure j)
      mgfastsort (some cmp) (some swap) fuel lo (toInt (j - 1)) len
      mgfastsort (some cmp) (some swap) fuel (toInt (j + 1)) hi len) := by
  rw [mgfastsort, if_neg (by omega)]
  simp only [bind_assoc, pure_bind]

theorem mgfastsort_stop (fuel : Nat) (hge : lo ≥ hi) : mgfastsort (some cmp) (some swap) (fuel + 1) lo hi len = pure () := by
  rw [mgfastsort]
  exact if_pos hge

/-- The sort orders the elements from `lo` to `hi` and leaves the others where they are. The index behind `hi` is an `int`, or
no key goes to `hi`. -/
theorem returns_mgfastsort (hc : TotalPreorder f) {fuel : Nat} : ∀ {lo hi : Int} {a : Arr V},
    0 ≤ lo → (hi < 2 ^ 31 - 1 ∨ hi < 2 ^ 31 ∧ ¬ KeyLast f hi lo a.elt) →
    Sorting cmp swap f ok len lo hi size → a.size = size → (∀ k, lo ≤ k → k ≤ hi → ok (a.elt k)) →
    (hi - lo + 1).toNat < fuel →
    Returns (mgfastsort (some cmp) (some swap) fuel lo hi len) a fun _ b =>
      b.size = a.size ∧ Permuted lo hi a.elt b.elt ∧ InOrder f lo hi b.elt := by
  induction fuel with
  | zero =>
    intro lo hi a _ _ _ _ _ hf
    exact absurd hf (Nat.not_lt_zero _)
  | succ fuel ih =>
    intro lo hi a h0 hsafe h hs hok hf
    by_cases hge : lo ≥ hi
    · rw [mgfastsort_stop fuel hge, returns_pure]
      refine ⟨rfl, .refl lo hi a.elt, fun i j hi hij hj => ?_⟩
      rw [show i = j by omega]
      exact Int.le_of_eq (hc.refl _)
    rw [mgfastsort_succ fuel (by omega)]
    refine (returns_place hc h hs hok (by omega) (by omega)).bind fun j b₂ hplace => ?_
    obtain ⟨hsize₂, hre₂, hj1, hj2, hlow₂, hhigh₂, g, hparts, hg⟩ := hplace
    have hok₂ := hre₂.forall hok
    have hhi : j < 2 ^ 31 - 1 := by
      rcases hsafe with hsmall | ⟨hfits, hkey⟩
      · omega
      · -- the key is not at `hi`
        by_contra hbig
        obtain rfl : j = hi := by omega
        exact hkey (.here (by omega) hparts)
    rw [toInt_small (x := j - 1) (by omega) (by omega), toInt_small (x := j + 1) (by omega) (by omega)]
    refine (ih h0 (.inl (by omega)) (h.narrow (Int.le_refl lo) (by omega)) (hsize₂.trans hs)
      (fun k hk hkj => hok₂ k hk (by omega)) (by omega)).bind fun _ b₃ hleft => ?_
    obtain ⟨hsize₃, hre₃, hord₃⟩ := hleft
    have hok₃ := (hre₃.widen (Int.le_refl lo) (by omega : j - 1 ≤ hi)).forall hok₂
    have hsafe₃ : hi < 2 ^ 31 - 1 ∨ hi < 2 ^ 31 ∧ ¬ KeyLast f hi (j + 1) b₃.elt := by
      refine hsafe.imp_right fun hfar => ⟨hfar.1, fun hlast => hfar.2 ?_⟩
      by_cases hend : j = hi
      · exact .here (by omega) (hend ▸ hparts)
      · refine .later (by omega) hparts (by omega) (hlast.congr fun k hk hkh => ?_)
        rw [← hg]
        exact (hre₃.outside (.inr (by omega))).symm
    refine (ih (by omega) hsafe₃ (h.narrow (by omega) (Int.le_refl hi)) (hsize₃.trans (hsize₂.trans hs))
      (fun k hk hkh => hok₃ k (by omega) hkh) (by omega)).mono fun _ b₄ hright => ?_
    obtain ⟨hsize₄, hre₄, hord₄⟩ := hright
    refine ⟨hsize₄.trans (hsize₃.trans hsize₂), ?_, .sides hc hlow₂ hhigh₂ hre₃ hord₃ hre₄ hord₄⟩
    exact (hre₂.trans (hre₃.widen (Int.le_refl lo) (by omega))).trans (hre₄.widen (by omega) (Int.le_refl hi))

/-- Where the last element cannot be compared, the sort does not come back. -/
theorem mgfastsort_fails (hlt : lo < hi) (hcmp : ∀ a, Ensures (cmp (offset hi len) (offset lo len)) a fun _ _ => False)
    (fuel : Nat) : Ensures (mgfastsort (some cmp) (some swap) fuel lo hi len) a fun _ _ => False := by
  have hdown : ∀ fuel a, Ensures (loop (downRound cmp (offset lo len) lo len) fuel hi) a fun _ _ => False := by
    intro fuel a
    cases fuel with
    | zero => exact ensures_fault _ _ _
    | succ fuel =>
      unfold loop downRound
      rw [ensures_bind, ensures_ite]
      refine ⟨fun _ => (ensures_bind _ _ _ _).2 ?_, fun hge => absurd hlt hge⟩
      exact (hcmp a).mono fun _ _ hfalse => hfalse.elim
  have hpart : ∀ fuel' fuel a, Ensures (loop (partRound cmp swap fuel' lo hi len) fuel (lo, hi)) a fun _ _ => False := by
    intro fuel' fuel a
    cases fuel with
    | zero => exact ensures_fault _ _ _
    | succ fuel =>
      unfold loop partRound
      rw [ensures_bind, ensures_ite]
      refine ⟨fun _ => ?_, fun hge => absurd hlt hge⟩
      -- whatever the first scan does, the second one starts from the last element
      rw [ensures_bind]
      intro i a' _
      rw [ensures_bind]
      exact (hdown fuel' a').mono fun _ _ hfalse => hfalse.elim
  cases fuel with
  | zero => exact ensures_fault _ _ _
  | succ fuel =>
    unfold mgfastsort
    rw [ensures_ite, ensures_bind]
    exact ⟨fun hge => absurd hlt (by omega), fun _ => (hpart fuel fuel a).mono fun _ _ hfalse => hfalse.elim⟩

/-! ## Comparators and exchanges of arrays -/

theorem returns_eltAt (hlen : 0 < len) (h0 : 0 ≤ i) (hi' : i < a.size) (hfit : i * len < 2 ^ 31) (Q : V → Arr V → Prop) :
    Returns (eltAt len (offset i len)) a Q ↔ Q (a.elt i) a := by
  have hpos : 0 ≤ i * len := Int.mul_nonneg h0 (by omega)
  have hdiv : i * len / len = i := Int.mul_ediv_cancel i (by omega)
  unfold eltAt offset
  rw [toInt_small (by omega) hfit, returns_bind, returns_get, returns_ite, returns_pure]
  simp [hdiv, h0, hi']

/-- There is no element before the first. -/
theorem ensures_eltAt_neg {place : Int} (hlen : 0 < len) (hneg : place < 0) (Q : V → Arr V → Prop) :
    Ensures (eltAt len place) a Q := by
  have hdiv : place / len < 0 := Int.ediv_neg_of_neg_of_pos hneg hlen
  unfold eltAt
  rw [ensures_bind, ensures_get, if_neg (by omega)]
  exact ensures_fault _ _ _

theorem returns_getElt (h0 : 0 ≤ i) (hi' : i < a.size) (Q : V → Arr V → Prop) :
    Returns (getElt i) a Q ↔ Q (a.elt i) a := by
  unfold getElt
  rw [returns_bind, returns_get, if_pos ⟨h0, hi'⟩, returns_pure]

theorem returns_setElt (h0 : 0 ≤ i) (hi' : i < a.size) (v : V) (Q : Unit → Arr V → Prop) :
    Returns (setElt i v) a Q ↔ Q () { a with elt := Function.update a.elt i v } := by
  unfold setElt
  rw [returns_bind, returns_get, if_pos ⟨h0, hi'⟩, returns_modify]

end MgStd.FastSort
