import MgStd.Stack.Refine
/-!
# The default comparator

`_stack_ptr_comp` subtracts the addresses that the sort hands it, and these are
addresses of slots. What it answers does not depend on the pointers on the
stack, so that the sort moves them about in a way that depends on their number
alone.
-/

namespace MgStd.Stack

open MgStd.Lib FastSort

variable {A : Type} {a : Arr (Ptr A)} {i j lo hi : Int} {fuel : Nat}

/-! ## Answers -/

/-- What `_stack_ptr_comp` answers for slots `d` apart. -/
def slotComp (d : Int) : Int := toInt (-(d * sizeofPtr))

theorem returns_stackPtrComp (Q : Int → Arr (Ptr A) → Prop) :
    Returns (stackPtrComp (offset i sizeofPtr) (offset j sizeofPtr)) a Q ↔ Q (slotComp (i - j)) a := by
  have hdiff : toInt (offset j sizeofPtr - offset i sizeofPtr) = slotComp (i - j) := by
    unfold slotComp offset toInt
    rw [← Int.sub_bmod]
    congr 1
    unfold sizeofPtr
    omega
  unfold stackPtrComp
  rw [returns_pure, hdiff]

theorem ensures_stackPtrComp (Q : Int → Arr (Ptr A) → Prop) (h : Q (slotComp (i - j)) a) :
    Ensures (stackPtrComp (offset i sizeofPtr) (offset j sizeofPtr)) a Q :=
  ((returns_stackPtrComp Q).2 h).ensures

theorem slotComp_near {d : Int} (h0 : 0 < d) (h : d ≤ 2 ^ 28) : slotComp d < 0 := by
  unfold slotComp toInt sizeofPtr
  rw [Int.bmod_def]
  omega

/-- The distance in bytes does not fit into an `int` any more. -/
theorem slotComp_far {d : Int} (h0 : 2 ^ 28 < d) (h : d < 2 ^ 29) : 0 < slotComp d := by
  unfold slotComp toInt sizeofPtr
  rw [Int.bmod_def]
  omega

theorem slotComp_around {d : Int} (h : d = 0 ∨ d = 2 ^ 29) : slotComp d = 0 := by
  unfold slotComp toInt sizeofPtr
  rw [Int.bmod_def]
  omega

/-! ## The sort -/

theorem returns_scanUp (h : lo ≤ hi) (hf : hi - lo < fuel) :
    Returns (loop (upRound stackPtrComp (offset lo sizeofPtr) hi sizeofPtr) fuel lo) a fun r b =>
      b = a ∧ r = lo + min (hi - lo) (2 ^ 28 + 1) := by
  refine returns_loop (fun n x b => b = a ∧ n = (hi - x).toNat ∧ lo ≤ x ∧ x ≤ lo + min (hi - lo) (2 ^ 28 + 1)) ?_ fuel
    (hi - lo).toNat lo a ⟨rfl, rfl, Int.le_refl lo, by omega⟩ (by omega)
  rintro n x b ⟨rfl, rfl, hx, hxu⟩
  unfold upRound
  rw [returns_ite]
  refine ⟨fun hlt => ?_, fun hge => ?_⟩
  · rw [returns_bind, returns_stackPtrComp, returns_ite, returns_pure, returns_pure]
    refine ⟨fun hle => ⟨_, by omega, rfl, rfl, by omega, ?_⟩, fun hgt => ⟨rfl, ?_⟩⟩
    · -- the scan has not come to a slot far away
      by_contra hout
      have hfar := slotComp_far (d := x - lo) (by omega) (by omega)
      omega
    · by_contra hout
      by_cases hself : x = lo
      · exact hgt (Int.le_of_eq (slotComp_around (.inl (by omega))))
      · have hnear := slotComp_near (d := x - lo) (by omega) (by omega)
        omega
  · rw [returns_pure]
    exact ⟨rfl, by omega⟩

theorem returns_scanDown (h : lo ≤ hi) (hspan : hi - lo ≤ 2 ^ 29) (hf : hi - lo < fuel) :
    Returns (loop (downRound stackPtrComp (offset lo sizeofPtr) lo sizeofPtr) fuel hi) a fun r b =>
      b = a ∧ r = lo + min (hi - lo) (2 ^ 28) := by
  refine returns_loop (fun n x b => b = a ∧ n = (x - lo).toNat ∧ lo + min (hi - lo) (2 ^ 28) ≤ x ∧ x ≤ hi) ?_ fuel
    (hi - lo).toNat hi a ⟨rfl, rfl, by omega, Int.le_refl hi⟩ (by omega)
  rintro n x b ⟨rfl, rfl, hx, hxh⟩
  unfold downRound
  rw [returns_ite]
  refine ⟨fun hlt => ?_, fun hge => ?_⟩
  · rw [returns_bind, returns_stackPtrComp, returns_ite, returns_pure, returns_pure]
    refine ⟨fun hge => ⟨_, by omega, rfl, rfl, ?_, by omega⟩, fun hneg => ⟨rfl, ?_⟩⟩
    · by_contra hout
      have hnear := slotComp_near (d := x - lo) (by omega) (by omega)
      omega
    · by_contra hout
      by_cases hend : x - lo = 2 ^ 29
      · exact hneg (Int.le_of_eq (slotComp_around (.inr hend)).symm)
      · have hfar := slotComp_far (d := x - lo) (by omega) (by omega)
        omega
  · rw [returns_pure]
    exact ⟨rfl, by omega⟩

/-- The scans meet, and nothing is exchanged before. -/
theorem returns_defaultPart (h : lo < hi) (hspan : hi - lo ≤ 2 ^ 29) (hf : hi - lo + 1 < fuel) :
    Returns (loop (partRound stackPtrComp mgStackSwap fuel lo hi sizeofPtr) fuel (lo, hi)) a fun j b =>
      b = a ∧ j = lo + min (hi - lo) (2 ^ 28) := by
  obtain ⟨n, rfl⟩ : ∃ n, fuel = n + 2 := ⟨fuel - 2, by omega⟩
  rw [returns_loop_succ]
  simp only [partRound, if_pos h]
  refine (returns_scanUp (Int.le_of_lt h) (by omega)).bind fun i b₁ hup => ?_
  obtain ⟨rfl, hi'⟩ := hup
  refine (returns_scanDown (Int.le_of_lt h) hspan (by omega)).bind fun j b₂ hdown => ?_
  obtain ⟨rfl, hj⟩ := hdown
  have hmet : ¬ i < j := by omega
  have hend : partRound (stackPtrComp (A := A)) mgStackSwap (n + 2) lo hi sizeofPtr (i, j) = pure (.inr j) := if_neg hmet
  rw [if_neg hmet, returns_pure]
  dsimp only
  rw [returns_loop_succ, hend, returns_pure]
  exact ⟨rfl, hj⟩

/-- Where the byte offsets do not go round, the sort turns the first `2 ^ 28 + 1` slots and the rest by one place. -/
theorem returns_defaultSort : ∀ {lo hi : Int} {a : Arr (Ptr A)}, 0 ≤ lo → hi < a.size → hi < 2 ^ 31 - 1 → hi - lo ≤ 2 ^ 29 →
    (hi - lo + 2).toNat < fuel →
    Returns (mgfastsort (some stackPtrComp) (some mgStackSwap) fuel lo hi sizeofPtr) a fun _ b =>
      b = { a with elt := turn (lo + 2 ^ 28 + 1) hi (turn lo (min hi (lo + 2 ^ 28)) a.elt) } := by
  induction fuel with
  | zero => exact fun _ _ _ _ hf => absurd hf (Nat.not_lt_zero _)
  | succ fuel ih =>
    intro lo hi a h0 hin hsmall hspan hf
    by_cases hge : lo ≥ hi
    · rw [mgfastsort_stop fuel hge, returns_pure, turn_of_lt (by omega)]
      have hone : turn lo (min hi (lo + 2 ^ 28)) a.elt = a.elt := by
        funext k
        unfold turn
        grind
      rw [hone]
    · rw [mgfastsort_succ fuel (by omega), returns_bind]
      refine ((returns_defaultPart (by omega) hspan (by omega)).bind fun j b₁ hpart => ?_)
      obtain ⟨rfl, hj⟩ := hpart
      rw [returns_bind]
      refine (returns_mgStackSwap (by omega) (by omega)).mono fun _ b₂ hb₂ => ?_
      rw [returns_pure, returns_bind, toInt_small (x := j - 1) (by omega) (by omega), toInt_small (x := j + 1) (by omega) (by omega)]
      subst hb₂
      refine (ih h0 (by dsimp only; omega) (by omega) (by omega) (by omega)).mono fun _ b₃ hb₃ => ?_
      subst hb₃
      refine (ih (by omega) (by dsimp only; omega) hsmall (by omega) (by omega)).mono fun _ b₄ hb₄ => ?_
      rw [hb₄]
      -- the inner calls are for parts of at most `2 ^ 28` slots
      have hmin : min (j - 1) (lo + 2 ^ 28) = j - 1 := by omega
      have hmin' : min hi (j + 1 + 2 ^ 28) = hi := by omega
      dsimp only
      rw [hmin, hmin', turn_of_lt (show j - 1 < lo + 2 ^ 28 + 1 by omega),
        turn_of_lt (show hi < j + 1 + 2 ^ 28 + 1 by omega), turn_swap (by omega)]
      have hcut : j = min hi (lo + 2 ^ 28) := by omega
      rw [← hcut]
      by_cases hnear : hi ≤ lo + 2 ^ 28
      · rw [turn_of_lt (show hi < j + 1 by omega), turn_of_lt (show hi < lo + 2 ^ 28 + 1 by omega)]
      · rw [show j + 1 = lo + 2 ^ 28 + 1 by omega]

/-- With more slots the partition exchanges the same two for ever. -/
theorem defaultSort_diverges (hhi : 2 ^ 29 + 1 ≤ hi) :
    Ensures (mgfastsort (some stackPtrComp) (some mgStackSwap) fuel 0 hi sizeofPtr) a fun _ _ => False := by
  have hup : ∀ (n : Nat) (x : Int) (b : Arr (Ptr A)), 0 ≤ x → x ≤ 2 ^ 28 + 1 →
      Ensures (loop (upRound stackPtrComp (offset 0 sizeofPtr) hi sizeofPtr) n x) b fun r _ => 0 ≤ r ∧ r ≤ 2 ^ 28 + 1 := by
    intro n x b h0 hx
    refine ensures_loop (fun x _ => 0 ≤ x ∧ x ≤ 2 ^ 28 + 1) ?_ n x b ⟨h0, hx⟩
    rintro x b ⟨h0, hx⟩
    unfold upRound
    rw [ensures_ite, ensures_pure, ensures_bind]
    refine ⟨fun _ => ensures_stackPtrComp _ ?_, fun _ => ⟨h0, hx⟩⟩
    rw [ensures_ite, ensures_pure, ensures_pure]
    refine ⟨fun hle => ⟨by omega, ?_⟩, fun _ => ⟨h0, hx⟩⟩
    by_contra hout
    have hfar := slotComp_far (d := x - 0) (by omega) (by omega)
    omega
  have hdown : ∀ (n : Nat) (x : Int) (b : Arr (Ptr A)), 2 ^ 29 + 1 ≤ x →
      Ensures (loop (downRound stackPtrComp (offset 0 sizeofPtr) 0 sizeofPtr) n x) b fun r _ => 2 ^ 29 + 1 ≤ r := by
    intro n x b hx
    refine ensures_loop (fun x _ => 2 ^ 29 + 1 ≤ x) ?_ n x b hx
    intro x b hx
    unfold downRound
    rw [ensures_ite, ensures_pure, ensures_bind]
    refine ⟨fun _ => ensures_stackPtrComp _ ?_, fun _ => hx⟩
    rw [ensures_ite, ensures_pure, ensures_pure]
    refine ⟨fun hge => ?_, fun _ => hx⟩
    by_contra hout
    obtain rfl : x = 2 ^ 29 + 1 := by omega
    exact absurd hge (by decide)
  have hpart : ∀ n m b, Ensures (loop (partRound stackPtrComp (mgStackSwap (A := A)) n 0 hi sizeofPtr) m (0, hi)) b fun _ _ => False := by
    intro n m b
    refine ensures_loop (fun x _ => 0 ≤ x.1 ∧ x.1 ≤ 2 ^ 28 + 1 ∧ 2 ^ 29 + 1 ≤ x.2) ?_ m (0, hi) b ⟨by simp, by simp, hhi⟩
    rintro ⟨i, j⟩ b ⟨h0, hi', hj⟩
    dsimp only at h0 hi' hj
    simp only [partRound, if_pos (show i < j by omega), ensures_bind]
    refine (hup n i b h0 hi').mono fun i' b₁ hup' => (hdown n j b₁ hj).mono fun j' b₂ hdown' => ?_
    rw [if_pos (by omega), ensures_bind]
    exact fun _ _ _ => (ensures_pure _ _ _).2 ⟨hup'.1, hup'.2, hdown'⟩
  cases fuel with
  | zero => exact ensures_fault _ _ _
  | succ fuel =>
    rw [mgfastsort, if_neg (by omega), ensures_bind]
    exact (hpart fuel fuel a).mono fun _ _ hfalse => hfalse.elim

/-! ## Pushes -/

variable {dataMax : Int} {s s' : MgStack A} {xs ys : List A} {c : Option (StackComp A)}

/-- A caller that pushes one pointer after the other: which of them are on the stack then. With each comes what `realloc` gives
for a number of slots. -/
def pushAll : List (Ptr A × (Int → Realloc A)) → Prog (MgStack A) (List A)
  | [] => pure []
  | (data, realloc) :: pushes => do
    let r ← mgStackPush data (realloc (toInt ((← get).allocNum * 2)))
    let xs ← pushAll pushes
    pure (if r = 0 then data.toList ++ xs else xs)

/-- A push does not look at the comparator. -/
theorem returns_push_comp (data : Ptr A) (realloc : Realloc A) (Q : Int → MgStack A → Prop) :
    Returns (mgStackPush data realloc) { s with comp := c } Q ↔
      Returns (mgStackPush data realloc) s fun r s' => Q r { s' with comp := c } := by
  unfold mgStackPush
  cases data with
  | none => rw [returns_pure, returns_pure]
  | some p =>
    simp only [returns_bind, returns_get]
    split
    · split
      · rw [returns_pure, returns_pure]
      · cases realloc with
        | none => rw [returns_pure, returns_pure]
        | some past => simp only [returns_bind, returns_modify, pushSlot, returns_get, returns_onData, returns_pure]
    · simp only [returns_bind, returns_modify, pushSlot, returns_get, returns_onData, returns_pure]

theorem toInt_lt (x : Int) : toInt x < 2 ^ 31 := by
  unfold toInt
  rw [Int.bmod_def]
  omega

theorem ensures_push (data : Ptr A) (realloc : Realloc A) (hsmall : s.allocNum < 2 ^ 31) :
    Ensures (mgStackPush data realloc) s fun _ s' => s'.comp = s.comp ∧ s'.allocNum < 2 ^ 31 := by
  have hslot : ∀ (p : Ptr A) (t : MgStack A), t.comp = s.comp → t.allocNum < 2 ^ 31 →
      Ensures (pushSlot p) t fun _ s' => s'.comp = s.comp ∧ s'.allocNum < 2 ^ 31 := by
    intro p t hcomp halloc
    unfold pushSlot onData
    simp only [ensures_bind, ensures_get, ensures_zoom, ensures_modify, ensures_pure]
    exact fun _ _ _ => ⟨hcomp, halloc⟩
  unfold mgStackPush
  cases data with
  | none => exact (ensures_pure _ _ _).2 ⟨rfl, hsmall⟩
  | some p =>
    simp only [ensures_bind, ensures_get]
    split
    · split
      · exact (ensures_pure _ _ _).2 ⟨rfl, hsmall⟩
      · cases realloc with
        | none => exact (ensures_pure _ _ _).2 ⟨rfl, hsmall⟩
        | some past =>
          simp only [ensures_bind, ensures_modify]
          exact hslot _ _ rfl (toInt_lt _)
    · exact hslot _ _ rfl hsmall

/-- A stack with the default comparator that has not been sorted; but for the comparator it is one as in `Holds`. -/
structure Unsorted (dataMax : Int) (s : MgStack A) (xs : List A) : Prop where
  holds : Holds (fun _ _ => 0) dataMax { s with comp := some (readsSlots fun _ _ => 0) } xs
  comp : s.comp = some stackPtrComp
  flag : s.sorted = false
  small : s.allocNum < 2 ^ 31

/-- A call that changed nothing else. -/
theorem Unsorted.same (h : Unsorted dataMax s xs) (hs : { s' with comp := c } = { s with comp := c })
    (hcomp : s'.comp = some stackPtrComp) (halloc : s'.allocNum < 2 ^ 31) : Unsorted dataMax s' xs := by
  have hflag := congrArg MgStack.sorted hs
  have hmodel := congrArg (fun t : MgStack A => { t with comp := some (readsSlots fun _ _ => 0) }) hs
  have hholds := h.holds
  dsimp only at hmodel
  rw [← hmodel] at hholds
  exact ⟨hholds, hcomp, hflag.trans h.flag, halloc⟩

theorem unsorted_init {mallocs : Bool × Bool} (h0 : 0 ≤ dataMax) (h1 : dataMax < 2 ^ 31)
    (hinit : mgStackInit mallocs dataMax none = some s) : Unsorted dataMax s [] := by
  have hholds : mgStackInit mallocs dataMax (some (readsSlots fun _ _ => 0)) =
      some { s with comp := some (readsSlots fun _ _ => 0) } →
      Holds (fun _ _ => 0) dataMax { s with comp := some (readsSlots fun _ _ => 0) } [] := holds_init h0
  obtain ⟨m₁, m₂⟩ := mallocs
  cases m₁ <;> cases m₂ <;> cases hinit
  refine ⟨hholds rfl, rfl, rfl, ?_⟩
  by_cases hz : dataMax = 0
  · simp [hz, DEFAULT_NUM_MAX]
  · simpa [hz] using h1

theorem Unsorted.push (h : Unsorted dataMax s xs) (data : Ptr A) (realloc : Int → Realloc A) (hno : ∀ num < 0, realloc num = none) :
    Returns (mgStackPush data (realloc (toInt (s.allocNum * 2)))) s fun r s' =>
      Unsorted dataMax s' (if r = 0 then xs ++ data.toList else xs) := by
  have hroom : 0 < s.allocNum ∧ s.dataNum ≤ s.allocNum := h.holds.room
  have hsmall := h.small
  have hpush := h.holds.push data (realloc (toInt (s.allocNum * 2))) fun hfull hsome => by
    dsimp only at hfull ⊢
    by_contra hbig
    -- the number of slots asked for is negative
    apply hsome
    apply hno
    unfold toInt
    rw [Int.bmod_def]
    omega
  refine (((returns_push_comp _ _ _).1 hpush).of_ensures (ensures_push _ _ hsmall)).mono ?_
  rintro r s' ⟨hp, hcomp, halloc⟩
  unfold Pushed at hp
  cases data with
  | none =>
    obtain ⟨rfl, hs⟩ := hp
    exact h.same hs (hcomp.trans h.comp) halloc
  | some p =>
    dsimp only at hp
    split at hp
    · obtain ⟨rfl, hs⟩ := hp
      exact h.same hs (hcomp.trans h.comp) halloc
    · split at hp
      · obtain ⟨rfl, hs⟩ := hp
        exact h.same hs (hcomp.trans h.comp) halloc
      · obtain ⟨rfl, hholds, hflag⟩ := hp
        exact ⟨hholds, hcomp.trans h.comp, hflag, halloc⟩

theorem Unsorted.pushAll {pushes : List (Ptr A × (Int → Realloc A))} (h : Unsorted dataMax s xs)
    (hno : ∀ p ∈ pushes, ∀ num < 0, p.2 num = none) :
    Returns (pushAll pushes) s fun ys s' => Unsorted dataMax s' (xs ++ ys) := by
  induction pushes generalizing s xs with
  | nil => simpa [Stack.pushAll] using h
  | cons p pushes ih =>
    obtain ⟨data, realloc⟩ := p
    obtain ⟨hfirst, hrest⟩ := List.forall_mem_cons.1 hno
    unfold Stack.pushAll
    rw [returns_bind, returns_get]
    refine (h.push data realloc hfirst).bind fun r s₁ h₁ => (ih h₁ hrest).bind fun ys s₂ h₂ => ?_
    rw [returns_pure]
    split at h₂
    · next hr => rwa [if_pos hr, ← List.append_assoc]
    · next hr => rwa [if_neg hr]

/-! ## The order afterwards -/

/-- As many slots as have their byte distances from the first one in an `int`. -/
def NEAR_NUM : Nat := 2 ^ 28 + 1

/-- What the default sort makes of a sequence, if it comes back: the first pointer goes behind the others, among the first
`NEAR_NUM` pointers and among the rest. -/
def turned (xs : List A) : List A := (xs.take NEAR_NUM).rotate 1 ++ (xs.drop NEAR_NUM).rotate 1

theorem turned_short (h : xs.length ≤ 1) : turned xs = xs := by
  unfold turned
  rw [List.take_of_length_le (by unfold NEAR_NUM; omega), List.drop_eq_nil_of_le (by unfold NEAR_NUM; omega), List.rotate_nil,
    List.append_nil]
  match xs, h with
  | [], _ => rfl
  | [x], _ => exact List.rotate_singleton x 1

theorem slice_turned {g : Int → Ptr A} (h : slice g 0 xs.length = xs.map some) :
    slice (turn (0 + 2 ^ 28 + 1) (xs.length - 1) (turn 0 (min (xs.length - 1 : Int) (0 + 2 ^ 28)) g)) 0 xs.length =
      (turned xs).map some := by
  unfold turned
  by_cases hnear : xs.length ≤ NEAR_NUM
  · have hlen : (xs.length : Int) ≤ 2 ^ 28 + 1 := by
      unfold NEAR_NUM at hnear
      omega
    rw [List.take_of_length_le hnear, List.drop_eq_nil_of_le hnear, List.rotate_nil, List.append_nil, turn_of_lt (by omega),
      show min ((xs.length : Int) - 1) (0 + 2 ^ 28) = 0 + (xs.length : Int) - 1 by omega, slice_turn, h, List.map_rotate]
  · obtain ⟨q, hq⟩ : ∃ q, xs.length = NEAR_NUM + q := ⟨xs.length - NEAR_NUM, by omega⟩
    have hsplit : slice g 0 NEAR_NUM ++ slice g (0 + NEAR_NUM) q = (xs.take NEAR_NUM).map some ++ (xs.drop NEAR_NUM).map some := by
      rw [← slice_add, ← hq, h, ← List.map_append, List.take_append_drop]
    obtain ⟨hfirst, hrest⟩ := List.append_inj hsplit (by rw [length_slice, List.length_map, List.length_take]; omega)
    have hcut : min ((xs.length : Int) - 1) (0 + 2 ^ 28) = 0 + (NEAR_NUM : Int) - 1 := by
      unfold NEAR_NUM at hq ⊢
      omega
    have hstart : (0 : Int) + 2 ^ 28 + 1 = 0 + (NEAR_NUM : Int) := by
      unfold NEAR_NUM
      omega
    have hend : (xs.length : Int) - 1 = 0 + (NEAR_NUM : Int) + q - 1 := by omega
    rw [hcut, hstart, hend, hq, slice_turn_turn, hfirst, hrest, List.map_append, List.map_rotate, List.map_rotate]

/-- The sort of a stack that was pushed to and not sorted. -/
theorem Unsorted.sort (h : Unsorted dataMax s xs) (hfew : xs.length ≤ 2 ^ 29 + 1) (hf : xs.length + 1 < fuel) :
    Returns (mgStackSort fuel) s fun _ s' => s'.dataNum = xs.length ∧ slice s'.data.elt 0 xs.length = (turned xs).map some := by
  have hnum : s.dataNum = xs.length := h.holds.num
  have hslots : slice s.data.elt 0 xs.length = xs.map some := h.holds.slots
  have hsize : s.data.size = s.allocNum := h.holds.size
  have hroom : 0 < s.allocNum ∧ s.dataNum ≤ s.allocNum := h.holds.room
  unfold mgStackSort
  rw [returns_bind, returns_get, returns_ite, returns_pure, h.comp, h.flag]
  refine ⟨fun hskip => ⟨hnum, ?_⟩, fun hgo => ?_⟩
  · rcases hskip with hone | hnull | hs
    · rw [turned_short (by omega), hslots]
    · cases hnull
    · cases hs
  · rw [returns_bind, returns_onData]
    refine (returns_defaultSort (Int.le_refl 0) (by omega) (by omega) (by omega) (by omega)).mono fun _ b hb => ?_
    rw [returns_modify, hb, hnum]
    exact ⟨rfl, slice_turned hslots⟩

/-- The sort of too many pointers does not come back. -/
theorem Unsorted.sort_diverges (h : Unsorted dataMax s xs) (hmany : 2 ^ 29 + 1 < xs.length) (fuel : Nat) :
    Ensures (mgStackSort fuel) s fun _ _ => False := by
  have hnum : s.dataNum = xs.length := h.holds.num
  unfold mgStackSort
  rw [ensures_bind, ensures_get, ensures_ite, h.comp, h.flag]
  refine ⟨fun hskip => ?_, fun _ => ?_⟩
  · rcases hskip with hone | hnull | hs
    · omega
    · cases hnull
    · cases hs
  · rw [ensures_bind, onData, ensures_zoom]
    exact (defaultSort_diverges (by omega)).mono fun _ _ hfalse => hfalse.elim

/-- The pointers on the stack are in the order of the default comparison of addresses, the higher address first. -/
def InDefaultOrder (addr : A → Int) (s : MgStack A) : Prop :=
  ∃ ys : List A, slice s.data.elt 0 s.dataNum.toNat = ys.map some ∧ Sorted (fun x y => addr y - addr x) ys

/-- After any pushes on a stack with the default comparator, `xs` being the pointers on it, the sort leaves them in the order of the
default comparison exactly when there are at most `2 ^ 29 + 1`, and `turned xs` is in that order: whatever the addresses are, that is
what the sort makes of the sequence. -/
theorem mg_stack_sort_default_iff (addr : A → Int) {mallocs : Bool × Bool} {s₀ : MgStack A} (h0 : 0 ≤ dataMax) (h1 : dataMax < 2 ^ 31)
    (hinit : mgStackInit mallocs dataMax none = some s₀) (pushes : List (Ptr A × (Int → Realloc A)))
    (hno : ∀ p ∈ pushes, ∀ num < 0, p.2 num = none) :
    Returns (pushAll pushes) s₀ fun xs s => ∀ fuel, xs.length + 1 < fuel →
      (Returns (mgStackSort fuel) s (fun _ s' => InDefaultOrder addr s') ↔
        xs.length ≤ 2 ^ 29 + 1 ∧ Sorted (fun x y => addr y - addr x) (turned xs)) ∧
      (xs.length ≤ 2 ^ 29 + 1 → Returns (mgStackSort fuel) s fun _ s' =>
        s'.dataNum = xs.length ∧ slice s'.data.elt 0 xs.length = (turned xs).map some) := by
  refine ((unsorted_init h0 h1 hinit).pushAll hno).mono fun xs s h fuel hf => ?_
  rw [List.nil_append] at h
  refine ⟨?_, fun hfew => h.sort hfew hf⟩
  by_cases hfew : xs.length ≤ 2 ^ 29 + 1
  · rw [and_iff_right hfew]
    refine Returns.iff_of ((h.sort hfew hf).mono fun _ s' hs' => ?_)
    obtain ⟨hnum, hslots⟩ := hs'
    have hlen : s'.dataNum.toNat = xs.length := by omega
    unfold InDefaultOrder
    rw [hlen, hslots]
    constructor
    · rintro ⟨ys, hys, hsorted⟩
      rwa [List.map_injective_iff.2 (Option.some_injective A) hys]
    · exact fun hsorted => ⟨_, rfl, hsorted⟩
  · apply iff_of_false
    · exact (h.sort_diverges (by omega) fuel).not_returns _
    · exact fun hcond => hfew hcond.1

/-- Pushes without a `realloc` that succeeds. -/
def plainPushes (xs : List Nat) : List (Ptr Nat × (Int → Realloc Nat)) := xs.map fun x => (some x, fun _ => none)

/-- The lowest address first and the others from the highest on: the sort leaves them in order. -/
theorem mg_stack_sort_default_iff_three : ∃ s₀ : MgStack Nat, mgStackInit (true, true) 0 none = some s₀ ∧
    Returns (pushAll (plainPushes [8, 24, 16])) s₀ fun _ s => Returns (mgStackSort 5) s fun _ s' => InDefaultOrder (fun x : Nat => (x : Int)) s' := by
  obtain ⟨s₀, hinit⟩ : ∃ s₀ : MgStack Nat, mgStackInit (true, true) 0 none = some s₀ := ⟨_, rfl⟩
  refine ⟨s₀, hinit, ?_⟩
  have hall := mg_stack_sort_default_iff (fun x : Nat => (x : Int)) (by decide) (by decide) hinit (plainPushes [8, 24, 16])
    (fun p hp num _ => by
      obtain ⟨x, -, rfl⟩ := List.mem_map.1 hp
      rfl)
  have hpushed : Returns (pushAll (plainPushes [8, 24, 16])) s₀ fun xs _ => xs = [8, 24, 16] := by
    cases hinit
    exact ⟨_, _, rfl, rfl⟩
  refine (hall.and hpushed).mono ?_
  rintro xs s ⟨hxs, rfl⟩
  refine (hxs 5 (by decide)).1.2 ⟨by decide, ?_⟩
  show Sorted _ [24, 16, 8]
  simp [Sorted]

/-- Two pointers come out in the order opposite to that of the pushes, whichever is the greater: pushed from the higher address to the
lower they are out of order. -/
theorem mg_stack_sort_by_slot : ∃ s₀ : MgStack Nat, mgStackInit (true, true) 0 none = some s₀ ∧
    Returns (pushAll (plainPushes [16, 8])) s₀ (fun _ s => Returns (mgStackSort 4) s fun _ s' =>
      slice s'.data.elt 0 2 = [some 8, some 16] ∧ ¬ InDefaultOrder (fun x : Nat => (x : Int)) s') ∧
    Returns (pushAll (plainPushes [8, 16])) s₀ (fun _ s => Returns (mgStackSort 4) s fun _ s' =>
      slice s'.data.elt 0 2 = [some 16, some 8]) := by
  obtain ⟨s₀, hinit⟩ : ∃ s₀ : MgStack Nat, mgStackInit (true, true) 0 none = some s₀ := ⟨_, rfl⟩
  refine ⟨s₀, hinit, ?_, ?_⟩
  · cases hinit
    refine ⟨_, _, rfl, _, _, rfl, rfl, ?_⟩
    rintro ⟨ys, hys, hsorted⟩
    have hys' : [8, 16].map some = ys.map some := hys
    rw [← List.map_injective_iff.2 (Option.some_injective Nat) hys'] at hsorted
    simp [Sorted] at hsorted
  · cases hinit
    exact ⟨_, _, rfl, _, _, rfl, rfl⟩

end MgStd.Stack
