import MgStd.FastSort.Sort
import MgStd.Lib.Runs
import MgStd.Stack.Code
/-!
# The stack is a sequence

`Holds` ties a stack to the sequence of the pointers on it; the `sorted` flag is
a promise about that sequence, which every operation keeps.
-/

namespace MgStd.Stack

open MgStd.Lib FastSort

variable {A : Type}

/-! ## Comparators of the pointers in two slots -/

/-- A `comp` that depends on the pointers stored in the slots it is given; it does not expect NULL there. -/
def readsSlots (f : A → A → Int) : StackComp A := fun data1 data2 => do
  match ← eltAt sizeofPtr data1, ← eltAt sizeofPtr data2 with
  | some a, some b => pure (f a b)
  | _, _ => fault .null

/-- The order of pointers, NULL before all others. -/
def ptrCmp (f : A → A → Int) : Ptr A → Ptr A → Int
  | some a, some b => f a b
  | none, none => 0
  | none, some _ => -1
  | some _, none => 1

variable {f : A → A → Int} {s s' : MgStack A} {xs ys : List A} {a : Arr (Ptr A)} {n i j dataMax : Int} {fuel : Nat}

theorem totalPreorder_ptrCmp (hc : TotalPreorder f) : TotalPreorder (ptrCmp f) where
  swap p q := by
    cases p <;> cases q <;> simp [ptrCmp, hc.swap]
  trans p q r := by
    cases p <;> cases q <;> cases r <;> simp [ptrCmp]
    exact hc.trans _ _ _

theorem returns_readsSlots (hi : 0 ≤ i ∧ i < a.size) (hj : 0 ≤ j ∧ j < a.size) (hi' : i < 2 ^ 28) (hj' : j < 2 ^ 28)
    (hin : a.elt i ≠ none) (hjn : a.elt j ≠ none) :
    Returns (readsSlots f (offset i sizeofPtr) (offset j sizeofPtr)) a fun r b =>
      r = ptrCmp f (a.elt i) (a.elt j) ∧ b = a := by
  unfold readsSlots
  rw [returns_bind, returns_eltAt (by decide) hi.1 hi.2 (by unfold sizeofPtr; omega), returns_bind,
    returns_eltAt (by decide) hj.1 hj.2 (by unfold sizeofPtr; omega)]
  obtain ⟨p, hp⟩ := Option.ne_none_iff_exists'.1 hin
  obtain ⟨q, hq⟩ := Option.ne_none_iff_exists'.1 hjn
  rw [hp, hq, returns_pure]
  exact ⟨rfl, rfl⟩

theorem returns_mgStackSwap (hi : 0 ≤ i ∧ i < a.size) (hj : 0 ≤ j ∧ j < a.size) :
    Returns (mgStackSwap i j) a fun _ b => b = { a with elt := a.elt ∘ Equiv.swap i j } := by
  unfold mgStackSwap
  rw [returns_bind, returns_getElt hi.1 hi.2, returns_bind, returns_getElt hj.1 hj.2, returns_bind,
    returns_setElt hi.1 hi.2]
  refine (returns_setElt (a := { a with elt := Function.update a.elt i (a.elt j) }) hj.1 hj.2 _ _).2 ?_
  rw [Equiv.swap_comm, Equiv.comp_swap_eq_update]

/-- The places of the first `2 ^ 28` slots fit into an `int`. -/
theorem sorting {size : Int} (hn : n ≤ size) (hsmall : n ≤ 2 ^ 28) :
    Sorting (readsSlots f) mgStackSwap (ptrCmp f) (· ≠ none) sizeofPtr 0 (n - 1) size where
  cmp a i j hs hi hi' hj hj' hin hjn :=
    returns_readsSlots ⟨hi, by omega⟩ ⟨hj, by omega⟩ (by omega) (by omega) hin hjn
  swap a i j hs hi hi' hj hj' := returns_mgStackSwap ⟨hi, by omega⟩ ⟨hj, by omega⟩

/-! ## Stacks and sequences -/

/-- The stack has the sequence `xs` on it. -/
structure Holds (f : A → A → Int) (dataMax : Int) (s : MgStack A) (xs : List A) : Prop where
  num : s.dataNum = xs.length
  slots : slice s.data.elt 0 xs.length = xs.map some
  size : s.data.size = s.allocNum
  room : 0 < s.allocNum ∧ s.dataNum ≤ s.allocNum
  limit : s.limitNum = true ↔ dataMax ≠ 0
  bound : dataMax ≠ 0 → s.allocNum = dataMax
  sorted : s.sorted = true → Sorted f xs
  comp : s.comp = some (readsSlots f)

theorem holds_init {mallocs : Bool × Bool} (h0 : 0 ≤ dataMax) (hinit : mgStackInit mallocs dataMax (some (readsSlots f)) = some s) :
    Holds f dataMax s [] := by
  obtain ⟨m₁, m₂⟩ := mallocs
  cases m₁ <;> cases m₂ <;> cases hinit
  refine ⟨rfl, rfl, rfl, ?_, by simp, fun hne => if_neg hne, nofun, rfl⟩
  by_cases hz : dataMax = 0
  · simp [hz, DEFAULT_NUM_MAX]
  · simp only [hz, if_false]
    omega

/-! ## The operations -/

theorem returns_onData {α : Type} (m : Prog (Arr (Ptr A)) α) (Q : α → MgStack A → Prop) :
    Returns (onData m) s Q ↔ Returns m s.data fun r data => Q r { s with data } := by
  unfold onData
  rw [returns_zoom]

theorem Holds.pushSlot {p : A} (h : Holds f dataMax s xs) (hroom : s.dataNum < s.allocNum) :
    Returns (pushSlot (some p)) s fun r s' => r = 0 ∧ Holds f dataMax s' (xs ++ [p]) ∧ s'.sorted = false := by
  have hnum := h.num
  have h0 : 0 ≤ s.dataNum := by omega
  unfold Stack.pushSlot
  rw [returns_bind, returns_get, returns_bind, returns_onData, returns_setElt h0 (by rw [h.size]; exact hroom), returns_bind,
    returns_modify, returns_pure]
  have hslots : slice (Function.update s.data.elt s.dataNum (some p)) 0 (xs ++ [p]).length = (xs ++ [p]).map some := by
    rw [List.length_append, List.length_singleton, slice_succ, List.map_append, List.map_singleton, ← h.slots, hnum,
      Int.zero_add, Function.update_self]
    congr 1
    exact slice_congr fun k _ hk => Function.update_of_ne (by omega) _ _
  refine ⟨rfl, ⟨?_, hslots, h.size, ⟨h.room.1, ?_⟩, h.limit, h.bound, nofun, h.comp⟩, rfl⟩
  · rw [List.length_append, List.length_singleton]
    simp only [hnum]
    omega
  · simp only
    omega

/-- What a push comes to: the pointer is on top, or nothing has changed and the code says why. -/
def Pushed (f : A → A → Int) (dataMax : Int) (s : MgStack A) (xs : List A) (data : Ptr A) (realloc : Realloc A) (r : Int)
    (s' : MgStack A) : Prop :=
  match data with
  | none => r = -1 ∧ s' = s
  | some p =>
    if s.dataNum = s.allocNum ∧ dataMax ≠ 0 then r = -2 ∧ s' = s
    else if s.dataNum = s.allocNum ∧ realloc = none then r = -3 ∧ s' = s
    else r = 0 ∧ Holds f dataMax s' (xs ++ [p]) ∧ s'.sorted = false

theorem Holds.push (h : Holds f dataMax s xs) (data : Ptr A) (realloc : Realloc A)
    (hfew : s.dataNum = s.allocNum → realloc ≠ none → s.dataNum < 2 ^ 30) :
    Returns (mgStackPush data realloc) s fun r s' => Pushed f dataMax s xs data realloc r s' := by
  have hroom := h.room
  have hnum := h.num
  unfold mgStackPush Pushed
  cases data with
  | none => exact (returns_pure _ _ _).2 ⟨rfl, rfl⟩
  | some p =>
    simp only [returns_bind, returns_get]
    by_cases hfull : s.dataNum = s.allocNum
    · by_cases hbounded : dataMax = 0
      · have hlimit : s.limitNum ≠ true := fun hl => h.limit.1 hl hbounded
        cases realloc with
        | none => simp [hfull, hlimit, hbounded]
        | some past =>
          -- the block is twice as long, and what was in it stays
          have hfew := hfew hfull (Option.some_ne_none past)
          have hfit : toInt (s.allocNum * 2) = s.allocNum * 2 := toInt_small (by omega) (by omega)
          have hslots : slice (fun k => if k < s.data.size then s.data.elt k else past k) 0 xs.length = xs.map some := by
            rw [← h.slots]
            refine slice_congr fun k _ hk => if_pos ?_
            rw [h.size]
            omega
          have hgrown : Holds f dataMax { s with
              data := ⟨s.allocNum * 2, fun k => if k < s.data.size then s.data.elt k else past k⟩
              allocNum := s.allocNum * 2 } xs :=
            ⟨hnum, hslots, rfl, ⟨by simp only; omega, by simp only; omega⟩, h.limit, fun hne => absurd hbounded hne, h.sorted, h.comp⟩
          have hpush := hgrown.pushSlot (p := p) (by simp only; omega)
          simpa [hfull, hlimit, hbounded, hfit] using hpush
      · have hlimit : s.limitNum = true := h.limit.2 hbounded
        simp [hfull, hlimit, hbounded]
    · have hpush := h.pushSlot (p := p) (by omega)
      simpa [hfull] using hpush

theorem Holds.pop (h : Holds f dataMax s xs) :
    Returns mgStackPop s fun data s' => data = xs.getLast? ∧ Holds f dataMax s' xs.dropLast := by
  have hnum := h.num
  have hroom := h.room
  unfold mgStackPop
  rw [returns_bind, returns_get, returns_ite, returns_pure]
  rcases List.eq_nil_or_concat' xs with rfl | ⟨ys, a, rfl⟩
  · exact ⟨fun _ => ⟨rfl, h⟩, fun hne => absurd (Int.le_of_eq hnum) hne⟩
  rw [List.length_append, List.length_singleton] at hnum
  refine ⟨fun hle => absurd hle (by omega), fun _ => ?_⟩
  have hslots := h.slots
  rw [List.length_append, List.length_singleton, slice_succ, List.map_append, List.map_singleton] at hslots
  obtain ⟨hrest, hlast⟩ := List.append_inj' hslots rfl
  have hat : s.data.elt (s.dataNum - 1) = some a := by
    rw [List.cons.injEq, Int.zero_add] at hlast
    rw [← hlast.1]
    congr 1
    omega
  rw [returns_bind, returns_modify, returns_bind, returns_get, returns_onData, returns_getElt (by simp only; omega)
    (by rw [h.size]; simp only; omega), hat, List.getLast?_concat, List.dropLast_concat]
  refine ⟨rfl, ?_, hrest, h.size, ⟨hroom.1, ?_⟩, h.limit, h.bound, fun hs => ?_, h.comp⟩
  · simp only
    omega
  · simp only
    omega
  · exact (sorted_append.1 (h.sorted hs)).1

/-- A list of pointers none of which is NULL. -/
theorem map_some_filterMap {l : List (Ptr A)} (h : ∀ p ∈ l, p ≠ none) : (l.filterMap id).map some = l := by
  induction l with
  | nil => rfl
  | cons p l ih =>
    obtain ⟨hp, hl⟩ := List.forall_mem_cons.1 h
    obtain ⟨a, rfl⟩ := Option.ne_none_iff_exists'.1 hp
    rw [List.filterMap_cons_some (show id (some a) = some a from rfl), List.map_cons, ih hl]

/-- The slots in another order hold the sequence in another order. -/
theorem perm_of_slots {l : List (Ptr A)} (h : l.Perm (xs.map some)) : ∃ ys : List A, l = ys.map some ∧ ys.Perm xs := by
  refine ⟨l.filterMap id, (map_some_filterMap fun p hp => ?_).symm, ?_⟩
  · obtain ⟨a, -, rfl⟩ := List.mem_map.1 (h.mem_iff.1 hp)
    exact Option.some_ne_none a
  · have hperm := h.filterMap id
    rwa [List.filterMap_map, Function.id_comp, List.filterMap_some] at hperm

theorem Holds.sort (h : Holds f dataMax s xs) (hc : TotalPreorder f) (hfit : s.dataNum ≤ 2 ^ 28 ∨ s.sorted = true)
    (hf : xs.length < fuel) : Returns (mgStackSort fuel) s fun _ s' =>
      ∃ ys, ys.Perm xs ∧ Sorted f ys ∧ Holds f dataMax s' ys ∧ (s.sorted = true → s' = s) := by
  have hnum := h.num
  have hroom := h.room
  unfold mgStackSort
  rw [returns_bind, returns_get, returns_ite, returns_pure]
  refine ⟨fun hskip => ⟨xs, .refl xs, ?_, h, fun _ => rfl⟩, fun hgo => ?_⟩
  · -- the early return: at most one element, or the flag promises the order
    rcases hskip with hone | hnull | hs
    · match xs, hnum with
      | [], _ => exact List.Pairwise.nil
      | [x], _ => exact List.pairwise_singleton _ x
      | x :: y :: xs, hnum => simp only [List.length_cons] at hnum; omega
    · rw [h.comp] at hnull
      cases hnull
    · exact h.sorted hs
  · rw [not_or, not_or] at hgo
    have hsmall := hfit.resolve_right hgo.2.2
    have hnonnull : ∀ k, 0 ≤ k → k ≤ s.dataNum - 1 → s.data.elt k ≠ none := by
      intro k hk hkn
      have hget := elem_of_slice h.slots (i := k.toNat) (by omega)
      rw [show (0 : Int) + (k.toNat : Int) = k by omega] at hget
      rw [hget]
      exact Option.some_ne_none _
    rw [h.comp, returns_bind, returns_onData]
    refine (returns_mgfastsort (totalPreorder_ptrCmp hc) (Int.le_refl 0) (.inl (by omega))
      (sorting (by rw [h.size]; exact hroom.2) hsmall) rfl hnonnull (by omega)).mono fun _ b hb => ?_
    obtain ⟨hsize, hre, hord⟩ := hb
    rw [returns_modify]
    have hperm := (show Permuted 0 (0 + (xs.length : Int) - 1) s.data.elt b.elt by rwa [Int.zero_add, ← hnum]).perm
    rw [h.slots] at hperm
    obtain ⟨ys, hslots, hys⟩ := perm_of_slots hperm
    have hsorted : Sorted f ys := by
      refine List.pairwise_iff_getElem.2 fun i j hi hj hij => ?_
      have hlen := hys.length_eq
      have hle := hord i j (by omega) (by omega) (by omega)
      have hget : ∀ k (hk : k < ys.length), b.elt k = some ys[k] := fun k hk => by
        have hget := elem_of_slice hslots hk
        rwa [Int.zero_add] at hget
      rwa [hget i hi, hget j hj] at hle
    refine ⟨ys, hys, hsorted, ⟨?_, ?_, hsize.trans h.size, hroom, h.limit, h.bound, fun _ => hsorted, h.comp⟩, fun hs => ?_⟩
    · rw [hys.length_eq]
      exact hnum
    · rw [hys.length_eq]
      exact hslots
    · exact absurd hs hgo.2.2

/-! ## Runs -/

inductive Op (A : Type)
  | push (data : Ptr A) (realloc : Realloc A)
  | pop
  | sort

inductive Answer (A : Type)
  | code (r : Int)
  | data (p : Ptr A)
  | done

/-- More rounds than sorting a stack of up to `2 ^ 30` elements takes. -/
def rounds : Nat := 2 ^ 30 + 1

def Op.exec : Op A → Prog (MgStack A) (Answer A)
  | .push data realloc => do pure (.code (← mgStackPush data realloc))
  | .pop => do pure (.data (← mgStackPop))
  | .sort => do
    mgStackSort rounds
    pure .done

def step (s : MgStack A) (op : Op A) : Option (Except Fault (MgStack A)) :=
  match op.exec s with
  | .ok (_, s') => some (.ok s')
  | .error e => some (.error e)

/-- The stack has fewer than `2 ^ 30` elements when one is pushed. -/
def Op.Few (s : MgStack A) : Op A → Prop
  | .push _ _ => s.dataNum < 2 ^ 30
  | .pop | .sort => s.dataNum ≤ 2 ^ 30

/-- What there is to sort is at most `2 ^ 28` elements. -/
def Op.Sortable (s : MgStack A) : Op A → Prop
  | .sort => s.dataNum ≤ 2 ^ 28 ∨ s.sorted = true
  | .push _ _ | .pop => True

/-- What an operation answers and leaves, on a stack that has `xs` on it. -/
def Op.Does (f : A → A → Int) (dataMax : Int) (s : MgStack A) (xs : List A) : Op A → Answer A → MgStack A → Prop
  | .push data realloc, ans, s' => ∃ r, ans = .code r ∧ Pushed f dataMax s xs data realloc r s'
  | .pop, ans, s' => ans = .data xs.getLast? ∧ Holds f dataMax s' xs.dropLast
  | .sort, ans, s' => ans = .done ∧
    ∃ ys, ys.Perm xs ∧ Sorted f ys ∧ Holds f dataMax s' ys ∧ (s.sorted = true → s' = s)

theorem Op.Does.holds {op : Op A} {ans : Answer A} (h : Holds f dataMax s xs) (hd : op.Does f dataMax s xs ans s') :
    ∃ ys, Holds f dataMax s' ys := by
  cases op with
  | push data realloc =>
    obtain ⟨r, -, hp⟩ := hd
    unfold Pushed at hp
    cases data with
    | none => exact ⟨xs, hp.2 ▸ h⟩
    | some p =>
      simp only at hp
      split at hp
      · exact ⟨xs, hp.2 ▸ h⟩
      · split at hp
        · exact ⟨xs, hp.2 ▸ h⟩
        · exact ⟨_, hp.2.1⟩
  | pop => exact ⟨_, hd.2⟩
  | sort =>
    obtain ⟨-, ys, -, -, hh, -⟩ := hd
    exact ⟨ys, hh⟩

theorem Holds.exec (h : Holds f dataMax s xs) (hc : TotalPreorder f) {op : Op A} (hfew : op.Few s) (hfit : op.Sortable s) :
    Returns op.exec s (op.Does f dataMax s xs) := by
  cases op with
  | push data realloc =>
    refine (h.push data realloc fun _ _ => hfew).bind fun r s' hr => ?_
    exact (returns_pure _ _ _).2 ⟨r, rfl, hr⟩
  | pop =>
    refine h.pop.bind fun p s' hp => ?_
    exact (returns_pure _ _ _).2 ⟨congrArg _ hp.1, hp.2⟩
  | sort =>
    have hlen : xs.length < rounds := by
      have hnum := h.num
      have hsmall : s.dataNum ≤ 2 ^ 30 := hfew
      unfold rounds
      omega
    refine (h.sort hc hfit hlen).bind fun _ s' hs => ?_
    exact (returns_pure _ _ _).2 ⟨rfl, hs⟩

/-- After any run of pushes, pops and sorts, with any outcomes of `realloc`, in which what was sorted had at most `2 ^ 28`
elements: the stack has a sequence on it, which is in order if the `sorted` flag is set, and the next operation does to it
what it does to sequences. -/
theorem mg_stack_refines (hc : TotalPreorder f) (h0 : 0 ≤ dataMax) {mallocs : Bool × Bool} {s₀ : MgStack A}
    (hinit : mgStackInit mallocs dataMax (some (readsSlots f)) = some s₀) {ops : List (Op A)}
    (hrun : Run step (fun s op => op.Few s ∧ op.Sortable s) s₀ ops s) :
    ∃ xs, Holds f dataMax s xs ∧ ∀ op : Op A, op.Few s → op.Sortable s →
      Returns op.exec s fun ans s' => op.Does f dataMax s xs ans s' ∧ step s op = some (.ok s') := by
  obtain ⟨xs, hxs⟩ : ∃ xs, Holds f dataMax s xs := by
    apply hrun.inv_total (fun s => ∃ xs, Holds f dataMax s xs) ⟨[], holds_init h0 hinit⟩
    intro s op hs hok
    obtain ⟨xs, hxs⟩ := hs
    obtain ⟨ans, s', hexec, hd⟩ := hxs.exec hc hok.1 hok.2
    exact ⟨s', by rw [step, hexec], hd.holds hxs⟩
  refine ⟨xs, hxs, fun op hfew hfit => ?_⟩
  obtain ⟨ans, s', hexec, hd⟩ := hxs.exec hc hfew hfit
  exact ⟨ans, s', hexec, hd, by rw [step, hexec]⟩

instance (s : MgStack A) (op : Op A) : Decidable (op.Few s) := by
  cases op <;> unfold Op.Few <;> infer_instance

instance (s : MgStack A) (op : Op A) : Decidable (op.Sortable s) := by
  cases op <;> unfold Op.Sortable <;> infer_instance

/-- Three numbers, sorted; the greatest is popped. -/
def testOps : List (Op Int) := [.push (some 3) none, .push (some 1) none, .push (some 2) none, .sort]

theorem mg_stack_refines_test : ∃ s₀ s : MgStack Int, mgStackInit (true, true) 0 (some (readsSlots fun a b => a - b)) = some s₀ ∧
    Run step (fun s op => op.Few s ∧ op.Sortable s) s₀ testOps s ∧ Holds (fun a b => a - b) 0 s [1, 2, 3] ∧
    Returns (Op.pop).exec s fun ans _ => ans = .data (some 3) := by
  obtain ⟨s₀, hinit⟩ : ∃ s₀ : MgStack Int, mgStackInit (true, true) 0 (some (readsSlots fun a b => a - b)) = some s₀ := ⟨_, rfl⟩
  obtain ⟨s, hs, hnum, hslots⟩ : ∃ s, exec step (fun s op => decide (op.Few s ∧ op.Sortable s)) s₀ testOps = some s ∧
      s.dataNum = 3 ∧ slice s.data.elt 0 3 = [1, 2, 3].map some := by
    cases hinit
    exact ⟨_, rfl, rfl, rfl⟩
  have hrun := run_of_exec (fun _ _ h => of_decide_eq_true h) hs
  obtain ⟨xs, hxs, hnext⟩ := mg_stack_refines (.of_key id) (by decide) hinit hrun
  have hlen : xs.length = 3 := by
    have := hxs.num
    omega
  obtain rfl : xs = [1, 2, 3] := by
    have hmap := hxs.slots
    rw [hlen, hslots] at hmap
    exact List.map_injective_iff.2 (Option.some_injective Int) hmap.symm
  refine ⟨s₀, s, hinit, hrun, hxs, (hnext .pop ?_ trivial).mono fun ans s' h => h.1.1⟩
  show s.dataNum ≤ 2 ^ 30
  omega

/-! ## More than `2 ^ 28` elements -/

/-- A bounded stack with room takes `n` pushes. -/
theorem run_pushes {s₀ : MgStack A} (hinit : Holds f dataMax s₀ []) (hflag : s₀.sorted = false) (p : A) (hc : TotalPreorder f) :
    ∀ n : Nat, (n : Int) ≤ dataMax → (n : Int) ≤ 2 ^ 30 → ∃ s, Run step (fun s op => op.Few s) s₀ (List.replicate n (.push (some p) none)) s ∧
      Holds f dataMax s (List.replicate n p) ∧ s.sorted = false := by
  intro n
  induction n with
  | zero => exact fun _ _ => ⟨s₀, .nil, hinit, hflag⟩
  | succ n ih =>
    intro hmax hsmall
    obtain ⟨s, hrun, hs, -⟩ := ih (by omega) (by omega)
    have hnum := hs.num
    rw [List.length_replicate] at hnum
    have hfew : (Op.push (some p) none).Few s := by
      show s.dataNum < 2 ^ 30
      omega
    obtain ⟨ans, s', hexec, r, -, hpush⟩ := hs.exec hc hfew trivial
    have halloc := hs.bound (by omega)
    simp only [Pushed] at hpush
    rw [if_neg (by omega), if_neg (by omega)] at hpush
    refine ⟨s', ?_, ?_, hpush.2.2⟩
    · rw [List.replicate_succ']
      exact hrun.snoc hfew (by rw [step, hexec])
    · rw [List.replicate_succ']
      exact hpush.2.1

/-- The byte place of slot `2 ^ 28` does not fit into an `int`: the comparison goes to an address before the array. -/
theorem mg_stack_sort_overflow : ∃ (s₀ s : MgStack Unit) (ops : List (Op Unit)), TotalPreorder (fun _ _ : Unit => (0 : Int)) ∧
    mgStackInit (true, true) (2 ^ 28 + 1) (some (readsSlots fun _ _ => 0)) = some s₀ ∧
    Run step (fun s op => op.Few s) s₀ ops s ∧ s.dataNum = 2 ^ 28 + 1 ∧ ∀ fuel Q, ¬ Returns (mgStackSort fuel) s Q := by
  have hc : TotalPreorder (fun _ _ : Unit => (0 : Int)) := .of_key fun _ => 0
  obtain ⟨s₀, hinit⟩ : ∃ s₀ : MgStack Unit, mgStackInit (true, true) (2 ^ 28 + 1) (some (readsSlots fun _ _ => 0)) = some s₀ ∧
      s₀.sorted = false := ⟨_, rfl, rfl⟩
  obtain ⟨s, hrun, hs, hflag⟩ := run_pushes (holds_init (by decide) hinit.1) hinit.2 () hc (2 ^ 28 + 1) (by decide) (by decide)
  have hnum := hs.num
  rw [List.length_replicate] at hnum
  refine ⟨s₀, s, _, hc, hinit.1, hrun, by rw [hnum]; rfl, fun fuel => ?_⟩
  apply Ensures.not_returns
  unfold mgStackSort
  rw [ensures_bind, ensures_get, ensures_ite]
  refine ⟨fun hskip => ?_, fun _ => ?_⟩
  · rw [hs.comp, hflag] at hskip
    rcases hskip with hskip | hskip | hskip
    · omega
    · cases hskip
    · cases hskip
  · rw [hs.comp, ensures_bind, onData, ensures_zoom]
    refine (mgfastsort_fails (by omega) (fun a => ?_) fuel).mono fun _ _ hfalse => hfalse.elim
    have hplace : offset (s.dataNum - 1) sizeofPtr = -2 ^ 31 := by
      rw [hnum]
      decide
    rw [hplace, readsSlots, ensures_bind]
    exact ensures_eltAt_neg (by decide) (by decide) _

end MgStd.Stack
