import Mathlib.Data.List.Nodup
/-!
# Lists of records with keys

A bucket is a list of records searched from the front. `lookup` finds the first
record with a key and `place` its position; records are replaced and erased at
the place of their key and added at the end.
-/

namespace MgStd.Lib

variable {α κ : Type} [DecidableEq κ] (key : α → κ)

def lookup (k : κ) (l : List α) : Option α := l.find? fun x => key x = k

def place (k : κ) (l : List α) : Option Nat := l.findIdx? fun x => key x = k

variable {key} {k k' : κ} {l : List α} {p : Nat} {x : α} {f : α → α}

@[simp] theorem lookup_nil : lookup key k [] = none := rfl

theorem lookup_cons_self (hx : key x = k) : lookup key k (x :: l) = some x := by
  unfold lookup
  simp [hx]

theorem lookup_cons_ne (hx : key x ≠ k) : lookup key k (x :: l) = lookup key k l := by
  unfold lookup
  simp [hx]

theorem place_cons_self (hx : key x = k) : place key k (x :: l) = some 0 := by
  unfold place
  simp [List.findIdx?_cons, hx]

theorem place_cons_ne (hx : key x ≠ k) : place key k (x :: l) = (place key k l).map (· + 1) := by
  unfold place
  simp [List.findIdx?_cons, hx]

theorem lookup_eq_none : lookup key k l = none ↔ k ∉ l.map key := by
  unfold lookup
  simp [List.find?_eq_none]

/-- The place of a key is where it is found. -/
theorem getElem?_place (h : place key k l = some p) : ∃ x, l[p]? = some x ∧ lookup key k l = some x := by
  induction l generalizing p with
  | nil => cases h
  | cons y l ih =>
    by_cases hy : key y = k
    · rw [place_cons_self hy] at h
      cases h
      exact ⟨y, rfl, lookup_cons_self hy⟩
    · rw [place_cons_ne hy] at h
      obtain ⟨q, hq, rfl⟩ := Option.map_eq_some_iff.1 h
      obtain ⟨x, hx, hl⟩ := ih hq
      exact ⟨x, hx, (lookup_cons_ne hy).trans hl⟩

theorem place_eq_none : place key k l = none ↔ lookup key k l = none := by
  unfold place lookup
  rw [List.findIdx?_eq_none_iff, List.find?_eq_none]
  simp

/-- The place of a key depends on the keys only. -/
theorem place_eq : place key k l = (l.map key).findIdx? fun x => x = k := by
  unfold place
  rw [List.findIdx?_map]
  rfl

/-! ## Replacing a record -/

theorem lookup_modify_self (hp : place key k l = some p) (hf : ∀ x, key (f x) = key x) :
    lookup key k (l.modify p f) = (lookup key k l).map f := by
  induction l generalizing p with
  | nil => cases hp
  | cons y l ih =>
    by_cases hy : key y = k
    · rw [place_cons_self hy] at hp
      cases hp
      rw [List.modify_zero_cons, lookup_cons_self hy, lookup_cons_self ((hf y).trans hy)]
      rfl
    · rw [place_cons_ne hy] at hp
      obtain ⟨q, hq, rfl⟩ := Option.map_eq_some_iff.1 hp
      rw [List.modify_succ_cons, lookup_cons_ne hy, lookup_cons_ne hy, ih hq]

theorem lookup_modify_ne (hp : place key k l = some p) (hf : ∀ x, key (f x) = key x) (hk : k' ≠ k) :
    lookup key k' (l.modify p f) = lookup key k' l := by
  induction l generalizing p with
  | nil => cases hp
  | cons y l ih =>
    by_cases hy : key y = k
    · rw [place_cons_self hy] at hp
      cases hp
      have hy' : key y ≠ k' := fun e => hk (e.symm.trans hy)
      rw [List.modify_zero_cons, lookup_cons_ne hy', lookup_cons_ne ((hf y).trans_ne hy')]
    · rw [place_cons_ne hy] at hp
      obtain ⟨q, hq, rfl⟩ := Option.map_eq_some_iff.1 hp
      rw [List.modify_succ_cons]
      by_cases hy' : key y = k'
      · rw [lookup_cons_self hy', lookup_cons_self hy']
      · rw [lookup_cons_ne hy', lookup_cons_ne hy', ih hq]

omit [DecidableEq κ] in
theorem map_key_modify (hf : ∀ x, key (f x) = key x) : (l.modify p f).map key = l.map key := by
  induction l generalizing p with
  | nil => simp
  | cons y l ih =>
    cases p with
    | zero => rw [List.modify_zero_cons, List.map_cons, List.map_cons, hf]
    | succ p => rw [List.modify_succ_cons, List.map_cons, List.map_cons, ih]

omit [DecidableEq κ] in
theorem modify_eq_self (h : ∀ x, l[p]? = some x → f x = x) : l.modify p f = l := by
  apply List.ext_getElem?
  intro i
  by_cases hi : p = i
  · subst hi
    rw [List.getElem?_modify_eq]
    cases hx : l[p]? with
    | none => rfl
    | some x => exact congrArg some (h x hx)
  · exact List.getElem?_modify_ne f l hi

theorem mem_modify (h : x ∈ l.modify p f) : x ∈ l ∨ ∃ y ∈ l, x = f y := by
  induction l generalizing p with
  | nil => simp at h
  | cons y l ih =>
    cases p with
    | zero =>
      rw [List.modify_zero_cons, List.mem_cons] at h
      rcases h with rfl | h
      · exact .inr ⟨y, List.mem_cons_self, rfl⟩
      · exact .inl (List.mem_cons_of_mem _ h)
    | succ p =>
      rw [List.modify_succ_cons, List.mem_cons] at h
      rcases h with rfl | h
      · exact .inl List.mem_cons_self
      · rcases ih h with h | ⟨z, hz, rfl⟩
        · exact .inl (List.mem_cons_of_mem _ h)
        · exact .inr ⟨z, List.mem_cons_of_mem _ hz, rfl⟩

/-! ## Erasing a record -/

theorem lookup_eraseIdx_ne (hp : place key k l = some p) (hk : k' ≠ k) :
    lookup key k' (l.eraseIdx p) = lookup key k' l := by
  induction l generalizing p with
  | nil => cases hp
  | cons y l ih =>
    by_cases hy : key y = k
    · rw [place_cons_self hy] at hp
      cases hp
      have hy' : key y ≠ k' := fun e => hk (e.symm.trans hy)
      rw [List.eraseIdx_cons_zero, lookup_cons_ne hy']
    · rw [place_cons_ne hy] at hp
      obtain ⟨q, hq, rfl⟩ := Option.map_eq_some_iff.1 hp
      rw [List.eraseIdx_cons_succ]
      by_cases hy' : key y = k'
      · rw [lookup_cons_self hy', lookup_cons_self hy']
      · rw [lookup_cons_ne hy', lookup_cons_ne hy', ih hq]

/-- Where keys are unique, an erased key is gone. -/
theorem lookup_eraseIdx_self (hp : place key k l = some p) (hn : (l.map key).Nodup) :
    lookup key k (l.eraseIdx p) = none := by
  induction l generalizing p with
  | nil => cases hp
  | cons y l ih =>
    rw [List.map_cons, List.nodup_cons] at hn
    by_cases hy : key y = k
    · rw [place_cons_self hy] at hp
      cases hp
      rw [List.eraseIdx_cons_zero, lookup_eq_none, ← hy]
      exact hn.1
    · rw [place_cons_ne hy] at hp
      obtain ⟨q, hq, rfl⟩ := Option.map_eq_some_iff.1 hp
      rw [List.eraseIdx_cons_succ, lookup_cons_ne hy, ih hq hn.2]

omit [DecidableEq κ] in
theorem nodup_eraseIdx (hn : (l.map key).Nodup) : ((l.eraseIdx p).map key).Nodup :=
  hn.sublist ((List.eraseIdx_sublist l p).map key)

/-! ## Adding a record -/

theorem lookup_concat_ne (hx : key x ≠ k) : lookup key k (l ++ [x]) = lookup key k l := by
  induction l with
  | nil => exact lookup_cons_ne hx
  | cons y l ih =>
    rw [List.cons_append]
    by_cases hy : key y = k
    · rw [lookup_cons_self hy, lookup_cons_self hy]
    · rw [lookup_cons_ne hy, lookup_cons_ne hy, ih]

theorem lookup_concat_self (hx : key x = k) (hl : lookup key k l = none) : lookup key k (l ++ [x]) = some x := by
  induction l with
  | nil => exact lookup_cons_self hx
  | cons y l ih =>
    rw [List.cons_append]
    by_cases hy : key y = k
    · rw [lookup_cons_self hy] at hl
      cases hl
    · rw [lookup_cons_ne hy] at hl ⊢
      exact ih hl

theorem nodup_concat (hn : (l.map key).Nodup) (hl : lookup key (key x) l = none) : ((l ++ [x]).map key).Nodup := by
  rw [List.map_append, List.map_singleton, ← List.concat_eq_append]
  exact hn.concat (lookup_eq_none.1 hl)

end MgStd.Lib
