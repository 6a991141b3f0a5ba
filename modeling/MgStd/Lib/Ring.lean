import Mathlib.Data.List.Cycle
import MgStd.Lib.Heap
/-!
# Rings of doubly linked records

`next` and `prev` are the links of the records, as functions of their addresses.
A ring is a cycle of addresses, consecutive ones linked both ways; where it is
cut open does not matter. The edits of a ring are the insertion of a linked
piece, the removal of a record and the replacement of one by another, each
described by the links that it writes.
-/

namespace MgStd.Lib

open List

variable {A : Type} {next prev next' prev' : A → Ptr A} {x y z : A} {l xs ys rest : List A}

/-- `y` follows `x`. -/
def Linked (next prev : A → Ptr A) (x y : A) : Prop := next x = some y ∧ prev y = some x

/-- The addresses, each followed by the next and the last by the first. -/
def Ring (next prev : A → Ptr A) (l : List A) : Prop := Cycle.Chain (Linked next prev) l

theorem ring_cons : Ring next prev (x :: xs) ↔ IsChain (Linked next prev) (x :: (xs ++ [x])) :=
  Cycle.chain_coe_cons _ x xs

@[simp] theorem ring_single : Ring next prev [x] ↔ next x = some x ∧ prev x = some x :=
  Cycle.chain_singleton _ x

/-- A ring is one from wherever it is cut. -/
theorem ring_isRotated (h : l ~r xs) : Ring next prev l ↔ Ring next prev xs := by
  unfold Ring
  rw [Cycle.coe_eq_coe.2 h]

theorem ring_rotate : Ring next prev (xs ++ ys) ↔ Ring next prev (ys ++ xs) := by
  unfold Ring
  rw [Cycle.coe_eq_coe.2 (show (xs ++ ys) ~r (ys ++ xs) from isRotated_append)]

/-- Links depend on the next fields of all but the last record, and the prev fields of all but the first. -/
theorem links_congr (h : IsChain (Linked next prev) l) (hn : ∀ a ∈ l.dropLast, next' a = next a)
    (hp : ∀ a ∈ l.tail, prev' a = prev a) : IsChain (Linked next' prev') l := by
  induction l with
  | nil => exact isChain_nil
  | cons x l ih =>
    cases l with
    | nil => exact isChain_singleton x
    | cons y l =>
      rw [isChain_cons_cons] at h ⊢
      rw [dropLast_cons_cons, forall_mem_cons] at hn
      rw [tail_cons, forall_mem_cons] at hp
      exact ⟨⟨hn.1.trans h.1.1, hp.1.trans h.1.2⟩, ih h.2 hn.2 hp.2⟩

theorem Ring.congr (h : Ring next prev l) (hl : ∀ a ∈ l, next' a = next a ∧ prev' a = prev a) :
    Ring next' prev' l := by
  cases l with
  | nil => exact Cycle.Chain.nil _
  | cons x xs =>
    rw [ring_cons] at h ⊢
    refine links_congr h (fun a ha => (hl a ?_).1) fun a ha => (hl a ?_).2
    · rwa [← cons_append, dropLast_concat] at ha
    · rw [tail_cons, mem_append, mem_singleton] at ha
      rcases ha with ha | rfl
      · exact mem_cons_of_mem x ha
      · exact mem_cons_self

/-! ## What the links of a ring are -/

theorem Ring.next_head (h : Ring next prev (x :: xs)) : next x = some ((xs ++ [x]).head (by simp)) := by
  rw [ring_cons] at h
  cases xs with
  | nil => exact (isChain_pair.1 h).1
  | cons y xs => exact (isChain_cons_cons.1 h).1.1

theorem Ring.prev_head (h : Ring next prev (x :: xs)) : prev x = some ((x :: xs).getLast (by simp)) := by
  have h' : Ring next prev ((x :: xs).getLast (by simp) :: (x :: xs).dropLast) := by
    have hsplit := dropLast_concat_getLast (l := x :: xs) (by simp)
    rw [← hsplit, ring_rotate] at h
    exact h
  rw [ring_cons] at h'
  cases xs with
  | nil => exact (isChain_pair.1 h').2
  | cons y xs => exact (isChain_cons_cons.1 h').1.2

/-- A ring opened before one of its records. -/
theorem ring_open : Ring next prev (xs ++ x :: ys) ↔ Ring next prev (x :: (ys ++ xs)) := by
  rw [ring_rotate, cons_append]

/-- Behind a record that is not the first comes the rest, and the first again. -/
theorem Ring.next_mem (h : Ring next prev (z :: (xs ++ x :: ys))) : next x = some ((ys ++ [z]).head (by simp)) := by
  rw [← cons_append, ring_open] at h
  rw [h.next_head]
  cases ys <;> rfl

/-! ## Edits -/

theorem ne_getLast_of_mem_dropLast (hnd : l.Nodup) (hl : l ≠ []) (hx : x ∈ l.dropLast) : x ≠ l.getLast hl := by
  rw [← dropLast_append_getLast hl, nodup_append] at hnd
  exact hnd.2.2 x hx _ (mem_singleton_self _)

theorem ne_head_of_mem_tail (hnd : l.Nodup) (hl : l ≠ []) (hx : x ∈ l.tail) : x ≠ l.head hl := by
  rw [← cons_head_tail hl, nodup_cons] at hnd
  exact fun e => hnd.1 (e ▸ hx)

/-- A linked piece stays linked when only the ends of it are written that lead out. -/
theorem links_inside (h : IsChain (Linked next prev) l) (hl : l ≠ []) (hnd : l.Nodup)
    (hn : ∀ a ∈ l, a ≠ l.getLast hl → next' a = next a) (hp : ∀ a ∈ l, a ≠ l.head hl → prev' a = prev a) :
    IsChain (Linked next' prev') l :=
  links_congr h (fun a ha => hn a (mem_of_mem_dropLast ha) (ne_getLast_of_mem_dropLast hnd hl ha))
    fun a ha => hp a (mem_of_mem_tail ha) (ne_head_of_mem_tail hnd hl ha)

/-- The record behind `x` is on its ring. -/
theorem head_concat_mem {n : A} (hn : (xs ++ [x]).head (by simp) = n) : n ∈ x :: xs := by
  have hin : (xs ++ [x]).head (by simp) ∈ xs ++ [x] := head_mem _
  rw [hn, mem_append, mem_singleton] at hin
  exact mem_cons.2 hin.symm

theorem links_append (hxs : xs ≠ []) (hys : ys ≠ []) : IsChain (Linked next prev) (xs ++ ys) ↔
    IsChain (Linked next prev) xs ∧ IsChain (Linked next prev) ys ∧ Linked next prev (xs.getLast hxs) (ys.head hys) := by
  rw [isChain_append, getLast?_eq_some_getLast hxs, head?_eq_some_head hys]
  simp

/-- A ring is a linked piece whose end is linked to its start. -/
theorem ring_iff (hl : l ≠ []) :
    Ring next prev l ↔ IsChain (Linked next prev) l ∧ Linked next prev (l.getLast hl) (l.head hl) := by
  obtain ⟨x, xs, rfl⟩ := exists_cons_of_ne_nil hl
  rw [ring_cons, ← cons_append, links_append (cons_ne_nil x xs) (cons_ne_nil x [])]
  simp

/-- A ring opened behind its first record. -/
theorem ring_behind : Ring next prev (x :: xs) ↔ Ring next prev (xs ++ [x]) := by
  rw [← singleton_append, ring_rotate]

section
variable [DecidableEq A] {first last p n : A}

/-- `xs`, linked from `first` to `last`, is put between `p` and the record `n` that followed it. -/
theorem Ring.splice (h : Ring next prev (p :: rest)) (hn : (rest ++ [p]).head (by simp) = n) (hxs : xs ≠ [])
    (hlinks : IsChain (Linked next prev) xs) (hfirst : xs.head hxs = first) (hlast : xs.getLast hxs = last)
    (hnd : (xs ++ p :: rest).Nodup) :
    Ring (Function.update (Function.update next p (some first)) last (some n))
      (Function.update (Function.update prev first (some p)) n (some last)) (p :: (xs ++ rest)) := by
  have hopen : rest ++ [p] ≠ [] := by simp
  have hend : (rest ++ [p]).getLast hopen = p := getLast_append_singleton rest
  obtain ⟨hndxs, hndr, hdisj⟩ := nodup_append.1 hnd
  rw [← (perm_append_singleton p rest).nodup_iff] at hndr
  have hout : ∀ a ∈ xs, a ∉ rest ++ [p] := fun a ha hb => hdisj a ha a ((perm_append_singleton p rest).mem_iff.1 hb) rfl
  have hfirstmem : first ∈ xs := hfirst ▸ head_mem hxs
  have hlastmem : last ∈ xs := hlast ▸ getLast_mem hxs
  have hpmem : p ∈ rest ++ [p] := mem_concat_self
  have hnmem : n ∈ rest ++ [p] := hn ▸ head_mem hopen
  have hlp : last ≠ p := fun e => hout last hlastmem (e ▸ hpmem)
  have hfn : first ≠ n := fun e => hout first hfirstmem (e ▸ hnmem)
  rw [ring_behind, ring_iff hopen] at h
  rw [ring_behind, append_assoc, ring_iff (by simp), links_append hxs hopen]
  simp only [getLast_append_of_ne_nil _ hopen, head_append_of_ne_nil hxs, hend, hn, hfirst, hlast]
  refine ⟨⟨links_inside hlinks hxs hndxs (fun a ha hal => ?_) fun a ha haf => ?_,
    links_inside h.1 hopen hndr (fun a ha hap => ?_) fun a ha han => ?_, ?_, ?_⟩, ?_, ?_⟩
  · have hap : a ≠ p := fun e => hout a ha (e ▸ hpmem)
    rw [Function.update_of_ne (hlast ▸ hal), Function.update_of_ne hap]
  · have han : a ≠ n := fun e => hout a ha (e ▸ hnmem)
    rw [Function.update_of_ne han, Function.update_of_ne (hfirst ▸ haf)]
  · have hal : a ≠ last := fun e => hout last hlastmem (e ▸ ha)
    rw [Function.update_of_ne hal, Function.update_of_ne (hend ▸ hap)]
  · have haf : a ≠ first := fun e => hout first hfirstmem (e ▸ ha)
    rw [Function.update_of_ne (hn ▸ han), Function.update_of_ne haf]
  · exact Function.update_self ..
  · exact Function.update_self ..
  · rw [Function.update_of_ne hlp.symm, Function.update_self]
  · rw [Function.update_of_ne hfn, Function.update_self]

/-- `xs`, linked from `first` to `last`, is cut out from behind `p` and closed around `z`. -/
theorem Ring.cut (h : Ring next prev (p :: (xs ++ rest))) (hn : (rest ++ [p]).head (by simp) = n) (hxs : xs ≠ [])
    (hfirst : xs.head hxs = first) (hlast : xs.getLast hxs = last) (hnd : (z :: p :: (xs ++ rest)).Nodup)
    (hnext' : next' = Function.update (Function.update (Function.update next z (some first)) last (some z)) p (some n))
    (hprev' : prev' = Function.update (Function.update (Function.update prev first (some z)) z (some last)) n (some p)) :
    Ring next' prev' (z :: xs) ∧ Ring next' prev' (p :: rest) := by
  have hopen : rest ++ [p] ≠ [] := by simp
  have hend : (rest ++ [p]).getLast hopen = p := getLast_append_singleton rest
  rw [ring_behind, append_assoc, ring_iff (by simp), links_append hxs hopen] at h
  obtain ⟨⟨hlinks, hrest, -⟩, -⟩ := h
  obtain ⟨hz, hnd⟩ := nodup_cons.1 hnd
  rw [← (perm_append_singleton p (xs ++ rest)).nodup_iff, append_assoc, nodup_append] at hnd
  obtain ⟨hndxs, hndr, hdisj⟩ := hnd
  have hout : ∀ a ∈ xs, a ∉ rest ++ [p] := fun a ha hb => hdisj a ha a hb rfl
  have hfirstmem : first ∈ xs := hfirst ▸ head_mem hxs
  have hlastmem : last ∈ xs := hlast ▸ getLast_mem hxs
  have hpmem : p ∈ rest ++ [p] := mem_concat_self
  have hnmem : n ∈ rest ++ [p] := hn ▸ head_mem hopen
  have hlp : last ≠ p := fun e => hout last hlastmem (e ▸ hpmem)
  have hfn : first ≠ n := fun e => hout first hfirstmem (e ▸ hnmem)
  have hzx : ∀ a ∈ xs, a ≠ z := fun a ha e => hz (mem_cons_of_mem p (mem_append_left rest (e ▸ ha)))
  have hzr : ∀ a ∈ rest ++ [p], a ≠ z := by
    intro a ha e
    rcases mem_cons.1 ((perm_append_singleton p rest).mem_iff.1 ha) with hap | har
    · exact hz (mem_cons.2 (.inl (e ▸ hap)))
    · exact hz (mem_cons_of_mem p (mem_append_right xs (e ▸ har)))
  subst hnext' hprev'
  constructor
  · rw [ring_behind, ring_iff (by simp), links_append hxs (cons_ne_nil z [])]
    simp only [getLast_append_singleton, head_append_of_ne_nil hxs, head_cons, hfirst, hlast]
    refine ⟨⟨links_inside hlinks hxs hndxs (fun a ha hal => ?_) fun a ha haf => ?_, isChain_singleton z, ?_, ?_⟩, ?_, ?_⟩
    · have hap : a ≠ p := fun e => hout a ha (e ▸ hpmem)
      rw [Function.update_of_ne hap, Function.update_of_ne (hlast ▸ hal), Function.update_of_ne (hzx a ha)]
    · have han : a ≠ n := fun e => hout a ha (e ▸ hnmem)
      rw [Function.update_of_ne han, Function.update_of_ne (hzx a ha), Function.update_of_ne (hfirst ▸ haf)]
    · rw [Function.update_of_ne hlp, Function.update_self]
    · rw [Function.update_of_ne (hzr n hnmem).symm, Function.update_self]
    · rw [Function.update_of_ne (hzr p hpmem).symm, Function.update_of_ne (hzx last hlastmem).symm, Function.update_self]
    · rw [Function.update_of_ne hfn, Function.update_of_ne (hzx first hfirstmem), Function.update_self]
  · rw [ring_behind, ring_iff hopen]
    simp only [hend, hn]
    refine ⟨links_inside hrest hopen hndr (fun a ha hap => ?_) fun a ha han => ?_, ?_, ?_⟩
    · have hal : a ≠ last := fun e => hout last hlastmem (e ▸ ha)
      rw [Function.update_of_ne (hend ▸ hap), Function.update_of_ne hal, Function.update_of_ne (hzr a ha)]
    · have haf : a ≠ first := fun e => hout first hfirstmem (e ▸ ha)
      rw [Function.update_of_ne (hn ▸ han), Function.update_of_ne (hzr a ha), Function.update_of_ne haf]
    · exact Function.update_self ..
    · exact Function.update_self ..

/-- `x` is taken out from between `p` and `n`. -/
theorem Ring.unlink (h : Ring next prev (x :: rest)) (hr : rest ≠ []) (hp : rest.getLast hr = p) (hn : rest.head hr = n)
    (hnd : rest.Nodup) :
    Ring (Function.update next p (some n)) (Function.update prev n (some p)) rest := by
  rw [ring_behind, ring_iff (by simp), links_append hr (cons_ne_nil x [])] at h
  rw [ring_iff hr, hp, hn]
  refine ⟨links_inside h.1.1 hr hnd (fun a _ hap => ?_) fun a _ han => ?_, Function.update_self .., Function.update_self ..⟩
  · rw [Function.update_of_ne (hp ▸ hap)]
  · rw [Function.update_of_ne (hn ▸ han)]

/-- `y` takes the place of `x`, between `p` and `n`. -/
theorem Ring.replace (h : Ring next prev (x :: rest)) (hr : rest ≠ []) (hp : rest.getLast hr = p) (hn : rest.head hr = n)
    (hnd : (y :: rest).Nodup) :
    Ring (Function.update (Function.update next y (some n)) p (some y))
      (Function.update (Function.update prev n (some y)) y (some p)) (y :: rest) := by
  obtain ⟨hy, hndr⟩ := nodup_cons.1 hnd
  have hyp : y ≠ p := fun e => hy (e ▸ hp ▸ getLast_mem hr)
  have hyn : y ≠ n := fun e => hy (e ▸ hn ▸ head_mem hr)
  rw [ring_behind, ring_iff (by simp), links_append hr (cons_ne_nil x [])] at h
  rw [ring_behind, ring_iff (by simp), links_append hr (cons_ne_nil y [])]
  simp only [getLast_append_singleton, head_append_of_ne_nil hr, head_cons, hp, hn]
  refine ⟨⟨links_inside h.1.1 hr hndr (fun a ha hap => ?_) fun a ha han => ?_, isChain_singleton y, ?_, ?_⟩, ?_, ?_⟩
  · have hay : a ≠ y := fun e => hy (e ▸ ha)
    rw [Function.update_of_ne (hp ▸ hap), Function.update_of_ne hay]
  · have hay : a ≠ y := fun e => hy (e ▸ ha)
    rw [Function.update_of_ne hay, Function.update_of_ne (hn ▸ han)]
  · exact Function.update_self ..
  · exact Function.update_self ..
  · rw [Function.update_of_ne hyp, Function.update_self]
  · rw [Function.update_of_ne hyn.symm, Function.update_self]

end

end MgStd.Lib
