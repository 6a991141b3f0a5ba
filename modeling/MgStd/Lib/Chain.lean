import MgStd.Lib.Heap
import Mathlib.Data.List.Nodup
/-!
# Singly linked lists in memory

`next` is the field that links the records. `Seg h p xs q`: the links lead from
`p` through exactly the records at `xs` to `q`; a chain is a segment that ends
in NULL.
-/

namespace MgStd.Lib

variable {A N : Type} (next : N → Ptr A) {h h' : Heap A N} {p q r : Ptr A} {a x y : A} {n : N} {xs ys zs : List A}

def Seg (h : Heap A N) : Ptr A → List A → Ptr A → Prop
  | p, [], q => p = q
  | p, x :: xs, q => p = some x ∧ ∃ n, h x = some n ∧ Seg h (next n) xs q

abbrev Chain (h : Heap A N) (p : Ptr A) (xs : List A) : Prop := Seg next h p xs none

variable {next}

@[simp] theorem seg_nil : Seg next h p [] q ↔ p = q := Iff.rfl

@[simp] theorem seg_cons : Seg next h p (x :: xs) q ↔ p = some x ∧ ∃ n, h x = some n ∧ Seg next h (next n) xs q :=
  Iff.rfl

theorem seg_append : Seg next h p (xs ++ ys) q ↔ ∃ r, Seg next h p xs r ∧ Seg next h r ys q := by
  induction xs generalizing p with
  | nil => simp
  | cons x xs ih =>
    simp only [List.cons_append, seg_cons, ih]
    constructor
    · rintro ⟨rfl, n, hn, r, hr, hq⟩; exact ⟨r, ⟨rfl, n, hn, hr⟩, hq⟩
    · rintro ⟨r, ⟨rfl, n, hn, hr⟩, hq⟩; exact ⟨rfl, n, hn, r, hr, hq⟩

/-- A segment through `x`, cut at `x`. -/
theorem seg_split : Seg next h p (xs ++ x :: ys) q ↔
    Seg next h p xs (some x) ∧ ∃ n, h x = some n ∧ Seg next h (next n) ys q := by
  rw [seg_append]
  constructor
  · rintro ⟨r, hr, rfl, n, hn, hq⟩; exact ⟨hr, n, hn, hq⟩
  · rintro ⟨hr, n, hn, hq⟩; exact ⟨some x, hr, rfl, n, hn, hq⟩

theorem Seg.alloc (hs : Seg next h p xs q) (hx : x ∈ xs) : ∃ n, h x = some n := by
  obtain ⟨ys, zs, rfl⟩ := List.append_of_mem hx
  obtain ⟨-, n, hn, -⟩ := seg_split.1 hs
  exact ⟨n, hn⟩

@[simp] theorem chain_null : Chain next h none xs ↔ xs = [] := by
  cases xs with
  | nil => simp
  | cons x xs => simp

theorem chain_some : Chain next h (some a) xs ↔ ∃ n ys, h a = some n ∧ xs = a :: ys ∧ Chain next h (next n) ys := by
  cases xs with
  | nil => simp
  | cons x xs =>
    simp only [seg_cons, Option.some.injEq, List.cons.injEq]
    constructor
    · rintro ⟨rfl, n, hn, hc⟩; exact ⟨n, xs, hn, ⟨rfl, rfl⟩, hc⟩
    · rintro ⟨n, ys, hn, ⟨rfl, rfl⟩, hc⟩; exact ⟨rfl, n, hn, hc⟩

/-- A pointer starts one chain. -/
theorem Chain.unique (hx : Chain next h p xs) (hy : Chain next h p ys) : xs = ys := by
  induction xs generalizing p ys with
  | nil =>
    cases ys with
    | nil => rfl
    | cons y ys => obtain rfl : p = none := hx; simp at hy
  | cons x xs ih =>
    obtain ⟨rfl, n, hn, hx⟩ := hx
    obtain ⟨n', ys', hn', rfl, hy⟩ := chain_some.1 hy
    obtain rfl : n = n' := by simpa [hn] using hn'
    rw [ih hx hy]

/-- A chain passes each record once. -/
theorem Chain.nodup (hc : Chain next h p xs) : xs.Nodup := by
  induction xs generalizing p with
  | nil => exact List.nodup_nil
  | cons x xs ih =>
    obtain ⟨rfl, n, hn, hxs⟩ := hc
    refine List.nodup_cons.2 ⟨fun hmem => ?_, ih hxs⟩
    -- from a second `x` the chain would go on as from the first
    obtain ⟨ys, zs, rfl⟩ := List.append_of_mem hmem
    obtain ⟨-, n', hn', hzs⟩ := seg_split.1 hxs
    obtain rfl : n = n' := by simpa [hn] using hn'
    have hlen := congrArg List.length (Chain.unique hxs hzs)
    simp only [List.length_append, List.length_cons] at hlen
    omega

/-- A chain only ends at NULL. -/
theorem Chain.next_mem (hc : Chain next h p xs) (hx : x ∈ xs) (hn : h x = some n) (hy : next n = some y) : y ∈ xs := by
  obtain ⟨ys, zs, rfl⟩ := List.append_of_mem hx
  obtain ⟨-, n', hn', hzs⟩ := seg_split.1 hc
  obtain rfl : n = n' := by simpa [hn] using hn'
  rw [hy] at hzs
  obtain ⟨m, ws, -, rfl, -⟩ := chain_some.1 hzs
  simp

/-- Where a chain begins. -/
theorem Chain.head_eq (hc : Chain next h p xs) : p = xs.head? := by
  cases xs with
  | nil => exact hc
  | cons x xs => exact hc.1

/-! ## Changes elsewhere -/

/-- A segment depends on the links of its records only. -/
theorem Seg.congr (hs : Seg next h p xs q) (hx : ∀ x ∈ xs, ∀ n, h x = some n → ∃ n', h' x = some n' ∧ next n' = next n) :
    Seg next h' p xs q := by
  induction xs generalizing p with
  | nil => exact hs
  | cons x xs ih =>
    obtain ⟨rfl, n, hn, hs⟩ := hs
    obtain ⟨n', hn', he⟩ := hx x List.mem_cons_self n hn
    exact ⟨rfl, n', hn', he ▸ ih hs fun y hy => hx y (List.mem_cons_of_mem _ hy)⟩

theorem Seg.frame (hs : Seg next h p xs q) (hx : ∀ x ∈ xs, h' x = h x) : Seg next h' p xs q :=
  hs.congr fun x hmem n hn => ⟨n, (hx x hmem).trans hn, rfl⟩

section
variable [DecidableEq A]

theorem Seg.update (hs : Seg next h p xs q) (ha : a ∉ xs) (n : Option N) : Seg next (Function.update h a n) p xs q :=
  hs.frame fun x hx => Function.update_of_ne (show x ≠ a from fun e => ha (e ▸ hx)) _ _

/-- Writing a record without changing its link. -/
theorem Seg.update_same (hs : Seg next h p xs q) {m : N} (ha : h a = some n) (hm : next m = next n) :
    Seg next (Function.update h a (some m)) p xs q := by
  refine hs.congr fun x hx k hk => ?_
  by_cases hxa : x = a
  · subst hxa
    rw [hk] at ha
    cases ha
    exact ⟨m, Function.update_self .., hm⟩
  · exact ⟨k, by rw [Function.update_of_ne hxa, hk], rfl⟩

/-- A record linked before a chain. -/
theorem Chain.push (hc : Chain next h p xs) (ha : a ∉ xs) (hn : next n = p) :
    Chain next (Function.update h a (some n)) (some a) (a :: xs) :=
  ⟨rfl, n, Function.update_self .., hn ▸ Seg.update hc ha _⟩

/-- The chain with the records `ys` and `y` behind `x` cut out. -/
theorem Chain.cut (hc : Chain next h p (xs ++ x :: (ys ++ y :: zs))) (hy : h y = some n) {m : N} (hm : next m = next n) :
    Chain next (Function.update h x (some m)) p (xs ++ x :: zs) := by
  have hnd := hc.nodup
  obtain ⟨hxs, n₁, -, hrest⟩ := seg_split.1 hc
  obtain ⟨-, n₂, hn₂, hzs⟩ := seg_split.1 hrest
  obtain rfl : n = n₂ := by simpa [hy] using hn₂
  have hx : x ∉ xs ∧ x ∉ zs := by
    simp only [List.nodup_append, List.nodup_cons, List.mem_append, List.mem_cons] at hnd
    exact ⟨fun hmem => hnd.2.2 x hmem x (.inl rfl) rfl, fun hmem => hnd.2.1.1 (.inr (.inr hmem))⟩
  exact seg_split.2 ⟨hxs.update hx.1 _, m, Function.update_self .., hm ▸ hzs.update hx.2 _⟩

end

end MgStd.Lib
