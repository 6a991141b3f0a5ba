import Mathlib.Data.List.Nodup
import Mathlib.Data.List.Perm.Basic
import Mathlib.Data.List.Range
import Mathlib.Data.List.Rotate
import Mathlib.Logic.Equiv.Basic
/-!
# Rearrangements of a range

An array is a function of its indices. `Permuted lo hi f g` says that `g` is
`f` with the elements from `lo` to `hi` in another order and all others in
place, which is what a sequence of exchanges inside of that range gives.
-/

namespace MgStd.Lib

variable {V : Type} {lo hi : Int} {f g h : Int → V}

def Permuted (lo hi : Int) (f g : Int → V) : Prop :=
  ∃ p : Equiv.Perm Int, (∀ k, k < lo ∨ hi < k → p k = k) ∧ g = f ∘ p

theorem Permuted.refl (lo hi : Int) (f : Int → V) : Permuted lo hi f f := ⟨.refl _, fun _ _ => rfl, rfl⟩

theorem Permuted.trans (hfg : Permuted lo hi f g) (hgh : Permuted lo hi g h) : Permuted lo hi f h := by
  obtain ⟨p, hp, rfl⟩ := hfg
  obtain ⟨q, hq, rfl⟩ := hgh
  refine ⟨q.trans p, fun k hk => ?_, rfl⟩
  rw [Equiv.trans_apply, hq k hk, hp k hk]

/-- A range inside of another one. -/
theorem Permuted.widen {lo' hi' : Int} (hfg : Permuted lo hi f g) (hlo : lo' ≤ lo) (hhi : hi ≤ hi') :
    Permuted lo' hi' f g := by
  obtain ⟨p, hp, rfl⟩ := hfg
  exact ⟨p, fun k hk => hp k (by omega), rfl⟩

theorem permuted_swap {i j : Int} (hi' : lo ≤ i ∧ i ≤ hi) (hj : lo ≤ j ∧ j ≤ hi) :
    Permuted lo hi f (f ∘ Equiv.swap i j) :=
  ⟨_, fun k hk => Equiv.swap_apply_of_ne_of_ne (by omega) (by omega), rfl⟩

/-- What is outside of the range is where it was. -/
theorem Permuted.outside (hfg : Permuted lo hi f g) {k : Int} (hk : k < lo ∨ hi < k) : g k = f k := by
  obtain ⟨p, hp, rfl⟩ := hfg
  rw [Function.comp_apply, hp k hk]

/-- A permutation that moves nothing outside of a range keeps the range. -/
theorem perm_mem_range {p : Equiv.Perm Int} (hp : ∀ k, k < lo ∨ hi < k → p k = k) {k : Int} (hk : lo ≤ k ∧ k ≤ hi) :
    lo ≤ p k ∧ p k ≤ hi := by
  by_contra hout
  have hfix : p (p k) = p k := hp (p k) (by omega)
  have hself := p.injective hfix
  omega

/-- What holds of all elements of the range holds of them in any order. -/
theorem Permuted.forall (hfg : Permuted lo hi f g) {P : V → Prop} (hf : ∀ k, lo ≤ k → k ≤ hi → P (f k)) :
    ∀ k, lo ≤ k → k ≤ hi → P (g k) := by
  obtain ⟨p, hp, rfl⟩ := hfg
  intro k hlo hhi
  have hk := perm_mem_range hp ⟨hlo, hhi⟩
  exact hf (p k) hk.1 hk.2

/-! ## The elements of a range as a list -/

/-- The `n` elements from `lo` on. -/
def slice (f : Int → V) (lo : Int) (n : Nat) : List V := (List.range n).map fun (i : Nat) => f (lo + i)

@[simp] theorem length_slice {n : Nat} : (slice f lo n).length = n := by simp [slice]

theorem getElem_slice {n i : Nat} (hlt : i < (slice f lo n).length) : (slice f lo n)[i] = f (lo + i) := by simp [slice]

/-- One element of a slice whose elements are known. -/
theorem elem_of_slice {W : Type} {n i : Nat} {u : W → V} {ws : List W} (h : slice f lo n = ws.map u) (hi : i < ws.length) :
    f (lo + i) = u ws[i] := by
  have hlt : i < (slice f lo n).length := by rw [h, List.length_map]; exact hi
  have hget := getElem_slice hlt
  simp only [h, List.getElem_map] at hget
  exact hget.symm

theorem slice_succ {n : Nat} : slice f lo (n + 1) = slice f lo n ++ [f (lo + n)] := by
  unfold slice
  rw [List.range_succ, List.map_append, List.map_singleton]

theorem slice_congr {n : Nat} (hfg : ∀ k, lo ≤ k → k < lo + n → f k = g k) : slice f lo n = slice g lo n := by
  unfold slice
  refine List.map_congr_left fun i hi => ?_
  rw [List.mem_range] at hi
  exact hfg _ (by omega) (by omega)

theorem slice_add {m n : Nat} : slice f lo (m + n) = slice f lo m ++ slice f (lo + m) n := by
  unfold slice
  rw [List.range_add, List.map_append, List.map_map]
  congr 1
  refine List.map_congr_left fun i _ => ?_
  rw [Function.comp_apply, Int.natCast_add, Int.add_assoc]

theorem Permuted.perm {n : Nat} (hfg : Permuted lo (lo + n - 1) f g) : (slice g lo n).Perm (slice f lo n) := by
  obtain ⟨p, hp, rfl⟩ := hfg
  have hinj : Function.Injective fun (i : Nat) => lo + i := fun i j hij => by
    have hij : lo + (i : Int) = lo + j := hij
    omega
  have hindex : ((List.range n).map fun (i : Nat) => p (lo + i)).Perm ((List.range n).map fun (i : Nat) => lo + i) := by
    refine (List.perm_ext_iff_of_nodup (List.Nodup.map (p.injective.comp hinj) List.nodup_range)
      (List.Nodup.map hinj List.nodup_range)).2 fun k => ?_
    simp only [List.mem_map, List.mem_range, Function.comp_apply]
    constructor
    · rintro ⟨i, hi, rfl⟩
      have hk := perm_mem_range hp (k := lo + i) ⟨by omega, by omega⟩
      exact ⟨(p (lo + i) - lo).toNat, by omega, by omega⟩
    · rintro ⟨i, hi, rfl⟩
      -- the index that `p` takes to `lo + i` is in the range, or it would stay where it is
      have hback : ∀ k, k < lo ∨ lo + n - 1 < k → p.symm k = k := fun k hk => by
        rw [Equiv.symm_apply_eq, hp k hk]
      have hk := perm_mem_range hback (k := lo + i) ⟨by omega, by omega⟩
      have hat : lo + ((p.symm (lo + i) - lo).toNat : Int) = p.symm (lo + i) := by omega
      refine ⟨(p.symm (lo + i) - lo).toNat, by omega, ?_⟩
      rw [hat, Equiv.apply_symm_apply]
  have hmap := hindex.map f
  rwa [List.map_map, List.map_map] at hmap

/-! ## A turn by one -/

/-- The first element of the range goes to its end, and the others one place down. -/
def turn (lo hi : Int) (f : Int → V) : Int → V := fun k =>
  if lo ≤ k ∧ k < hi then f (k + 1) else if lo ≤ hi ∧ k = hi then f lo else f k

theorem turn_of_lt (h : hi < lo) : turn lo hi f = f := by
  funext k
  unfold turn
  rw [if_neg (by omega), if_neg (by omega)]

theorem turn_outside {k : Int} (hk : k < lo ∨ hi < k) : turn lo hi f k = f k := by
  unfold turn
  rw [if_neg (by omega), if_neg (by omega)]

/-- A turn is an exchange of the ends and a turn of all but the last. -/
theorem turn_swap (h : lo ≤ hi) : turn lo (hi - 1) (f ∘ Equiv.swap lo hi) = turn lo hi f := by
  funext k
  unfold turn
  simp only [Function.comp_apply, Equiv.swap_apply_def]
  split <;> split <;> grind

theorem slice_turn {n : Nat} : slice (turn lo (lo + n - 1) f) lo n = (slice f lo n).rotate 1 := by
  apply List.ext_getElem
  · rw [List.length_rotate, length_slice, length_slice]
  · intro i h₁ h₂
    rw [length_slice] at h₁
    rw [getElem_slice, List.getElem_rotate, getElem_slice, length_slice]
    unfold turn
    by_cases hend : i + 1 = n
    · rw [if_neg (by omega), if_pos (by omega), hend, Nat.mod_self]
      congr 1
      omega
    · rw [if_pos (by omega), Nat.mod_eq_of_lt (by omega)]
      congr 1
      omega

/-- Turns of two ranges, one behind the other. -/
theorem slice_turn_turn {m n : Nat} :
    slice (turn (lo + m) (lo + m + n - 1) (turn lo (lo + m - 1) f)) lo (m + n) =
      (slice f lo m).rotate 1 ++ (slice f (lo + m) n).rotate 1 := by
  have hfirst : slice (turn (lo + m) (lo + m + n - 1) (turn lo (lo + m - 1) f)) lo m = slice (turn lo (lo + m - 1) f) lo m :=
    slice_congr fun k _ hk => turn_outside (.inl (by omega))
  have hrest : slice (turn lo (lo + m - 1) f) (lo + m) n = slice f (lo + m) n :=
    slice_congr fun k hk _ => turn_outside (.inr (by omega))
  rw [slice_add, hfirst, slice_turn, slice_turn, hrest]

end MgStd.Lib
