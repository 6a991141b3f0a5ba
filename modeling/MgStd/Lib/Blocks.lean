import Mathlib.Data.List.Basic
/-!
# Streams of blocks

A sequence is cut into blocks of `n` elements and what is left, less than a
block. A `BlockStream` takes a sequence in pieces: it absorbs every block that is
complete and keeps what is left until the next piece. What it has absorbed does
not depend on where the pieces were cut.
-/

namespace MgStd.Lib

open List

variable {α σ : Type} {n k : Nat} {xs ys b : List α}

/-- The first `k` blocks. -/
def blocksOf (n : Nat) : Nat → List α → List (List α)
  | 0, _ => []
  | k + 1, xs => xs.take n :: blocksOf n k (xs.drop n)

/-- The complete blocks. -/
def blocks (n : Nat) (xs : List α) : List (List α) := blocksOf n (xs.length / n) xs

/-- What is left behind the complete blocks. -/
def rest (n : Nat) (xs : List α) : List α := xs.drop (n * (xs.length / n))

theorem blocks_of_lt (h : xs.length < n) : blocks n xs = [] := by
  unfold blocks
  rw [Nat.div_eq_of_lt h, blocksOf]

theorem rest_of_lt (h : xs.length < n) : rest n xs = xs := by
  unfold rest
  rw [Nat.div_eq_of_lt h, Nat.mul_zero, drop_zero]

theorem length_rest : (rest n xs).length = xs.length % n := by
  unfold rest
  rw [length_drop, Nat.mod_def]

theorem div_block (hn : 0 < n) (hb : b.length = n) : (b ++ xs).length / n = xs.length / n + 1 := by
  rw [length_append, hb, Nat.add_div_left _ hn]

/-- A block in front. -/
theorem blocks_block (hn : 0 < n) (hb : b.length = n) : blocks n (b ++ xs) = b :: blocks n xs := by
  unfold blocks
  rw [div_block hn hb, blocksOf, take_left' hb, drop_left' hb]

theorem rest_block (hn : 0 < n) (hb : b.length = n) : rest n (b ++ xs) = rest n xs := by
  unfold rest
  rw [div_block hn hb, Nat.mul_add, Nat.mul_one, Nat.add_comm, ← drop_drop, drop_left' hb]

/-- Induction along the blocks of a sequence. -/
theorem block_induction (hn : 0 < n) {motive : List α → Prop} (short : ∀ xs : List α, xs.length < n → motive xs)
    (block : ∀ b xs : List α, b.length = n → motive xs → motive (b ++ xs)) (xs : List α) : motive xs := by
  induction hlen : xs.length using Nat.strongRecOn generalizing xs with
  | ind l ih =>
    by_cases h : xs.length < n
    · exact short xs h
    · have hstep := block (xs.take n) (xs.drop n) (length_take_of_le (Nat.le_of_not_lt h))
        (ih (xs.drop n).length (by rw [length_drop]; omega) _ rfl)
      rwa [take_append_drop] at hstep

theorem blocks_append (hn : 0 < n) (xs ys : List α) : blocks n (xs ++ ys) = blocks n xs ++ blocks n (rest n xs ++ ys) := by
  induction xs using block_induction hn with
  | short xs h => rw [blocks_of_lt h, rest_of_lt h, nil_append]
  | block b xs hb ih => rw [append_assoc, blocks_block hn hb, blocks_block hn hb, rest_block hn hb, ih, cons_append]

theorem rest_append (hn : 0 < n) (xs ys : List α) : rest n (xs ++ ys) = rest n (rest n xs ++ ys) := by
  induction xs using block_induction hn with
  | short xs h => rw [rest_of_lt h]
  | block b xs hb ih => rw [append_assoc, rest_block hn hb, rest_block hn hb, ih]

/-- The blocks in front of something else. -/
theorem blocksOf_append (hn : 0 < n) (h : xs.length = n * k) : blocksOf n k (xs ++ ys) = blocks n xs := by
  induction k generalizing xs with
  | zero => rw [blocks_of_lt (by rwa [h, Nat.mul_zero]), blocksOf]
  | succ k ih =>
    rw [Nat.mul_succ] at h
    have htake := length_take_of_le (show n ≤ xs.length by omega)
    have hdrop : (xs.drop n).length = n * k := by rw [length_drop]; omega
    rw [blocksOf, take_append_of_le_length (by omega), drop_append_of_le_length (by omega), ih hdrop]
    conv_rhs => rw [← take_append_drop n xs, blocks_block hn htake]

theorem length_of_mem_blocks (hn : 0 < n) (hb : b ∈ blocks n xs) : b.length = n := by
  induction xs using block_induction hn with
  | short xs h =>
    rw [blocks_of_lt h] at hb
    exact absurd hb not_mem_nil
  | block c xs hc ih =>
    rw [blocks_block hn hc] at hb
    rcases mem_cons.1 hb with rfl | hb
    · exact hc
    · exact ih hb

/-! ## Taking a sequence in pieces -/

/-- What was absorbed, and what waits for the rest of its block. -/
structure BlockStream (σ α : Type) where
  state : σ
  pending : List α

/-- A piece that arrives. -/
def BlockStream.feed (n : Nat) (f : σ → List α → σ) (s : BlockStream σ α) (xs : List α) : BlockStream σ α where
  state := (blocks n (s.pending ++ xs)).foldl f s.state
  pending := rest n (s.pending ++ xs)

/-- A stream that has taken `xs` in. -/
def BlockStream.of (n : Nat) (f : σ → List α → σ) (s₀ : σ) (xs : List α) : BlockStream σ α where
  state := (blocks n xs).foldl f s₀
  pending := rest n xs

theorem BlockStream.feed_of (hn : 0 < n) (f : σ → List α → σ) (s₀ : σ) (xs ys : List α) :
    (BlockStream.of n f s₀ xs).feed n f ys = BlockStream.of n f s₀ (xs ++ ys) := by
  unfold BlockStream.feed BlockStream.of
  simp only
  rw [blocks_append hn xs ys, rest_append hn xs ys, foldl_append]

/-- A piece that completes one block and no more. -/
theorem BlockStream.feed_block (hn : 0 < n) (f : σ → List α → σ) (s : BlockStream σ α) (h : (s.pending ++ xs).length = n) :
    (s.feed n f xs).state = f s.state (s.pending ++ xs) := by
  have hblock : blocks n (s.pending ++ xs) = [s.pending ++ xs] := by
    have hnil : blocks n ([] : List α) = [] := blocks_of_lt hn
    have hone : blocks n (s.pending ++ xs ++ []) = (s.pending ++ xs) :: blocks n [] := blocks_block hn h
    rwa [append_nil, hnil] at hone
  unfold BlockStream.feed
  simp only
  rw [hblock, foldl_cons, foldl_nil]

theorem BlockStream.foldl_feed (hn : 0 < n) (f : σ → List α → σ) (s₀ : σ) (pieces : List (List α)) :
    ∀ xs, pieces.foldl (BlockStream.feed n f) (BlockStream.of n f s₀ xs) = BlockStream.of n f s₀ (xs ++ pieces.flatten) := by
  induction pieces with
  | nil =>
    intro xs
    rw [flatten_nil, append_nil, foldl_nil]
  | cons p pieces ih =>
    intro xs
    rw [foldl_cons, feed_of hn, ih, flatten_cons, append_assoc]

end MgStd.Lib
