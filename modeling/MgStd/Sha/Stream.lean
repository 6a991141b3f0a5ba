import MgStd.Sha.Code
import MgStd.Sha.Standard
/-!
# The digest of a stream

A context holds a stream of blocks: the hash value, and in `LastString` the
bytes that wait for the rest of their block, with zeros behind them. `update`
feeds the stream, and `finish` processes the last blocks of the padded
message. Both hold for any length of a block and any way to process one.
-/

namespace MgStd.Sha

open MgStd.Lib

variable {σ : Type} {w n l : Nat} {process : List (BitVec w) → σ → List UInt8 → σ} {ctx : Ctx σ w} {s : BlockStream σ UInt8}
  {h₀ : σ} {m p : List UInt8}

/-- `LastString` is filled with zeros. -/
structure Holds (n : Nat) (ctx : Ctx σ w) (s : BlockStream σ UInt8) : Prop where
  state : ctx.h = s.state
  bytes : ctx.lastString = s.pending ++ List.replicate (2 * n - s.pending.length) 0
  count : ctx.lastStringLen = s.pending.length
  short : s.pending.length < n

/-- A length that fits into an `int`. -/
def INT_MAX : Nat := 2 ^ 31 - 1

theorem foldl_block (bs : List (List UInt8)) :
    bs.foldl (Ctx.block process) ctx = { ctx with h := bs.foldl (process ctx.k) ctx.h } := by
  induction bs generalizing ctx with
  | nil => rfl
  | cons b bs ih =>
    rw [List.foldl_cons, ih]
    rfl

/-! ## Updates -/

/-- An update that does not complete a block. -/
theorem update_short (hlt : (p.length + ctx.lastStringLen) % 2 ^ 32 < n) :
    update n process ctx p =
      { ctx with
        allLen := (ctx.allLen + p.length) % 2 ^ 64
        lastString := memcpy ctx.lastString ctx.lastStringLen p
        lastStringLen := (ctx.lastStringLen + p.length) % 2 ^ 32 } := by
  unfold update
  exact if_pos hlt

/-- What waits and the first bytes of the input, copied to `M`. -/
theorem memcpy_block {pending : List UInt8} {k : Nat} (hk : pending.length + k = n) (hlen : k ≤ p.length) :
    memcpy (memcpy (List.replicate n 0) 0 pending) pending.length (p.take k) = pending ++ p.take k := by
  have hfirst := memcpy_free [] pending n 0
  rw [List.nil_append, List.length_nil, List.nil_append] at hfirst
  rw [hfirst, memcpy_free, List.length_take_of_le hlen, show n - pending.length - k = 0 by omega, List.replicate_zero,
    List.append_nil]

/-- An update that does, with less than a block waiting. -/
theorem update_long (h : Holds n ctx s) (hlt : ¬ (p.length + ctx.lastStringLen) % 2 ^ 32 < n)
    (hlen : n - s.pending.length ≤ p.length) :
    update n process ctx p =
      { ctx with
        allLen := (ctx.allLen + p.length) % 2 ^ 64
        h := (blocks n (s.pending ++ p)).foldl (process ctx.k) s.state
        lastString := memcpy (List.replicate (2 * n) 0) 0 (rest n (s.pending ++ p))
        lastStringLen := (rest n (s.pending ++ p)).length } := by
  have hshort := h.short
  have hzero : ctx.lastStringLen / n = 0 := by rw [h.count, Nat.div_eq_of_lt hshort]
  have hgot : ctx.lastStringLen % n = s.pending.length := by rw [h.count, Nat.mod_eq_of_lt hshort]
  have hpending : ctx.lastString.take s.pending.length = s.pending := by rw [h.bytes, List.take_left]
  have hblock := memcpy_block (p := p) (Nat.add_sub_cancel' (Nat.le_of_lt hshort)) hlen
  have hsize : (s.pending ++ p.take (n - s.pending.length)).length = n := by
    rw [List.length_append, List.length_take_of_le hlen]
    omega
  have hsplit : s.pending ++ p =
      (s.pending ++ p.take (n - s.pending.length)) ++ p.drop (n - s.pending.length) := by
    rw [List.append_assoc, List.take_append_drop]
  have hleft : p.length - (n - s.pending.length) = (p.drop (n - s.pending.length)).length := by rw [List.length_drop]
  have htail : (p.drop (n - s.pending.length + n * ((p.drop (n - s.pending.length)).length / n))).take
      ((p.drop (n - s.pending.length)).length % n) = rest n (p.drop (n - s.pending.length)) := by
    unfold rest
    rw [← List.drop_drop, List.take_of_length_le]
    rw [List.length_drop, Nat.mod_def]
  have hpos : 0 < n := Nat.lt_of_le_of_lt (Nat.zero_le _) hshort
  unfold update
  rw [if_neg hlt]
  simp only [hzero, hgot, blocksOf, List.foldl_nil, Nat.mul_zero, List.drop_zero, hpending, hblock, hleft, htail]
  rw [foldl_block, hsplit, blocks_block hpos hsize, rest_block hpos hsize, List.foldl_cons, ← length_rest, ← h.state]
  rfl

theorem Holds.update (process : List (BitVec w) → σ → List UInt8 → σ) (h : Holds n ctx s) (hn : n ≤ 128) (hp : p.length ≤ INT_MAX) :
    Holds n (update n process ctx p) (s.feed n (process ctx.k) p) := by
  have hpos : 0 < n := Nat.lt_of_le_of_lt (Nat.zero_le _) h.short
  have hshort := h.short
  have hwrap : (p.length + ctx.lastStringLen) % 2 ^ 32 = p.length + s.pending.length := by
    rw [h.count]
    unfold INT_MAX at hp
    exact Nat.mod_eq_of_lt (by omega)
  by_cases hlt : p.length + s.pending.length < n
  · have hall : (s.pending ++ p).length < n := by
      rw [List.length_append]
      omega
    have hcount : (ctx.lastStringLen + p.length) % 2 ^ 32 = (s.pending ++ p).length := by
      rw [Nat.add_comm, hwrap, List.length_append, Nat.add_comm]
    unfold BlockStream.feed
    rw [update_short (by rwa [hwrap]), blocks_of_lt hall, rest_of_lt hall]
    refine ⟨h.state, ?_, hcount, hall⟩
    show memcpy ctx.lastString ctx.lastStringLen p = _
    rw [h.bytes, h.count, memcpy_free, List.length_append, Nat.sub_sub]
  · rw [update_long h (by rwa [hwrap]) (by omega)]
    have hrest : (rest n (s.pending ++ p)).length < n := by
      rw [length_rest]
      exact Nat.mod_lt _ hpos
    refine ⟨rfl, ?_, rfl, hrest⟩
    have hcopy := memcpy_free [] (rest n (s.pending ++ p)) (2 * n) 0
    rwa [List.nil_append, List.length_nil, List.nil_append] at hcopy

@[simp] theorem update_k : (update n process ctx p).k = ctx.k := by
  unfold update
  simp only
  split
  · rfl
  · rw [foldl_block, foldl_block]
    rfl

@[simp] theorem update_allLen : (update n process ctx p).allLen = (ctx.allLen + p.length) % 2 ^ 64 := by
  unfold update
  simp only
  split
  · rfl
  · rw [foldl_block, foldl_block]
    rfl

/-- A context that has taken `m` in since it was new. -/
structure Fed (n : Nat) (process : List (BitVec w) → σ → List UInt8 → σ) (h₀ : σ) (k₀ : List (BitVec w)) (ctx : Ctx σ w)
    (m : List UInt8) : Prop where
  holds : Holds n ctx (BlockStream.of n (process k₀) h₀ m)
  constants : ctx.k = k₀
  total : ctx.allLen = m.length % 2 ^ 64

theorem fed_new {k₀ : List (BitVec w)} (hn : 0 < n) : Fed n process h₀ k₀ (Ctx.new n h₀ k₀) [] := by
  have hnil : (BlockStream.of n (process k₀) h₀ []).pending = [] := rest_of_lt hn
  refine ⟨⟨?_, ?_, ?_, ?_⟩, rfl, rfl⟩
  · show h₀ = (blocks n []).foldl (process k₀) h₀
    rw [blocks_of_lt hn, List.foldl_nil]
  · rw [hnil]
    rfl
  · rw [hnil]
    rfl
  · rw [hnil]
    exact hn

theorem Fed.foldl {k₀ : List (BitVec w)} {pieces : List (List UInt8)} (h : Fed n process h₀ k₀ ctx m) (hn : n ≤ 128)
    (hp : ∀ p ∈ pieces, p.length ≤ INT_MAX) :
    Fed n process h₀ k₀ (pieces.foldl (update n process) ctx) (m ++ pieces.flatten) := by
  induction pieces generalizing ctx m with
  | nil => rwa [List.flatten_nil, List.append_nil]
  | cons p pieces ih =>
    have hpos : 0 < n := Nat.lt_of_le_of_lt (Nat.zero_le _) h.holds.short
    have hholds := h.holds.update process hn (hp p List.mem_cons_self)
    rw [h.constants, BlockStream.feed_of hpos] at hholds
    have hstep : Fed n process h₀ k₀ (update n process ctx p) (m ++ p) := by
      refine ⟨hholds, ?_, ?_⟩
      · rw [update_k, h.constants]
      · rw [update_allLen, h.total, Nat.mod_add_mod, List.length_append]
    rw [List.foldl_cons, List.flatten_cons, ← List.append_assoc]
    exact ih hstep fun q hq => hp q (List.mem_cons_of_mem p hq)

/-! ## The last blocks -/

theorem set_append_add (xs ys : List UInt8) (j : Nat) (y : UInt8) : (xs ++ ys).set (xs.length + j) y = xs ++ ys.set j y := by
  rw [List.set_append_right _ _ (Nat.le_add_right _ _), Nat.add_sub_cancel_left]

/-- The length goes to eight bytes, whatever was there. -/
theorem putLen_append {realLen : Nat} {is : List Nat} (his : ∀ i ∈ is, i ≤ 8) (xs ys : List UInt8) :
    putLen realLen (xs.length + 8) is (xs ++ ys) = xs ++ putLen realLen 8 is ys := by
  induction is generalizing ys with
  | nil => rfl
  | cons i is ih =>
    have hi := his i List.mem_cons_self
    have hset := set_append_add xs ys (8 - i) (UInt8.ofNat ((realLen * 2 ^ 3 % 2 ^ 64) >>> ((i - 1) * 8)))
    rw [← Nat.add_sub_assoc hi] at hset
    unfold putLen at ih ⊢
    rw [List.foldl_cons, List.foldl_cons, hset, ih fun j hj => his j (List.mem_cons_of_mem i hj)]

theorem beBytes_eight (len : Nat) :
    beBytes 8 len = [56, 48, 40, 32, 24, 16, 8, 0].map fun b => UInt8.ofNat (len >>> b) := by
  unfold beBytes
  simp only [leBytes, List.reverse_cons, List.reverse_nil, List.nil_append, List.cons_append, List.map_cons, List.map_nil,
    Nat.shiftRight_eq_div_pow, Nat.div_div_eq_div_mul, Nat.reduceMul, Nat.reducePow, Nat.div_one]

/-- Both orders of the writes give the eight bytes, the high one first. -/
theorem putLen_eq {realLen : Nat} (hlen : 8 * realLen < 2 ^ 64) (xs zs : List UInt8) :
    putLen realLen (xs.length + 8) [8, 7, 6, 5, 4, 3, 2, 1] (xs ++ (List.replicate 8 0 ++ zs)) = xs ++ (beBytes 8 (8 * realLen) ++ zs) ∧
      putLen realLen (xs.length + 8) [1, 2, 3, 4, 5, 6, 7, 8] (xs ++ (List.replicate 8 0 ++ zs)) =
        xs ++ (beBytes 8 (8 * realLen) ++ zs) := by
  have hbits : realLen * 2 ^ 3 % 2 ^ 64 = 8 * realLen := by omega
  rw [putLen_append (by decide), putLen_append (by decide), beBytes_eight]
  unfold putLen
  rw [hbits]
  exact ⟨rfl, rfl⟩

/-- The padding of the standard: zeros up to the end of this block, or of the next one. -/
theorem zeros_eq {len : Nat} (hl : l + 1 ≤ n) :
    Standard.zeros n l len = if len % n ≤ n - 1 - l then n - (len % n + 1 + l) else 2 * n - (len % n + 1 + l) := by
  have hpos : 0 < n := by omega
  have hlt := Nat.mod_lt len hpos
  have hmod : (len + 1 + l) % n = (len % n + 1 + l) % n := by rw [Nat.add_assoc, Nat.add_assoc, Nat.mod_add_mod]
  unfold Standard.zeros
  rw [hmod]
  split
  · by_cases hfull : len % n + 1 + l = n
    · rw [hfull, Nat.mod_self, Nat.sub_zero, Nat.mod_self]
      omega
    · rw [Nat.mod_eq_of_lt (show len % n + 1 + l < n by omega), Nat.mod_eq_of_lt (by omega)]
  · rw [Nat.mod_eq_sub_mod (show n ≤ len % n + 1 + l by omega), Nat.mod_eq_of_lt (show len % n + 1 + l - n < n by omega),
      Nat.mod_eq_of_lt (by omega)]
    omega

/-- The end of a padded message: what waits, the `0x80`, `z` zeros and the length. -/
def tail (pending : List UInt8) (z len : Nat) : List UInt8 := pending ++ 0x80 :: List.replicate z 0 ++ beBytes 8 (8 * len)

theorem length_tail {pending : List UInt8} {z len : Nat} : (tail pending z len).length = pending.length + z + 9 := by
  unfold tail
  rw [List.length_append, List.length_append, List.length_cons, List.length_replicate, length_beBytes]
  omega

/-- The complete blocks of a padded message. -/
theorem blocks_pad (hl : 8 ≤ l) (hln : l + 1 ≤ n) (hlen : 8 * m.length < 2 ^ 64) :
    blocks n (Standard.pad n l m) = blocks n m ++ blocks n (tail (rest n m) (Standard.zeros n l m.length + (l - 8)) m.length) := by
  have hpad : Standard.pad n l m = m ++ (0x80 :: List.replicate (Standard.zeros n l m.length) 0 ++ beBytes l (8 * m.length)) := by
    unfold Standard.pad
    rw [List.append_assoc]
  have hsplit : beBytes l (8 * m.length) = List.replicate (l - 8) 0 ++ beBytes 8 (8 * m.length) := by
    have hzeros := beBytes_zeros (l := l - 8) (k := 8) (n := 8 * m.length) hlen
    rwa [Nat.sub_add_cancel hl] at hzeros
  rw [hpad, blocks_append (by omega), hsplit]
  unfold tail
  rw [List.append_assoc, List.cons_append, List.cons_append, ← List.append_assoc (List.replicate _ _), List.replicate_append_replicate]

/-- `LastString` when the length has been written up to `stop`. -/
theorem lastString_eq (n : Nat) (pending : List UInt8) (stop : Nat) {len : Nat} {is : List Nat} (hlen : 8 * len < 2 ^ 64)
    (his : is = [8, 7, 6, 5, 4, 3, 2, 1] ∨ is = [1, 2, 3, 4, 5, 6, 7, 8]) (hroom : pending.length + 9 ≤ stop) (hstop : stop ≤ 2 * n) :
    putLen len stop is ((pending ++ List.replicate (2 * n - pending.length) 0).set pending.length 0x80) =
      tail pending (stop - (pending.length + 9)) len ++ List.replicate (2 * n - stop) 0 := by
  have hzeros : 2 * n - pending.length = (stop - (pending.length + 9)) + (8 + (2 * n - stop)) + 1 := by omega
  have hstop' : (pending ++ 0x80 :: List.replicate (stop - (pending.length + 9)) 0).length + 8 = stop := by
    rw [List.length_append, List.length_cons, List.length_replicate]
    omega
  have hput := putLen_eq hlen (pending ++ 0x80 :: List.replicate (stop - (pending.length + 9)) 0) (List.replicate (2 * n - stop) 0)
  have hset : (pending ++ List.replicate (2 * n - pending.length) 0).set pending.length 0x80 =
      (pending ++ 0x80 :: List.replicate (stop - (pending.length + 9)) 0) ++
        (List.replicate 8 0 ++ List.replicate (2 * n - stop) 0) := by
    have hset := set_append_add pending (List.replicate (2 * n - pending.length) 0) 0 0x80
    rw [Nat.add_zero] at hset
    rw [hset, hzeros, List.replicate_succ, List.set_cons_zero, ← List.replicate_append_replicate,
      ← List.replicate_append_replicate, List.append_assoc, List.cons_append]
  rw [hset]
  rw [hstop'] at hput
  unfold tail
  rw [List.append_assoc _ (beBytes 8 _)]
  rcases his with rfl | rfl
  · exact hput.1
  · exact hput.2

/-- The hash value of the padded message. -/
theorem finish_h {k₀ : List (BitVec w)} (h : Fed n process h₀ k₀ ctx m) (hl : 8 ≤ l) (hln : l + 1 ≤ n) (hlen : m.length < 2 ^ 61) :
    (finish n process (n - 1 - l) ctx).h = (blocks n (Standard.pad n l m)).foldl (process k₀) h₀ := by
  have hpos : 0 < n := by omega
  have hr : (rest n m).length = m.length % n := length_rest
  have hlt := Nat.mod_lt m.length hpos
  have hall : ctx.allLen = m.length := by rw [h.total, Nat.mod_eq_of_lt (by omega)]
  have hcount : ctx.lastStringLen = m.length % n := by rw [h.holds.count]; exact hr
  have hstate : ctx.h = (blocks n m).foldl (process k₀) h₀ := h.holds.state
  have hbytes : ctx.lastString = rest n m ++ List.replicate (2 * n - m.length % n) 0 := by rw [← hr]; exact h.holds.bytes
  have hbits : 8 * m.length < 2 ^ 64 := by omega
  rw [blocks_pad hl hln hbits, zeros_eq hln, List.foldl_append, ← hstate]
  unfold finish
  rw [hall, hcount, hbytes]
  simp only
  split
  · -- one block is left: the `n` zeros behind the length are not processed
    next hle =>
    have hlast := lastString_eq n (rest n m) n hbits (Or.inl rfl) (by omega) (by omega)
    have hfull : (tail (rest n m) (n - (m.length % n + 9)) m.length).length = n * 1 := by
      rw [length_tail, hr]
      omega
    rw [hr] at hlast
    rw [hlast, foldl_block, blocksOf_append hpos hfull, h.constants,
      show n - (m.length % n + 1 + l) + (l - 8) = n - (m.length % n + 9) by omega]
  · next hgt =>
    have hlast := lastString_eq n (rest n m) (n * 2) hbits (Or.inr rfl) (by omega) (by omega)
    have hfull : (tail (rest n m) (n * 2 - (m.length % n + 9)) m.length).length = n * 2 := by
      rw [length_tail, hr]
      omega
    rw [hr] at hlast
    rw [hlast, foldl_block, blocksOf_append hpos hfull, h.constants,
      show 2 * n - (m.length % n + 1 + l) + (l - 8) = n * 2 - (m.length % n + 9) by omega]

end MgStd.Sha
