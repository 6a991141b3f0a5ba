import Mathlib.Order.Bounds.Defs
import MgStd.Lib.Blocks
import MgStd.Md5.Count
/-!
# The digest of a stream

A context is a stream of blocks: its state and the bytes of `buffer` that are
in use. An update feeds the stream, whatever part of a block is waiting, and
`mg_MD5Final` feeds it the padding and the length.
-/

namespace MgStd.Md5

open MgStd.Lib

variable {ctx : Ctx} {state : State} {m xs : List UInt8} {n : Nat}

/-- The stream that a context holds. -/
def stream (ctx : Ctx) : BlockStream State UInt8 := ⟨ctx.state, ctx.buffer.take (have_ ctx.count)⟩

theorem have_eq (count : Word × Word) : have_ count = count.1.toNat / 8 % MD5_BLOCK_LENGTH := by
  unfold have_
  rw [BitVec.toNat_and, BitVec.toNat_ushiftRight, Nat.shiftRight_eq_div_pow]
  exact Nat.and_two_pow_sub_one_eq_mod _ 6

theorem have_lt (count : Word × Word) : have_ count < MD5_BLOCK_LENGTH := by
  rw [have_eq]
  exact Nat.mod_lt _ (by decide)

theorem have_addCount (count : Word × Word) (len : Nat) :
    have_ (addCount count len) = (have_ count + len) % MD5_BLOCK_LENGTH := by
  rw [have_eq, have_eq, toNat_addCount_low]
  unfold MD5_BLOCK_LENGTH
  omega

theorem length_pending (hb : ctx.buffer.length = MD5_BLOCK_LENGTH) : (stream ctx).pending.length = have_ ctx.count :=
  List.length_take_of_le (by rw [hb]; exact Nat.le_of_lt (have_lt _))

/-! ## Updates -/

/-- The loop over the blocks of the input. -/
theorem transformBlocks_eq (h : xs.length ≤ n) :
    transformBlocks n state xs =
      ((blocks MD5_BLOCK_LENGTH xs).foldl mgMD5Transform state, rest MD5_BLOCK_LENGTH xs) := by
  induction n generalizing state xs with
  | zero =>
    have hshort : xs.length < MD5_BLOCK_LENGTH := by unfold MD5_BLOCK_LENGTH; omega
    rw [transformBlocks, blocks_of_lt hshort, rest_of_lt hshort, List.foldl_nil]
  | succ n ih =>
    unfold transformBlocks
    split
    · next hlong =>
      have htake := List.length_take_of_le hlong
      have hsplit := List.take_append_drop MD5_BLOCK_LENGTH xs
      have hdrop : (xs.drop MD5_BLOCK_LENGTH).length ≤ n := by
        rw [List.length_drop]
        unfold MD5_BLOCK_LENGTH at *
        omega
      rw [ih hdrop]
      conv_rhs => rw [← hsplit, blocks_block (by decide) htake, rest_block (by decide) htake, List.foldl_cons]
    · next hshort =>
      rw [blocks_of_lt (Nat.lt_of_not_le hshort), rest_of_lt (Nat.lt_of_not_le hshort), List.foldl_nil]

/-- What an update does first when the input is long enough: it completes the block in the buffer. -/
def completeBuffer (ctx : Ctx) (xs : List UInt8) : State × List UInt8 × List UInt8 :=
  if have_ ctx.count ≠ 0 then
    let buffer := memcpy ctx.buffer (have_ ctx.count) (xs.take (MD5_BLOCK_LENGTH - have_ ctx.count))
    (mgMD5Transform ctx.state buffer, buffer, xs.drop (MD5_BLOCK_LENGTH - have_ ctx.count))
  else (ctx.state, ctx.buffer, xs)

theorem completeBuffer_spec (hb : ctx.buffer.length = MD5_BLOCK_LENGTH)
    (hlen : MD5_BLOCK_LENGTH - have_ ctx.count ≤ xs.length) :
    (completeBuffer ctx xs).2.1.length = MD5_BLOCK_LENGTH ∧
      (blocks MD5_BLOCK_LENGTH (completeBuffer ctx xs).2.2).foldl mgMD5Transform (completeBuffer ctx xs).1 =
        (blocks MD5_BLOCK_LENGTH ((stream ctx).pending ++ xs)).foldl mgMD5Transform ctx.state ∧
      rest MD5_BLOCK_LENGTH (completeBuffer ctx xs).2.2 = rest MD5_BLOCK_LENGTH ((stream ctx).pending ++ xs) := by
  have hlt := have_lt ctx.count
  have hpend := length_pending hb
  unfold completeBuffer
  split
  · have htake := List.length_take_of_le hlen
    have hfill : have_ ctx.count + (xs.take (MD5_BLOCK_LENGTH - have_ ctx.count)).length = ctx.buffer.length := by omega
    have hblock : memcpy ctx.buffer (have_ ctx.count) (xs.take (MD5_BLOCK_LENGTH - have_ ctx.count)) =
        (stream ctx).pending ++ xs.take (MD5_BLOCK_LENGTH - have_ ctx.count) := memcpy_end hfill
    have hsize : ((stream ctx).pending ++ xs.take (MD5_BLOCK_LENGTH - have_ ctx.count)).length = MD5_BLOCK_LENGTH := by
      rw [List.length_append]
      omega
    have hsplit : (stream ctx).pending ++ xs =
        ((stream ctx).pending ++ xs.take (MD5_BLOCK_LENGTH - have_ ctx.count)) ++
          xs.drop (MD5_BLOCK_LENGTH - have_ ctx.count) := by
      rw [List.append_assoc, List.take_append_drop]
    simp only [hblock]
    rw [hsplit, blocks_block (by decide) hsize, rest_block (by decide) hsize, List.foldl_cons]
    exact ⟨hsize, rfl, rfl⟩
  · next hzero =>
    have hnil : (stream ctx).pending = [] := List.eq_nil_of_length_eq_zero (hpend.trans (not_not.1 hzero))
    rw [hnil, List.nil_append]
    exact ⟨hb, rfl, rfl⟩

/-- The bytes left over at the end of an update. -/
theorem keep_tail {buffer : List UInt8} (off : Nat) (tail : List UInt8) (hb : buffer.length = MD5_BLOCK_LENGTH)
    (hlen : off + tail.length ≤ MD5_BLOCK_LENGTH) :
    (if tail.length ≠ 0 then memcpy buffer off tail else buffer).length = MD5_BLOCK_LENGTH ∧
      (if tail.length ≠ 0 then memcpy buffer off tail else buffer).take (off + tail.length) = buffer.take off ++ tail := by
  split
  · exact ⟨(length_memcpy (by omega)).trans hb, take_memcpy (by omega)⟩
  · next hzero =>
    have hnil : tail = [] := List.eq_nil_of_length_eq_zero (not_not.1 hzero)
    subst hnil
    rw [List.append_nil, List.length_nil, Nat.add_zero]
    exact ⟨hb, rfl⟩

/-- An update feeds the stream. -/
theorem stream_mgMD5Update (hb : ctx.buffer.length = MD5_BLOCK_LENGTH) (xs : List UInt8) :
    (mgMD5Update ctx xs).buffer.length = MD5_BLOCK_LENGTH ∧
      stream (mgMD5Update ctx xs) = (stream ctx).feed MD5_BLOCK_LENGTH mgMD5Transform xs := by
  have hlt := have_lt ctx.count
  have hpend := length_pending hb
  have hcount : have_ (mgMD5Update ctx xs).count = (have_ ctx.count + xs.length) % MD5_BLOCK_LENGTH := by
    rw [count_mgMD5Update, have_addCount]
  by_cases hlen : MD5_BLOCK_LENGTH - have_ ctx.count ≤ xs.length
  · obtain ⟨hsize, hstate, hrest⟩ := completeBuffer_spec hb hlen
    have hupdate : mgMD5Update ctx xs =
        let r := completeBuffer ctx xs
        let t := transformBlocks r.2.2.length r.1 r.2.2
        ⟨t.1, addCount ctx.count xs.length, if t.2.length ≠ 0 then memcpy r.2.1 0 t.2 else r.2.1⟩ := by
      unfold mgMD5Update
      exact if_pos hlen
    simp only [transformBlocks_eq (Nat.le_refl _), hstate, hrest] at hupdate
    have htail : (rest MD5_BLOCK_LENGTH ((stream ctx).pending ++ xs)).length =
        (have_ ctx.count + xs.length) % MD5_BLOCK_LENGTH := by
      rw [length_rest, List.length_append, hpend]
    have hmod := Nat.mod_lt (have_ ctx.count + xs.length) (show 0 < MD5_BLOCK_LENGTH by decide)
    obtain ⟨hlen', htake⟩ := keep_tail 0 _ hsize (by rw [htail]; omega)
    unfold stream BlockStream.feed
    rw [hcount, hupdate]
    refine ⟨hlen', congrArg _ ?_⟩
    rw [Nat.zero_add, List.take_zero, List.nil_append] at htake
    rw [← htail]
    exact htake
  · have hshort : ((stream ctx).pending ++ xs).length < MD5_BLOCK_LENGTH := by
      rw [List.length_append, hpend]
      omega
    have hupdate : mgMD5Update ctx xs =
        ⟨ctx.state, addCount ctx.count xs.length,
          if xs.length ≠ 0 then memcpy ctx.buffer (have_ ctx.count) xs else ctx.buffer⟩ := by
      unfold mgMD5Update
      exact if_neg hlen
    obtain ⟨hlen', htake⟩ := keep_tail (have_ ctx.count) xs hb (by omega)
    have hmod : (have_ ctx.count + xs.length) % MD5_BLOCK_LENGTH = have_ ctx.count + xs.length :=
      Nat.mod_eq_of_lt (by omega)
    unfold BlockStream.feed
    rw [blocks_of_lt hshort, rest_of_lt hshort]
    unfold stream
    rw [hcount, hmod, hupdate]
    exact ⟨hlen', congrArg _ htake⟩

theorem stream_foldl (ctx : Ctx) (hb : ctx.buffer.length = MD5_BLOCK_LENGTH) (pieces : List (List UInt8)) :
    (pieces.foldl mgMD5Update ctx).buffer.length = MD5_BLOCK_LENGTH ∧
      stream (pieces.foldl mgMD5Update ctx) = pieces.foldl (BlockStream.feed MD5_BLOCK_LENGTH mgMD5Transform) (stream ctx) := by
  induction pieces generalizing ctx with
  | nil => exact ⟨hb, rfl⟩
  | cons p pieces ih =>
    obtain ⟨hb', hs⟩ := stream_mgMD5Update hb p
    rw [List.foldl_cons, List.foldl_cons, ← hs]
    exact ih _ hb'

/-- What a context that was initialised has taken in. -/
theorem stream_run (hb : ctx.buffer.length = MD5_BLOCK_LENGTH) (pieces : List (List UInt8)) :
    stream (pieces.foldl mgMD5Update (mgMD5Init ctx)) =
      BlockStream.of MD5_BLOCK_LENGTH mgMD5Transform (mgMD5Init ctx).state pieces.flatten := by
  have hzero : have_ (mgMD5Init ctx).count = 0 := by
    rw [have_eq, (counts_iff.1 counts_init).1]
    decide
  have hinit : stream (mgMD5Init ctx) = BlockStream.of MD5_BLOCK_LENGTH mgMD5Transform (mgMD5Init ctx).state [] := by
    unfold stream
    rw [hzero]
    rfl
  rw [(stream_foldl (mgMD5Init ctx) hb pieces).2, hinit, BlockStream.foldl_feed (by decide), List.nil_append]

/-! ## The end -/

/-- The words of a state, the low byte of each first. -/
def leState (state : State) : List UInt8 :=
  leBytes 4 state.a.toNat ++ leBytes 4 state.b.toNat ++ leBytes 4 state.c.toNat ++ leBytes 4 state.d.toNat

/-- How many zero bytes stand behind `len` bytes and the `0x80`. -/
def zeros (len : Nat) : Nat := (119 - len % 64) % 64

theorem isLeast_zeros (len : Nat) : IsLeast {z | (len + 1 + z) % 64 = 56} (zeros len) := by
  unfold zeros
  constructor
  · show (len + 1 + (119 - len % 64) % 64) % 64 = 56
    omega
  · intro z hz
    have hz' : (len + 1 + z) % 64 = 56 := hz
    omega

/-- What `mg_MD5Final` takes of the padding. -/
theorem take_PADDING (len : Nat) :
    PADDING.take ((if MD5_BLOCK_LENGTH - len % 64 < 1 + 8 then MD5_BLOCK_LENGTH - len % 64 + MD5_BLOCK_LENGTH
      else MD5_BLOCK_LENGTH - len % 64) - 8) = 0x80 :: List.replicate (zeros len) 0 := by
  have hpad : (if MD5_BLOCK_LENGTH - len % 64 < 1 + 8 then MD5_BLOCK_LENGTH - len % 64 + MD5_BLOCK_LENGTH
      else MD5_BLOCK_LENGTH - len % 64) - 8 = zeros len + 1 := by
    unfold zeros MD5_BLOCK_LENGTH
    split <;> omega
  have hle : zeros len ≤ 63 := by
    unfold zeros
    omega
  rw [hpad, PADDING, List.take_succ_cons, List.take_replicate, Nat.min_eq_left hle]

/-- The digest with the count that the context has. -/
theorem mgMD5Final_stream {s₀ : State} (hb : ctx.buffer.length = MD5_BLOCK_LENGTH)
    (hs : stream ctx = BlockStream.of MD5_BLOCK_LENGTH mgMD5Transform s₀ m) :
    (mgMD5Final true ctx).1 = some (leState
      ((BlockStream.of MD5_BLOCK_LENGTH mgMD5Transform s₀ (m ++ 0x80 :: List.replicate (zeros m.length) 0)).feed
        MD5_BLOCK_LENGTH mgMD5Transform (put64bitLE ctx.count)).state) := by
  have hhave : have_ ctx.count = m.length % 64 := by
    rw [← length_pending hb, hs]
    exact length_rest
  have htake := take_PADDING m.length
  obtain ⟨hb₁, hs₁⟩ := stream_mgMD5Update hb (0x80 :: List.replicate (zeros m.length) 0)
  obtain ⟨-, hs₂⟩ := stream_mgMD5Update hb₁ (put64bitLE ctx.count)
  rw [hs₁, hs, BlockStream.feed_of (by decide)] at hs₂
  have hstate := congrArg BlockStream.state hs₂
  unfold mgMD5Final
  simp only [hhave, htake, put32bitLE_eq, if_pos]
  exact congrArg (fun state => some (leState state)) hstate

/-- The digest, as long as the count is right. -/
theorem mgMD5Final_eq {s₀ : State} (hb : ctx.buffer.length = MD5_BLOCK_LENGTH)
    (hs : stream ctx = BlockStream.of MD5_BLOCK_LENGTH mgMD5Transform s₀ m) (hc : Counts ctx.count m.length) :
    (mgMD5Final true ctx).1 = some (leState ((blocks MD5_BLOCK_LENGTH
      (m ++ 0x80 :: List.replicate (zeros m.length) 0 ++ leBytes 8 (8 * m.length))).foldl mgMD5Transform s₀)) := by
  rw [mgMD5Final_stream hb hs, put64bitLE_of_counts hc, BlockStream.feed_of (by decide)]
  rfl

/-- However a message comes in: the state is that of its complete blocks, the buffer holds the rest, and
the digest of less than 2 ^ 29 bytes is that of the padded message with its length in bits. -/
theorem mg_md5_stream (ctx : Ctx) (pieces : List (List UInt8)) (hb : ctx.buffer.length = MD5_BLOCK_LENGTH) :
    let m := pieces.flatten
    let fed := pieces.foldl mgMD5Update (mgMD5Init ctx)
    fed.state = (blocks MD5_BLOCK_LENGTH m).foldl mgMD5Transform (mgMD5Init ctx).state ∧
      fed.buffer.take (m.length % MD5_BLOCK_LENGTH) = rest MD5_BLOCK_LENGTH m ∧
      (m.length < 2 ^ 29 →
        ∃ z, IsLeast {z | (m.length + 1 + z) % 64 = 56} z ∧
          (mgMD5Final true fed).1 = some (leState ((blocks MD5_BLOCK_LENGTH
            (m ++ 0x80 :: List.replicate z 0 ++ leBytes 8 (8 * m.length))).foldl mgMD5Transform (mgMD5Init ctx).state))) := by
  intro m fed
  have hs : stream fed = BlockStream.of MD5_BLOCK_LENGTH mgMD5Transform (mgMD5Init ctx).state m := stream_run hb pieces
  have hb' : fed.buffer.length = MD5_BLOCK_LENGTH := (stream_foldl (mgMD5Init ctx) hb pieces).1
  have hhave : have_ fed.count = m.length % MD5_BLOCK_LENGTH := by
    rw [← length_pending hb', hs]
    exact length_rest
  refine ⟨congrArg BlockStream.state hs, ?_, fun hsmall => ⟨zeros m.length, isLeast_zeros _, ?_⟩⟩
  · rw [← hhave]
    exact congrArg BlockStream.pending hs
  · exact mgMD5Final_eq hb' hs (counts_small ctx pieces hsmall)

/-- Two pieces of a short message. -/
theorem mg_md5_stream_abc :
    let s₀ := (mgMD5Init ⟨⟨0, 0, 0, 0⟩, (0, 0), List.replicate 64 0⟩).state
    let fed := [[0x61], [0x62, 0x63]].foldl mgMD5Update (mgMD5Init ⟨⟨0, 0, 0, 0⟩, (0, 0), List.replicate 64 0⟩)
    fed.state = (blocks MD5_BLOCK_LENGTH [0x61, 0x62, 0x63]).foldl mgMD5Transform s₀ ∧
      fed.buffer.take 3 = rest MD5_BLOCK_LENGTH [0x61, 0x62, 0x63] ∧
      ∃ z, IsLeast {z | (3 + 1 + z) % 64 = 56} z ∧
        (mgMD5Final true fed).1 = some (leState ((blocks MD5_BLOCK_LENGTH
          ([0x61, 0x62, 0x63] ++ 0x80 :: List.replicate z 0 ++ leBytes 8 (8 * 3))).foldl mgMD5Transform s₀)) :=
  have h := mg_md5_stream ⟨⟨0, 0, 0, 0⟩, (0, 0), List.replicate 64 0⟩ [[0x61], [0x62, 0x63]] List.length_replicate
  ⟨h.1, h.2.1, h.2.2 (by decide)⟩

/-- `mg_md5_calc` takes the message in one piece. -/
theorem mgMd5Calc_eq (hb : ctx.buffer.length = MD5_BLOCK_LENGTH) (hsmall : m.length < 2 ^ 29) :
    mgMd5Calc ctx m = some (leState ((blocks MD5_BLOCK_LENGTH
      (m ++ 0x80 :: List.replicate (zeros m.length) 0 ++ leBytes 8 (8 * m.length))).foldl mgMD5Transform
        (mgMD5Init ctx).state)) := by
  have hflat : [m].flatten = m := by rw [List.flatten_singleton]
  have hs := stream_run hb [m]
  have hc := counts_small ctx [m] (by rwa [hflat])
  rw [hflat] at hs hc
  exact mgMD5Final_eq (stream_foldl (mgMD5Init ctx) hb [m]).1 hs hc

/-- "abc" -/
example : mgMd5Calc ⟨⟨0, 0, 0, 0⟩, (0, 0), List.replicate 64 0⟩ [0x61, 0x62, 0x63] =
    some [0x90, 0x01, 0x50, 0x98, 0x3c, 0xd2, 0x4f, 0xb0, 0xd6, 0x96, 0x3f, 0x7d, 0x28, 0xe1, 0x7f, 0x72] := by
  decide +kernel

end MgStd.Md5
