import MgStd.Md5.Stream
/-!
# mghmac_md5.c

The code hashes two pieces at a time and keeps the key, the key's digest and the
inner digest in one buffer. What it writes is the nested hash of the padded key
and the message.
-/

namespace MgStd.Md5

open MgStd.Lib

variable {ctx : Ctx} {x : List UInt8}

/-! ## hmac_md5 -/

/-- The memory at `digest`, an object, after the digest has been written to it. -/
def writeDigest (mem : List UInt8) (digest : Option (List UInt8)) : Except Fault (List UInt8) :=
  match digest with
  | some bytes => storeBytes mem 0 bytes
  | none => return mem

/-- `mg_MD5Init`, two calls of `mg_MD5Update` and `mg_MD5Final` -/
def finalTwo (context : Ctx) (first second : List UInt8) : Option (List UInt8) :=
  (mgMD5Final true (mgMD5Update (mgMD5Update (mgMD5Init context) first) second)).1

/-- `hmac_key` before the pads are made. The length of the key becomes an `unsigned int` in `mg_md5_calc`. -/
def hmacKey (context : Ctx) (key : List UInt8) : Except Fault (List UInt8) :=
  let hmac_key := List.replicate 64 0
  if key.length > 64 then writeDigest hmac_key (mgMd5Calc context (key.take (key.length % 2 ^ 32)))
  else storeBytes hmac_key 0 key

/-- NULL is `none`, and of a pointer the bytes behind it are given, as many as the length says. The contexts are what the
local variables happen to hold, `context` the one of `mg_md5_calc`. The result is the memory at `output`, or `none`
after `abort`. -/
def hmacMd5 (context context1 context2 : Ctx) (output input key : Option (List UInt8)) : Option (Except Fault (List UInt8)) :=
  match output with
  | none => none
  | some output => some do
    let input := input.getD []
    let key := key.getD []
    let hmac_key ← hmacKey context key
    let k_ipad := hmac_key.map (· ^^^ 0x36)
    let k_opad := hmac_key.map (· ^^^ 0x5c)
    let hmac_key ← writeDigest hmac_key (finalTwo context1 k_ipad input)
    writeDigest output (finalTwo context2 k_opad (hmac_key.take 16))

/-! ## The digest of a message -/

/-- The digest of `x`: `mg_MD5Init`, one `mg_MD5Update` and `mg_MD5Final`. -/
def md5Digest (x : List UInt8) : List UInt8 :=
  (mgMd5Calc ⟨⟨0, 0, 0, 0⟩, (0, 0), List.replicate MD5_BLOCK_LENGTH 0⟩ x).getD []

theorem length_leState (state : State) : (leState state).length = 16 := by
  simp only [leState, List.length_append, length_leBytes]

theorem mgMd5Calc_stream (hb : ctx.buffer.length = MD5_BLOCK_LENGTH) (x : List UInt8) :
    mgMd5Calc ctx x = some (leState ((BlockStream.of MD5_BLOCK_LENGTH mgMD5Transform (mgMD5Init ctx).state
      (x ++ 0x80 :: List.replicate (zeros x.length) 0)).feed MD5_BLOCK_LENGTH mgMD5Transform
        (put64bitLE (addCount (0, 0) x.length))).state) := by
  have hs := stream_run hb [x]
  rw [List.flatten_singleton] at hs
  have hfinal := mgMD5Final_stream (stream_foldl (mgMD5Init ctx) hb [x]).1 hs
  rw [List.foldl_cons, List.foldl_nil, count_mgMD5Update] at hfinal
  exact hfinal

/-- What the context held before does not matter. -/
theorem mgMd5Calc_digest (hb : ctx.buffer.length = MD5_BLOCK_LENGTH) (x : List UInt8) :
    mgMd5Calc ctx x = some (md5Digest x) := by
  unfold md5Digest
  rw [mgMd5Calc_stream hb, mgMd5Calc_stream List.length_replicate, Option.getD_some]
  rfl

theorem length_md5Digest (x : List UInt8) : (md5Digest x).length = 16 := by
  unfold md5Digest
  rw [mgMd5Calc_stream List.length_replicate, Option.getD_some, length_leState]

/-- Two pieces have the digest of the message. -/
theorem finalTwo_eq (hb : ctx.buffer.length = MD5_BLOCK_LENGTH) {a b : List UInt8} (hsmall : (a ++ b).length < 2 ^ 29) :
    finalTwo ctx a b = some (md5Digest (a ++ b)) := by
  have hflat : [a, b].flatten = a ++ b := by rw [List.flatten_cons, List.flatten_singleton]
  have hs := stream_run hb [a, b]
  have hc := counts_small ctx [a, b] (by rwa [hflat])
  rw [hflat] at hs hc
  rw [← mgMd5Calc_digest hb, mgMd5Calc_eq hb hsmall]
  exact mgMD5Final_eq (stream_foldl (mgMD5Init ctx) hb [a, b]).1 hs hc

/-! ## The keyed hash -/

/-- The key of a block: its digest when it is longer than a block, then zeros. -/
def blockKey (key : List UInt8) : List UInt8 :=
  let k := if key.length > 64 then md5Digest key else key
  k ++ List.replicate (64 - k.length) 0

/-- Each byte of `key` with the byte of `pad` in its place. -/
def xorBytes (key pad : List UInt8) : List UInt8 := List.zipWith (· ^^^ ·) key pad

def ipad : List UInt8 := List.replicate 64 0x36

def opad : List UInt8 := List.replicate 64 0x5c

theorem length_blockKey (key : List UInt8) : (blockKey key).length = 64 := by
  unfold blockKey
  dsimp only
  split
  · rw [List.length_append, List.length_replicate, length_md5Digest]
  · rw [List.length_append, List.length_replicate]
    omega

theorem xorBytes_replicate (key : List UInt8) (b : UInt8) :
    xorBytes key (List.replicate key.length b) = key.map (· ^^^ b) := by
  unfold xorBytes
  induction key with
  | nil => rfl
  | cons k key ih => rw [List.length_cons, List.replicate_succ, List.zipWith_cons_cons, ih, List.map_cons]

theorem map_xor_blockKey (key : List UInt8) (b : UInt8) :
    (blockKey key).map (· ^^^ b) = xorBytes (blockKey key) (List.replicate 64 b) := by
  rw [← xorBytes_replicate, length_blockKey]

theorem hmacKey_eq (hb : ctx.buffer.length = MD5_BLOCK_LENGTH) {key : List UInt8} (hkey : key.length < 2 ^ 32) :
    hmacKey ctx key = .ok (blockKey key) := by
  have hpad : ∀ k : List UInt8, k.length ≤ 64 → storeBytes (List.replicate 64 0) 0 k = .ok (k ++ List.replicate (64 - k.length) 0) := by
    intro k hk
    rw [storeBytes_ok (by rwa [Nat.zero_add, List.length_replicate])]
    exact congrArg Except.ok (memcpy_free [] k 64 0)
  unfold hmacKey blockKey
  split
  · rw [Nat.mod_eq_of_lt hkey, List.take_length, mgMd5Calc_digest hb]
    exact hpad _ (by rw [length_md5Digest]; decide)
  · exact hpad key (by omega)

/-- A digest in an object with room for it. -/
theorem writeDigest_eq {mem bytes : List UInt8} (h : bytes.length = 16) (hroom : 16 ≤ mem.length) :
    writeDigest mem (some bytes) = .ok (bytes ++ mem.drop 16) := by
  unfold writeDigest
  dsimp only
  rw [storeBytes_ok (by rwa [Nat.zero_add, h]), memcpy, List.take_zero, List.nil_append, Nat.zero_add, h]

/-- For a key of less than 2 ^ 29 bytes and a message of less than 2 ^ 29 - 64 the nested hash of the padded key
and the message is written, where the hash is what every context produces. Behind the first 16 bytes of `hmac_key`,
the inner digest, some of the key still stands; it is not used. -/
theorem hmac_md5_eq (context context1 context2 : Ctx) (output : List UInt8) (input key : Option (List UInt8))
    (houtput : 16 ≤ output.length) (hb : context.buffer.length = MD5_BLOCK_LENGTH)
    (hb₁ : context1.buffer.length = MD5_BLOCK_LENGTH) (hb₂ : context2.buffer.length = MD5_BLOCK_LENGTH)
    (hkey : (key.getD []).length < 2 ^ 29) (hinput : (input.getD []).length < 2 ^ 29 - 64) :
    (∀ (ctx : Ctx) (x : List UInt8), ctx.buffer.length = MD5_BLOCK_LENGTH →
      (mgMD5Final true (mgMD5Update (mgMD5Init ctx) x)).1 = some (md5Digest x) ∧ (md5Digest x).length = 16) ∧
    hmacMd5 context context1 context2 (some output) input key =
      some (.ok (md5Digest (xorBytes (blockKey (key.getD [])) opad ++
        md5Digest (xorBytes (blockKey (key.getD [])) ipad ++ input.getD [])) ++ output.drop 16)) := by
  refine ⟨fun ctx x hctx => ⟨mgMd5Calc_digest hctx x, length_md5Digest x⟩, ?_⟩
  have hpad : ∀ b : UInt8, (xorBytes (blockKey (key.getD [])) (List.replicate 64 b)).length = 64 := by
    intro b
    rw [← map_xor_blockKey, List.length_map, length_blockKey]
  have hinner : finalTwo context1 (xorBytes (blockKey (key.getD [])) ipad) (input.getD []) =
      some (md5Digest (xorBytes (blockKey (key.getD [])) ipad ++ input.getD [])) := by
    apply finalTwo_eq hb₁
    rw [List.length_append, ipad, hpad]
    omega
  have houter : ∀ inner : List UInt8, inner.length = 16 → finalTwo context2 (xorBytes (blockKey (key.getD [])) opad) inner =
      some (md5Digest (xorBytes (blockKey (key.getD [])) opad ++ inner)) := by
    intro inner hlen
    apply finalTwo_eq hb₂
    rw [List.length_append, opad, hpad, hlen]
    decide
  have hblock : 16 ≤ (blockKey (key.getD [])).length := by
    rw [length_blockKey]
    decide
  unfold hmacMd5
  simp only [hmacKey_eq hb (show (key.getD []).length < 2 ^ 32 by omega), bind, Except.bind, map_xor_blockKey]
  rw [← ipad, ← opad, hinner, writeDigest_eq (length_md5Digest _) hblock]
  dsimp only
  rw [List.take_left' (length_md5Digest _), houter _ (length_md5Digest _), writeDigest_eq (length_md5Digest _) houtput]

/-- A key that is longer than a block, the message "ab", and contexts that are not clean. -/
theorem hmac_md5_eq_long :
    let ctx : Ctx := ⟨⟨1, 2, 3, 4⟩, (5, 6), List.replicate 64 7⟩
    hmacMd5 ctx ctx ctx (some (List.replicate 20 0xff)) (some [0x61, 0x62]) (some (List.replicate 65 0x6b)) =
      some (.ok (md5Digest (xorBytes (md5Digest (List.replicate 65 0x6b) ++ List.replicate 48 0) opad ++
        md5Digest (xorBytes (md5Digest (List.replicate 65 0x6b) ++ List.replicate 48 0) ipad ++ [0x61, 0x62])) ++
          List.replicate 4 0xff)) := by
  intro ctx
  have hkey : blockKey (List.replicate 65 0x6b) = md5Digest (List.replicate 65 0x6b) ++ List.replicate 48 0 := by
    unfold blockKey
    dsimp only
    rw [if_pos (by decide), length_md5Digest]
  have hb : ctx.buffer.length = MD5_BLOCK_LENGTH := List.length_replicate
  have h := (hmac_md5_eq ctx ctx ctx (List.replicate 20 0xff) (some [0x61, 0x62]) (some (List.replicate 65 0x6b))
    (by decide) hb hb hb (by decide) (by decide)).2
  rw [Option.getD_some, hkey] at h
  exact h

/-- The key "key" and the message "The quick brown fox jumps over the lazy dog". -/
example :
    let ctx : Ctx := ⟨⟨0, 0, 0, 0⟩, (0, 0), List.replicate 64 0⟩
    hmacMd5 ctx ctx ctx (some (List.replicate 16 0)) (some "The quick brown fox jumps over the lazy dog".toUTF8.toList)
        (some [0x6b, 0x65, 0x79]) =
      some (.ok [0x80, 0x07, 0x07, 0x13, 0x46, 0x3e, 0x77, 0x49, 0xb9, 0x0c, 0x2d, 0xc2, 0x49, 0x11, 0xe2, 0x75]) := by
  decide +kernel

end MgStd.Md5
