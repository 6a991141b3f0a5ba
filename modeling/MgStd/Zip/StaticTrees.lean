import MgStd.Zip.BitStream
/-!
# `ct_init`, `ct_tally`, `compress_block` and `flush_block` of mglite_zip.c

The tables that `ct_init` makes, what `ct_tally` records of a block, and what
`compress_block` sends of it with the static trees. The frequencies for the dynamic
trees, what `ct_tally` says about the end of the block, and how `flush_block` chooses
the kind of the block are left out.
-/

namespace MgStd.Zip

open MgStd.Lib

def MAX_BITS : Nat := 15
def LITERALS : Nat := 256
def END_BLOCK : Nat := 256
def LENGTH_CODES : Nat := 29
def STORED_BLOCK : Nat := 0
def STATIC_TREES : Nat := 1

def Extra_lbits : List Nat := [0, 0, 0, 0, 0, 0, 0, 0, 1, 1, 1, 1, 2, 2, 2, 2, 3, 3, 3, 3, 4, 4, 4, 4, 5, 5, 5, 5, 0]

def Extra_dbits : List Nat := [0, 0, 0, 0, 1, 1, 2, 2, 3, 3, 4, 4, 5, 5, 6, 6, 7, 7, 8, 8, 9, 9, 10, 10, 11, 11, 12, 12, 13, 13]

/-! ## `bi_reverse` and `gen_codes` -/

/-- The loop of `bi_reverse`, with `len - 1` rounds behind this one. -/
def biReverseLoop : Nat → Nat → Nat → Nat
  | 0, code, res => res ||| code &&& 1
  | len + 1, code, res => biReverseLoop len (code >>> 1) ((res ||| code &&& 1) <<< 1)

def biReverse (code len : Nat) : Nat := biReverseLoop (len - 1) code 0

/-- `next_code`, from the numbers of codes of each length. -/
def nextCode (bl_count : List Nat) : List Nat :=
  ((List.range MAX_BITS).foldl (fun (next : List Nat × Nat) bits =>
    let code := ((next.2 + bl_count.getD bits 0) <<< 1) % 65536
    (next.1 ++ [code], code)) ([0], 0)).1

/-- The codes of a tree with these lengths, each from its least significant bit. -/
def genCodes : List Nat → List Nat → List Nat
  | _, [] => []
  | next_code, len :: lens =>
    if len ≠ 0 then
      biReverse (next_code.getD len 0) len :: genCodes (next_code.set len ((next_code.getD len 0 + 1) % 65536)) lens
    else 0 :: genCodes next_code lens

/-! ## `ct_init` -/

/-- `length_code`: as many entries for each code as its extra bits tell apart, and the last entry is for a code of its own. -/
def length_code : List Nat :=
  ((List.range (LENGTH_CODES - 1)).flatMap fun code => List.replicate (1 <<< Extra_lbits.getD code 0) code).set 255 28

def base_length (code : Nat) : Nat := (List.range code).foldl (fun length code => length + 1 <<< Extra_lbits.getD code 0) 0

/-- `dist_code`: the small distances, two entries that are not used, and the others by their high bits. -/
def dist_code : List Nat :=
  ((List.range 16).flatMap fun code => List.replicate (1 <<< Extra_dbits.getD code 0) code) ++ [0, 0] ++
    (List.range' 16 14).flatMap fun code => List.replicate (1 <<< (Extra_dbits.getD code 0 - 7)) code

def base_dist (code : Nat) : Nat :=
  if code < 16 then (List.range code).foldl (fun dist code => dist + 1 <<< Extra_dbits.getD code 0) 0
  else (List.range' 16 (code - 16)).foldl (fun dist code => dist + 1 <<< (Extra_dbits.getD code 0 - 7)) (256 >>> 7) <<< 7

/-- The lengths in `static_ltree`. -/
def static_lens : List Nat := List.replicate 144 8 ++ List.replicate 112 9 ++ List.replicate 24 7 ++ List.replicate 8 8

/-- `bl_count` of them. -/
def static_bl_count : List Nat := (List.range (MAX_BITS + 1)).map fun bits => static_lens.count bits

def static_codes : List Nat := genCodes (nextCode static_bl_count) static_lens

/-! ## `ct_tally` -/

/-- The buffers of a block. What is in use of them: `last_lit`, `last_dist` and `last_flags` are the lengths. In the source
they have room for `LIT_BUFSIZE` items, and a block has fewer: its caller ends it when `ct_tally` returns that
`LIT_BUFSIZE - 1` are there. This return is left out. -/
structure Tally where
  l_buf : List UInt8
  d_buf : List Nat
  flag_buf : List Nat
  flags : Nat
  flag_bit : Nat

/-- `init_block` -/
def initBlock : Tally := ⟨[], [], [], 0, 1⟩

/-- `ct_tally(state, dist, lc)` for the pair of `dist` and `lc` -/
def ctTally (ts : Tally) (item : Nat × UInt8) : Tally :=
  let ts := { ts with l_buf := ts.l_buf ++ [item.2] }
  let ts := if item.1 = 0 then ts
    else { ts with d_buf := ts.d_buf ++ [(item.1 - 1) % 65536], flags := ts.flags ||| ts.flag_bit }
  let ts := { ts with flag_bit := ts.flag_bit <<< 1 % 256 }
  if ts.l_buf.length &&& 7 = 0 then { ts with flag_buf := ts.flag_buf ++ [ts.flags], flags := 0, flag_bit := 1 } else ts

/-- The flags of the last items, as `flush_block` saves them. -/
def Tally.saved (ts : Tally) : Tally := { ts with flag_buf := ts.flag_buf ++ [ts.flags] }

/-! ## `compress_block` -/

/-- `send_code(state, c, static_ltree)` -/
def sendLcode (c : Nat) : Sent := .bits (static_codes.getD c 0) (static_lens.getD c 0)

/-- `send_code(state, c, static_dtree)` -/
def sendDcode (c : Nat) : Sent := .bits (biReverse c 5) 5

/-- `d_code(dist)` -/
def dCode (dist : Nat) : Nat := if dist < 256 then dist_code.getD dist 0 else dist_code.getD (256 + dist >>> 7) 0

/-- `if (extra) send_bits(…)` -/
def sendExtra (value extra : Nat) : List Sent := if extra ≠ 0 then [.bits value extra] else []

/-- The codes of a match in `compress_block`, `lc` and `dist` as in `l_buf` and `d_buf`. -/
def sendMatch (lc dist : Nat) : List Sent :=
  let code := length_code.getD lc 0
  sendLcode (code + LITERALS + 1) :: (sendExtra (lc - base_length code) (Extra_lbits.getD code 0) ++
    sendDcode (dCode dist) :: sendExtra (dist - base_dist (dCode dist)) (Extra_dbits.getD (dCode dist) 0))

/-- The loop of `compress_block`: the lists begin at `lx`, `dx` and `fx`. -/
def compressLoop : Nat → List UInt8 → List Nat → List Nat → Nat → List Sent
  | _, [], _, _, _ => []
  | lx, lc :: l_buf, d_buf, flag_buf, flag =>
    let next := if lx &&& 7 = 0 then (flag_buf.headD 0, flag_buf.tail) else (flag, flag_buf)
    if next.1 &&& 1 = 0 then sendLcode lc.toNat :: compressLoop (lx + 1) l_buf d_buf next.2 (next.1 >>> 1)
    else sendMatch lc.toNat (d_buf.headD 0) ++ compressLoop (lx + 1) l_buf d_buf.tail next.2 (next.1 >>> 1)

/-- The calls of `send_bits` in `compress_block(state, static_ltree, static_dtree)`, unless one fails. -/
def blockCodes (ts : Tally) : List Sent := compressLoop 0 ts.l_buf ts.d_buf ts.flag_buf 0 ++ [sendLcode END_BLOCK]

/-- The calls one after the other, up to the first `send_bits` that fails. -/
def sendEach : List Sent → Prog Writer Unit
  | [] => return
  | .bits value length :: sent => do
    if ← sendBits value length then sendEach sent
  | .copy block header :: sent => do
    copyBlock block header
    sendEach sent

def compressBlock (ts : Tally) : Prog Writer Unit := sendEach (blockCodes ts)

/-! ## `flush_block` -/

/-- A block as `flush_block` sends it: the bytes, or what `ct_tally` has been called with. -/
inductive Block
  | stored (bytes : List UInt8)
  | static (items : List (Nat × UInt8))

/-- The part of `flush_block` that sends a block that is stored or has the static trees. -/
def Block.send (eof : Bool) : Block → Prog Writer Unit
  | .stored bytes => do
    let _ ← sendBits (STORED_BLOCK <<< 1 + eof.toNat) 3
    copyBlock bytes true
  | .static items => do
    let _ ← sendBits (STATIC_TREES <<< 1 + eof.toNat) 3
    compressBlock (items.foldl ctTally initBlock).saved

def flushBlock (b : Block) (eof : Bool) : Prog Writer Unit := do
  if ¬ (← get).tzip.abort then
    b.send eof
    if (← get).tzip.lasterr = .ok then
      if eof then biWindup

/-- The calls of `flush_block` in `deflate`: the last one has `eof`, and none follows an error. -/
def flushBlocks : List Block → Prog Writer Unit
  | [] => return
  | [b] => flushBlock b true
  | b :: bs => do
    flushBlock b false
    if (← get).tzip.lasterr = .ok then flushBlocks bs

end MgStd.Zip
