import MgStd.Lib.Prog
import MgStd.Lib.Bytes
import MgStd.Inflate.Huft
/-!
# `inflate`

The local copies that the functions make of the state (`b`, `k`, `p`, `n`, `q`, `m`
and `r`) are fields of one state here, so what `LOAD` and `UPDATE` copy is there
already. The bit buffer never gets to its 64 bits. A pointer into a table is the
space that the table is in and an index. The modes of `inflate` for a zlib header
and a checksum are left out, since `initEntry` begins behind them; so are
allocations that fail, and the counts of `total_in` and `total_out`.
-/

namespace MgStd.Inflate

open MgStd.Lib

/-- A pointer to an entry of a table. -/
structure HuftPtr where
  space : List Huft
  at_ : Nat

/-- `INFLATE_CODES_STATE.mode` with its part of `sub`. -/
inductive CodesMode
  | start
  | len (need : Nat) (tree : Option HuftPtr)
  | lenext (get : Nat)
  | dist (need : Nat) (tree : Option HuftPtr)
  | distext (get dist : Nat)
  | copy (dist : Nat)
  | lit (lit : Nat)
  | wash
  | end_
  | badcode

/-- `INFLATE_CODES_STATE` -/
structure Codes where
  mode : CodesMode
  len : Nat
  lbits : Nat
  dbits : Nat
  ltree : Option HuftPtr
  dtree : Option HuftPtr

/-- `INFLATE_BLOCKS_STATE.mode` with its part of `sub`. -/
inductive BlocksMode
  | type
  | lens
  | stored (left : Nat)
  | table
  | btree (table index : Nat) (blens : List Nat)
  | dtree (table index : Nat) (blens : List Nat) (bb : Nat) (tb : Option HuftPtr)
  | codes (codes : Codes)
  | dry
  | done
  | bad

/-- `INTERNAL_STATE.mode`: `IM_BLOCKS`, `IM_DONE` and `IM_BAD`. -/
inductive StreamMode
  | blocks
  | done
  | bad
  deriving DecidableEq

/-- The stream, `INFLATE_BLOCKS_STATE` and the local variables. -/
structure Inflater where
  /-- the buffer from `next_in` at the call, and how many bytes of it have been read -/
  input : List UInt8
  p : Nat
  /-- what the call has written, and `avail_out` -/
  nextOut : List UInt8
  availOut : Nat
  streamMode : StreamMode
  mode : BlocksMode
  last : Bool
  bitb : Nat
  bitk : Nat
  hufts : List Huft
  window : List UInt8
  read : Nat
  /-- `write`, or `q` -/
  write : Nat
  m : Nat
  r : Int

abbrev InflateProg := Prog Inflater

/-- `end - window` -/
def Inflater.size (s : Inflater) : Nat := s.window.length

/-- `inflate_mask[j]` of the bit buffer. -/
def Inflater.peek (s : Inflater) (j : Nat) : Nat := s.bitb % 1 <<< j

/-! ## The macros -/

/-- `NEEDBITS(j)`, and whether it goes on. -/
def needBits (j : Nat) : Nat → InflateProg Bool
  | 0 => fault .fuel
  | fuel + 1 => do
    let s ← get
    if s.bitk < j then
      if h : s.p < s.input.length then
        set { s with
          r := Z_OK, bitb := s.bitb ||| (s.input.get ⟨s.p, h⟩).toNat <<< s.bitk, bitk := s.bitk + 8, p := s.p + 1 }
        needBits j fuel
      else return false
    else return true

def NEEDBITS (j : Nat) : InflateProg Bool := needBits j (j + 1)

def DUMPBITS (j : Nat) : InflateProg Unit := modify fun s => { s with bitb := s.bitb >>> j, bitk := s.bitk - j }

/-- `GRABBITS(j)`: whether there is a byte is not asked. -/
def grabBits (j : Nat) : Nat → InflateProg Unit
  | 0 => fault .fuel
  | fuel + 1 => do
    let s ← get
    if s.bitk < j then
      if h : s.p < s.input.length then
        set { s with bitb := s.bitb ||| (s.input.get ⟨s.p, h⟩).toNat <<< s.bitk, bitk := s.bitk + 8, p := s.p + 1 }
        grabBits j fuel
      else fault .bounds

def GRABBITS (j : Nat) : InflateProg Unit := grabBits j (j + 1)

/-- The bytes that are not needed go back to the input, as far as this call has read them. `p₀` is where it began. -/
def UNGRAB (p₀ : Nat) : InflateProg Unit := modify fun s =>
  let c := min (s.bitk >>> 3) (s.p - p₀)
  { s with p := s.p - c, bitk := s.bitk - c <<< 3 }

/-- `WAVAIL` -/
def Inflater.wavail (s : Inflater) : Nat := if s.write < s.read then s.read - s.write - 1 else s.size - s.write

/-- `WRAP` -/
def WRAP : InflateProg Unit := modify fun s =>
  if s.write = s.size ∧ s.read ≠ 0 then { s with write := 0, m := { s with write := 0 }.wavail } else s

/-- What `inflate_flush` copies to the output: from `read` up to `upto`. -/
def Inflater.copyOut (s : Inflater) (upto : Nat) : Inflater :=
  let n := min (upto - s.read) s.availOut
  { s with
    r := if n ≠ 0 ∧ s.r = Z_BUF_ERROR then Z_OK else s.r
    availOut := s.availOut - n
    nextOut := s.nextOut ++ (s.window.drop s.read).take n
    read := s.read + n }

def inflateFlush : InflateProg Unit := modify fun s =>
  let s := s.copyOut (if s.read ≤ s.write then s.write else s.size)
  if s.read = s.size then
    let s := { s with read := 0, write := if s.write = s.size then 0 else s.write }
    s.copyOut s.write
  else s

/-- `FLUSH` -/
def FLUSH : InflateProg Unit := do
  inflateFlush
  modify fun s => { s with m := s.wavail }

/-- `LEAVE`: `inflate_flush`, and the result. -/
def LEAVE : InflateProg Int := do
  inflateFlush
  return (← get).r

/-- `NEEDOUT`, and whether it goes on. -/
def NEEDOUT : InflateProg Bool := do
  if (← get).m = 0 then
    WRAP
    if (← get).m = 0 then
      FLUSH
      WRAP
      if (← get).m = 0 then return false
  modify fun s => { s with r := Z_OK }
  return true

/-- `OUTBYTE(a)` -/
def OUTBYTE (a : UInt8) : InflateProg Unit := do
  let s ← get
  if s.write < s.size then set { s with window := s.window.set s.write a, write := s.write + 1, m := s.m - 1 } else fault .bounds

/-- The byte of the window at `f`. -/
def windowByte (f : Nat) : InflateProg UInt8 := do
  let s ← get
  if h : f < s.window.length then return s.window.get ⟨f, h⟩ else fault .bounds

/-- `f = q - dist; while (f < window) f += end - window` -/
def Inflater.back (s : Inflater) (dist : Nat) : Nat :=
  if dist ≤ s.write then s.write - dist else s.size - 1 - (dist - s.write - 1) % s.size

/-- The entry at an index behind a pointer, and the pointer to it. -/
def entryAt (tree : Option HuftPtr) (j : Nat) : InflateProg (Huft × HuftPtr) :=
  match tree with
  | none => fault .null
  | some t => if h : t.at_ + j < t.space.length then pure (t.space.get ⟨t.at_ + j, h⟩, ⟨t.space, t.at_ + j⟩) else fault .bounds

/-! ## `inflate_fast` -/

/-- `*q++ = *r++`, `n` times. -/
def moveBytes : Nat → Nat → InflateProg Unit
  | 0, _ => pure ()
  | n + 1, f => do
    OUTBYTE (← windowByte f)
    moveBytes n (f + 1)

/-- The same as a loop that tests at its end, where 0 would go round until memory ends. -/
def moveBytesDo (n f : Nat) : InflateProg Unit := if n = 0 then fault .bounds else moveBytes n f

/-- The copy of `c` bytes: `OUTBYTE` counts `m` down. -/
def fastCopy (c d : Nat) : InflateProg Unit := do
  let s ← get
  let r := s.back d
  if s.write < d ∧ s.size - r < c then
    moveBytesDo (s.size - r) r
    moveBytesDo (c - (s.size - r)) 0
  else
    moveBytes 2 r
    moveBytesDo (c - 2) (r + 2)

/-- The distance of a copy of `c` bytes, from an entry on. It comes to an error or goes on. -/
def fastDist (p₀ c : Nat) : Nat → Huft × HuftPtr → InflateProg (Option Int)
  | 0, _ => fault .fuel
  | fuel + 1, (t, at_) => do
    DUMPBITS t.Bits
    if t.Exop &&& 16 ≠ 0 then
      let e := t.Exop &&& 15
      GRABBITS e
      let d := t.base + (← get).peek e
      DUMPBITS e
      fastCopy c d
      return none
    else if t.Exop &&& 64 = 0 then
      fastDist p₀ c fuel (← entryAt (some at_) (t.base + (← get).peek t.Exop))
    else
      UNGRAB p₀
      return some Z_DATA_ERROR

/-- A length or what else stands for itself no byte, from an entry on. -/
def fastLen (codes : Codes) (p₀ : Nat) : Nat → Huft × HuftPtr → InflateProg (Option Int)
  | 0, _ => fault .fuel
  | fuel + 1, (t, at_) => do
    DUMPBITS t.Bits
    if t.Exop &&& 16 ≠ 0 then
      let e := t.Exop &&& 15
      let c := t.base + (← get).peek e
      DUMPBITS e
      GRABBITS 15
      fastDist p₀ c (BMAX + 1) (← entryAt codes.dtree ((← get).peek codes.dbits))
    else if t.Exop &&& 64 = 0 then
      let next ← entryAt (some at_) (t.base + (← get).peek t.Exop)
      if next.1.Exop = 0 then
        DUMPBITS next.1.Bits
        OUTBYTE (UInt8.ofNat next.1.base)
        return none
      else fastLen codes p₀ fuel next
    else
      UNGRAB p₀
      return some (if t.Exop &&& 32 ≠ 0 then Z_STREAM_END else Z_DATA_ERROR)

/-- A round of the outer loop. A code goes through no more tables than it has bits. -/
def fastRound (codes : Codes) (p₀ : Nat) : InflateProg (Option Int) := do
  GRABBITS 20
  let t ← entryAt codes.ltree ((← get).peek codes.lbits)
  if t.1.Exop = 0 then
    DUMPBITS t.1.Bits
    OUTBYTE (UInt8.ofNat t.1.base)
    return none
  else fastLen codes p₀ (BMAX + 1) t

def fastEnough (s : Inflater) : Bool := 258 ≤ s.m ∧ 10 ≤ s.input.length - s.p

/-- `do … while (m >= 258 && n >= 10)` -/
def fastLoop (codes : Codes) (p₀ : Nat) (_ : Unit) : InflateProg (Unit ⊕ Int) := do
  match ← fastRound codes p₀ with
  | some r => return .inr r
  | none =>
    if fastEnough (← get) then return .inl ()
    UNGRAB p₀
    return .inr Z_OK

def inflateFast (codes : Codes) (fuel : Nat) : InflateProg Int := do
  loop (fastLoop codes (← get).p) fuel ()

/-! ## `inflate_codes` -/

/-- `LEAVE` in `inflate_codes`. -/
def leaveCodes (c : Codes) : InflateProg (Codes ⊕ Codes × Int) := do return .inr (c, ← LEAVE)

/-- `while (c->len)`: what is left of the length when it leaves. -/
def copyLoop : Nat → Nat → InflateProg Nat
  | 0, _ => pure 0
  | len + 1, f => do
    if ← NEEDOUT then
      OUTBYTE (← windowByte f)
      copyLoop len (if f + 1 = (← get).size then 0 else f + 1)
    else return len + 1

/-- A round of the loop. A case that falls through to the next is followed by a round for that. -/
def codesRound (fuel : Nat) (c : Codes) : InflateProg (Codes ⊕ Codes × Int) := do
  match c.mode with
  | .start =>
    if fastEnough (← get) then
      let r ← inflateFast c fuel
      modify fun s => { s with r := r, m := s.wavail }
      if r ≠ Z_OK then return .inl { c with mode := if r = Z_STREAM_END then .wash else .badcode }
    return .inl { c with mode := .len c.lbits c.ltree }
  | .len need tree =>
    if ← NEEDBITS need then
      let (t, at_) ← entryAt tree ((← get).peek need)
      DUMPBITS t.Bits
      if t.Exop = 0 then return .inl { c with mode := .lit t.base }
      else if t.Exop &&& 16 ≠ 0 then return .inl { c with mode := .lenext (t.Exop &&& 15), len := t.base }
      else if t.Exop &&& 64 = 0 then return .inl { c with mode := .len t.Exop (some ⟨at_.space, at_.at_ + t.base⟩) }
      else if t.Exop &&& 32 ≠ 0 then return .inl { c with mode := .wash }
      else
        modify fun s => { s with r := Z_DATA_ERROR }
        leaveCodes { c with mode := .badcode }
    else leaveCodes c
  | .lenext get_ =>
    if ← NEEDBITS get_ then
      let len := c.len + (← get).peek get_
      DUMPBITS get_
      return .inl { c with mode := .dist c.dbits c.dtree, len := len }
    else leaveCodes c
  | .dist need tree =>
    if ← NEEDBITS need then
      let (t, at_) ← entryAt tree ((← get).peek need)
      DUMPBITS t.Bits
      if t.Exop &&& 16 ≠ 0 then return .inl { c with mode := .distext (t.Exop &&& 15) t.base }
      else if t.Exop &&& 64 = 0 then return .inl { c with mode := .dist t.Exop (some ⟨at_.space, at_.at_ + t.base⟩) }
      else
        modify fun s => { s with r := Z_DATA_ERROR }
        leaveCodes { c with mode := .badcode }
    else leaveCodes c
  | .distext get_ dist =>
    if ← NEEDBITS get_ then
      let dist := dist + (← get).peek get_
      DUMPBITS get_
      return .inl { c with mode := .copy dist }
    else leaveCodes c
  | .copy dist =>
    let len ← copyLoop c.len ((← get).back dist)
    if len = 0 then return .inl { c with mode := .start, len := 0 } else leaveCodes { c with len := len }
  | .lit lit =>
    if ← NEEDOUT then
      OUTBYTE (UInt8.ofNat lit)
      return .inl { c with mode := .start }
    else leaveCodes c
  | .wash =>
    if 7 < (← get).bitk then
      if (← get).p = 0 then fault .bounds
      modify fun s => { s with bitk := s.bitk - 8, p := s.p - 1 }
    FLUSH
    if (← get).read ≠ (← get).write then leaveCodes c else return .inl { c with mode := .end_ }
  | .end_ =>
    modify fun s => { s with r := Z_STREAM_END }
    leaveCodes c
  | .badcode =>
    modify fun s => { s with r := Z_DATA_ERROR }
    leaveCodes c

def inflateCodes (fuel : Nat) (c : Codes) : InflateProg (Codes × Int) := loop (codesRound fuel) fuel c

def inflateCodesNew (bl bd : Nat) (tl td : Option HuftPtr) : Codes := ⟨.start, 0, bl, bd, tl, td⟩

/-! ## `inflate_blocks` -/

/-- `LEAVE` in `inflate_blocks`. -/
def leaveBlocks : InflateProg (Unit ⊕ Int) := do return .inr (← LEAVE)

/-- An error in the data. -/
def badData : InflateProg (Unit ⊕ Int) := do
  modify fun s => { s with mode := .bad, r := Z_DATA_ERROR }
  leaveBlocks

def setMode (mode : BlocksMode) : InflateProg (Unit ⊕ Int) := do
  modify fun s => { s with mode := mode }
  return .inl ()

/-- The mode behind a block. -/
def Inflater.next (s : Inflater) : BlocksMode := if s.last then .dry else .type

/-- How many lengths a block has: `258 + (t & 0x1f) + ((t >> 5) & 0x1f)`. -/
def lengthsIn (table : Nat) : Nat := 258 + (table &&& 0x1f) + (table >>> 5 &&& 0x1f)

/-- `while (index < 4 + (table >> 10))`, and whether it goes on. -/
def readBorder (table : Nat) : Nat → Nat → List Nat → InflateProg (Bool × Nat × List Nat)
  | 0, _, _ => fault .fuel
  | fuel + 1, index, blens => do
    if index < 4 + table >>> 10 then
      if ← NEEDBITS 3 then
        let blens := blens.set (Border.getD index 0) ((← get).peek 3)
        DUMPBITS 3
        readBorder table fuel (index + 1) blens
      else return (false, index, blens)
    else return (true, index, blens)

/-- What a symbol of the lengths of codes comes to: a length, a repetition, too few bits or an error. -/
inductive LengthsRound
  | go (index : Nat) (blens : List Nat)
  | leave
  | bad

/-- A round of `IBM_DTREE`. -/
def lengthsRound (table index : Nat) (blens : List Nat) (bb : Nat) (tb : Option HuftPtr) : InflateProg LengthsRound := do
  if ← NEEDBITS bb then
    let (h, _) ← entryAt tb ((← get).peek bb)
    if h.base < 16 then
      DUMPBITS h.Bits
      return .go (index + 1) (blens.set index h.base)
    else
      let i := if h.base = 18 then 7 else h.base - 14
      let j := if h.base = 18 then 11 else 3
      if ← NEEDBITS (h.Bits + i) then
        DUMPBITS h.Bits
        let j := j + (← get).peek i
        DUMPBITS i
        if lengthsIn table < index + j ∨ (h.base = 16 ∧ index < 1) then return .bad
        else
          let c := if h.base = 16 then blens.getD (index - 1) 0 else 0
          return .go (index + j) (blens.take index ++ List.replicate j c ++ blens.drop (index + j))
      else return .leave
  else return .leave

/-- The tables of a block with dynamic codes, from its lengths. -/
def startCodes (table : Nat) (blens : List Nat) : InflateProg (Unit ⊕ Int) := do
  let trees := inflateTreesDynamic (257 + (table &&& 0x1f)) (1 + (table >>> 5 &&& 0x1f)) blens 9 6 (← get).hufts
  modify fun s => { s with hufts := trees.hp }
  if trees.err ≠ Z_OK then
    if trees.err = Z_DATA_ERROR then badData
    else
      modify fun s => { s with r := trees.err }
      leaveBlocks
  else
    setMode (.codes (inflateCodesNew trees.bl trees.bd (trees.tl.map fun t => ⟨trees.hp, t⟩) (trees.td.map fun t => ⟨trees.hp, t⟩)))

/-- A round of the loop. A case that falls through to the next is followed by a round for that. -/
def blocksRound (fuel : Nat) (_ : Unit) : InflateProg (Unit ⊕ Int) := do
  match (← get).mode with
  | .type =>
    if ← NEEDBITS 3 then
      let t := (← get).peek 3
      modify fun s => { s with last := t &&& 1 ≠ 0 }
      if t >>> 1 = 0 then
        DUMPBITS 3
        DUMPBITS ((← get).bitk &&& 7)
        setMode .lens
      else if t >>> 1 = 1 then
        DUMPBITS 3
        setMode (.codes (inflateCodesNew Fixed_bl Fixed_bd (some ⟨Fixed_tl, 0⟩) (some ⟨Fixed_td, 0⟩)))
      else if t >>> 1 = 2 then
        DUMPBITS 3
        setMode .table
      else
        DUMPBITS 3
        badData
    else leaveBlocks
  | .lens =>
    if ← NEEDBITS 32 then
      let b := BitVec.ofNat 64 (← get).bitb
      if ((~~~b) >>> 16) &&& 0xffff ≠ b &&& 0xffff then badData
      else
        let left := (← get).bitb &&& 0xffff
        modify fun s => { s with bitb := 0, bitk := 0 }
        if left ≠ 0 then setMode (.stored left) else setMode (← get).next
    else leaveBlocks
  | .stored left =>
    if (← get).input.length - (← get).p = 0 then leaveBlocks
    else if ← NEEDOUT then
      let s ← get
      let t := min (min left (s.input.length - s.p)) s.m
      set { s with window := memcpy s.window s.write ((s.input.drop s.p).take t), p := s.p + t, write := s.write + t, m := s.m - t }
      if left - t ≠ 0 then setMode (.stored (left - t)) else setMode (← get).next
    else leaveBlocks
  | .table =>
    if ← NEEDBITS 14 then
      let t := (← get).peek 14
      if 29 < t &&& 0x1f ∨ 29 < t >>> 5 &&& 0x1f then badData
      else
        DUMPBITS 14
        setMode (.btree t 0 (List.replicate (lengthsIn t) 0))
    else leaveBlocks
  | .btree table index blens =>
    let (ok, index, blens) ← readBorder table (BMAX + 5) index blens
    if ok then
      let blens := (Border.drop index).foldl (fun blens n => blens.set n 0) blens
      let built := inflateTreesBits (blens.take 19) 7 (← get).hufts
      modify fun s => { s with hufts := built.hp }
      if built.err ≠ Z_OK then
        if built.err = Z_DATA_ERROR then badData
        else
          modify fun s => { s with r := built.err }
          leaveBlocks
      else setMode (.dtree table 0 blens built.m (built.t.map fun t => ⟨built.hp, t⟩))
    else
      modify fun s => { s with mode := .btree table index blens }
      leaveBlocks
  | .dtree table index blens bb tb =>
    if index < lengthsIn table then
      match ← lengthsRound table index blens bb tb with
      | .go index blens => setMode (.dtree table index blens bb tb)
      | .leave => leaveBlocks
      | .bad => badData
    else startCodes table blens
  | .codes c =>
    let (c, r) ← inflateCodes fuel c
    modify fun s => { s with mode := .codes c, r := r }
    if r ≠ Z_STREAM_END then leaveBlocks
    else
      modify fun s => { s with r := Z_OK, m := s.wavail }
      setMode (← get).next
  | .dry =>
    FLUSH
    if (← get).read ≠ (← get).write then leaveBlocks else setMode .done
  | .done =>
    modify fun s => { s with r := Z_STREAM_END }
    leaveBlocks
  | .bad =>
    modify fun s => { s with r := Z_DATA_ERROR }
    leaveBlocks

def inflateBlocks (fuel : Nat) : InflateProg Int := loop (blocksRound fuel) fuel ()

/-! ## `inflate` -/

/-- `inflate` with `Z_SYNC_FLUSH`. -/
def inflate (fuel : Nat) : InflateProg Int := do
  match (← get).streamMode with
  | .blocks =>
    modify fun s => { s with r := Z_BUF_ERROR, m := s.wavail }
    let r ← inflateBlocks fuel
    if r = Z_DATA_ERROR then
      modify fun s => { s with streamMode := .bad }
      return Z_DATA_ERROR
    if r ≠ Z_STREAM_END then return r
    -- `inflate_blocks_reset`
    modify fun s => { s with streamMode := .done, mode := .type, bitk := 0, bitb := 0, read := 0, write := 0 }
    return Z_STREAM_END
  | .done => return Z_STREAM_END
  | .bad => return Z_DATA_ERROR

/-- The state when `initEntry` has made it. -/
def inflateInit (window : List UInt8) (hufts : List Huft) : Inflater where
  input := []
  p := 0
  nextOut := []
  availOut := 0
  streamMode := .blocks
  mode := .type
  last := false
  bitb := 0
  bitk := 0
  hufts := hufts
  window := window
  read := 0
  write := 0
  m := 0
  r := Z_OK

end MgStd.Inflate
