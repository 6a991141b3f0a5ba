import MgStd.Inflate.Codes
/-!
# The blocks of a stream

A stream is blocks that are stored, or have the fixed codes, or codes of their own.
What a block with codes of its own says about them is what `inflate_trees_bits` and
`inflate_trees_dynamic` make of its lengths.
-/

namespace MgStd.Inflate

open MgStd.Lib

variable {hufts : List Huft} {bits : List Bool}

/-- The tables of a block with the fixed codes. -/
def fixedCoding : Coding := ⟨Fixed_bl, Fixed_bd, some ⟨Fixed_tl, 0⟩, some ⟨Fixed_td, 0⟩⟩

/-- `LEN` and `NLEN` of a stored block. -/
def lensBits (n : Nat) : List Bool := natBits 16 n ++ natBits 16 (65535 - n)

/-! ## Blocks with codes of their own -/

/-- The tables that come from the lengths. -/
def dynamicTrees (table : Nat) (blens : List Nat) (hufts : List Huft) : BuiltTrees :=
  inflateTreesDynamic (257 + (table &&& 0x1f)) (1 + (table >>> 5 &&& 0x1f)) blens 9 6 hufts

def BuiltTrees.coding (trees : BuiltTrees) : Coding :=
  ⟨trees.bl, trees.bd, trees.tl.map fun t => ⟨trees.hp, t⟩, trees.td.map fun t => ⟨trees.hp, t⟩⟩

/-- What the extra bits of a repetition come to: how many times it is. -/
def repeatCount (symbol extra : Nat) : Nat := (if symbol = 18 then 11 else 3) + extra

def repeatBits (symbol : Nat) : Nat := if symbol = 18 then 7 else symbol - 14

/-- What is repeated. -/
def repeatedLength (symbol index : Nat) (blens : List Nat) : Nat := if symbol = 16 then blens.getD (index - 1) 0 else 0

def fillLengths (index count c : Nat) (blens : List Nat) : List Nat :=
  blens.take index ++ List.replicate count c ++ blens.drop (index + count)

/-- From the lengths read so far the bits lead to the tables `trees`, with `rest` behind. -/
inductive LengthsLeft (table bb : Nat) (tb : Option HuftPtr) (hufts : List Huft) (trees : BuiltTrees) (rest : List Bool) :
    Nat → List Nat → List Bool → Prop
  | done {index : Nat} {blens : List Nat} (hindex : lengthsIn table ≤ index) (htrees : trees = dynamicTrees table blens hufts) :
      LengthsLeft table bb tb hufts trees rest index blens rest
  | length {index : Nat} {blens : List Nat} {h : Huft} {code bits : List Bool} (hindex : index < lengthsIn table)
      (hlead : Leads h 7 tb bb code) (hbits : h.Bits = code.length) (hbase : h.base < 16)
      (hleft : LengthsLeft table bb tb hufts trees rest (index + 1) (blens.set index h.base) bits) :
      LengthsLeft table bb tb hufts trees rest index blens (code ++ bits)
  | repeated {index : Nat} {blens : List Nat} {h : Huft} {code extra bits : List Bool} (hindex : index < lengthsIn table)
      (hlead : Leads h 7 tb bb code) (hbits : h.Bits = code.length) (hbase : 16 ≤ h.base ∧ h.base ≤ 18)
      (hextra : extra.length = repeatBits h.base) (hcount : index + repeatCount h.base (bitsNat extra) ≤ lengthsIn table)
      (hfirst : h.base = 16 → 1 ≤ index)
      (hleft : LengthsLeft table bb tb hufts trees rest (index + repeatCount h.base (bitsNat extra))
        (fillLengths index (repeatCount h.base (bitsNat extra)) (repeatedLength h.base index blens) blens) bits) :
      LengthsLeft table bb tb hufts trees rest index blens (code ++ (extra ++ bits))

/-- `blens[border[index++]] = …` for these lengths. -/
def setBorder (index : Nat) (lens blens : List Nat) : List Nat :=
  (lens.zipIdx index).foldl (fun blens e => blens.set (Border.getD e.2 0) e.1) blens

/-- The lengths for the codes of the lengths, as the rest of them is 0. -/
def borderLengths (index : Nat) (blens : List Nat) : List Nat := (Border.drop index).foldl (fun blens n => blens.set n 0) blens

/-- From the lengths of the codes of lengths read so far. -/
def BorderLeft (table : Nat) (hufts : List Huft) (trees : BuiltTrees) (rest : List Bool) (index : Nat) (blens : List Nat) (bits : List Bool) :
    Prop :=
  ∃ lens bits', bits = lens.flatMap (natBits 3) ++ bits' ∧ (∀ n ∈ lens, n < 8) ∧ index + lens.length = 4 + table >>> 10 ∧
    let blens := borderLengths (4 + table >>> 10) (setBorder index lens blens)
    let built := inflateTreesBits (blens.take 19) 7 hufts
    built.err = Z_OK ∧ built.m ≤ 7 ∧
      LengthsLeft table built.m (built.t.map fun t => ⟨built.hp, t⟩) built.hp trees rest 0 blens bits'

/-- From the numbers of lengths on. -/
def TableLeft (hufts : List Huft) (trees : BuiltTrees) (rest bits : List Bool) : Prop :=
  ∃ table bits', bits = natBits 14 table ++ bits' ∧ table < 2 ^ 14 ∧ table &&& 0x1f ≤ 29 ∧ table >>> 5 &&& 0x1f ≤ 29 ∧
    BorderLeft table hufts trees rest 0 (List.replicate (lengthsIn table) 0) bits'

/-! ## Streams -/

/-- Behind a block that is the last one or not, when `out` has been unpacked: the bits ahead are blocks that come to `final`, and
`rest` behind them. -/
inductive Stream (tight : Prop) (size : Nat) (rest : List Bool) (final : List UInt8) : Bool → List Huft → List UInt8 → List Bool → Prop
  | done {hufts : List Huft} : Stream tight size rest final true hufts final rest
  | stored {last : Bool} {hufts : List Huft} {out bytes : List UInt8} {pad bits : List Bool} (hpad : pad.length < 8)
      (halign : 8 ∣ bits.length) (hbytes : bytes.length < 65536) (hnext : Stream tight size rest final last hufts (out ++ bytes) bits) :
      Stream tight size rest final false hufts out
        (last :: false :: false :: (pad ++ (lensBits bytes.length ++ (bytesBits bytes ++ bits))))
  | fixed {last : Bool} {hufts : List Huft} {out : List UInt8} {ts : List Token} {bits tail : List Bool}
      (hspells : fixedCoding.Spells tight tail ts bits) (hvalid : Valid size out ts)
      (hnext : Stream tight size rest final last hufts (expand out ts) tail) :
      Stream tight size rest final false hufts out (last :: true :: false :: bits)
  | dynamic {last : Bool} {hufts : List Huft} {out : List UInt8} {trees : BuiltTrees} {ts : List Token} {bits bits' tail : List Bool}
      (hfree : ¬ tight) (htable : TableLeft hufts trees bits' bits) (herr : trees.err = Z_OK)
      (hspells : trees.coding.Spells tight tail ts bits') (hvalid : Valid size out ts)
      (hnext : Stream tight size rest final last trees.hp (expand out ts) tail) :
      Stream tight size rest final false hufts out (last :: false :: true :: bits)

end MgStd.Inflate
