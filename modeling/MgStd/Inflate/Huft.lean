import Mathlib.Algebra.GroupWithZero.Nat
import MgStd.Inflate.Tables
/-!
# `huft_build`, `inflate_trees_bits` and `inflate_trees_dynamic`

The tables for the codes of a block with dynamic codes. A pointer to an entry is
its index in the space of the block. `h` is one more here than in the source, where
it is -1 before the first table, and `wl` is `w + l`. Allocations that fail are left
out.
-/

namespace MgStd.Inflate

def BMAX : Nat := 15

/-- How many codes have each length: `c`. -/
def countLengths (b : List Nat) : List Nat := b.foldl (fun c n => c.set n (c.getD n 0 + 1)) (List.replicate (BMAX + 1) 0)

/-- `for (y = 1 << j; j < i; j++, y <<= 1) if ((y -= c[j]) < 0)`: the codes left for `j` bits, in `n` steps. -/
def codesLeft (c : List Nat) : Nat → Nat → Int → Option Int
  | 0, j, y => if y - c.getD j 0 < 0 then none else some (y - c.getD j 0)
  | n + 1, j, y => if y - c.getD j 0 < 0 then none else codesLeft c n (j + 1) (2 * (y - c.getD j 0))

/-- The offsets `x[1]`, `x[2]`, …, up to that for `g` bits. -/
def offsets (c : List Nat) (g : Nat) : List Nat :=
  0 :: (List.range g).map fun k => ((c.drop 1).take k).sum

/-- `if ((j = *p++) != 0) v[x[j]++] = i` for all codes: `x` and `v`. -/
def sortValues (b x v : List Nat) : List Nat × List Nat :=
  b.zipIdx.foldl (fun s e =>
    if e.1 ≠ 0 then (s.1.set e.1 (s.1.getD e.1 0 + 1), s.2.set (s.1.getD e.1 0) e.2) else s) (x, v)

/-- The local variables of `huft_build`, and its space. -/
structure Build where
  hp : List Huft
  hn : Nat
  u : List Nat
  x : List Nat
  h : Nat
  wl : Nat
  q : Nat
  z : Nat
  i : Nat
  p : Nat
  r : Huft

/-- `while (++j < z)`, with `n` for `z - j`. -/
def smallerTable (c : List Nat) : Nat → Nat → Nat → Nat → Nat
  | 0, _, _, j => j
  | n + 1, f, xp, j =>
    if n = 0 then j + 1
    else if f <<< 1 ≤ c.getD (xp + 1) 0 then j + 1
    else smallerTable c n (f <<< 1 - c.getD (xp + 1) 0) (xp + 1) (j + 1)

/-- The number of bits of the next table: `j`. -/
def tableBits (c : List Nat) (g l k a w : Nat) : Nat :=
  let z := min (g - w) l
  let j := k - w
  let f := 1 <<< j
  if a + 1 < f then if j < z then smallerTable c (z - j) (f - (a + 1)) k j else j else j

/-- The next table, and its entry in the one before. -/
def addTable (c : List Nat) (g l k a : Nat) (s : Build) : Option Build :=
  let j := tableBits c g l k a s.wl
  let z := 1 <<< j
  if MANY < s.hn + z then none
  else
    let s' : Build := { s with h := s.h + 1, wl := s.wl + l, q := s.hn, hn := s.hn + z, z := z, u := s.u.set s.h s.hn }
    if s.h ≠ 0 then
      let above := s.u.getD (s.h - 1) 0
      let at_ := s.i >>> (s.wl - l)
      let r : Huft := ⟨j, l, s.hn - above - at_⟩
      some { s' with x := s.x.set s.h s.i, r := r, hp := s.hp.set (above + at_) r }
    else some s'

/-- `while (k > w + l)` -/
def addTables (c : List Nat) (g l k a : Nat) : Nat → Build → Option Build
  | 0, s => some s
  | n + 1, s => if s.wl < k then (addTable c g l k a s).bind (addTables c g l k a n) else some s

/-- `for (j = i >> w; j < z; j += f) q[j] = r` -/
def fillTable (r : Huft) (q z f : Nat) : Nat → Nat → List Huft → List Huft
  | 0, _, hp => hp
  | n + 1, j, hp => if j < z then fillTable r q z f n (j + f) (hp.set (q + j) r) else hp

/-- The next code of `k` bits, the first bit of which is the lowest one of `i`. -/
def nextCode : Nat → Nat → Nat
  | 0, i => i
  | k + 1, i => if i.testBit k then nextCode k (i ^^^ 1 <<< k) else i ^^^ 1 <<< k

/-- `while ((i & mask) != x[h])`: `h` and `wl`. -/
def backUp (x : List Nat) (l i : Nat) : Nat → Nat → Nat × Nat
  | 0, wl => (0, wl)
  | h + 1, wl => if i % 1 <<< (wl - l) ≠ x.getD h 0 then backUp x l i h (wl - l) else (h + 1, wl)

/-- What the codes are for: values below `s` stand for themselves, the others have an entry in `d` and in `e`. -/
structure Values where
  v : List Nat
  n : Nat
  s : Nat
  d : List Nat
  e : List Nat

/-- The entry of the next value, for `bits` bits; when there is none any more, an invalid code. -/
def valueEntry (vals : Values) (bits : Nat) (s : Build) : Huft × Nat :=
  let value := vals.v.getD s.p 0
  if vals.n ≤ s.p then ({ s.r with Bits := bits, Exop := 128 + 64 }, s.p)
  else if value < vals.s then (⟨if value < 256 then 0 else 32 + 64, bits, value⟩, s.p + 1)
  else (⟨vals.e.getD (value - vals.s) 0 + 16 + 64, bits, vals.d.getD (value - vals.s) 0⟩, s.p + 1)

/-- One code of `k` bits, with `a` more of them behind it. -/
def placeCode (c : List Nat) (vals : Values) (g l k a : Nat) (s : Build) : Option Build :=
  (addTables c g l k a (BMAX + 1) s).map fun s =>
    let w := s.wl - l
    let (r, p) := valueEntry vals (k - w) s
    let hp := fillTable r s.q s.z (1 <<< (k - w)) s.z (s.i >>> w) s.hp
    let i := nextCode k s.i
    let (h, wl) := backUp s.x l i s.h s.wl
    { s with r := r, p := p, hp := hp, i := i, h := h, wl := wl }

/-- `while (a--)` -/
def placeCodes (c : List Nat) (vals : Values) (g l k : Nat) : Nat → Build → Option Build
  | 0, s => some s
  | a + 1, s => (placeCode c vals g l k a s).bind (placeCodes c vals g l k a)

/-- `for (; k <= g; k++)`, in `n` steps -/
def placeLengths (c : List Nat) (vals : Values) (g l : Nat) : Nat → Nat → Build → Option Build
  | 0, _, s => some s
  | n + 1, k, s => (placeCodes c vals g l k (c.getD k 0) s).bind (placeLengths c vals g l n (k + 1))

/-- The results of `huft_build`: `t` is `none` for NULL. -/
structure Built where
  err : Int
  t : Option Nat
  m : Nat
  hp : List Huft
  hn : Nat

/-- `v` is an area of the right length. -/
def huftBuild (b : List Nat) (s : Nat) (d e : List Nat) (m : Nat) (hp : List Huft) (hn : Nat) (v : List Nat) : Built :=
  let c := countLengths b
  if c.getD 0 0 = b.length then ⟨Z_OK, none, 0, hp, hn⟩
  else
    let j := ((List.range' 1 BMAX).find? fun j => c.getD j 0 ≠ 0).getD (BMAX + 1)
    let g := ((List.range' 1 BMAX).reverse.find? fun i => c.getD i 0 ≠ 0).getD 0
    let l := min (max m j) g
    match codesLeft c (g - j) j (1 <<< j) with
    | none => ⟨Z_DATA_ERROR, none, l, hp, hn⟩
    | some y =>
      let c := c.set g (c.getD g 0 + y.toNat)
      let (x, v) := sortValues b (offsets c g ++ List.replicate (BMAX - g) 0) v
      let vals : Values := ⟨v, x.getD g 0, s, d, e⟩
      let start : Build := ⟨hp, hn, List.replicate BMAX 0, x.set 0 0, 0, 0, 0, 0, 0, 0, default⟩
      match placeLengths c vals g l (g + 1 - j) j start with
      | none => ⟨Z_DATA_ERROR, none, l, hp, hn⟩
      | some built => ⟨if y ≠ 0 ∧ g ≠ 1 then Z_BUF_ERROR else Z_OK, some hn, l, built.hp, built.hn⟩

/-- The tables for the codes of the lengths: `bb` is 7 before. -/
def inflateTreesBits (c : List Nat) (bb : Nat) (hp : List Huft) : Built :=
  let built := huftBuild c 19 [] [] bb hp 0 (List.replicate 19 0)
  if built.err = Z_BUF_ERROR ∨ built.m = 0 then { built with err := Z_DATA_ERROR } else built

/-- The results of `inflate_trees_dynamic`. -/
structure BuiltTrees where
  err : Int
  bl : Nat
  bd : Nat
  tl : Option Nat
  td : Option Nat
  hp : List Huft

/-- The tables for literals and lengths and those for distances: `bl` is 9 and `bd` is 6 before. What is not OK
without being an error is passed on as it is, without a second tree. -/
def inflateTreesDynamic (nl nd : Nat) (c : List Nat) (bl bd : Nat) (hp : List Huft) : BuiltTrees :=
  let v := List.replicate 288 0
  let lits := huftBuild (c.take nl) 257 CpLens CpLExt bl hp 0 v
  if lits.err ≠ Z_OK ∨ lits.m = 0 then ⟨lits.err, lits.m, bd, lits.t, none, lits.hp⟩
  else
    let dists := huftBuild ((c.drop nl).take nd) 0 CpDist CpDExt bd lits.hp lits.hn v
    if dists.err ≠ Z_OK ∨ (dists.m = 0 ∧ 257 < nl) then
      ⟨if dists.err = Z_BUF_ERROR then Z_DATA_ERROR else dists.err, lits.m, dists.m, lits.t, dists.t, dists.hp⟩
    else ⟨Z_OK, lits.m, dists.m, lits.t, dists.t, dists.hp⟩

end MgStd.Inflate
