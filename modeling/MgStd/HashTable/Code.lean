import Mathlib.Algebra.Group.Int.Defs
import Mathlib.Algebra.Group.Nat.Defs
import MgStd.Lib.Prog
import MgStd.Lib.Keyed
/-!
# mghashtable.c

A table is an array of lines; each line has a key and a list of nodes. The key
of a call is given by a pointer and a length, so it is modelled as what the
pointer points to, which goes on behind the key's last byte. A key is read before
anything is written; data are read at the end of a put, and
`mghashtable_get_data` gives away pointers to the data in the table, so a pointer
to data may point there. The functions take a table that is not NULL, and the
outcomes of the allocations they make.
-/

namespace MgStd.HashTable

open MgStd.Lib

/-- What a pointer points to: the bytes from its address on. -/
abbrev Mem := Nat → UInt8

/-- The first `n` bytes at `p`. -/
def bytes (p : Mem) (n : Int) : List UInt8 := (List.range n.toNat).map p

/-- A block of memory, with what lies behind it. -/
def block (bs : List UInt8) (past : Mem) : Mem := fun i => if h : i < bs.length then bs[i] else past (i - bs.length)

/-- `*(int *)p`, little-endian -/
def readInt (p : Mem) : Int :=
  let n : Nat := (p 0).toNat + 2 ^ 8 * (p 1).toNat + 2 ^ 16 * (p 2).toNat + 2 ^ 24 * (p 3).toNat
  if n < 2 ^ 31 then n else n - 2 ^ 32

/-- The bytes of an `int`, little-endian. -/
def intBytes (i : Int) : List UInt8 := (List.range 4).map fun k => UInt8.ofNat (i / 2 ^ (8 * k) % 256).toNat

/-- `mghashtable_line_node`, with the blocks its pointers own -/
structure LineNode where
  key : List UInt8
  data : Option (List UInt8)
  keyLen : Int
  dataLen : Int
  keyLen_eq : keyLen = key.length
  dataLen_eq : ∀ d, data = some d → dataLen = d.length

/-- `mghashtable_line` -/
structure Line where
  key : Mem
  keyLen : Int
  list : List LineNode

/-- `mghashtable_key_cmp`: it gets the table (the number of its lines, and these), the key of a line and the
probe, each key with its length. -/
abbrev KeyCmp := Int → List Line → Mem → Int → Mem → Int → Int

structure Table where
  lineNum : Int
  lines : List Line
  keyCmp : KeyCmp
  length_eq : lines.length = lineNum.toNat

/-- What the allocations of one call give: the node, its key, its data, the data grown, and whether they are moved for it. -/
structure Alloc where
  node : Bool := true
  key : Bool := true
  data : Bool := true
  realloc : Bool := true
  moved : Bool := false

@[simp] theorem length_bytes (p : Mem) (n : Int) : (bytes p n).length = n.toNat := by
  unfold bytes
  simp

/-! ## Nodes and lines -/

/-- Change the nodes of line `i`. -/
def Table.setList (t : Table) (i : Nat) (f : List LineNode → List LineNode) : Table :=
  { t with
    lines := t.lines.modify i fun line => { line with list := f line.list }
    length_eq := by rw [List.length_modify, t.length_eq] }

/-- The node at place `q.2` of line `q.1`. -/
def Table.nodeAt (t : Table) (q : Nat × Nat) : Option LineNode := t.lines[q.1]?.bind (·.list[q.2]?)

def Table.setNode (t : Table) (q : Nat × Nat) (f : LineNode → LineNode) : Table := t.setList q.1 (·.modify q.2 f)

/-- A pointer to data: to memory that the table does not have, or to byte `off` of the data of node `q`. -/
inductive DataPtr
  | mem (p : Mem)
  | node (q : Nat × Nat) (off : Nat)

/-- It points into the data of node `q`. -/
def DataPtr.into (q : Nat × Nat) : DataPtr → Bool
  | .mem _ => false
  | .node q' _ => q' == q

/-- The first `n` bytes there, unless they reach beyond the block. -/
def Table.read (t : Table) : DataPtr → Nat → Option (List UInt8)
  | .mem p, n => some (bytes p n)
  | .node q off, n =>
    match (t.nodeAt q).bind LineNode.data with
    | some d => if off + n ≤ d.length then some ((d.drop off).take n) else none
    | none => none

def readData (p : DataPtr) (dataLen : Int) : Prog Table (List UInt8) := do
  match (← get).read p dataLen.toNat with
  | some d => pure d
  | none => fault .bounds

/-- `data && data_len > 0` -/
def wanted (data : Option DataPtr) (dataLen : Int) : Option DataPtr := if 0 < dataLen then data else none

/-- The bytes that `data` and `data_len` give: none for NULL or a length that is not positive. -/
def Table.given (t : Table) (data : Option DataPtr) (dataLen : Int) : Option (List UInt8) :=
  (wanted data dataLen).bind fun p => t.read p dataLen.toNat

/-- The data block and its length, written. -/
def LineNode.withData (d : List UInt8) (node : LineNode) : LineNode :=
  { node with data := some d, dataLen := d.length, dataLen_eq := by rintro _ ⟨⟩; rfl }

/-- A failed `realloc` is stored into the node. -/
def LineNode.loseData (node : LineNode) : LineNode := { node with data := none, dataLen_eq := nofun }

def nodeInit (alloc : Alloc) (key : Option Mem) (keyLen : Int) (data : Option DataPtr) (dataLen : Int) :
    Prog Table (Option LineNode) :=
  match key with
  | none => pure none
  | some key =>
    if h : 0 < keyLen then
      -- the results of `malloc` for key and data are not checked before `memcpy`
      if ¬ alloc.node then pure none
      else if ¬ alloc.key then fault .null
      else
        let node : LineNode := ⟨bytes key keyLen, none, keyLen, 0, by rw [length_bytes]; omega, nofun⟩
        match wanted data dataLen with
        | none => pure (some node)
        | some p =>
          if ¬ alloc.data then fault .null
          else do
            let d ← readData p dataLen
            pure (some (node.withData d))
    else pure none

/-- `memcpy` reads the data when `realloc` has perhaps moved the node's block and `bzero` has cleared it. -/
def nodeReplaceData (alloc : Alloc) (q : Nat × Nat) (data : Option DataPtr) (dataLen : Int) : Prog Table Int :=
  match wanted data dataLen with
  | none => pure 0
  | some p =>
    if alloc.realloc then do
      modify (·.setNode q (·.withData (List.replicate dataLen.toNat 0)))
      if alloc.moved ∧ p.into q then fault .dangling
      else do
        let d ← readData p dataLen
        modify (·.setNode q (·.withData d))
        pure 1
    else do
      modify (·.setNode q (·.loseData))
      pure 0

/-! ## Making a table -/

def mghashtableSetLineKey (keys : Option Mem) (keyLen : Option (Nat → Int)) (past : Nat → Mem) :
    Nat → Nat → Nat → Except Fault (List Line)
  | 0, _, _ => pure []
  | n + 1, i, off =>
    match keys, keyLen with
    | some keys, some keyLen =>
      -- the length is converted to `size_t`: a negative one goes beyond every block
      if keyLen i < 0 then throw .bounds
      else do
        let lines ← mghashtableSetLineKey (some keys) (some keyLen) past n (i + 1) (off + (keyLen i).toNat)
        pure (⟨block (bytes (fun x => keys (off + x)) (keyLen i)) (past i), keyLen i, []⟩ :: lines)
    | keys, keyLen => do
      let lines ← mghashtableSetLineKey keys keyLen past n (i + 1) off
      pure (⟨block (intBytes i) (past i), 4, []⟩ :: lines)

def defaultKeyCmp : KeyCmp := fun lineNum _ key1 _ key2 _ =>
  if readInt key1 = (readInt key2).tmod lineNum then 1 else 0

theorem length_setLineKey {keys : Option Mem} {keyLen : Option (Nat → Int)} {past : Nat → Mem} {n i off : Nat}
    {lines : List Line} (h : mghashtableSetLineKey keys keyLen past n i off = .ok lines) : lines.length = n := by
  induction n generalizing i off lines with
  | zero => cases h; rfl
  | succ n ih =>
    unfold mghashtableSetLineKey at h
    split at h
    · split at h
      · cases h
      · obtain ⟨rest, hrest, hlines⟩ := ok_of_bind h
        cases hlines
        rw [List.length_cons, ih hrest]
    · obtain ⟨rest, hrest, hlines⟩ := ok_of_bind h
      cases hlines
      rw [List.length_cons, ih hrest]

/-- `mghashtable_init`, its allocations given; `past i` lies behind the block of the `i`-th line's key. -/
def mghashtableInit (num : Int) (cmpfun : Option KeyCmp) (linesKey : Option Mem) (keysLen : Option (Nat → Int))
    (past : Nat → Mem) : Except Fault Table :=
  match h : mghashtableSetLineKey linesKey keysLen past num.toNat 0 0 with
  | .error e => .error e
  | .ok lines => .ok ⟨num, lines, cmpfun.getD defaultKeyCmp, length_setLineKey h⟩

/-! ## Looking up -/

/-- `table->key_cmp(table, line->key, line->key_len, key, key_len)` -/
def Table.accepts (t : Table) (line : Line) (key : Mem) (keyLen : Int) : Bool :=
  t.keyCmp t.lineNum t.lines line.key line.keyLen key keyLen != 0

def mghashtableGetLine (t : Table) (key : Option Mem) (keyLen : Int) : Option Nat :=
  match key with
  | none => none
  | some key => if keyLen ≠ 0 then t.lines.findIdx? fun line => t.accepts line key keyLen else none

def mghashtableGetNode (t : Table) (key : Option Mem) (keyLen : Int) : Option (Nat × Nat) :=
  match key with
  | none => none
  | some k =>
    if 0 < keyLen then do
      let i ← mghashtableGetLine t key keyLen
      let line ← t.lines[i]?
      if line.list.isEmpty then none
      else do
        let p ← line.list.findIdx? fun nodepos => nodepos.keyLen == keyLen && nodepos.key == bytes k keyLen
        pure (i, p)
    else none

/-! ## The operations -/

def mghashtableAddNode (alloc : Alloc) (key : Option Mem) (keyLen : Int) (data : Option DataPtr) (dataLen : Int) :
    Prog Table Int := do
  if key.isSome ∧ 0 < keyLen then
    match mghashtableGetLine (← get) key keyLen with
    | none => pure 0
    | some i =>
      match ← nodeInit alloc key keyLen data dataLen with
      | none => pure 0
      | some node => do
        modify (·.setList i (· ++ [node]))
        pure 1
  else pure 0

def mghashtableRemoveNode (key : Option Mem) (keyLen : Int) : Prog Table (Option LineNode) := do
  if key.isSome ∧ 0 < keyLen then
    let t ← get
    match mghashtableGetNode t key keyLen with
    | none => pure none
    | some q => do
      modify (·.setList q.1 (·.eraseIdx q.2))
      pure (t.nodeAt q)
  else pure none

def mghashtablePutData (alloc : Alloc) (key : Option Mem) (keyLen : Int) (data : Option DataPtr) (dataLen : Int) :
    Prog Table Int := do
  if key.isSome ∧ 0 < keyLen then
    match mghashtableGetNode (← get) key keyLen with
    | some q => nodeReplaceData alloc q data dataLen
    | none => mghashtableAddNode alloc key keyLen data dataLen
  else pure 0

/-- The data pointer that is returned, and what is stored to `*data_len` if anything is. -/
def mghashtableGetData (t : Table) (key : Option Mem) (keyLen : Int) : Option (List UInt8) × Option Int :=
  if key.isSome ∧ 0 < keyLen then
    match (mghashtableGetNode t key keyLen).bind t.nodeAt with
    | some node => (node.data, some node.dataLen)
    | none => (none, none)
  else (none, none)

/-- `test1_cmp`: the first characters are equal -/
def test1Cmp : KeyCmp := fun _ _ key1 _ key2 _ => if key1 0 = key2 0 then 1 else 0

end MgStd.HashTable
