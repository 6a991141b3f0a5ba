import MgStd.Lib.Runs
import MgStd.HashTable.Code
/-!
# The table is a map

What a call does depends on one line only, the one its key is routed to, and
there on the first node with its key. `Put` and `Taken` say what
`mghashtable_put_data` and `mghashtable_remove_node` do to the table. Where the
comparator judges a key by its bytes, a key has one line for good, and the
contents of the table follow the calls: `mghashtable_map`.
-/

namespace MgStd.HashTable

open MgStd.Lib

variable {t t₀ t' : Table} {i j p : Nat} {q q' : Nat × Nat} {k k' : List UInt8} {key : Mem} {keyLen dataLen : Int}
  {data : Option DataPtr} {ptr : DataPtr} {line : Line} {node : LineNode} {moved : Bool}

/-! ## Lines and what is found in them -/

/-- The first node with key `k` in line `i`. -/
def Table.found (t : Table) (i : Nat) (k : List UInt8) : Option LineNode :=
  t.lines[i]?.bind fun line => lookup LineNode.key k line.list

/-- What the calls do not change. -/
def Table.shape (t : Table) : Int × KeyCmp × List (Mem × Int) :=
  (t.lineNum, t.keyCmp, t.lines.map fun line => (line.key, line.keyLen))

/-- The search for a line goes over the keys of the lines. -/
theorem findIdx?_accepts : t.lines.findIdx? (fun line => t.accepts line key keyLen) =
    (t.lines.map fun line => (line.key, line.keyLen)).findIdx? fun k => t.keyCmp t.lineNum t.lines k.1 k.2 key keyLen != 0 := by
  rw [List.findIdx?_map]
  rfl

theorem found_eq (hi : t.lines[i]? = some line) : t.found i k = lookup LineNode.key k line.list := by
  unfold Table.found
  rw [hi]
  rfl

theorem setList_lines_self {f : List LineNode → List LineNode} (hi : t.lines[i]? = some line) :
    (t.setList i f).lines[i]? = some { line with list := f line.list } := by
  unfold Table.setList
  rw [List.getElem?_modify_eq, hi]
  rfl

theorem setList_lines_ne {f : List LineNode → List LineNode} (hij : i ≠ j) :
    (t.setList i f).lines[j]? = t.lines[j]? := by
  unfold Table.setList
  exact List.getElem?_modify_ne _ _ hij

theorem setList_mem {f : List LineNode → List LineNode} (hi : t.lines[i]? = some line) {line' : Line}
    (hj : (t.setList i f).lines[j]? = some line') :
    t.lines[j]? = some line' ∨ j = i ∧ line' = { line with list := f line.list } := by
  by_cases hij : i = j
  · subst hij
    rw [setList_lines_self hi] at hj
    exact .inr ⟨rfl, (Option.some.inj hj).symm⟩
  · exact .inl ((setList_lines_ne hij).symm.trans hj)

@[simp] theorem shape_setList (f : List LineNode → List LineNode) : (t.setList i f).shape = t.shape := by
  unfold Table.shape Table.setList
  refine congrArg _ (congrArg _ ?_)
  apply List.ext_getElem?
  intro n
  simp only [List.getElem?_map, List.getElem?_modify]
  cases t.lines[n]? with
  | none => rfl
  | some line => by_cases h : i = n <;> simp [h]

theorem line_of_getLine {key : Option Mem} (h : mghashtableGetLine t key keyLen = some i) :
    ∃ line, t.lines[i]? = some line := by
  unfold mghashtableGetLine at h
  split at h
  · cases h
  · split at h
    · obtain ⟨hi, -⟩ := List.findIdx?_eq_some_iff_getElem.1 h
      exact ⟨_, List.getElem?_eq_getElem hi⟩
    · cases h

/-- `mghashtable_get_node` by the place of the key in its line. -/
theorem getNode_eq (h : 0 < keyLen) : mghashtableGetNode t (some key) keyLen =
    (mghashtableGetLine t (some key) keyLen).bind fun i => t.lines[i]?.bind fun line =>
      (place LineNode.key (bytes key keyLen) line.list).map fun p => (i, p) := by
  unfold mghashtableGetNode
  simp only [h, if_true, bind]
  congr 1
  funext i
  congr 1
  funext line
  have hmatch : (fun nodepos : LineNode => nodepos.keyLen == keyLen && nodepos.key == bytes key keyLen) =
      fun nodepos => decide (nodepos.key = bytes key keyLen) := by
    funext n
    rw [n.keyLen_eq, Bool.eq_iff_iff]
    simp only [Bool.and_eq_true, beq_iff_eq, decide_eq_true_eq, and_iff_right_iff_imp]
    intro he
    rw [he, length_bytes]
    omega
  rw [hmatch]
  cases hl : line.list with
  | nil => rfl
  | cons a l =>
    simp only [List.isEmpty_cons, Bool.false_eq_true, if_false]
    change (place LineNode.key (bytes key keyLen) (a :: l)).bind _ = _
    cases place LineNode.key (bytes key keyLen) (a :: l) <;> rfl

theorem getNode_none (h : 0 < keyLen) (hl : mghashtableGetLine t (some key) keyLen = none) :
    mghashtableGetNode t (some key) keyLen = none := by
  rw [getNode_eq h, hl]
  rfl

theorem getNode_some (h : 0 < keyLen) (hl : mghashtableGetLine t (some key) keyLen = some i)
    (hi : t.lines[i]? = some line) : mghashtableGetNode t (some key) keyLen =
      (place LineNode.key (bytes key keyLen) line.list).map fun p => (i, p) := by
  rw [getNode_eq h, hl, Option.bind_some, hi, Option.bind_some]

/-! ## What the operations do -/

/-- `mghashtable_put_data` of the bytes `d` under `k`, whose line is given. -/
inductive Put (t : Table) (k : List UInt8) (d : Option (List UInt8)) : Option Nat → Int → Table → Prop
  | unrouted : Put t k d none 0 t
  | kept {i : Nat} {node : LineNode} : t.found i k = some node → d = none → Put t k d (some i) 0 t
  | replaced {i p : Nat} {line : Line} {bs : List UInt8} : t.lines[i]? = some line →
      place LineNode.key k line.list = some p → d = some bs →
      Put t k d (some i) 1 (t.setList i (·.modify p (·.withData bs)))
  | added {i : Nat} {line : Line} {node : LineNode} : t.lines[i]? = some line →
      lookup LineNode.key k line.list = none → node.key = k → node.data = d → node.dataLen = (d.getD []).length →
      Put t k d (some i) 1 (t.setList i (· ++ [node]))

/-- `mghashtable_remove_node` of `k`, whose line is given. -/
inductive Taken (t : Table) (k : List UInt8) : Option Nat → Option LineNode → Table → Prop
  | unrouted : Taken t k none none t
  | absent {i : Nat} : t.found i k = none → Taken t k (some i) none t
  | unlinked {i p : Nat} {line : Line} {node : LineNode} : t.lines[i]? = some line →
      place LineNode.key k line.list = some p → t.found i k = some node →
      Taken t k (some i) (some node) (t.setList i (·.eraseIdx p))

/-! ## What is read of the data -/

/-- The data that a put is given are there to be read. -/
def Readable (t : Table) (data : Option DataPtr) (dataLen : Int) : Prop :=
  ∀ ptr ∈ wanted data dataLen, t.read ptr dataLen.toNat ≠ none

/-- The data that are put are among those that the key has already. -/
def ReadsOwn (t : Table) (key : Mem) (keyLen : Int) (data : Option DataPtr) (dataLen : Int) : Prop :=
  ∃ ptr ∈ wanted data dataLen, ∃ q ∈ mghashtableGetNode t (some key) keyLen, ptr.into q = true

instance (t : Table) (data : Option DataPtr) (dataLen : Int) : Decidable (Readable t data dataLen) :=
  inferInstanceAs (Decidable (∀ ptr ∈ wanted data dataLen, _))

instance (t : Table) (key : Mem) (keyLen : Int) (data : Option DataPtr) (dataLen : Int) :
    Decidable (ReadsOwn t key keyLen data dataLen) :=
  inferInstanceAs (Decidable (∃ ptr ∈ wanted data dataLen, ∃ q ∈ mghashtableGetNode t (some key) keyLen, _))

theorem length_read {n : Nat} {d : List UInt8} (h : t.read ptr n = some d) : d.length = n := by
  cases ptr with
  | mem p =>
    cases h
    rw [length_bytes]
    rfl
  | node q off =>
    unfold Table.read at h
    dsimp only at h
    split at h
    · next d' hd =>
      split at h
      · cases h
        rw [List.length_take, List.length_drop]
        omega
      · cases h
    · cases h

theorem length_given {d : List UInt8} (h : t.given data dataLen = some d) : 0 < dataLen ∧ dataLen = d.length := by
  unfold Table.given wanted at h
  by_cases hpos : 0 < dataLen
  · rw [if_pos hpos] at h
    obtain ⟨ptr, -, hread⟩ := Option.bind_eq_some_iff.1 h
    have hlen := length_read hread
    omega
  · rw [if_neg hpos] at h
    cases h

theorem returns_readData (Q : List UInt8 → Table → Prop) :
    Returns (readData ptr dataLen) t Q ↔ ∃ d, t.read ptr dataLen.toNat = some d ∧ Q d t := by
  unfold readData
  rw [returns_bind, returns_get]
  cases t.read ptr dataLen.toNat with
  | none => simp
  | some d => simp

theorem ensures_readData (Q : List UInt8 → Table → Prop) :
    Ensures (readData ptr dataLen) t Q ↔ ∀ d, t.read ptr dataLen.toNat = some d → Q d t := by
  unfold readData
  rw [ensures_bind, ensures_get]
  cases t.read ptr dataLen.toNat with
  | none => simp
  | some d => simp

theorem nodeAt_setNode (f : LineNode → LineNode) : (t.setNode q f).nodeAt q = (t.nodeAt q).map f := by
  unfold Table.setNode Table.nodeAt Table.setList
  rw [List.getElem?_modify_eq]
  cases t.lines[q.1]? with
  | none => rfl
  | some line => exact List.getElem?_modify_eq f q.2 line.list

theorem nodeAt_setNode_ne (f : LineNode → LineNode) (h : q' ≠ q) : (t.setNode q f).nodeAt q' = t.nodeAt q' := by
  unfold Table.nodeAt Table.setNode
  by_cases hline : q.1 = q'.1
  · have hplace : q.2 ≠ q'.2 := fun he => h (Prod.ext hline he).symm
    rw [← hline]
    cases hi : t.lines[q.1]? with
    | none =>
      unfold Table.setList
      rw [List.getElem?_modify_eq, hi]
      rfl
    | some line =>
      rw [setList_lines_self hi]
      exact List.getElem?_modify_ne f _ hplace
  · rw [setList_lines_ne hline]

/-- Clearing the data of one node does not touch what is read elsewhere. -/
theorem read_setNode (f : LineNode → LineNode) (h : ptr.into q = false) {n : Nat} : (t.setNode q f).read ptr n = t.read ptr n := by
  cases ptr with
  | mem p => rfl
  | node q' off =>
    have hne : q' ≠ q := by
      rintro rfl
      simp [DataPtr.into] at h
    simp only [Table.read, nodeAt_setNode_ne f hne]

theorem setNode_setNode (f g : LineNode → LineNode) : (t.setNode q f).setNode q g = t.setNode q (g ∘ f) := by
  obtain ⟨lineNum, lines, keyCmp, hlen⟩ := t
  unfold Table.setNode Table.setList
  rw [Table.mk.injEq]
  refine ⟨rfl, ?_, rfl⟩
  rw [List.modify_modify_eq]
  simp only [Function.comp_def, List.modify_modify_eq]

/-! ## What a put does -/

theorem returns_nodeInit (h : 0 < keyLen) (hread : Readable t data dataLen) :
    Returns (nodeInit { moved := moved } (some key) keyLen data dataLen) t fun r t' =>
      ∃ node, r = some node ∧ t' = t ∧ node.key = bytes key keyLen ∧ node.data = t.given data dataLen ∧
        node.dataLen = ((t.given data dataLen).getD []).length := by
  unfold nodeInit
  simp only [h, dite_true, not_true_eq_false, if_false]
  cases hw : wanted data dataLen with
  | none =>
    have hnone : t.given data dataLen = none := by rw [Table.given, hw, Option.bind_none]
    rw [returns_pure, hnone]
    exact ⟨_, rfl, rfl, rfl, rfl, rfl⟩
  | some ptr =>
    obtain ⟨d, hd⟩ := Option.ne_none_iff_exists'.1 (hread ptr hw)
    have hgiven : t.given data dataLen = some d := by rw [Table.given, hw, Option.bind_some, hd]
    dsimp only
    rw [returns_bind, returns_readData, hgiven]
    refine ⟨d, hd, ?_⟩
    rw [returns_pure]
    exact ⟨_, rfl, rfl, rfl, rfl, rfl⟩

theorem ensures_nodeInit_some (h : 0 < keyLen) : Ensures (nodeInit { moved := moved } (some key) keyLen data dataLen) t fun r t' =>
    ∃ node, r = some node ∧ t' = t ∧ node.key = bytes key keyLen ∧ node.data = t.given data dataLen ∧
      node.dataLen = ((t.given data dataLen).getD []).length := by
  by_cases hread : Readable t data dataLen
  · exact (returns_nodeInit h hread).ensures
  · unfold Readable at hread
    push Not at hread
    obtain ⟨ptr, hw, hnone⟩ := hread
    rw [Option.mem_def] at hw
    unfold nodeInit
    simp only [h, dite_true, not_true_eq_false, if_false, hw]
    rw [ensures_bind, ensures_readData]
    intro d hd
    rw [hnone] at hd
    cases hd

theorem returns_nodeReplaceData (hread : Readable t data dataLen)
    (hown : ∀ ptr, wanted data dataLen = some ptr → ptr.into q = false) :
    Returns (nodeReplaceData { moved := moved } q data dataLen) t fun r t' =>
      t.given data dataLen = none ∧ r = 0 ∧ t' = t ∨
        ∃ d, t.given data dataLen = some d ∧ r = 1 ∧ t' = t.setNode q (·.withData d) := by
  unfold nodeReplaceData
  cases hw : wanted data dataLen with
  | none =>
    have hnone : t.given data dataLen = none := by rw [Table.given, hw, Option.bind_none]
    rw [returns_pure]
    exact .inl ⟨hnone, rfl, rfl⟩
  | some ptr =>
    obtain ⟨d, hd⟩ := Option.ne_none_iff_exists'.1 (hread ptr hw)
    have hgiven : t.given data dataLen = some d := by rw [Table.given, hw, Option.bind_some, hd]
    have hinto := hown ptr hw
    dsimp only
    -- the data are read behind `bzero`, which has cleared another block
    rw [if_pos rfl, returns_bind, returns_modify, if_neg (by rw [hinto]; exact fun hn => Bool.false_ne_true hn.2), returns_bind,
      returns_readData, read_setNode _ hinto]
    refine ⟨d, hd, ?_⟩
    rw [returns_bind, returns_modify, returns_pure, setNode_setNode]
    exact .inr ⟨d, hgiven, rfl, rfl⟩

/-- Whatever is read, the data of the node are what changes. -/
theorem ensures_nodeReplaceData : Ensures (nodeReplaceData { moved := moved } q data dataLen) t fun r t' =>
    wanted data dataLen = none ∧ r = 0 ∧ t' = t ∨ ∃ d, r = 1 ∧ t' = t.setNode q (·.withData d) := by
  unfold nodeReplaceData
  cases hw : wanted data dataLen with
  | none =>
    rw [ensures_pure]
    exact .inl ⟨rfl, rfl, rfl⟩
  | some ptr =>
    dsimp only
    rw [if_pos rfl, ensures_bind, ensures_modify, ensures_ite]
    refine ⟨fun _ => ensures_fault _ _ _, fun _ => ?_⟩
    rw [ensures_bind, ensures_readData]
    intro d _
    rw [ensures_bind, ensures_modify, ensures_pure, setNode_setNode]
    exact .inr ⟨d, rfl, rfl⟩

theorem returns_mghashtablePutData (h : 0 < keyLen) (hread : Readable t data dataLen)
    (hown : ¬ ReadsOwn t key keyLen data dataLen) :
    Returns (mghashtablePutData { moved := moved } (some key) keyLen data dataLen) t
      (Put t (bytes key keyLen) (t.given data dataLen) (mghashtableGetLine t (some key) keyLen)) := by
  unfold mghashtablePutData mghashtableAddNode
  simp only [Option.isSome_some, h, and_self, if_true, returns_bind, returns_get]
  cases hl : mghashtableGetLine t (some key) keyLen with
  | none =>
    rw [getNode_none h hl]
    simpa [hl] using Put.unrouted
  | some i =>
    obtain ⟨line, hi⟩ := line_of_getLine hl
    cases hp : place LineNode.key (bytes key keyLen) line.list with
    | none =>
      have hnone := place_eq_none.1 hp
      rw [getNode_some h hl hi, hp]
      simp only [Option.map_none, returns_bind, returns_get, hl]
      refine (returns_nodeInit h hread).mono ?_
      rintro _ _ ⟨node, rfl, rfl, hk, hd, hn⟩
      simpa using Put.added hi hnone hk hd hn
    | some p =>
      obtain ⟨node, -, hnode⟩ := getElem?_place hp
      have hq : mghashtableGetNode t (some key) keyLen = some (i, p) := by rw [getNode_some h hl hi, hp]; rfl
      rw [hq]
      have hother : ∀ ptr, wanted data dataLen = some ptr → ptr.into (i, p) = false := by
        intro ptr hw
        by_contra hinto
        exact hown ⟨ptr, hw, _, hq, eq_true_of_ne_false hinto⟩
      refine (returns_nodeReplaceData hread hother).mono ?_
      rintro r t' (⟨hgiven, rfl, rfl⟩ | ⟨d, hgiven, rfl, rfl⟩)
      · exact .kept (by rwa [found_eq hi]) hgiven
      · exact .replaced hi hp hgiven

/-- A put that comes back has put some bytes. -/
theorem ensures_put (h : 0 < keyLen) : Ensures (mghashtablePutData { moved := moved } (some key) keyLen data dataLen) t fun r t' =>
    ∃ d, Put t (bytes key keyLen) d (mghashtableGetLine t (some key) keyLen) r t' := by
  unfold mghashtablePutData mghashtableAddNode
  simp only [Option.isSome_some, h, and_self, if_true, ensures_bind, ensures_get]
  cases hl : mghashtableGetLine t (some key) keyLen with
  | none =>
    rw [getNode_none h hl]
    dsimp only
    rw [ensures_bind, ensures_get, hl]
    exact (ensures_pure _ _ _).2 ⟨none, .unrouted⟩
  | some i =>
    obtain ⟨line, hi⟩ := line_of_getLine hl
    rw [getNode_some h hl hi]
    cases hp : place LineNode.key (bytes key keyLen) line.list with
    | none =>
      have hnone := place_eq_none.1 hp
      simp only [Option.map_none, ensures_bind, ensures_get, hl]
      refine (ensures_nodeInit_some h).mono ?_
      rintro _ _ ⟨node, rfl, rfl, hk, hd, hn⟩
      rw [ensures_bind, ensures_modify, ensures_pure]
      exact ⟨_, .added hi hnone hk hd hn⟩
    | some p =>
      obtain ⟨node, -, hnode⟩ := getElem?_place hp
      refine ensures_nodeReplaceData.mono ?_
      rintro r t' (⟨-, rfl, rfl⟩ | ⟨d, rfl, rfl⟩)
      · exact ⟨none, .kept (by rwa [found_eq hi]) rfl⟩
      · exact ⟨some d, .replaced hi hp rfl⟩

/-! ## What a removal and a get do -/

theorem returns_mghashtableRemoveNode (h : 0 < keyLen) :
    Returns (mghashtableRemoveNode (some key) keyLen) t
      (Taken t (bytes key keyLen) (mghashtableGetLine t (some key) keyLen)) := by
  unfold mghashtableRemoveNode
  simp only [Option.isSome_some, h, and_self, if_true, returns_bind, returns_get]
  cases hl : mghashtableGetLine t (some key) keyLen with
  | none =>
    rw [getNode_none h hl]
    simpa using Taken.unrouted
  | some i =>
    obtain ⟨line, hi⟩ := line_of_getLine hl
    rw [getNode_some h hl hi]
    cases hp : place LineNode.key (bytes key keyLen) line.list with
    | none => simpa using Taken.absent (by rw [found_eq hi]; exact place_eq_none.1 hp)
    | some p =>
      obtain ⟨node, hn, hnode⟩ := getElem?_place hp
      have hat : t.nodeAt (i, p) = some node := by
        unfold Table.nodeAt
        rw [hi]
        exact hn
      simpa [hat] using Taken.unlinked hi hp (by rwa [found_eq hi])

theorem mghashtableGetData_eq (h : 0 < keyLen) : mghashtableGetData t (some key) keyLen =
    match (mghashtableGetLine t (some key) keyLen).bind fun i => t.found i (bytes key keyLen) with
    | some node => (node.data, some node.dataLen)
    | none => (none, none) := by
  unfold mghashtableGetData
  simp only [Option.isSome_some, h, and_self, if_true]
  cases hl : mghashtableGetLine t (some key) keyLen with
  | none => rw [getNode_none h hl]; rfl
  | some i =>
    obtain ⟨line, hi⟩ := line_of_getLine hl
    rw [getNode_some h hl hi, Option.bind_some, found_eq hi]
    cases hp : place LineNode.key (bytes key keyLen) line.list with
    | none => rw [place_eq_none.1 hp]; rfl
    | some p =>
      obtain ⟨node, hn, hnode⟩ := getElem?_place hp
      rw [hnode]
      simp [Table.nodeAt, hi, hn]

/-! ## What they leave for a key -/

theorem found_setList_self {f : List LineNode → List LineNode} (hi : t.lines[i]? = some line) :
    (t.setList i f).found i k = lookup LineNode.key k (f line.list) := found_eq (setList_lines_self hi)

theorem found_setList_ne {f : List LineNode → List LineNode} (hij : i ≠ j) :
    (t.setList i f).found j k = t.found j k := by
  unfold Table.found
  rw [setList_lines_ne hij]

variable {d : Option (List UInt8)} {r : Int} {route : Option Nat} {taken : Option LineNode}

theorem Put.shape (h : Put t k d route r t') : t'.shape = t.shape := by
  cases h <;> first | rfl | exact shape_setList _

theorem Taken.shape (h : Taken t k route taken t') : t'.shape = t.shape := by
  cases h <;> first | rfl | exact shape_setList _

/-- Other keys keep their nodes, in every line. -/
theorem Put.found_ne (h : Put t k d route r t') (hk : k' ≠ k) : t'.found j k' = t.found j k' := by
  cases h with
  | unrouted => rfl
  | kept => rfl
  | @replaced i p line bs hi hp hd =>
    by_cases hij : i = j
    · subst hij
      rw [found_setList_self hi, lookup_modify_ne (f := (·.withData bs)) hp (fun _ => rfl) hk, found_eq hi]
    · exact found_setList_ne hij
  | @added i line node hi hl hkey hd hn =>
    by_cases hij : i = j
    · subst hij
      rw [found_setList_self hi, lookup_concat_ne (fun e => hk (e.symm.trans hkey)), found_eq hi]
    · exact found_setList_ne hij

theorem Taken.found_ne (h : Taken t k route taken t') (hk : k' ≠ k) : t'.found j k' = t.found j k' := by
  cases h with
  | unrouted => rfl
  | absent => rfl
  | @unlinked i p line node hi hp hf =>
    by_cases hij : i = j
    · subst hij
      rw [found_setList_self hi, lookup_eraseIdx_ne hp hk, found_eq hi]
    · exact found_setList_ne hij

/-- How a node holds the bytes `bs`: no block and length 0 if there are none. -/
def asData (bs : List UInt8) : Option (List UInt8) × Int := if bs = [] then (none, 0) else (some bs, bs.length)

theorem asData_given : asData ((t.given data dataLen).getD []) =
    (t.given data dataLen, (((t.given data dataLen).getD []).length : Int)) := by
  unfold asData
  cases hd : t.given data dataLen with
  | none => rfl
  | some bs =>
    have hpos := length_given hd
    have hne : bs ≠ [] := by
      rintro rfl
      simp only [List.length_nil] at hpos
      omega
    rw [Option.getD_some, if_neg hne]

/-- The node holds the contents. -/
def Stored (n : Option LineNode) (c : Option (List UInt8)) : Prop :=
  n.map (fun node => (node.data, node.dataLen)) = c.map asData

theorem Put.stored_self (h : Put t k (t.given data dataLen) (some i) 1 t') :
    Stored (t'.found i k) (some ((t.given data dataLen).getD [])) := by
  unfold Stored
  rw [Option.map_some, asData_given]
  generalize hg : t.given data dataLen = d at h
  cases h with
  | @replaced _ p line bs hi hp hd =>
    obtain ⟨node, -, hnode⟩ := getElem?_place hp
    rw [found_setList_self hi, lookup_modify_self (f := (·.withData bs)) hp (fun _ => rfl), hnode, hd]
    rfl
  | @added _ line node hi hl hkey hd hn =>
    rw [found_setList_self hi, lookup_concat_self hkey hl, Option.map_some, hd, hn]

theorem Put.answer (h : Put t k d route r t') : r = 0 ∧ t' = t ∨ r = 1 := by
  cases h with
  | unrouted => exact .inl ⟨rfl, rfl⟩
  | kept => exact .inl ⟨rfl, rfl⟩
  | replaced => exact .inr rfl
  | added => exact .inr rfl

/-- A routed key is refused only when it is present and there is no data. -/
theorem Put.refused (h : Put t k d (some i) 0 t') : t.found i k ≠ none ∧ d = none := by
  generalize hr : (0 : Int) = r at h
  cases h with
  | kept hf hd => exact ⟨by rw [hf]; nofun, hd⟩
  | replaced => cases hr
  | added => cases hr

/-! ## Routes -/

/-- Whatever the lines hold, a probe with the bytes `k` leads to line `i`. -/
def Routed (t₀ : Table) (k : List UInt8) (i : Nat) : Prop :=
  ∀ t : Table, t.shape = t₀.shape → ∀ key, bytes key k.length = k → mghashtableGetLine t (some key) k.length = some i

theorem Routed.getLine (h : Routed t₀ (bytes key keyLen) i) (ht : t.shape = t₀.shape) (hpos : 0 < keyLen) :
    mghashtableGetLine t (some key) keyLen = some i := by
  have hlen : ((bytes key keyLen).length : Int) = keyLen := by rw [length_bytes]; omega
  have := h t ht key (by rw [hlen])
  rwa [hlen] at this

theorem Routed.unique (hi : Routed t₀ k i) (hj : Routed t₀ k j) (hk : bytes key k.length = k) : i = j := by
  have h := hi t₀ rfl key hk
  rw [hj t₀ rfl key hk] at h
  exact (Option.some.inj h).symm

/-- The verdict on a line depends only on its key and on the probe's bytes and length. -/
def Judges (t₀ : Table) : Prop :=
  ∀ line ∈ t₀.lines, ∀ lines lines' key₁ probe probe' n, bytes key₁ line.keyLen = bytes line.key line.keyLen →
    0 < n → bytes probe n = bytes probe' n →
    (t₀.keyCmp t₀.lineNum lines key₁ line.keyLen probe n ≠ 0 ↔
      t₀.keyCmp t₀.lineNum lines' line.key line.keyLen probe' n ≠ 0)

end MgStd.HashTable
