import MgStd.HashTable.Calls
/-!
# Updates that fail

A put that answers 0 has usually left the table alone. Where the key has data
and there are new ones to take their place, the result of `realloc` goes to the
node before it is looked at: if it is NULL, the node has lost its data.
-/

namespace MgStd.HashTable

open MgStd.Lib

variable {t t' : Table} {alloc : Alloc} {key : Option Mem} {keyLen dataLen : Int} {data : Option DataPtr} {q : Nat × Nat}
  {node : LineNode} {f : LineNode → LineNode}

/-- A put that answers 0 has changed for no key what a get gives. -/
def KeepsOnFailure (alloc : Alloc) (t : Table) (key : Option Mem) (keyLen : Int) (data : Option DataPtr) (dataLen : Int) : Prop :=
  Ensures (mghashtablePutData alloc key keyLen data dataLen) t fun r t' => r = 0 →
    ∀ key' keyLen', mghashtableGetData t' key' keyLen' = mghashtableGetData t key' keyLen'

/-- There are data for a key that has data already, and `realloc` fails. -/
def LosesData (alloc : Alloc) (t : Table) (key : Option Mem) (keyLen : Int) (data : Option DataPtr) (dataLen : Int) : Prop :=
  wanted data dataLen ≠ none ∧ alloc.realloc = false ∧
    ∃ q node, mghashtableGetNode t key keyLen = some q ∧ t.nodeAt q = some node ∧ node.data ≠ none

/-! ## One node changed -/

theorem setNode_eq_self (h : ∀ node, t.nodeAt q = some node → f node = node) : t.setNode q f = t := by
  obtain ⟨lineNum, lines, keyCmp, hlen⟩ := t
  unfold Table.setNode Table.setList
  rw [Table.mk.injEq]
  refine ⟨rfl, modify_eq_self fun line hline => ?_, rfl⟩
  have hlist : line.list.modify q.2 f = line.list := by
    refine modify_eq_self fun node hnode => h node ?_
    unfold Table.nodeAt
    rw [hline]
    exact hnode
  dsimp only
  rw [hlist]

/-! ## Keys -/

/-- The keys of the lines, and those of their nodes. -/
def keysOf (lines : List Line) : List (Mem × Int × List (List UInt8)) :=
  lines.map fun line => (line.key, line.keyLen, line.list.map LineNode.key)

/-- The comparator does not look at the data of the nodes. -/
def IgnoresData (t : Table) : Prop :=
  ∀ lines lines', keysOf lines = keysOf lines' → t.keyCmp t.lineNum lines = t.keyCmp t.lineNum lines'

theorem keysOf_setNode (hf : ∀ node, (f node).key = node.key) : keysOf (t.setNode q f).lines = keysOf t.lines := by
  unfold keysOf Table.setNode Table.setList
  apply map_key_modify
  intro line
  dsimp only
  rw [map_key_modify hf]

theorem getLine_of_keys (ht : IgnoresData t) (hnum : t'.lineNum = t.lineNum) (hcmp : t'.keyCmp = t.keyCmp)
    (hkeys : keysOf t'.lines = keysOf t.lines) : mghashtableGetLine t' key keyLen = mghashtableGetLine t key keyLen := by
  cases key with
  | none => rfl
  | some key =>
    have hlines : ∀ lines : List Line, (lines.map fun line => (line.key, line.keyLen)) =
        (keysOf lines).map fun k => (k.1, k.2.1) := by
      intro lines
      unfold keysOf
      rw [List.map_map]
      rfl
    unfold mghashtableGetLine
    dsimp only
    rw [findIdx?_accepts, findIdx?_accepts, hlines, hlines, hkeys, hnum, hcmp, ht _ _ hkeys]

theorem getNode_of_keys (ht : IgnoresData t) (hnum : t'.lineNum = t.lineNum) (hcmp : t'.keyCmp = t.keyCmp)
    (hkeys : keysOf t'.lines = keysOf t.lines) : mghashtableGetNode t' key keyLen = mghashtableGetNode t key keyLen := by
  cases key with
  | none => rfl
  | some key =>
    by_cases hpos : 0 < keyLen
    · have hfind : ∀ (t : Table) (i : Nat), (t.lines[i]?.bind fun line =>
          (place LineNode.key (bytes key keyLen) line.list).map fun p => (i, p)) =
          (keysOf t.lines)[i]?.bind fun k => (k.2.2.findIdx? fun x => x = bytes key keyLen).map fun p => (i, p) := by
        intro t i
        unfold keysOf
        rw [List.getElem?_map]
        cases t.lines[i]? with
        | none => rfl
        | some line => simp only [Option.bind_some, Option.map_some, place_eq]
      rw [getNode_eq hpos, getNode_eq hpos, getLine_of_keys ht hnum hcmp hkeys]
      simp only [hfind, hkeys]
    · unfold mghashtableGetNode
      simp only [hpos, if_false]

/-! ## Puts -/

theorem ensures_nodeInit : Ensures (nodeInit alloc key keyLen data dataLen) t fun _ t' => t' = t := by
  unfold nodeInit
  cases key with
  | none => exact (ensures_pure _ _ _).2 rfl
  | some key =>
    dsimp only
    split
    · rw [ensures_ite, ensures_pure, ensures_ite]
      refine ⟨fun _ => rfl, fun _ => ⟨fun _ => ensures_fault _ _ _, fun _ => ?_⟩⟩
      cases wanted data dataLen with
      | none => exact (ensures_pure _ _ _).2 rfl
      | some ptr =>
        dsimp only
        rw [ensures_ite, ensures_bind, ensures_readData]
        refine ⟨fun _ => ensures_fault _ _ _, fun _ d _ => ?_⟩
        rw [ensures_pure]
    · exact (ensures_pure _ _ _).2 rfl

theorem ensures_addNode : Ensures (mghashtableAddNode alloc key keyLen data dataLen) t fun r t' => r = 0 → t' = t := by
  unfold mghashtableAddNode
  rw [ensures_ite, ensures_pure, ensures_bind, ensures_get]
  refine ⟨fun _ => ?_, fun _ _ => rfl⟩
  cases mghashtableGetLine t key keyLen with
  | none => exact (ensures_pure _ _ _).2 fun _ => rfl
  | some i =>
    dsimp only
    rw [ensures_bind]
    refine ensures_nodeInit.mono fun node t₁ h => ?_
    subst h
    cases node with
    | none => exact (ensures_pure _ _ _).2 fun _ => rfl
    | some node =>
      rw [ensures_bind, ensures_modify, ensures_pure]
      exact fun h => absurd h (by decide)

/-- A failed `realloc` of a node without data leaves it as it was. -/
theorem loseData_eq_self (h : node.data = none) : node.loseData = node := by
  unfold LineNode.loseData
  obtain ⟨_, data, _, _, _, _⟩ := node
  dsimp only at h
  subst h
  rfl

theorem ensures_mghashtablePutData (h : ¬ LosesData alloc t key keyLen data dataLen) :
    Ensures (mghashtablePutData alloc key keyLen data dataLen) t fun r t' => r = 0 → t' = t := by
  unfold mghashtablePutData
  rw [ensures_ite, ensures_pure, ensures_bind, ensures_get]
  refine ⟨fun _ => ?_, fun _ _ => rfl⟩
  cases hq : mghashtableGetNode t key keyLen with
  | none => exact ensures_addNode
  | some q =>
    dsimp only
    unfold nodeReplaceData
    cases hw : wanted data dataLen with
    | none => exact (ensures_pure _ _ _).2 fun _ => rfl
    | some ptr =>
      dsimp only
      rw [ensures_ite]
      constructor
      · intro _
        rw [ensures_bind, ensures_modify, ensures_ite]
        refine ⟨fun _ => ensures_fault _ _ _, fun _ => ?_⟩
        rw [ensures_bind, ensures_readData]
        intro d _
        rw [ensures_bind, ensures_modify, ensures_pure]
        exact fun h => absurd h (by decide)
      · intro hfail
        rw [ensures_bind, ensures_modify, ensures_pure]
        intro _
        refine setNode_eq_self fun node hnode => loseData_eq_self ?_
        by_contra hdata
        exact h ⟨by rw [hw]; exact Option.some_ne_none _, eq_false_of_ne_true hfail, q, node, hq, hnode, hdata⟩

theorem key_of_getNode (h : mghashtableGetNode t key keyLen = some q) : key.isSome ∧ 0 < keyLen := by
  unfold mghashtableGetNode at h
  cases key with
  | none => cases h
  | some key =>
    dsimp only at h
    split at h
    · next hpos => exact ⟨rfl, hpos⟩
    · cases h

/-- A put that loses data answers 0. -/
theorem returns_mghashtablePutData_loses (hd : wanted data dataLen ≠ none) (hfail : alloc.realloc = false)
    (hq : mghashtableGetNode t key keyLen = some q) :
    Returns (mghashtablePutData alloc key keyLen data dataLen) t fun r t' => r = 0 ∧ t' = t.setNode q (·.loseData) := by
  obtain ⟨ptr, hd⟩ := Option.ne_none_iff_exists'.1 hd
  unfold mghashtablePutData nodeReplaceData
  rw [if_pos (key_of_getNode hq), returns_bind, returns_get, hq]
  dsimp only
  rw [hd]
  dsimp only
  rw [hfail, if_neg Bool.false_ne_true, returns_bind, returns_modify, returns_pure]
  exact ⟨rfl, rfl⟩

theorem getData_of_node (hq : mghashtableGetNode t key keyLen = some q) (hnode : t.nodeAt q = some node) :
    mghashtableGetData t key keyLen = (node.data, some node.dataLen) := by
  unfold mghashtableGetData
  rw [if_pos (key_of_getNode hq), hq, Option.bind_some, hnode]

/-- Whatever the comparator does, a put that answers 0 has changed nothing, unless it loses data; and where the comparator does not
look at the data, losing them is seen. -/
theorem mghashtable_put_data_keeps_iff (alloc : Alloc) (t : Table) (key : Option Mem) (keyLen : Int) (data : Option DataPtr)
    (dataLen : Int) :
    (¬ LosesData alloc t key keyLen data dataLen → KeepsOnFailure alloc t key keyLen data dataLen) ∧
    (IgnoresData t → (KeepsOnFailure alloc t key keyLen data dataLen ↔ ¬ LosesData alloc t key keyLen data dataLen)) := by
  have hkeeps : ¬ LosesData alloc t key keyLen data dataLen → KeepsOnFailure alloc t key keyLen data dataLen := by
    intro h
    refine (ensures_mghashtablePutData h).mono fun r t' hsame hr key' keyLen' => ?_
    rw [hsame hr]
  refine ⟨hkeeps, fun ht => ⟨?_, hkeeps⟩⟩
  rintro hkeep ⟨hd, hfail, q, node, hq, hnode, hdata⟩
  obtain ⟨r, t', -, ⟨hr, ht'⟩, hsame⟩ := (returns_mghashtablePutData_loses hd hfail hq).of_ensures hkeep
  have hq' : mghashtableGetNode t' key keyLen = some q := by
    subst ht'
    rw [← hq]
    exact getNode_of_keys ht rfl rfl (keysOf_setNode fun _ => rfl)
  have hnode' : t'.nodeAt q = some node.loseData := by
    rw [ht', nodeAt_setNode, hnode]
    rfl
  have hget := hsame hr key keyLen
  rw [getData_of_node hq hnode, getData_of_node hq' hnode'] at hget
  exact hdata (congrArg Prod.fst hget).symm

/-- The data 1 are stored under "a"; a put under "b" for which there is no memory answers 0, and "a" has its data as before. -/
theorem mghashtable_put_data_keeps_iff_new : ∃ t₀, test1Init = .ok t₀ ∧
    Returns (mghashtablePutData {} (some (text [97])) 1 (some (.mem (text [1]))) 1) t₀ fun _ t =>
      KeepsOnFailure { node := false } t (some (text [98])) 1 (some (.mem (text [2]))) 1 ∧
      Returns (mghashtablePutData { node := false } (some (text [98])) 1 (some (.mem (text [2]))) 1) t fun r t' =>
        r = 0 ∧ mghashtableGetData t' (some (text [97])) 1 = (some [1], some 1) := by
  obtain ⟨t₀, hinit⟩ : ∃ t₀, test1Init = .ok t₀ := ⟨_, rfl⟩
  refine ⟨t₀, hinit, ?_⟩
  cases hinit
  refine ⟨_, _, rfl, ((mghashtable_put_data_keeps_iff _ _ _ _ _ _).2 ?_).2 ?_, _, _, rfl, rfl, rfl⟩
  · exact fun _ _ _ => rfl
  · rintro ⟨-, -, q, node, hq, -⟩
    cases hq

/-- The data 1 are stored under "a"; a put of 2 whose `realloc` fails answers 0, and then a get finds NULL, of length 1. -/
theorem mghashtable_put_data_lost : ∃ t₀, test1Init = .ok t₀ ∧
    Returns (mghashtablePutData {} (some (text [97])) 1 (some (.mem (text [1]))) 1) t₀ fun _ t =>
      mghashtableGetData t (some (text [97])) 1 = (some [1], some 1) ∧
      ¬ KeepsOnFailure { realloc := false } t (some (text [97])) 1 (some (.mem (text [2]))) 1 ∧
      Returns (mghashtablePutData { realloc := false } (some (text [97])) 1 (some (.mem (text [2]))) 1) t fun r t' =>
        r = 0 ∧ mghashtableGetData t' (some (text [97])) 1 = (none, some 1) := by
  obtain ⟨t₀, hinit⟩ : ∃ t₀, test1Init = .ok t₀ := ⟨_, rfl⟩
  refine ⟨t₀, hinit, ?_⟩
  cases hinit
  refine ⟨_, _, rfl, rfl, fun hkeep => ?_, _, _, rfl, rfl, rfl⟩
  have hsame := hkeep _ _ rfl rfl (some (text [97])) 1
  exact absurd hsame (by decide)

end MgStd.HashTable
