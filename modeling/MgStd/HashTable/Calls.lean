import MgStd.HashTable.Map
/-!
# Sequences of calls

`Holds` is the invariant of every sequence of calls on routed keys: each node
lies in the line of its key, no key has two nodes, and the nodes hold the
contents that the calls and their answers leave (`note`). A put of data that its
key has already does not keep it: they are cleared before they are copied.
-/

namespace MgStd.HashTable

open MgStd.Lib

variable {t t₀ t' : Table} {i j p : Nat} {k k' : List UInt8} {key : Mem} {keyLen dataLen : Int} {data : Option DataPtr}
  {line : Line} {node : LineNode}

inductive Call
  | put (key : Mem) (keyLen : Int) (data : Option DataPtr) (dataLen : Int) (moved : Bool)
  | get (key : Mem) (keyLen : Int)
  | remove (key : Mem) (keyLen : Int)

inductive Answer
  | put (result : Int)
  | get (data : Option (List UInt8)) (dataLen : Option Int)
  | remove (node : Option LineNode)

/-- The call, its allocations succeeding; a `realloc` may move the block. -/
def Call.exec : Call → Prog Table Answer
  | .put key keyLen data dataLen moved => do
    pure (.put (← mghashtablePutData { moved := moved } (some key) keyLen data dataLen))
  | .get key keyLen => do
    let r := mghashtableGetData (← MonadState.get) (some key) keyLen
    pure (.get r.1 r.2)
  | .remove key keyLen => do pure (.remove (← mghashtableRemoveNode (some key) keyLen))

def Call.probe : Call → Mem × Int
  | .put key keyLen _ _ _ => (key, keyLen)
  | .get key keyLen => (key, keyLen)
  | .remove key keyLen => (key, keyLen)

/-- The key of the call: its bytes. -/
def Call.keyBytes (call : Call) : List UInt8 := bytes call.probe.1 call.probe.2

/-- What is stored under each key. -/
abbrev Contents := List UInt8 → Option (List UInt8)

/-- A put that returns 1 sets the contents of its key to the data as they were in front of the call, a removal clears them. -/
def note (t : Table) (c : Contents) : Call → Answer → Contents
  | .put key keyLen data dataLen _, .put 1 =>
    Function.update c (bytes key keyLen) (some ((t.given data dataLen).getD []))
  | .remove key keyLen, _ => Function.update c (bytes key keyLen) none
  | _, _ => c

/-- The table, and the contents the calls so far should have left. -/
def step (s : Table × Contents) (call : Call) : Option (Except Fault (Table × Contents)) :=
  some ((call.exec s.1).map fun r => (r.2, note s.1 s.2 call r.1))

/-- What a get of a key with these contents returns, and stores to `*data_len`. -/
def getAnswer : Option (List UInt8) → Answer
  | none => .get none none
  | some bs => .get (asData bs).1 (some (asData bs).2)

/-- What a call answers, and when it leaves the table as it was. -/
def Answers (c : Contents) (call : Call) (answer : Answer) (t t' : Table) : Prop :=
  match call with
  | .put _ _ data dataLen _ =>
    (answer = .put 1 ∧ (c call.keyBytes = none ∨ t.given data dataLen ≠ none)) ∨
      (answer = .put 0 ∧ c call.keyBytes ≠ none ∧ t.given data dataLen = none ∧ t' = t)
  | .get _ _ => answer = getAnswer (c call.keyBytes) ∧ t' = t
  | .remove _ _ => ∃ node, answer = .remove node ∧ Stored node (c call.keyBytes)

/-- No key is stored in two nodes. -/
def UniqueKeys (t : Table) : Prop :=
  ∀ q q' n n', t.nodeAt q = some n → t.nodeAt q' = some n' → n.key = n'.key → q = q'

/-- The key has positive length and a line accepts it. -/
def Call.Served (t₀ : Table) (call : Call) : Prop :=
  0 < call.probe.2 ∧ ∃ line ∈ t₀.lines, t₀.accepts line call.probe.1 call.probe.2 = true

instance (t₀ : Table) (call : Call) : Decidable (call.Served t₀) := inferInstanceAs (Decidable (_ ∧ _))

/-- The data of a put can be read. -/
def Call.Readable (t : Table) : Call → Prop
  | .put _ _ data dataLen _ => HashTable.Readable t data dataLen
  | _ => True

/-- The data of a put are among those that its key has already. -/
def Call.ReadsOwn (t : Table) : Call → Prop
  | .put key keyLen data dataLen _ => HashTable.ReadsOwn t key keyLen data dataLen
  | _ => False

instance (t : Table) : (call : Call) → Decidable (call.Readable t)
  | .put _ _ data dataLen _ => inferInstanceAs (Decidable (HashTable.Readable t data dataLen))
  | .get _ _ => inferInstanceAs (Decidable True)
  | .remove _ _ => inferInstanceAs (Decidable True)

instance (t : Table) : (call : Call) → Decidable (call.ReadsOwn t)
  | .put key keyLen data dataLen _ => inferInstanceAs (Decidable (HashTable.ReadsOwn t key keyLen data dataLen))
  | .get _ _ => inferInstanceAs (Decidable False)
  | .remove _ _ => inferInstanceAs (Decidable False)

/-- Where `ok` allows the calls, the table is a map: after all of them no key has two nodes, and the next call answers by the
contents that the calls so far leave. -/
def IsMap (t₀ : Table) (ok : Table → Call → Prop) : Prop :=
  ∀ calls t c, Run step (fun s call => ok s.1 call) (t₀, fun _ => none) calls (t, c) → UniqueKeys t ∧
    ∀ call, ok t call → Returns call.exec t fun answer t' =>
      Answers c call answer t t' ∧ UniqueKeys t' ∧ step (t, c) call = some (.ok (t', note t c call answer))

structure Holds (t₀ t : Table) (c : Contents) : Prop where
  shape : t.shape = t₀.shape
  routed : ∀ (i : Nat) (line : Line), t.lines[i]? = some line → ∀ node ∈ line.list, Routed t₀ node.key i
  nodup : ∀ (i : Nat) (line : Line), t.lines[i]? = some line → (line.list.map LineNode.key).Nodup
  stored : ∀ k i, Routed t₀ k i → Stored (t.found i k) (c k)

/-! ## Routes from the comparator -/

theorem findIdx?_congr {α : Type} {f g : α → Bool} {l : List α} (h : ∀ x ∈ l, f x = g x) :
    l.findIdx? f = l.findIdx? g := by
  induction l with
  | nil => rfl
  | cons x l ih =>
    rw [List.findIdx?_cons, List.findIdx?_cons, h x List.mem_cons_self,
      ih fun y hy => h y (List.mem_cons_of_mem x hy)]

theorem getLine_of_shape (ht : t.shape = t₀.shape) (hj : Judges t₀) {probe probe' : Mem} {n : Int} (hn : 0 < n)
    (hp : bytes probe n = bytes probe' n) :
    mghashtableGetLine t (some probe) n = mghashtableGetLine t₀ (some probe') n := by
  simp only [Table.shape, Prod.mk.injEq] at ht
  obtain ⟨hnum, hcmp, hlines⟩ := ht
  have hne : n ≠ 0 := by omega
  -- both searches go over the keys of the lines only
  simp only [mghashtableGetLine, hne, ne_eq, not_false_eq_true, if_true, findIdx?_accepts, hnum, hcmp, hlines]
  refine findIdx?_congr fun k hk => ?_
  obtain ⟨line, hline, rfl⟩ := List.mem_map.1 hk
  rw [Bool.eq_iff_iff]
  simpa only [bne_iff_ne] using hj line hline _ _ _ _ _ _ rfl hn hp

theorem routed_of_judges (hj : Judges t₀) (hpos : 0 < keyLen)
    (hacc : ∃ line ∈ t₀.lines, t₀.accepts line key keyLen = true) : ∃ i, Routed t₀ (bytes key keyLen) i := by
  have hlen : ((bytes key keyLen).length : Int) = keyLen := by rw [length_bytes]; omega
  obtain ⟨i, hi⟩ : ∃ i, mghashtableGetLine t₀ (some key) keyLen = some i := by
    simp only [mghashtableGetLine]
    rw [if_pos (by omega), ← Option.isSome_iff_exists, List.findIdx?_isSome, List.any_eq_true]
    exact hacc
  refine ⟨i, fun t ht probe hprobe => ?_⟩
  rw [hlen] at hprobe ⊢
  rw [getLine_of_shape ht hj hpos hprobe, hi]

/-! ## One call -/

theorem Holds.put {c : Contents} {d : Option (List UInt8)} {r : Int} (h : Holds t₀ t c) (hr : Routed t₀ k i)
    (hp : Put t k d (some i) r t') :
    (∀ (j : Nat) (line : Line), t'.lines[j]? = some line → ∀ node ∈ line.list, Routed t₀ node.key j) ∧
      ∀ (j : Nat) (line : Line), t'.lines[j]? = some line → (line.list.map LineNode.key).Nodup := by
  cases hp with
  | kept => exact ⟨h.routed, h.nodup⟩
  | @replaced _ p line bs hi hp hd =>
    constructor
    · intro j line' hj n hn
      rcases setList_mem hi hj with hj | ⟨rfl, rfl⟩
      · exact h.routed j line' hj n hn
      · rcases mem_modify hn with hn | ⟨m, hm, rfl⟩
        · exact h.routed _ line hi n hn
        · exact h.routed _ line hi m hm
    · intro j line' hj
      rcases setList_mem hi hj with hj | ⟨rfl, rfl⟩
      · exact h.nodup j line' hj
      · have hkeys : (line.list.modify p (·.withData bs)).map LineNode.key = line.list.map LineNode.key :=
          map_key_modify fun _ => rfl
        change ((line.list.modify p (·.withData bs)).map LineNode.key).Nodup
        rw [hkeys]
        exact h.nodup _ line hi
  | @added _ line node hi hl hkey hd hn =>
    constructor
    · intro j line' hj n hn
      rcases setList_mem hi hj with hj | ⟨rfl, rfl⟩
      · exact h.routed j line' hj n hn
      · rcases List.mem_append.1 hn with hn | hn
        · exact h.routed _ line hi n hn
        · rw [List.mem_singleton.1 hn, hkey]
          exact hr
    · intro j line' hj
      rcases setList_mem hi hj with hj | ⟨rfl, rfl⟩
      · exact h.nodup j line' hj
      · exact nodup_concat (h.nodup _ line hi) (by rw [hkey]; exact hl)

theorem Holds.taken {c : Contents} {n : Option LineNode} (h : Holds t₀ t c) (hp : Taken t k (some i) n t') :
    (∀ (j : Nat) (line : Line), t'.lines[j]? = some line → ∀ node ∈ line.list, Routed t₀ node.key j) ∧
      ∀ (j : Nat) (line : Line), t'.lines[j]? = some line → (line.list.map LineNode.key).Nodup := by
  cases hp with
  | absent => exact ⟨h.routed, h.nodup⟩
  | @unlinked _ p line node hi hp hf =>
    constructor
    · intro j line' hj n hn
      rcases setList_mem hi hj with hj | ⟨rfl, rfl⟩
      · exact h.routed j line' hj n hn
      · exact h.routed _ line hi n (List.mem_of_mem_eraseIdx hn)
    · intro j line' hj
      rcases setList_mem hi hj with hj | ⟨rfl, rfl⟩
      · exact h.nodup j line' hj
      · exact nodup_eraseIdx (h.nodup _ line hi)

theorem Taken.found_self {c : Contents} {n : Option LineNode} (h : Holds t₀ t c) (hp : Taken t k (some i) n t') :
    n = t.found i k ∧ t'.found i k = none := by
  cases hp with
  | absent hf => exact ⟨hf.symm, hf⟩
  | @unlinked _ p line node hi hp hf =>
    refine ⟨hf.symm, ?_⟩
    rw [found_setList_self hi]
    exact lookup_eraseIdx_self hp (h.nodup i line hi)

theorem stored_none {n : Option LineNode} : Stored n none ↔ n = none := by
  unfold Stored
  simp

theorem Stored.isNone {n : Option LineNode} {c : Option (List UInt8)} (h : Stored n c) : n = none ↔ c = none := by
  unfold Stored at h
  cases n <;> cases c <;> simp_all

/-- The contents of one key change, those of the others stay. -/
theorem Holds.stored_update {c : Contents} {e : Option (List UInt8)} (h : Holds t₀ t c) (hr : Routed t₀ k i)
    (hk : bytes key keyLen = k) (hpos : 0 < keyLen) (hself : Stored (t'.found i k) e)
    (hne : ∀ j k', k' ≠ k → t'.found j k' = t.found j k') :
    ∀ k' j, Routed t₀ k' j → Stored (t'.found j k') (Function.update c k e k') := by
  intro k' j hj
  by_cases hkk : k' = k
  · subst hkk
    have hlen : ((bytes key keyLen).length : Int) = keyLen := by rw [length_bytes]; omega
    obtain rfl : i = j := hr.unique hj (show bytes key k'.length = k' by rw [← hk, hlen])
    rw [Function.update_self]
    exact hself
  · rw [Function.update_of_ne hkk, hne j k' hkk]
    exact h.stored k' j hj

theorem holds_call {c : Contents} (h : Holds t₀ t c) {call : Call} (hpos : 0 < call.probe.2)
    (hr : Routed t₀ call.keyBytes i) (hread : call.Readable t) (hown : ¬ call.ReadsOwn t) :
    Returns call.exec t fun answer t' => Answers c call answer t t' ∧ Holds t₀ t' (note t c call answer) := by
  cases call with
  | put key keyLen data dataLen moved =>
    -- 0 leaves the table as it was; 1 comes from a replacement or from a new node
    replace hpos : 0 < keyLen := hpos
    replace hr : Routed t₀ (bytes key keyLen) i := hr
    have hroute := hr.getLine h.shape hpos
    simp only [Call.exec, returns_bind, returns_pure]
    refine (returns_mghashtablePutData hpos hread hown).mono fun r t' hput => ?_
    rw [hroute] at hput
    obtain ⟨hrouted, hnodup⟩ := h.put hr hput
    rcases hput.answer with ⟨rfl, rfl⟩ | rfl
    · obtain ⟨hfound, hd⟩ := hput.refused
      exact ⟨.inr ⟨rfl, fun e => hfound ((h.stored _ i hr).isNone.2 e), hd, rfl⟩, h⟩
    · refine ⟨.inl ⟨rfl, ?_⟩, hput.shape.trans h.shape, hrouted, hnodup, ?_⟩
      · cases hput with
        | replaced _ _ hd => exact .inr (by simp [hd])
        | added hi hl => exact .inl ((h.stored _ i hr).isNone.1 (by rw [found_eq hi]; exact hl))
      · exact h.stored_update hr rfl hpos hput.stored_self fun j k' hk => hput.found_ne hk
  | get key keyLen =>
    replace hpos : 0 < keyLen := hpos
    replace hr : Routed t₀ (bytes key keyLen) i := hr
    have hroute := hr.getLine h.shape hpos
    have hs := h.stored _ i hr
    simp only [Call.exec, returns_bind, returns_get, returns_pure]
    refine ⟨⟨?_, rfl⟩, h⟩
    rw [mghashtableGetData_eq hpos, hroute, Option.bind_some]
    unfold Stored at hs
    simp only [Call.keyBytes, Call.probe]
    cases hf : t.found i (bytes key keyLen) <;> cases hc : c (bytes key keyLen) <;> rw [hf, hc] at hs
    · rfl
    · cases hs
    · cases hs
    · next n bs =>
      have he := Option.some.inj hs
      simp only [getAnswer, ← he]
  | remove key keyLen =>
    replace hpos : 0 < keyLen := hpos
    replace hr : Routed t₀ (bytes key keyLen) i := hr
    have hroute := hr.getLine h.shape hpos
    simp only [Call.exec, returns_bind, returns_pure]
    refine (returns_mghashtableRemoveNode hpos).mono fun n t' htaken => ?_
    rw [hroute] at htaken
    obtain ⟨hrouted, hnodup⟩ := h.taken htaken
    obtain ⟨rfl, hgone⟩ := htaken.found_self h
    refine ⟨⟨_, rfl, h.stored _ i hr⟩, htaken.shape.trans h.shape, hrouted, hnodup, ?_⟩
    exact h.stored_update hr rfl hpos (stored_none.2 hgone) fun j k' hk => htaken.found_ne hk

/-! ## Runs -/

theorem setLineKey_empty {keys : Option Mem} {lens : Option (Nat → Int)} {past : Nat → Mem} {n i off : Nat}
    {lines : List Line} (h : mghashtableSetLineKey keys lens past n i off = .ok lines) : ∀ line ∈ lines, line.list = [] := by
  induction n generalizing i off lines with
  | zero => cases h; nofun
  | succ n ih =>
    unfold mghashtableSetLineKey at h
    split at h
    · split at h
      · cases h
      · obtain ⟨rest, hrest, hlines⟩ := ok_of_bind h
        cases hlines
        exact List.forall_mem_cons.2 ⟨rfl, ih hrest⟩
    · obtain ⟨rest, hrest, hlines⟩ := ok_of_bind h
      cases hlines
      exact List.forall_mem_cons.2 ⟨rfl, ih hrest⟩

theorem init_empty {num : Int} {cmpfun : Option KeyCmp} {keys : Option Mem} {lens : Option (Nat → Int)}
    {past : Nat → Mem} (h : mghashtableInit num cmpfun keys lens past = .ok t) : ∀ line ∈ t.lines, line.list = [] := by
  unfold mghashtableInit at h
  split at h
  · cases h
  · next lines hl => cases h; exact setLineKey_empty hl

theorem holds_init (h : ∀ line ∈ t.lines, line.list = []) : Holds t t fun _ => none where
  shape := rfl
  routed i line hi node hn := by
    rw [h line (List.mem_of_getElem? hi)] at hn
    cases hn
  nodup i line hi := by
    rw [h line (List.mem_of_getElem? hi)]
    exact List.nodup_nil
  stored k i _ := by
    rw [stored_none]
    unfold Table.found
    cases hi : t.lines[i]? with
    | none => rfl
    | some line => rw [Option.bind_some, h line (List.mem_of_getElem? hi)]; rfl

theorem Holds.uniqueKeys {c : Contents} (h : Holds t₀ t c) : UniqueKeys t := by
  intro q q' n n' hn hn' hkey
  obtain ⟨line, hi, hp⟩ := Option.bind_eq_some_iff.1 hn
  obtain ⟨line', hi', hp'⟩ := Option.bind_eq_some_iff.1 hn'
  have hr := h.routed _ _ hi n (List.mem_of_getElem? hp)
  have hr' := h.routed _ _ hi' n' (List.mem_of_getElem? hp')
  rw [← hkey] at hr'
  -- the key is its own probe
  have hself : bytes (block n.key fun _ => 0) n.key.length = n.key := by
    apply List.ext_getElem
    · rw [length_bytes]; rfl
    · intro x hx hx'
      simp [bytes, block, hx']
  have hq : q.1 = q'.1 := hr.unique hr' hself
  rw [← hq, hi] at hi'
  cases hi'
  have hnd := h.nodup _ _ hi
  refine Prod.ext hq ?_
  obtain ⟨hlt, hx⟩ := List.getElem?_eq_some_iff.1 hp
  obtain ⟨hlt', hx'⟩ := List.getElem?_eq_some_iff.1 hp'
  refine (@List.Nodup.getElem_inj_iff _ _ hnd _ (by simpa using hlt) _ (by simpa using hlt')).1 ?_
  rw [List.getElem_map, List.getElem_map, hx, hx', hkey]

/-- A call on a served key comes back, with the right answer. -/
theorem Holds.returns {c : Contents} (h : Holds t₀ t c) (hj : Judges t₀) {call : Call} (hs : call.Served t₀)
    (hread : call.Readable t) (hown : ¬ call.ReadsOwn t) :
    Returns call.exec t fun answer t' => Answers c call answer t t' ∧ Holds t₀ t' (note t c call answer) := by
  obtain ⟨i, hr⟩ := routed_of_judges hj hs.1 hs.2
  exact holds_call h hs.1 hr hread hown

/-- Every table that `mghashtable_init` makes with a comparator that judges a line by its key and by the bytes of the probe is a map
for the keys that some line accepts, unless a key is given data that it has already. -/
theorem mghashtable_map {num : Int} {cmpfun : Option KeyCmp} {keys : Option Mem} {lens : Option (Nat → Int)}
    {past : Nat → Mem} (hinit : mghashtableInit num cmpfun keys lens past = .ok t₀) (hj : Judges t₀) :
    IsMap t₀ fun t call => call.Served t₀ ∧ call.Readable t ∧ ¬ call.ReadsOwn t := by
  intro calls t c hrun
  have hinv : Holds t₀ t c := by
    apply hrun.inv_total (fun s => Holds t₀ s.1 s.2) (holds_init (init_empty hinit))
    rintro s call hs ⟨hserved, hread, hown⟩
    obtain ⟨answer, t', hexec, -, hholds⟩ := hs.returns hj hserved hread hown
    exact ⟨_, by rw [step, hexec]; rfl, hholds⟩
  refine ⟨hinv.uniqueKeys, ?_⟩
  rintro call ⟨hserved, hread, hown⟩
  obtain ⟨answer, t', hexec, hans, hholds⟩ := hinv.returns hj hserved hread hown
  exact ⟨answer, t', hexec, hans, hholds.uniqueKeys, by rw [step, hexec]; rfl⟩

/-- The memory of a string. -/
def text (s : List Nat) : Mem := fun i => UInt8.ofNat (s.getD i 0)

/-- Puts like those of `test_hashtable1`; the last one gives "a2" the data of "a1". -/
def test1Calls : List Call :=
  [.put (text [97, 49]) 2 (some (.mem (text [1]))) 1 false, .put (text [97, 50]) 2 (some (.mem (text [2]))) 1 false,
    .put (text [97, 50]) 2 (some (.node (0, 0) 0)) 1 true]

def test1Init : Except Fault Table :=
  mghashtableInit 4 (some test1Cmp) (some (text [97, 98, 99, 100])) (some fun _ => 1) fun _ _ => 0

theorem test1_judges (h : test1Init = .ok t₀) : Judges t₀ := by
  cases h
  intro line hline lines lines' key₁ probe probe' n hkey hn hprobe
  have hn₁ : line.keyLen = 1 := by
    simp only [List.mem_cons, List.not_mem_nil, or_false] at hline
    rcases hline with rfl | rfl | rfl | rfl <;> rfl
  -- the first bytes are among those that agree
  have hfirst : ∀ {p q : Mem} {n : Int}, 0 < n → bytes p n = bytes q n → p 0 = q 0 := by
    intro p q n hn he
    have h := congrArg (·[0]?) he
    unfold bytes at h
    have hlt : 0 < n.toNat := by omega
    simpa [hlt] using h
  change test1Cmp 4 lines key₁ line.keyLen probe n ≠ 0 ↔ test1Cmp 4 lines' line.key line.keyLen probe' n ≠ 0
  unfold test1Cmp
  rw [hfirst hn hprobe, hfirst (by omega) hkey]

theorem mghashtable_map_test1 : ∃ t₀ s, test1Init = .ok t₀ ∧ UniqueKeys s.1 ∧
    Run step (fun s call => call.Served t₀ ∧ call.Readable s.1 ∧ ¬ call.ReadsOwn s.1) (t₀, fun _ => none) test1Calls s ∧
    Returns (Call.get (text [97, 50, 51]) 2).exec s.1 fun answer t' => answer = .get (some [1]) (some 1) ∧ t' = s.1 := by
  obtain ⟨t₀, hinit⟩ : ∃ t₀, test1Init = .ok t₀ := ⟨_, rfl⟩
  obtain ⟨⟨t, c⟩, hs, hc⟩ : ∃ s, exec step (fun s call => decide (call.Served t₀ ∧ call.Readable s.1 ∧ ¬ call.ReadsOwn s.1))
      (t₀, fun _ => none) test1Calls = some s ∧ s.2 [97, 50] = some [1] := by
    cases hinit
    exact ⟨_, rfl, rfl⟩
  have hserved : (Call.get (text [97, 50, 51]) 2).Served t₀ := by
    cases hinit
    decide
  have hrun := run_of_exec (fun _ _ h => of_decide_eq_true h) hs
  obtain ⟨huniq, hnext⟩ := mghashtable_map hinit (test1_judges hinit) test1Calls t c hrun
  refine ⟨t₀, (t, c), hinit, huniq, hrun, (hnext _ ⟨hserved, trivial, not_false⟩).mono fun answer t' h => ?_⟩
  obtain ⟨⟨hans, ht⟩, -⟩ := h
  rw [show (Call.get (text [97, 50, 51]) 2).keyBytes = [97, 50] from rfl, show c [97, 50] = some [1] from hc] at hans
  exact ⟨hans, ht⟩

/-- A put under "a1" of the data that a get of "a1" gives answers 1, and the next get finds 0 instead of 1. -/
theorem mghashtable_map_own : ∃ t₀ s, test1Init = .ok t₀ ∧ Judges t₀ ∧ ¬ IsMap t₀ (fun t call => call.Served t₀ ∧ call.Readable t) ∧
    Run step (fun s call => call.Served t₀ ∧ call.Readable s.1) (t₀, fun _ => none)
      [.put (text [97, 49]) 2 (some (.mem (text [1]))) 1 false, .put (text [97, 49]) 2 (some (.node (0, 0) 0)) 1 false] s ∧
    s.2 [97, 49] = some [1] ∧
    Returns (Call.get (text [97, 49]) 2).exec s.1 fun answer _ => answer = .get (some [0]) (some 1) := by
  obtain ⟨t₀, hinit⟩ : ∃ t₀, test1Init = .ok t₀ := ⟨_, rfl⟩
  obtain ⟨s, hs, hc, hget⟩ : ∃ s, exec step (fun s call => decide (call.Served t₀ ∧ call.Readable s.1)) (t₀, fun _ => none)
      [.put (text [97, 49]) 2 (some (.mem (text [1]))) 1 false, .put (text [97, 49]) 2 (some (.node (0, 0) 0)) 1 false] = some s ∧
      s.2 [97, 49] = some [1] ∧
      Returns (Call.get (text [97, 49]) 2).exec s.1 fun answer _ => answer = .get (some [0]) (some 1) := by
    cases hinit
    exact ⟨_, rfl, rfl, _, _, rfl, rfl⟩
  have hserved : (Call.get (text [97, 49]) 2).Served t₀ := by
    cases hinit
    decide
  have hrun : Run step (fun s call => call.Served t₀ ∧ call.Readable s.1) _ _ s := run_of_exec (fun _ _ h => of_decide_eq_true h) hs
  refine ⟨t₀, s, hinit, test1_judges hinit, ?_, hrun, hc, hget⟩
  intro hmap
  obtain ⟨-, hnext⟩ := hmap _ s.1 s.2 hrun
  obtain ⟨answer, t', hexec, ⟨hans, -⟩, -⟩ := hnext (Call.get (text [97, 49]) 2) ⟨hserved, trivial⟩
  have hzero := hget.of_eq hexec
  rw [show (Call.get (text [97, 49]) 2).keyBytes = [97, 49] from rfl, hc, hzero] at hans
  exact absurd hans (by simp [getAnswer, asData])

end MgStd.HashTable
