import MgStd.HashTable.Calls
import MgStd.Lib.Bytes
/-!
# Default routing

A table made by `mghashtable_init(num, NULL, NULL, NULL)` has the numbers of
its lines as their keys, and `default_key_cmp` compares them with the remainder
of the `int` at the probe's address. That `int` is negative for some keys, and
reaches behind keys of fewer than four bytes; `default_routing_iff` says for
which keys this does no harm.
-/

namespace MgStd.HashTable

open MgStd.Lib

variable {t t₀ t' : Table} {i j : Nat} {k : List UInt8} {key : Mem} {keyLen dataLen num : Int} {data : Option DataPtr}

/-- The `int` at a key behind which there are zeros. -/
def keyInt (k : List UInt8) : Int := readInt (block k fun _ => 0)

/-- Neither put nor removed. -/
def Call.Keeps (call : Call) (k : List UInt8) : Prop :=
  match call with
  | .get _ _ => True
  | _ => call.keyBytes ≠ k

/-- The key has exactly one line, whatever lies behind its bytes; after any calls, nonempty data that the key does not have already
can be put, and until the key is put or removed again a get from any other buffer returns that data. -/
def DefaultRouting (t₀ : Table) (k : List UInt8) : Prop :=
  ∃ i < t₀.lines.length, ∀ key, bytes key k.length = k →
    mghashtableGetLine t₀ (some key) k.length = some i ∧
    (∀ (j : Nat) (line : Line), t₀.lines[j]? = some line → (t₀.accepts line key k.length = true ↔ j = i)) ∧
    ∀ calls s, Run step (fun _ _ => True) (t₀, fun _ => none) calls s → ∀ data dataLen d moved,
      s.1.given data dataLen = some d → ¬ ReadsOwn s.1 key k.length data dataLen →
      Returns (mghashtablePutData { moved := moved } (some key) k.length data dataLen) s.1 fun r t₁ => r = 1 ∧
        ∀ c calls' s', Run step (fun _ call => call.Keeps k) (t₁, c) calls' s' → ∀ key', bytes key' k.length = k →
          mghashtableGetData s'.1 (some key') k.length = (some d, some (d.length : Int))

/-! ## Numbers in memory -/

/-- An `int` is the number of its four bytes, with a sign. -/
theorem readInt_eq (p : Mem) : readInt p =
    if leNat (bytes p 4) < 2 ^ 31 then (leNat (bytes p 4) : Int) else leNat (bytes p 4) - 2 ^ 32 := by
  have hbytes : bytes p 4 = [p 0, p 1, p 2, p 3] := rfl
  have hsum : (p 0).toNat + 2 ^ 8 * (p 1).toNat + 2 ^ 16 * (p 2).toNat + 2 ^ 24 * (p 3).toNat = leNat (bytes p 4) := by
    rw [hbytes]
    simp only [leNat]
    omega
  unfold readInt
  rw [hsum]

theorem bytes_add (p : Mem) (m n : Nat) : bytes p (m + n : Nat) = bytes p m ++ bytes (fun x => p (m + x)) n := by
  unfold bytes
  rw [Int.toNat_natCast, Int.toNat_natCast, Int.toNat_natCast, List.range_add, List.map_append, List.map_map]
  rfl

theorem bytes_block (k : List UInt8) (past : Mem) : bytes (block k past) k.length = k := by
  apply List.ext_getElem
  · rw [length_bytes]; rfl
  · intro x hx hx'
    simp [bytes, block, hx']

theorem block_past (k : List UInt8) (past : Mem) : (fun x => block k past (k.length + x)) = past := by
  funext x
  have hx : ¬ k.length + x < k.length := by omega
  simp only [block, dif_neg hx, Nat.add_sub_cancel_left]

theorem bytes_const (b : UInt8) (n : Nat) : bytes (fun _ => b) n = List.replicate n b := by
  unfold bytes
  rw [Int.toNat_natCast, List.map_const', List.length_range]

theorem intBytes_eq (i : Nat) : intBytes i = leBytes 4 i := by
  unfold intBytes
  rw [leBytes_eq_map]
  apply List.map_congr_left
  intro x _
  have hbyte : ((i : Int) / 2 ^ (8 * x) % 256).toNat = i / 256 ^ x % 256 := by
    have hpow : (2 : Int) ^ (8 * x) = (256 ^ x : Nat) := by
      rw [Int.pow_mul]
      norm_cast
    rw [hpow]
    exact Int.toNat_natCast (i / 256 ^ x % 256)
  rw [hbyte]
  apply UInt8.toNat_inj.1
  rw [toNat_ofNat_byte, toNat_ofNat_byte, Nat.mod_mod]

theorem readInt_intBytes {i : Nat} (hi : (i : Int) < 2 ^ 31) (past : Mem) : readInt (block (intBytes i) past) = i := by
  have hbytes := bytes_block (intBytes i) past
  rw [intBytes_eq, length_leBytes] at hbytes
  have hread : leNat (bytes (block (leBytes 4 i) past) 4) = i := by
    rw [show (4 : Int) = (4 : Nat) from rfl, hbytes, leNat_leBytes, Nat.mod_eq_of_lt (by omega)]
  rw [readInt_eq, intBytes_eq, hread, if_pos (by omega)]

/-! ## Remainders -/

theorem tmod_nonneg_iff {n : Int} : 0 ≤ n.tmod num ↔ 0 ≤ n ∨ num ∣ n := by
  constructor
  · intro h
    by_cases hn : 0 ≤ n
    · exact .inl hn
    · -- the remainder of a negative number is not positive
      have hneg := Int.tmod_nonneg (a := -n) num (by omega)
      rw [Int.neg_tmod] at hneg
      exact .inr (Int.dvd_of_tmod_eq_zero (by omega))
  · rintro (h | h)
    · exact Int.tmod_nonneg num h
    · exact Int.le_of_eq (Int.tmod_eq_zero_of_dvd h).symm

/-! ## The lines of a default table -/

/-- `t₀` is the empty table with `num` lines and the default comparator. -/
structure Default (num : Int) (t₀ : Table) : Prop where
  lineNum : t₀.lineNum = num
  keyCmp : t₀.keyCmp = defaultKeyCmp
  lines : ∀ (i : Nat) (line : Line), t₀.lines[i]? = some line → readInt line.key = i

theorem setLineKey_default {past : Nat → Mem} {n i off : Nat} {lines : List Line} (hi : ((i + n : Nat) : Int) ≤ 2 ^ 31)
    (h : mghashtableSetLineKey none none past n i off = .ok lines) :
    ∀ (j : Nat) (line : Line), lines[j]? = some line → readInt line.key = (i + j : Nat) := by
  induction n generalizing i lines with
  | zero => cases h; nofun
  | succ n ih =>
    unfold mghashtableSetLineKey at h
    obtain ⟨rest, hrest, hlines⟩ := ok_of_bind h
    cases hlines
    intro j line hj
    cases j with
    | zero =>
      cases hj
      exact readInt_intBytes (by omega) _
    | succ j =>
      rw [ih (by omega) hrest j line hj]
      omega

theorem default_of_init {past : Nat → Mem} (hnum : num < 2 ^ 31) (h : mghashtableInit num none none none past = .ok t₀) :
    Default num t₀ := by
  unfold mghashtableInit at h
  split at h
  · cases h
  · next lines hl =>
    cases h
    refine ⟨rfl, rfl, fun i line hi => ?_⟩
    rw [setLineKey_default (by omega) hl i line hi, Nat.zero_add]

theorem Default.accepts (h : Default num t₀) {line : Line} (hi : t₀.lines[i]? = some line) :
    t₀.accepts line key keyLen = true ↔ (i : Int) = (readInt key).tmod num := by
  unfold Table.accepts
  rw [h.keyCmp, h.lineNum, defaultKeyCmp, h.lines i line hi]
  split <;> simp_all

theorem Default.of_shape (h : Default num t₀) (ht : t.shape = t₀.shape) : Default num t := by
  simp only [Table.shape, Prod.mk.injEq] at ht
  obtain ⟨hnum, hcmp, hlines⟩ := ht
  refine ⟨hnum.trans h.lineNum, hcmp.trans h.keyCmp, fun i line hi => ?_⟩
  have hmap := congrArg (·[i]?) hlines
  simp only [List.getElem?_map, hi, Option.map_some] at hmap
  obtain ⟨line₀, hi₀, he⟩ := Option.map_eq_some_iff.1 hmap.symm
  rw [← (Prod.mk.inj he).1]
  exact h.lines i line₀ hi₀

/-- The line whose number is the remainder. -/
theorem Default.getLine (h : Default num t₀) (hnum : 0 < num) (hlen : keyLen ≠ 0) :
    mghashtableGetLine t₀ (some key) keyLen = some i ↔ (i : Int) = (readInt key).tmod num := by
  simp only [mghashtableGetLine, if_pos hlen]
  rw [List.findIdx?_eq_some_iff_getElem]
  constructor
  · rintro ⟨hi, hacc, -⟩
    exact (h.accepts (List.getElem?_eq_getElem hi)).1 hacc
  · intro he
    have hlt := Int.tmod_lt_of_pos (readInt key) hnum
    have hi : i < t₀.lines.length := by
      have hl := t₀.length_eq
      rw [h.lineNum] at hl
      omega
    refine ⟨hi, (h.accepts (List.getElem?_eq_getElem hi)).2 he, fun j hj hacc => ?_⟩
    have := (h.accepts (List.getElem?_eq_getElem (Nat.lt_trans hj hi))).1 hacc
    omega

/-! ## What other calls leave -/

/-- A call keeps the shape of the table, and what is found of a key it does not put or remove. -/
theorem exec_keeps {call : Call} : Ensures call.exec t fun _ t' =>
    t'.shape = t.shape ∧ (call.Keeps k → ∀ i, t'.found i k = t.found i k) := by
  cases call with
  | get key keyLen => simp [Call.exec]
  | put key keyLen data dataLen moved =>
    simp only [Call.exec, ensures_bind, ensures_pure]
    by_cases hpos : 0 < keyLen
    · refine (ensures_put hpos).mono ?_
      rintro r t' ⟨d, hput⟩
      exact ⟨hput.shape, fun hne i => hput.found_ne (Ne.symm hne)⟩
    · simp [mghashtablePutData, hpos]
  | remove key keyLen =>
    simp only [Call.exec, ensures_bind, ensures_pure]
    by_cases hpos : 0 < keyLen
    · exact (returns_mghashtableRemoveNode hpos).ensures.mono fun n t' h => ⟨h.shape, fun hne i => h.found_ne (Ne.symm hne)⟩
    · simp [mghashtableRemoveNode, hpos]

/-- A step of a run is a call that has come back. -/
theorem exec_of_step {s u : Table × Contents} {call : Call} (h : step s call = some (.ok u)) :
    ∃ answer, call.exec s.1 = .ok (answer, u.1) := by
  unfold step at h
  cases he : call.exec s.1 with
  | error e => rw [he] at h; cases h
  | ok r => rw [he] at h; cases h; exact ⟨r.1, rfl⟩

theorem run_keeps {ok : Table × Contents → Call → Prop} {s s' : Table × Contents} {calls : List Call}
    (hok : ∀ s call, ok s call → call.Keeps k) (h : Run step ok s calls s') :
    s'.1.shape = s.1.shape ∧ ∀ i, s'.1.found i k = s.1.found i k := by
  apply h.inv (fun u => u.1.shape = s.1.shape ∧ ∀ i, u.1.found i k = s.1.found i k) ⟨rfl, fun _ => rfl⟩
  intro u call v hu hl hstep
  obtain ⟨answer, hexec⟩ := exec_of_step hstep
  obtain ⟨hshape, hfound⟩ := exec_keeps (k := k) _ _ hexec
  exact ⟨hshape.trans hu.1, fun i => (hfound (hok u call hl) i).trans (hu.2 i)⟩

theorem run_shape {ok : Table × Contents → Call → Prop} {s s' : Table × Contents} {calls : List Call}
    (h : Run step ok s calls s') : s'.1.shape = s.1.shape := by
  apply h.inv (fun u => u.1.shape = s.1.shape) rfl
  intro u call v hu _ hstep
  obtain ⟨answer, hexec⟩ := exec_of_step hstep
  exact (exec_keeps (k := []) _ _ hexec).1.trans hu

theorem readable_of_given {d : List UInt8} (hd : t.given data dataLen = some d) : Readable t data dataLen := by
  intro ptr hw
  rw [Table.given, Option.mem_def.1 hw, Option.bind_some] at hd
  rw [hd]
  exact Option.some_ne_none d

/-- A key with one route is put and found again. -/
theorem Routed.put_get (hr : Routed t₀ k i) (hk : k ≠ []) (ht : t.shape = t₀.shape) (hkey : bytes key k.length = k)
    {d : List UInt8} {moved : Bool} (hd : t.given data dataLen = some d) (hown : ¬ ReadsOwn t key k.length data dataLen) :
    Returns (mghashtablePutData { moved := moved } (some key) k.length data dataLen) t fun r t₁ => r = 1 ∧
      ∀ c calls' s', Run step (fun _ call => call.Keeps k) (t₁, c) calls' s' → ∀ key', bytes key' k.length = k →
        mghashtableGetData s'.1 (some key') k.length = (some d, some (d.length : Int)) := by
  have hpos : 0 < (k.length : Int) := by
    have := List.length_pos_of_ne_nil hk
    omega
  refine (returns_mghashtablePutData hpos (readable_of_given hd) hown).mono fun r t₁ hput => ?_
  rw [hr t ht key hkey, hkey] at hput
  rcases hput.answer with ⟨rfl, -⟩ | rfl
  · have := hput.refused.2
    rw [hd] at this
    cases this
  · refine ⟨rfl, fun c calls' s' hrun key' hkey' => ?_⟩
    obtain ⟨hshape, hfound⟩ := run_keeps (fun _ _ h => h) hrun
    have hstored := hput.stored_self
    rw [mghashtableGetData_eq hpos, hr s'.1 (hshape.trans (hput.shape.trans ht)) key' hkey', Option.bind_some, hkey',
      hfound i]
    unfold Stored at hstored
    rw [Option.map_some, asData_given, hd] at hstored
    obtain ⟨node, hnode, he⟩ := Option.map_eq_some_iff.1 hstored
    rw [hnode]
    simp only [Prod.mk.injEq] at he
    simp only [he.1, he.2, Option.getD_some]

/-! ## Which keys have a route -/

/-- Memories that hold a key of four bytes or more hold one `int`. -/
theorem readInt_long {key' : Mem} (hlong : 4 ≤ k.length) (hkey : bytes key k.length = k) (hkey' : bytes key' k.length = k) :
    readInt key = readInt key' := by
  have hsplit := bytes_add key 4 (k.length - 4)
  have hsplit' := bytes_add key' 4 (k.length - 4)
  rw [Nat.add_sub_cancel' hlong] at hsplit hsplit'
  have hfour := List.append_inj_left (hsplit.symm.trans ((hkey.trans hkey'.symm).trans hsplit')) (by simp)
  rw [readInt_eq, readInt_eq, show (4 : Int) = (4 : Nat) from rfl, hfour]

theorem pow_short (hshort : k.length < 4) : 256 ^ k.length ≤ 2 ^ 24 :=
  Nat.pow_le_pow_right (n := 256) (by decide) (Nat.le_pred_of_lt hshort)

/-- An `int` takes the bytes of a short key and then those behind it. -/
theorem leNat_short (hshort : k.length < 4) (hkey : bytes key k.length = k) : leNat (bytes key 4) =
    leNat k + 256 ^ k.length * leNat (bytes (fun x => key (k.length + x)) (4 - k.length : Nat)) := by
  have hsplit := bytes_add key k.length (4 - k.length)
  rw [Nat.add_sub_cancel' (Nat.le_of_lt hshort), hkey] at hsplit
  rw [show (4 : Int) = (4 : Nat) from rfl, hsplit, leNat_append]

/-- A short key reads as its own bytes when there are zeros behind it. -/
theorem keyInt_short (hshort : k.length < 4) : keyInt k = leNat k := by
  have hread := leNat_short hshort (bytes_block k fun _ => 0)
  rw [block_past, bytes_const, leNat_zeros, Nat.mul_zero, Nat.add_zero] at hread
  have hlt := leNat_lt k
  have hpow := pow_short hshort
  unfold keyInt
  rw [readInt_eq, hread, if_pos (by omega)]

/-- The bytes behind a short key change its `int` by a multiple of `2 ^ (8 * k.length)`. -/
theorem readInt_short (hshort : k.length < 4) (hkey : bytes key k.length = k) :
    (2 : Int) ^ (8 * k.length) ∣ readInt key - keyInt k := by
  let rest := bytes (fun x => key (k.length + x)) (4 - k.length : Nat)
  have hread : (leNat (bytes key 4) : Int) = leNat k + 256 ^ k.length * leNat rest := by
    rw [leNat_short hshort hkey, Int.natCast_add, Int.natCast_mul, Int.natCast_pow]
    rfl
  have hword : (2 : Int) ^ 32 = 256 ^ k.length * 256 ^ (4 - k.length) := by
    rw [← Int.pow_add, Nat.add_sub_cancel' (Nat.le_of_lt hshort)]
    decide
  have hbase : (2 : Int) ^ (8 * k.length) = 256 ^ k.length := Int.pow_mul
  rw [hbase, readInt_eq, hread, keyInt_short hshort, hword]
  split
  · exact ⟨leNat rest, by omega⟩
  · refine ⟨leNat rest - 256 ^ (4 - k.length), ?_⟩
    rw [Int.mul_sub]
    omega

/-- With bytes 0xff behind it, a short key reads as a negative number. -/
theorem readInt_ones (hshort : k.length < 4) :
    readInt (block k fun _ => 255) = keyInt k - 2 ^ (8 * k.length) ∧ 0 ≤ keyInt k ∧ keyInt k < 2 ^ (8 * k.length) := by
  have hread := leNat_short hshort (bytes_block k fun _ => 255)
  rw [block_past, bytes_const] at hread
  have hones : 256 ^ k.length * leNat (List.replicate (4 - k.length) 255) + 256 ^ k.length = 256 ^ 4 := by
    rw [← Nat.mul_succ, Nat.succ_eq_add_one, leNat_ones, ← Nat.pow_add, Nat.add_sub_cancel' (Nat.le_of_lt hshort)]
  have hlt := leNat_lt k
  have hpow := pow_short hshort
  have hcast : (2 : Int) ^ (8 * k.length) = (256 ^ k.length : Nat) := by
    rw [Int.pow_mul]
    norm_cast
  rw [keyInt_short hshort, readInt_eq, hread, if_neg (by omega), hcast]
  refine ⟨?_, ?_, ?_⟩ <;> omega

/-- One route for all memories that hold the key. -/
theorem routes_of_cond (hcond : (4 ≤ k.length ∧ (0 ≤ keyInt k ∨ num ∣ keyInt k)) ∨
      (k.length < 4 ∧ num ∣ 2 ^ (8 * k.length) ∧ num ∣ keyInt k)) :
    ∃ i : Nat, ∀ key, bytes key k.length = k → (i : Int) = (readInt key).tmod num := by
  rcases hcond with ⟨hlong, hc⟩ | ⟨hshort, hpow, hc⟩
  · refine ⟨((keyInt k).tmod num).toNat, fun key hkey => ?_⟩
    have hread : readInt key = keyInt k := readInt_long hlong hkey (bytes_block k _)
    rw [hread, Int.toNat_of_nonneg (tmod_nonneg_iff.2 hc)]
  · -- every memory leads to line 0
    refine ⟨0, fun key hkey => ?_⟩
    have hdvd : num ∣ readInt key := by
      have hsub := Int.dvd_trans hpow (readInt_short hshort hkey)
      have := Int.dvd_add hsub hc
      rwa [Int.sub_add_cancel] at this
    exact (Int.tmod_eq_zero_of_dvd hdvd).symm

/-- A key whose memories all lead to one line meets the condition. -/
theorem cond_of_routes {i : Nat} (hr : ∀ key, bytes key k.length = k → (i : Int) = (readInt key).tmod num) :
    (4 ≤ k.length ∧ (0 ≤ keyInt k ∨ num ∣ keyInt k)) ∨
      (k.length < 4 ∧ num ∣ 2 ^ (8 * k.length) ∧ num ∣ keyInt k) := by
  have hzero := hr _ (bytes_block k fun _ => 0)
  have hones := hr _ (bytes_block k fun _ => 255)
  by_cases hlong : 4 ≤ k.length
  · exact .inl ⟨hlong, tmod_nonneg_iff.1 (by unfold keyInt; omega)⟩
  · obtain ⟨hneg, hlo, hhi⟩ := readInt_ones (k := k) (by omega)
    rw [hneg] at hones
    -- the negative number only fits line 0, and the zeros lead there too
    have hnonneg : 0 ≤ (keyInt k - 2 ^ (8 * k.length)).tmod num := by omega
    have hdvd : num ∣ keyInt k - 2 ^ (8 * k.length) := by
      rcases tmod_nonneg_iff.1 hnonneg with hn | hn
      · omega
      · exact hn
    rw [Int.tmod_eq_zero_of_dvd hdvd] at hones
    have hdvd' : num ∣ keyInt k := Int.dvd_of_tmod_eq_zero (by unfold keyInt; omega)
    have hpow := Int.dvd_sub hdvd' hdvd
    rw [Int.sub_sub_self] at hpow
    exact .inr ⟨by omega, hpow, hdvd'⟩

theorem default_routing_iff {past : Nat → Mem} (hinit : mghashtableInit num none none none past = .ok t₀) (hpos : 0 < num)
    (hmax : num < 2 ^ 31) (hk : k ≠ []) : DefaultRouting t₀ k ↔
      (4 ≤ k.length ∧ (0 ≤ keyInt k ∨ num ∣ keyInt k)) ∨
        (k.length < 4 ∧ num ∣ 2 ^ (8 * k.length) ∧ num ∣ keyInt k) := by
  have hdef := default_of_init hmax hinit
  have hlen : (k.length : Int) ≠ 0 := by
    have := List.length_pos_of_ne_nil hk
    omega
  constructor
  · rintro ⟨i, -, hr⟩
    exact cond_of_routes fun key hkey => (hdef.getLine hpos hlen).1 (hr key hkey).1
  · intro hcond
    obtain ⟨i, hi⟩ := routes_of_cond hcond
    have hrouted : Routed t₀ k i := fun t ht key hkey => ((hdef.of_shape ht).getLine hpos hlen).2 (hi key hkey)
    obtain ⟨line, hline⟩ := line_of_getLine (hrouted t₀ rfl _ (bytes_block k fun _ => 0))
    refine ⟨i, (List.getElem?_eq_some_iff.1 hline).1, fun key hkey => ⟨hrouted t₀ rfl key hkey, ?_, ?_⟩⟩
    · intro j line hj
      rw [hdef.accepts hj, ← hi key hkey]
      omega
    · intro calls s hrun data dataLen d moved hd hown
      exact hrouted.put_get hk (run_shape hrun) hkey hd hown

/-- The key 5 of an `int`, in a table of 16 lines. -/
theorem default_routing_iff_five : ∃ t₀, mghashtableInit 16 none none none (fun _ _ => 0) = .ok t₀ ∧
    DefaultRouting t₀ [5, 0, 0, 0] := by
  obtain ⟨t₀, hinit⟩ : ∃ t₀, mghashtableInit 16 none none none (fun _ _ => 0) = .ok t₀ := ⟨_, rfl⟩
  exact ⟨t₀, hinit, (default_routing_iff hinit (by decide) (by decide) (by decide)).2 (.inl (by decide))⟩

/-- In a table of 16 lines the `int` key -1 has no line, and a put of it with data is refused; the key "a" has a
line or none, depending on what lies behind it. -/
theorem default_routing_negative : ∃ t₀, mghashtableInit 16 none none none (fun _ _ => 0) = .ok t₀ ∧
    ¬ DefaultRouting t₀ [255, 255, 255, 255] ∧ ¬ DefaultRouting t₀ [97] ∧
    Returns (mghashtablePutData {} (some fun _ => 255) 4 (some (.mem fun _ => 1)) 1) t₀ fun r t => r = 0 ∧ t = t₀ := by
  obtain ⟨t₀, hinit⟩ : ∃ t₀, mghashtableInit 16 none none none (fun _ _ => 0) = .ok t₀ := ⟨_, rfl⟩
  -- no route, since one memory that holds the key has no line
  have hno : ∀ k past, mghashtableGetLine t₀ (some (block k past)) k.length = none → ¬ DefaultRouting t₀ k := by
    rintro k past hnone ⟨i, -, hr⟩
    rw [(hr _ (bytes_block k past)).1] at hnone
    cases hnone
  refine ⟨t₀, hinit, hno _ (fun _ => 0) ?_, hno _ (fun _ => 255) ?_, ?_⟩
  · cases hinit
    decide
  · cases hinit
    decide
  · cases hinit
    exact ⟨_, _, rfl, rfl, rfl⟩

end MgStd.HashTable
