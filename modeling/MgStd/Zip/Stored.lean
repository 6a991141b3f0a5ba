import Mathlib.Algebra.GroupWithZero.Nat
import MgStd.Zip.Entry
/-!
# Reading a stored entry

What the calls of `readEntry` deliver of an entry that is not compressed, when the
archive holds all of its data: with no encryption the bytes of the entry in their
order, whatever the calls ask for. With encryption the reader counts the twelve
bytes of the header as if they were bytes of the file, so that it loses the last
twelve or waits for ever for bytes that do not exist.
-/

namespace MgStd.Zip

open MgStd.Lib MgStd.Lib.Transducer

variable {ι : Type} {inflate : Inflate ι} {info : EntryInfo} {e : Entry ι}

/-! ## One round -/

/-- The bytes that wait in the archive, decrypted. -/
def Entry.waiting (info : EntryInfo) (e : Entry ι) : List UInt8 :=
  let bytes := e.archive.take e.RemainingCompressed
  if info.encrypted then (run decryptInput e.Keys bytes).1 else bytes

/-- The bytes that have not been delivered. -/
def Entry.pending (info : EntryInfo) (e : Entry ι) : List UInt8 := e.nextIn ++ e.waiting info

/-- The archive holds all data of the entry, the buffer is large enough, and the checksum has 32 bits. -/
structure Entry.Backed (e : Entry ι) : Prop where
  archive : e.RemainingCompressed ≤ e.archive.length
  buffer : UNZ_BUFSIZE ≤ e.InputBuffer.length
  crc : ∃ crc : BitVec 32, e.RunningCrc = crc.setWidth 64

/-- The entry after `fillInput`. -/
def Entry.filled (info : EntryInfo) (e : Entry ι) : Entry ι :=
  if e.nextIn = [] ∧ e.RemainingCompressed ≠ 0 then
    let uReadThis := min UNZ_BUFSIZE e.RemainingCompressed
    let input := e.archive.take uReadThis
    let decrypted := if info.encrypted then run decryptInput e.Keys input else (input, e.Keys)
    { e with
      archive := e.archive.drop uReadThis
      RemainingCompressed := e.RemainingCompressed - uReadThis
      InputBuffer := decrypted.1 ++ (memcpy e.InputBuffer 0 input).drop uReadThis
      nextIn := decrypted.1
      Keys := decrypted.2 }
  else e

theorem length_decrypted {keys : Keys} {input : List UInt8} :
    (if info.encrypted then run decryptInput keys input else (input, keys)).1.length = input.length := by
  split
  · exact length_run keys input
  · rfl

theorem returns_fillInput (hback : e.Backed) (Q : Bool → Entry ι → Prop) :
    Returns (fillInput info) e Q ↔ Q true (e.filled info) := by
  unfold fillInput Entry.filled
  by_cases h : e.nextIn = [] ∧ e.RemainingCompressed ≠ 0
  · have hle : min UNZ_BUFSIZE e.RemainingCompressed ≤ e.archive.length := Nat.le_trans (Nat.min_le_right _ _) hback.archive
    have hpos : 0 < min UNZ_BUFSIZE e.RemainingCompressed := Nat.lt_min.2 ⟨by decide, Nat.pos_of_ne_zero h.2⟩
    have hbytes : e.archive.take (min UNZ_BUFSIZE e.RemainingCompressed) ≠ [] := by
      intro hnil
      have hlen := congrArg List.length hnil
      rw [List.length_take, Nat.min_eq_left hle, List.length_nil] at hlen
      omega
    have hinput : (memcpy e.InputBuffer 0 (e.archive.take (min UNZ_BUFSIZE e.RemainingCompressed))).take
        (min UNZ_BUFSIZE e.RemainingCompressed) = e.archive.take (min UNZ_BUFSIZE e.RemainingCompressed) := by
      have hlen : 0 + (e.archive.take (min UNZ_BUFSIZE e.RemainingCompressed)).length = min UNZ_BUFSIZE e.RemainingCompressed := by
        rw [List.length_take, Nat.min_eq_left hle, Nat.zero_add]
      conv_lhs => arg 1; rw [← hlen]
      rw [take_memcpy (Nat.zero_le _), List.take_zero, List.nil_append]
    simp only [returns_bind, returns_get, returns_ite, returns_set, returns_pure, if_pos h, hinput, hbytes, false_imp_iff, true_and,
      not_false_eq_true, true_imp_iff]
    exact ⟨fun hq => hq.1 h, fun hq => ⟨fun _ => hq, fun hn => absurd h hn⟩⟩
  · simp only [returns_bind, returns_get, returns_ite, returns_set, returns_pure, if_neg h]
    exact ⟨fun hq => hq.2 h, fun hq => ⟨fun hn => absurd hn h, fun _ => hq⟩⟩

/-! What a call sees of an entry is not changed when the buffer is filled. -/

@[simp] theorem filled_nextOut : (e.filled info).nextOut = e.nextOut := by
  unfold Entry.filled
  split <;> rfl

@[simp] theorem filled_availOut : (e.filled info).availOut = e.availOut := by
  unfold Entry.filled
  split <;> rfl

@[simp] theorem filled_LastErr : (e.filled info).LastErr = e.LastErr := by
  unfold Entry.filled
  split <;> rfl

@[simp] theorem filled_RunningCrc : (e.filled info).RunningCrc = e.RunningCrc := by
  unfold Entry.filled
  split <;> rfl

@[simp] theorem filled_RemainingUncompressed : (e.filled info).RemainingUncompressed = e.RemainingUncompressed := by
  unfold Entry.filled
  split <;> rfl

@[simp] theorem filled_RemainingEncrypt : (e.filled info).RemainingEncrypt = e.RemainingEncrypt := by
  unfold Entry.filled
  split <;> rfl

@[simp] theorem filled_CrcEncTest : (e.filled info).CrcEncTest = e.CrcEncTest := by
  unfold Entry.filled
  split <;> rfl

@[simp] theorem filled_iRead : (e.filled info).iRead = e.iRead := by
  unfold Entry.filled
  split <;> rfl

theorem Entry.Backed.filled (hback : e.Backed) : (e.filled info).Backed := by
  obtain ⟨harchive, hbuffer, hcrc⟩ := hback
  unfold Entry.filled
  split
  · have hmemcpy : (memcpy e.InputBuffer 0 (e.archive.take (min UNZ_BUFSIZE e.RemainingCompressed))).length = e.InputBuffer.length := by
      apply length_memcpy
      rw [List.length_take]
      omega
    refine ⟨?_, ?_, hcrc⟩
    · simp only [List.length_drop]
      omega
    · simp only [List.length_append, List.length_drop, length_decrypted, hmemcpy, List.length_take]
      omega
  · exact ⟨harchive, hbuffer, hcrc⟩

/-- Nothing is lost and nothing is added when the buffer is filled. -/
@[simp] theorem filled_pending : (e.filled info).pending info = e.pending info := by
  unfold Entry.filled
  split
  next h =>
    have htake : e.archive.take e.RemainingCompressed = e.archive.take (min UNZ_BUFSIZE e.RemainingCompressed)
        ++ (e.archive.drop (min UNZ_BUFSIZE e.RemainingCompressed)).take
          (e.RemainingCompressed - min UNZ_BUFSIZE e.RemainingCompressed) := by
      rw [← List.take_add, Nat.add_sub_cancel' (Nat.min_le_right _ _)]
    unfold Entry.pending Entry.waiting
    rw [h.1, List.nil_append]
    by_cases henc : info.encrypted
    · simp only [henc, if_true]
      rw [htake, run_append]
    · simp only [henc, if_false, Bool.false_eq_true]
      exact htake.symm
  next => rfl

/-- What the buffer holds then: all that fits of what waits. -/
theorem length_filled_nextIn (info : EntryInfo) (hback : e.Backed) (h : e.nextIn = []) :
    (e.filled info).nextIn.length = min UNZ_BUFSIZE e.RemainingCompressed := by
  have harchive := hback.archive
  unfold Entry.filled
  by_cases hrem : e.RemainingCompressed = 0
  · rw [if_neg (fun hn => hn.2 hrem), h, hrem]
    rfl
  · rw [if_pos ⟨h, hrem⟩]
    simp only [length_decrypted, List.length_take]
    omega

theorem filled_of_ne_nil (h : e.nextIn ≠ []) : e.filled info = e := if_neg fun hn => h hn.1

theorem length_waiting (info : EntryInfo) (hback : e.Backed) : (e.waiting info).length = e.RemainingCompressed := by
  have harchive := hback.archive
  unfold Entry.waiting
  split
  · rw [length_run, List.length_take, Nat.min_eq_left harchive]
  · rw [List.length_take, Nat.min_eq_left harchive]

/-- As long as there is something to deliver, a filled buffer has some of it. -/
theorem filled_nextIn_ne_nil (hback : e.Backed) (h : e.pending info ≠ []) : (e.filled info).nextIn ≠ [] := by
  by_cases hnext : e.nextIn = []
  · intro hnil
    have hlen := length_filled_nextIn info hback hnext
    rw [hnil, List.length_nil] at hlen
    have hrem : e.RemainingCompressed = 0 := by
      have hbuf : 0 < UNZ_BUFSIZE := by decide
      omega
    have hwait := length_waiting info hback
    rw [hrem] at hwait
    apply h
    rw [Entry.pending, hnext, List.eq_nil_of_length_eq_zero hwait, List.nil_append]
  · rwa [filled_of_ne_nil hnext]

/-- A buffer that is empty after it has been filled has nothing behind it. -/
theorem waiting_filled_eq_nil (hback : e.Backed) (hempty : (e.filled info).nextIn = []) : (e.filled info).waiting info = [] := by
  have hpending : (e.filled info).pending info = (e.filled info).waiting info := by rw [Entry.pending, hempty, List.nil_append]
  by_contra hne
  rw [← hpending, filled_pending] at hne
  exact filled_nextIn_ne_nil hback hne hempty

/-- The entry after `copyStored`. -/
def Entry.copied (e : Entry ι) : Entry ι :=
  let uDoCopy := min e.availOut e.nextIn.length
  let bytes := e.nextIn.take uDoCopy
  { e with
    nextOut := e.nextOut ++ bytes
    RunningCrc := ucrc32 e.RunningCrc bytes
    RemainingUncompressed := e.RemainingUncompressed - BitVec.ofNat 64 uDoCopy
    nextIn := e.nextIn.drop uDoCopy
    availOut := e.availOut - uDoCopy
    iRead := e.iRead + uDoCopy }

theorem Entry.Backed.copied (hback : e.Backed) : e.copied.Backed := by
  obtain ⟨crc, hcrc⟩ := hback.crc
  refine ⟨hback.archive, hback.buffer, ?_⟩
  unfold Entry.copied
  simp only [hcrc]
  exact ⟨_, crcLoops_eq crc _⟩

theorem copied_pending (info : EntryInfo) (e : Entry ι) :
    e.copied.pending info = (e.pending info).drop (min e.availOut e.nextIn.length) := by
  unfold Entry.pending
  rw [List.drop_append_of_le_length (Nat.min_le_right _ _)]
  rfl

/-- The encryption header has been read. -/
theorem returns_readEncryptionHeader (h : e.RemainingEncrypt = 0) (Q : Bool → Entry ι → Prop) :
    Returns readEncryptionHeader e Q ↔ Q true e := by
  unfold readEncryptionHeader
  simp [h]

/-- A round for a stored entry, behind the encryption header. -/
theorem returns_readLoop_succ (hmethod : info.compression_method = 0) (hback : e.Backed) (henc : e.RemainingEncrypt = 0) (fuel : Nat)
    (Q : Bool → Entry ι → Prop) :
    Returns (readLoop inflate info (fuel + 1)) e Q ↔
      if e.availOut = 0 then Q true e
      else if (e.filled info).copied.RemainingUncompressed = 0 then Q true (e.filled info).copied
      else Returns (readLoop inflate info fuel) (e.filled info).copied Q := by
  have hheader : (e.filled info).RemainingEncrypt = 0 := by rw [filled_RemainingEncrypt, henc]
  rw [readLoop]
  by_cases h0 : e.availOut = 0
  · simp [h0]
  · simp only [returns_bind, returns_get, returns_ite, returns_pure, h0, if_false, false_imp_iff, true_and, not_false_eq_true,
      true_imp_iff, returns_fillInput hback, returns_readEncryptionHeader hheader, hmethod, if_true, copyStored, returns_modify,
      ← Entry.copied.eq_def, not_true_eq_false]
    exact ite_prop_iff_and.symm

/-! ## One call -/

/-- From `e` to `e'` the next `k` bytes were delivered. -/
structure Delivered (info : EntryInfo) (e : Entry ι) (k : Nat) (e' : Entry ι) : Prop where
  out : e'.nextOut = e.nextOut ++ (e.pending info).take k
  pending : e'.pending info = (e.pending info).drop k
  crc : e'.RunningCrc = ucrc32 e.RunningCrc ((e.pending info).take k)
  avail : e'.availOut = e.availOut - k
  remaining : e'.RemainingUncompressed = e.RemainingUncompressed - BitVec.ofNat 64 k
  read : e'.iRead = e.iRead + k
  err : e'.LastErr = e.LastErr
  header : e'.RemainingEncrypt = e.RemainingEncrypt
  backed : e'.Backed

theorem Delivered.refl (info : EntryInfo) (hback : e.Backed) : Delivered info e 0 e := by
  obtain ⟨crc, hcrc⟩ := hback.crc
  refine ⟨by simp, by simp, ?_, rfl, by simp, rfl, rfl, rfl, hback⟩
  rw [hcrc, ucrc32, List.take_zero]
  exact (foldl_crcLoops crc []).symm ▸ rfl

theorem Delivered.trans {e₁ e₂ : Entry ι} {k l : Nat} (hback : e.Backed) (h₁ : Delivered info e k e₁) (h₂ : Delivered info e₁ l e₂) :
    Delivered info e (k + l) e₂ := by
  obtain ⟨crc, hcrc⟩ := hback.crc
  constructor
  · rw [h₂.out, h₁.out, h₁.pending, List.append_assoc, ← List.take_add]
  · rw [h₂.pending, h₁.pending, List.drop_drop]
  · rw [h₂.crc, h₁.crc, h₁.pending, hcrc, List.take_add]
    exact crcLoops_append crc _ _
  · rw [h₂.avail, h₁.avail, Nat.sub_sub]
  · rw [h₂.remaining, h₁.remaining, BitVec.sub_sub, ← BitVec.ofNat_add]
  · rw [h₂.read, h₁.read, Nat.add_assoc]
  · rw [h₂.err, h₁.err]
  · rw [h₂.header, h₁.header]
  · exact h₂.backed

theorem Delivered.toNat_remaining {e' : Entry ι} {k : Nat} (h : Delivered info e k e') (hk : k ≤ e.RemainingUncompressed.toNat) :
    e'.RemainingUncompressed.toNat = e.RemainingUncompressed.toNat - k := by
  have hlt := e.RemainingUncompressed.isLt
  rw [h.remaining, BitVec.toNat_sub, BitVec.toNat_ofNat]
  omega

/-- A round delivers what is in the buffer, as far as it is asked for. -/
theorem delivered_round (info : EntryInfo) (hback : e.Backed) :
    Delivered info e (min e.availOut (e.filled info).nextIn.length) (e.filled info).copied := by
  have hbytes : (e.filled info).nextIn.take (min e.availOut (e.filled info).nextIn.length)
      = (e.pending info).take (min e.availOut (e.filled info).nextIn.length) := by
    rw [← filled_pending (e := e), Entry.pending, List.take_append_of_le_length (Nat.min_le_right _ _)]
  have hpending := copied_pending info (e.filled info)
  rw [filled_pending, filled_availOut] at hpending
  constructor
  · rw [← hbytes]
    simp [Entry.copied]
  · exact hpending
  · rw [← hbytes]
    simp [Entry.copied]
  all_goals first | exact hback.filled.copied | simp [Entry.copied]

theorem length_nextIn_le : (e.filled info).nextIn.length ≤ (e.pending info).length := by
  rw [← filled_pending (e := e), Entry.pending, List.length_append]
  exact Nat.le_add_right _ _

/-- As long as no more is asked for than is there and than the reader counts, the loop delivers what is asked for. A
round delivers at least one byte. -/
theorem returns_readLoop (inflate : Inflate ι) (hmethod : info.compression_method = 0) (hback : e.Backed) (henc : e.RemainingEncrypt = 0)
    (hthere : e.availOut ≤ (e.pending info).length) (hcount : e.availOut ≤ e.RemainingUncompressed.toNat) {fuel : Nat}
    (hfuel : e.availOut < fuel) :
    Returns (readLoop inflate info fuel) e fun ok e' => ok = true ∧ Delivered info e e.availOut e' := by
  induction fuel generalizing e with
  | zero => exact absurd hfuel (Nat.not_lt_zero _)
  | succ fuel ih =>
    rw [returns_readLoop_succ hmethod hback henc]
    by_cases h0 : e.availOut = 0
    · rw [if_pos h0, h0]
      exact ⟨rfl, .refl info hback⟩
    rw [if_neg h0]
    have hround := delivered_round info hback
    have hnext : 0 < (e.filled info).nextIn.length := by
      apply List.length_pos_of_ne_nil
      apply filled_nextIn_ne_nil hback
      intro hnil
      rw [hnil, List.length_nil] at hthere
      omega
    have hk : min e.availOut (e.filled info).nextIn.length ≤ e.availOut := Nat.min_le_left _ _
    have hkpos : 0 < min e.availOut (e.filled info).nextIn.length := Nat.lt_min.2 ⟨Nat.pos_of_ne_zero h0, hnext⟩
    generalize (e.filled info).copied = e₁ at hround ⊢
    generalize min e.availOut (e.filled info).nextIn.length = k at hround hk hkpos
    have hrem := hround.toNat_remaining (Nat.le_trans hk hcount)
    split
    next hzero =>
      rw [hzero] at hrem
      have hka : k = e.availOut := by
        have hnat : BitVec.toNat (0 : ULG) = 0 := rfl
        omega
      exact ⟨rfl, hka ▸ hround⟩
    next hzero =>
      have havail := hround.avail
      have hlen := congrArg List.length hround.pending
      rw [List.length_drop] at hlen
      have hrest := ih hround.backed (hround.header.trans henc) (by omega) (by omega) (by omega)
      refine hrest.mono ?_
      rintro ok e' ⟨hok, hdel⟩
      refine ⟨hok, ?_⟩
      have hall := hround.trans hback hdel
      rwa [havail, Nat.add_sub_cancel' hk] at hall

/-- When more is asked for than is there, the loop delivers what is there and then goes round without doing anything. -/
theorem not_returns_readLoop (hmethod : info.compression_method = 0) (hback : e.Backed) (henc : e.RemainingEncrypt = 0)
    (hthere : (e.pending info).length < e.availOut) (hcount : e.availOut ≤ e.RemainingUncompressed.toNat) (fuel : Nat)
    (Q : Bool → Entry ι → Prop) : ¬ Returns (readLoop inflate info fuel) e Q := by
  induction fuel generalizing e with
  | zero =>
    rw [readLoop]
    exact returns_fault _ _ _
  | succ fuel ih =>
    rw [returns_readLoop_succ hmethod hback henc, if_neg (by omega)]
    have hround := delivered_round info hback
    have hk : min e.availOut (e.filled info).nextIn.length ≤ (e.pending info).length :=
      Nat.le_trans (Nat.min_le_right _ _) length_nextIn_le
    generalize (e.filled info).copied = e₁ at hround ⊢
    generalize min e.availOut (e.filled info).nextIn.length = k at hround hk
    have hrem := hround.toNat_remaining (by omega)
    have havail := hround.avail
    have hlen := congrArg List.length hround.pending
    rw [List.length_drop] at hlen
    rw [if_neg]
    · exact ih hround.backed (hround.header.trans henc) (by omega) (by omega)
    · intro hzero
      rw [hzero] at hrem
      have hnat : BitVec.toNat (0 : ULG) = 0 := rfl
      omega

/-- The entry when `readEntry` begins its loop. -/
def Entry.called (e : Entry ι) (len : Nat) : Entry ι :=
  { e with iRead := 0, nextOut := [], availOut := min len e.RemainingUncompressed.toNat }

theorem returns_readEntry_eq (len fuel : Nat) (Q : Nat → Entry ι → Prop) :
    Returns (readEntry inflate info len fuel) e Q ↔
      Returns (readLoop inflate info fuel) (e.called len) fun ok e' => Q (if ok then e'.iRead else 0) e' := by
  unfold readEntry
  simp only [returns_bind, returns_modify]
  constructor <;> intro h <;> refine h.mono fun ok e' hq => ?_ <;> cases ok <;> simpa using hq

/-- What a call leaves that has delivered `n` bytes. -/
structure Read (info : EntryInfo) (e : Entry ι) (n : Nat) (e' : Entry ι) : Prop where
  out : e'.nextOut = (e.pending info).take n
  pending : e'.pending info = (e.pending info).drop n
  crc : e'.RunningCrc = ucrc32 e.RunningCrc ((e.pending info).take n)
  remaining : e'.RemainingUncompressed.toNat = e.RemainingUncompressed.toNat - n
  err : e'.LastErr = e.LastErr
  header : e'.RemainingEncrypt = 0
  backed : e'.Backed

/-- A call delivers what it asks for, as far as the reader counts bytes. -/
theorem returns_readEntry (inflate : Inflate ι) (hmethod : info.compression_method = 0) (hback : e.Backed) (henc : e.RemainingEncrypt = 0)
    (len fuel : Nat) (hthere : min len e.RemainingUncompressed.toNat ≤ (e.pending info).length)
    (hfuel : min len e.RemainingUncompressed.toNat < fuel) :
    Returns (readEntry inflate info len fuel) e fun n e' => n = min len e.RemainingUncompressed.toNat ∧ Read info e n e' := by
  rw [returns_readEntry_eq]
  have hloop := returns_readLoop inflate (e := e.called len) hmethod ⟨hback.archive, hback.buffer, hback.crc⟩ henc hthere
    (Nat.min_le_right _ _) hfuel
  refine hloop.mono ?_
  rintro ok e' ⟨hok, hdel⟩
  have hread := hdel.read
  rw [hok, if_pos rfl, hread, show (e.called len).iRead = 0 from rfl, Nat.zero_add]
  exact ⟨rfl, hdel.out, hdel.pending, hdel.crc, hdel.toNat_remaining (Nat.min_le_right _ _), hdel.err, hdel.header.trans henc, hdel.backed⟩

/-- A call that can expect nothing comes back at once, with nothing. -/
theorem returns_readEntry_nothing (inflate : Inflate ι) (info : EntryInfo) (len fuel : Nat) (h : e.RemainingUncompressed = 0) :
    Returns (readEntry inflate info len (fuel + 1)) e fun n e' => n = 0 ∧ e' = e.called len := by
  have havail : (e.called len).availOut = 0 := by
    unfold Entry.called
    rw [h]
    exact Nat.min_zero len
  rw [returns_readEntry_eq, readLoop, returns_bind, returns_get, havail, if_pos rfl, returns_pure]
  exact ⟨rfl, rfl⟩

theorem not_returns_readEntry (hmethod : info.compression_method = 0) (hback : e.Backed) (henc : e.RemainingEncrypt = 0) {len : Nat}
    (hthere : (e.pending info).length < min len e.RemainingUncompressed.toNat) (fuel : Nat) (Q : Nat → Entry ι → Prop) :
    ¬ Returns (readEntry inflate info len fuel) e Q := by
  rw [returns_readEntry_eq]
  exact not_returns_readLoop (e := e.called len) hmethod ⟨hback.archive, hback.buffer, hback.crc⟩ henc hthere (Nat.min_le_right _ _) fuel _

/-! ## More rounds -/

theorem readLoop_extendedBy (fuel : Nat) : ExtendedBy (readLoop inflate info fuel) (readLoop inflate info (fuel + 1)) := by
  induction fuel with
  | zero => exact fault_extendedBy _ _
  | succ fuel ih =>
    rw [readLoop, readLoop]
    refine .bind (.refl _) fun _ => .ite (.refl _) (.bind (.refl _) fun _ => .ite (.refl _) ?_)
    refine .bind (.refl _) fun _ => .ite (.refl _) (.ite ?_ ?_)
    · exact .bind (.refl _) fun _ => .bind (.refl _) fun _ => .ite (.refl _) ih
    · exact .bind (.refl _) fun _ => .ite (.refl _) (.bind (.refl _) fun _ => .ite (.refl _) ih)

theorem readEntry_extendedBy (len : Nat) {fuel fuel' : Nat} (hle : fuel ≤ fuel') :
    ExtendedBy (readEntry inflate info len fuel) (readEntry inflate info len fuel') :=
  .bind (.refl _) fun _ => .bind (extendedBy_of_le readLoop_extendedBy hle) fun _ => .refl _

/-! ## Calls one after the other -/

/-- Calls with these lengths: what each has put into its buffer. -/
def readCalls (inflate : Inflate ι) (info : EntryInfo) (fuel : Nat) : List Nat → Prog (Entry ι) (List (List UInt8))
  | [] => pure []
  | len :: lens => do
    let n ← readEntry inflate info len fuel
    let bytes := (← get).nextOut.take n
    return bytes :: (← readCalls inflate info fuel lens)

theorem readCalls_extendedBy (lens : List Nat) {fuel fuel' : Nat} (hle : fuel ≤ fuel') :
    ExtendedBy (readCalls inflate info fuel lens) (readCalls inflate info fuel' lens) := by
  induction lens with
  | nil => exact .refl _
  | cons len lens ih => exact .bind (readEntry_extendedBy len hle) fun _ => .bind (.refl _) fun _ => .bind ih fun _ => .refl _

/-- What calls deliver, one after the other, as long as there is enough of it. -/
theorem returns_readCalls (inflate : Inflate ι) (hmethod : info.compression_method = 0) (hback : e.Backed)
    (henc : e.RemainingEncrypt = 0) (lens : List Nat)
    (hthere : min lens.sum e.RemainingUncompressed.toNat ≤ (e.pending info).length) {fuel : Nat}
    (hfuel : e.RemainingUncompressed.toNat < fuel) :
    Returns (readCalls inflate info fuel lens) e fun pieces e' =>
      pieces.flatten = (e.pending info).take (min lens.sum e.RemainingUncompressed.toNat) ∧
      e'.RunningCrc = ucrc32 e.RunningCrc pieces.flatten ∧ e'.LastErr = e.LastErr := by
  induction lens generalizing e with
  | nil =>
    unfold readCalls
    rw [returns_pure, List.flatten_nil, List.sum_nil, Nat.zero_min, List.take_zero]
    have hcrc := (Delivered.refl info hback).crc
    rw [List.take_zero] at hcrc
    exact ⟨rfl, hcrc, rfl⟩
  | cons len lens ih =>
    rw [List.sum_cons] at hthere ⊢
    unfold readCalls
    have hcall := returns_readEntry inflate hmethod hback henc len fuel (by omega) (by omega)
    refine hcall.bind ?_
    rintro n e₁ ⟨hn, hread⟩
    have hlen := congrArg List.length hread.pending
    have hrem := hread.remaining
    rw [List.length_drop] at hlen
    have hrest := ih hread.backed hread.header (by omega) (by omega)
    rw [returns_bind, returns_get]
    refine hrest.bind ?_
    rintro pieces e₂ ⟨hpieces, hcrc, herr⟩
    rw [returns_pure, List.flatten_cons, hread.out, List.take_take, Nat.min_self]
    have hsplit : (e.pending info).take (min (len + lens.sum) e.RemainingUncompressed.toNat)
        = (e.pending info).take n ++ pieces.flatten := by
      rw [hpieces, hread.pending, ← List.take_add, hrem]
      congr 1
      omega
    obtain ⟨crc, hcrc₀⟩ := hback.crc
    refine ⟨hsplit.symm, ?_, herr.trans hread.err⟩
    rw [hcrc, hread.crc, hcrc₀]
    exact crcLoops_append crc _ _

theorem not_returns_readCalls (hmethod : info.compression_method = 0) (hback : e.Backed) (henc : e.RemainingEncrypt = 0) (lens : List Nat)
    (hthere : (e.pending info).length < min lens.sum e.RemainingUncompressed.toNat) (fuel : Nat)
    (Q : List (List UInt8) → Entry ι → Prop) : ¬ Returns (readCalls inflate info fuel lens) e Q := by
  induction lens generalizing e Q with
  | nil =>
    rw [List.sum_nil, Nat.zero_min] at hthere
    exact absurd hthere (Nat.not_lt_zero _)
  | cons len lens ih =>
    rw [List.sum_cons] at hthere
    unfold readCalls
    intro hret
    rw [returns_bind] at hret
    by_cases hfirst : (e.pending info).length < min len e.RemainingUncompressed.toNat
    · exact not_returns_readEntry hmethod hback henc hfirst fuel _ hret
    · -- the call comes back, and with enough rounds it is known what it leaves
      obtain ⟨n, e₁, hrun, hafter⟩ := readEntry_extendedBy len (Nat.le_add_right fuel (e.RemainingUncompressed.toNat + 1)) _ _ hret
      have hcall := returns_readEntry inflate hmethod hback henc len (fuel + (e.RemainingUncompressed.toNat + 1)) (by omega) (by omega)
      obtain ⟨hn, hread⟩ := hcall.of_eq hrun
      have hlen := congrArg List.length hread.pending
      have hrem := hread.remaining
      rw [List.length_drop] at hlen
      rw [returns_bind, returns_get, returns_bind] at hafter
      exact ih hread.backed hread.header (by omega) _ hafter

/-! ## An entry that is not encrypted -/

variable {InputBuffer rest data : List UInt8} {inflateState : ι}

/-- The entry when it has been opened. -/
theorem backed_initEntry (rest : List UInt8) (inflateState : ι) (hbuffer : UNZ_BUFSIZE ≤ InputBuffer.length)
    (hdata : data.length = info.compressed_size) :
    (initEntry info InputBuffer (data ++ rest) inflateState).Backed :=
  ⟨by simp [initEntry, ← hdata], hbuffer, 0, rfl⟩

theorem pending_initEntry_plain (InputBuffer rest : List UInt8) (inflateState : ι) (hplain : info.encrypted = false)
    (hdata : data.length = info.compressed_size) :
    (initEntry info InputBuffer (data ++ rest) inflateState).pending info = data := by
  simp [Entry.pending, Entry.waiting, initEntry, hplain, ← hdata]

/-- A stored entry with no password, in an archive that holds its data. Calls that ask for no more than there is, or for more
than the sizes promise, come back: each has put the next bytes of the entry into its buffer, and the running checksum is that
of what was delivered. Where they ask for more than there is and the sizes in the archive promise that there is more, they
never come back, however many rounds the loop may take. -/
theorem readCalls_stored_iff (inflate : Inflate ι) (info : EntryInfo) (InputBuffer data rest : List UInt8) (inflateState : ι)
    (lens : List Nat) (hmethod : info.compression_method = 0) (hplain : info.encrypted = false)
    (hbuffer : InputBuffer.length = UNZ_BUFSIZE) (hdata : data.length = info.compressed_size) :
    let e := initEntry info InputBuffer (data ++ rest) inflateState
    (min lens.sum info.uncompressed_size.toNat ≤ info.compressed_size →
      Finishes (fun fuel => readCalls inflate info fuel lens) e fun pieces e' =>
        pieces.flatten = data.take (min lens.sum info.uncompressed_size.toNat) ∧
          e'.RunningCrc = (Crc32.mgChecksumCrc32 (List.replicate 9 0) pieces.flatten).2.setWidth 64 ∧ e'.LastErr = .ok) ∧
    (info.compressed_size < min lens.sum info.uncompressed_size.toNat →
      ∀ fuel Q, ¬ Returns (readCalls inflate info fuel lens) e Q) := by
  intro e
  have hback : e.Backed := backed_initEntry rest inflateState (Nat.le_of_eq hbuffer.symm) hdata
  have hpending : e.pending info = data := pending_initEntry_plain InputBuffer rest inflateState hplain hdata
  have henc : e.RemainingEncrypt = 0 := by simp [e, initEntry, hplain]
  have hcrc : ∀ bytes, ucrc32 0 bytes = (Crc32.mgChecksumCrc32 (List.replicate 9 0) bytes).2.setWidth 64 := by
    intro bytes
    rw [Crc32.mgChecksumCrc32, Crc32.mgCrc32_whole]
    exact crcLoops_zero bytes
  constructor
  · intro hle
    refine Finishes.of_lt (n := info.uncompressed_size.toNat) fun fuel hfuel => ?_
    have hcalls := returns_readCalls inflate hmethod hback henc lens (by rw [hpending, hdata]; exact hle) hfuel
    refine hcalls.mono ?_
    rintro pieces e' ⟨hpieces, hrun, herr⟩
    rw [hpending] at hpieces
    exact ⟨hpieces, hrun.trans (hcrc _), herr⟩
  · intro hgt fuel Q
    refine not_returns_readCalls hmethod hback henc lens ?_ fuel Q
    rw [hpending, hdata]
    exact hgt

/-- Three bytes of data: two calls that ask for seven get them, but a call for five does not come back when the sizes
promise five. -/
theorem readCalls_stored_iff_three :
    Finishes (fun fuel => readCalls (fun (s : Unit) next _ => (0, next, [], s)) ⟨0, 0, 0, 0, 3, 3, none⟩ fuel [2, 5])
        (initEntry ⟨0, 0, 0, 0, 3, 3, none⟩ (List.replicate UNZ_BUFSIZE 0) ([1, 2, 3] ++ [9]) ())
        (fun pieces e => pieces.flatten = [1, 2, 3].take (min 7 3) ∧
          e.RunningCrc = (Crc32.mgChecksumCrc32 (List.replicate 9 0) pieces.flatten).2.setWidth 64 ∧ e.LastErr = .ok) ∧
      ∀ fuel Q, ¬ Returns (readCalls (fun (s : Unit) next _ => (0, next, [], s)) ⟨0, 0, 0, 0, 3, 5, none⟩ fuel [5])
        (initEntry ⟨0, 0, 0, 0, 3, 5, none⟩ (List.replicate UNZ_BUFSIZE 0) ([1, 2, 3] ++ [9]) ()) Q :=
  ⟨(readCalls_stored_iff (fun (s : Unit) next _ => (0, next, [], s)) ⟨0, 0, 0, 0, 3, 3, none⟩ (List.replicate UNZ_BUFSIZE 0)
      [1, 2, 3] [9] () [2, 5] rfl rfl List.length_replicate rfl).1 (by decide),
    (readCalls_stored_iff (fun (s : Unit) next _ => (0, next, [], s)) ⟨0, 0, 0, 0, 3, 5, none⟩ (List.replicate UNZ_BUFSIZE 0)
      [1, 2, 3] [9] () [5] rfl rfl List.length_replicate rfl).2 (by decide)⟩

/-! ## To a file -/

theorem returns_unzipLoop (hmethod : info.compression_method = 0) (hback : e.Backed) (henc : e.RemainingEncrypt = 0) (hok : e.LastErr = .ok)
    (hthere : e.RemainingUncompressed.toNat ≤ (e.pending info).length) {fuel calls : Nat} (hfuel : e.RemainingUncompressed.toNat < fuel)
    (hcalls : e.RemainingUncompressed.toNat < calls) (written : List UInt8) :
    Returns (unzipLoop inflate info fuel calls written) e fun out e' =>
      out = written ++ (e.pending info).take e.RemainingUncompressed.toNat ∧ e'.LastErr = .ok := by
  induction calls generalizing e written with
  | zero => exact absurd hcalls (Nat.not_lt_zero _)
  | succ calls ih =>
    have hcall := returns_readEntry inflate hmethod hback henc 16384 fuel (by omega) (by omega)
    unfold unzipLoop
    rw [returns_bind, returns_get, if_neg (fun hn => hn hok)]
    refine hcall.bind ?_
    rintro n e₁ ⟨hn, hread⟩
    have hlen := congrArg List.length hread.pending
    have hrem := hread.remaining
    rw [List.length_drop] at hlen
    by_cases h0 : n = 0
    · rw [if_pos h0, returns_pure]
      have hzero : e.RemainingUncompressed.toNat = 0 := by omega
      rw [hzero, List.take_zero, List.append_nil]
      exact ⟨rfl, hread.err.trans hok⟩
    · rw [if_neg h0, returns_bind, returns_get]
      have hrest := ih hread.backed hread.header (hread.err.trans hok) (by omega) (by omega) (by omega)
        (written ++ e₁.nextOut.take n)
      refine hrest.mono ?_
      rintro out e' ⟨hout, herr⟩
      refine ⟨?_, herr⟩
      rw [hout, hread.out, List.take_take, Nat.min_self, hread.pending, hrem, List.append_assoc, ← List.take_add]
      congr 2
      omega

theorem unzipLoop_extendedBy {fuel fuel' calls calls' : Nat} (hfuel : fuel ≤ fuel') (hcalls : calls ≤ calls') (written : List UInt8) :
    ExtendedBy (unzipLoop inflate info fuel calls written) (unzipLoop inflate info fuel' calls' written) := by
  induction calls generalizing calls' written with
  | zero => exact fault_extendedBy _ _
  | succ calls ih =>
    obtain ⟨calls', rfl⟩ := Nat.exists_eq_add_one_of_ne_zero (Nat.ne_zero_of_lt hcalls)
    rw [unzipLoop, unzipLoop]
    exact .bind (.refl _) fun _ => .ite (.refl _) (.bind (readEntry_extendedBy _ hfuel) fun _ => .ite (.refl _)
      (.bind (.refl _) fun _ => ih (Nat.le_of_succ_le_succ hcalls) _))

theorem not_returns_unzipLoop (hmethod : info.compression_method = 0) (hback : e.Backed) (henc : e.RemainingEncrypt = 0)
    (hok : e.LastErr = .ok) (hthere : (e.pending info).length < e.RemainingUncompressed.toNat) {fuel : Nat} (hfuel : 16384 < fuel)
    (calls : Nat) (written : List UInt8) (Q : List UInt8 → Entry ι → Prop) :
    ¬ Returns (unzipLoop inflate info fuel calls written) e Q := by
  induction calls generalizing e written with
  | zero =>
    unfold unzipLoop
    exact returns_fault _ _ _
  | succ calls ih =>
    unfold unzipLoop
    rw [returns_bind, returns_get, if_neg (fun hn => hn hok)]
    intro hret
    rw [returns_bind] at hret
    by_cases hfirst : (e.pending info).length < min 16384 e.RemainingUncompressed.toNat
    · exact not_returns_readEntry hmethod hback henc hfirst fuel _ hret
    · obtain ⟨n, e₁, hrun, hafter⟩ := hret
      have hcall := returns_readEntry inflate hmethod hback henc 16384 fuel (by omega) (by omega)
      obtain ⟨hn, hread⟩ := hcall.of_eq hrun
      have hlen := congrArg List.length hread.pending
      have hrem := hread.remaining
      rw [List.length_drop] at hlen
      rw [if_neg (by omega), returns_bind, returns_get] at hafter
      exact ih hread.backed hread.header (hread.err.trans hok) (by omega) _ hafter

end MgStd.Zip
