import MgStd.Zip.Stored
/-!
# Reading a stored entry that is encrypted

`readEntry` subtracts the twelve bytes of the encryption header from the number of
bytes that remain of the file, though the sizes in the archive do not count them
there. What comes of that when an entry is copied to a file, with the right
password and an archive that the writer has made.
-/

namespace MgStd.Zip

open MgStd.Lib MgStd.Lib.Transducer

variable {ι : Type} {inflate : Inflate ι} {info : EntryInfo} {e : Entry ι}

/-- The entry behind its encryption header. -/
def Entry.unheaded (e : Entry ι) : Entry ι :=
  { e with
    RemainingUncompressed := e.RemainingUncompressed - 12
    nextIn := e.nextIn.drop 12
    RemainingEncrypt := 0 }

/-- The whole header is in the buffer, and its last byte is the one that the reader expects. -/
theorem returns_readEncryptionHeader_twelve (h : e.RemainingEncrypt = 12) (hnext : 12 ≤ e.nextIn.length)
    (hcheck : e.nextIn.getD 11 0 = e.CrcEncTest) (Q : Bool → Entry ι → Prop) :
    Returns readEncryptionHeader e Q ↔ Q true e.unheaded := by
  unfold readEncryptionHeader
  simp only [returns_bind, returns_get, h, Nat.min_eq_left hnext, returns_ite, returns_set, returns_pure, Nat.reduceSub, hcheck,
    Nat.sub_self, ne_eq, not_true_eq_false, and_false, false_imp_iff, true_and, not_false_eq_true, true_imp_iff, Nat.reduceEqDiff]
  simp [Entry.unheaded]

/-- The first round, with the header, is a round without it. -/
theorem returns_readLoop_header (hmethod : info.compression_method = 0) (hback : e.Backed) (henc : e.RemainingEncrypt = 12)
    (hnext : 12 < (e.filled info).nextIn.length) (hcheck : (e.filled info).nextIn.getD 11 0 = e.CrcEncTest) (h0 : e.availOut ≠ 0)
    (fuel : Nat) (Q : Bool → Entry ι → Prop) :
    Returns (readLoop inflate info (fuel + 1)) e Q ↔ Returns (readLoop inflate info (fuel + 1)) (e.filled info).unheaded Q := by
  have hfull : (e.filled info).unheaded.nextIn ≠ [] := by
    intro hnil
    have hlen := congrArg List.length hnil
    rw [Entry.unheaded, List.length_drop, List.length_nil] at hlen
    omega
  have hback' : (e.filled info).unheaded.Backed := ⟨hback.filled.archive, hback.filled.buffer, hback.filled.crc⟩
  have havail : (e.filled info).unheaded.availOut ≠ 0 := by
    rw [Entry.unheaded, filled_availOut]
    exact h0
  have hheader : (e.filled info).RemainingEncrypt = 12 := by rw [filled_RemainingEncrypt, henc]
  have hlast : (e.filled info).nextIn.getD 11 0 = (e.filled info).CrcEncTest := by rw [hcheck, filled_CrcEncTest]
  rw [returns_readLoop_succ hmethod hback' rfl, filled_of_ne_nil hfull, if_neg havail, readLoop]
  simp only [returns_bind, returns_get, returns_ite, returns_pure, h0, false_imp_iff, true_and, not_false_eq_true,
    true_imp_iff, returns_fillInput hback, hmethod, if_true, copyStored, returns_modify, not_true_eq_false,
    returns_readEncryptionHeader_twelve hheader (Nat.le_of_lt hnext) hlast, ← Entry.copied.eq_def]
  exact ite_prop_iff_and.symm

/-! ## The first call -/

/-- How far the first call comes: to its end, unless the bytes that remain are counted to 0 before. -/
def firstCall (n : Nat) : Nat := if n = 16384 then 16372 else min 16384 n

/-- Behind the header of an entry of `n` bytes. -/
structure Behind (info : EntryInfo) (n : Nat) (e : Entry ι) : Prop where
  backed : e.Backed
  header : e.RemainingEncrypt = 0
  avail : e.availOut = min 16384 n
  remaining : e.RemainingUncompressed = BitVec.ofNat 64 n - 12
  pending : (e.pending info).length = n
  next : e.nextIn.length = min 16372 n
  compressed : n ≤ e.RemainingCompressed + 16372

theorem Behind.toNat_remaining {n k : Nat} {e' : Entry ι} (h : Behind info n e) (hn : n < 2 ^ 64) (hk : k < 2 ^ 63)
    (hdel : Delivered info e k e') :
    e'.RemainingUncompressed.toNat = if 12 + k ≤ n then n - (12 + k) else 2 ^ 64 + n - (12 + k) := by
  rw [hdel.remaining, h.remaining, BitVec.toNat_sub, BitVec.toNat_sub, BitVec.toNat_ofNat, BitVec.toNat_ofNat,
    show BitVec.toNat (12 : ULG) = 12 from rfl]
  split <;> omega

/-- The loop of the first call. -/
theorem returns_readLoop_first (inflate : Inflate ι) {n fuel : Nat} (hmethod : info.compression_method = 0) (h : Behind info n e)
    (hpos : 0 < n)
    (hn : n < 2 ^ 64) (hfuel : 16386 < fuel) :
    Returns (readLoop inflate info fuel) e fun ok e' => ok = true ∧ Delivered info e (firstCall n) e' := by
  have hrem := h.toNat_remaining hn (Nat.two_pow_pos 63) (Delivered.refl info h.backed)
  have havail := h.avail
  have hlen := h.pending
  have hnext := h.next
  unfold firstCall
  by_cases hcount : e.availOut ≤ e.RemainingUncompressed.toNat
  · have hne : n ≠ 16384 := by
      rintro rfl
      simp only [Nat.reduceAdd, Nat.reduceLeDiff, if_true] at hrem
      omega
    rw [if_neg hne, ← havail]
    exact returns_readLoop inflate hmethod h.backed h.header (by omega) hcount (by omega)
  have hcase : 12 ≤ n ∧ n < 16396 := by
    split at hrem <;> omega
  -- The first round delivers what was read with the header.
  obtain ⟨fuel, rfl⟩ : ∃ f, fuel = f + 1 := ⟨fuel - 1, by omega⟩
  rw [returns_readLoop_succ hmethod h.backed h.header, if_neg (by omega)]
  have hfull : e.nextIn ≠ [] := List.ne_nil_of_length_pos (by omega)
  have hround := delivered_round info h.backed
  rw [filled_of_ne_nil hfull] at hround ⊢
  have hk : min e.availOut e.nextIn.length = min 16372 n := by omega
  rw [hk] at hround
  have hrem₁ := h.toNat_remaining hn (by omega) hround
  have havail₁ := hround.avail
  have hlen₁ := congrArg List.length hround.pending
  rw [List.length_drop] at hlen₁
  by_cases hzero : n = 16384
  · -- The bytes that remain are counted to 0.
    subst hzero
    have hstop : e.copied.RemainingUncompressed = 0 := BitVec.eq_of_toNat_eq (hrem₁.trans rfl)
    rw [if_pos hstop, if_pos rfl]
    exact ⟨rfl, hround⟩
  have hgo : e.copied.RemainingUncompressed ≠ 0 := by
    intro hstop
    rw [hstop, show BitVec.toNat (0 : ULG) = 0 from rfl] at hrem₁
    split at hrem₁ <;> omega
  rw [if_neg hgo, if_neg hzero]
  by_cases hmore : 16384 < n
  · -- A second round delivers the other twelve bytes.
    obtain ⟨fuel, rfl⟩ : ∃ f, fuel = f + 1 := ⟨fuel - 1, by omega⟩
    have hnil : e.copied.nextIn = [] := by
      apply List.eq_nil_of_length_eq_zero
      rw [Entry.copied, List.length_drop]
      omega
    have hnext₁ := length_filled_nextIn info hround.backed hnil
    have hwaits : n ≤ e.copied.RemainingCompressed + 16372 := h.compressed
    have hbuf : 16384 ≤ UNZ_BUFSIZE := Nat.le_refl _
    have hround₁ := delivered_round info hround.backed
    rw [returns_readLoop_succ hmethod hround.backed (hround.header.trans h.header), if_neg (by omega)]
    have hk₁ : min e.copied.availOut (e.copied.filled info).nextIn.length = 12 := by omega
    rw [hk₁] at hround₁
    have hboth := hround.trans h.backed hround₁
    rw [show min 16372 n + 12 = 16384 by omega] at hboth
    have hrem₂ := h.toNat_remaining hn (by omega) hboth
    have havail₂ := hboth.avail
    rw [if_neg]
    · have hrest := returns_readLoop inflate hmethod hboth.backed (hboth.header.trans h.header) (by omega) (by omega)
        (show _ < fuel by omega)
      refine hrest.mono ?_
      rintro ok e' ⟨hok, hdel⟩
      refine ⟨hok, ?_⟩
      have hall := hboth.trans h.backed hdel
      rwa [show 16384 + (e.copied.filled info).copied.availOut = min 16384 n by omega] at hall
    · intro hstop
      rw [hstop, show BitVec.toNat (0 : ULG) = 0 from rfl] at hrem₂
      split at hrem₂ <;> omega
  · have hrest := returns_readLoop inflate hmethod hround.backed (hround.header.trans h.header) (by omega)
      (by split at hrem₁ <;> omega) (show _ < fuel by omega)
    refine hrest.mono ?_
    rintro ok e' ⟨hok, hdel⟩
    refine ⟨hok, ?_⟩
    have hall := hround.trans h.backed hdel
    rwa [show min 16372 n + e.copied.availOut = min 16384 n by omega] at hall

/-- A call that finds the header of an entry in front of it is behind it when it has filled its buffer. -/
theorem behind_of_header {header plain : List UInt8} (hback : e.Backed) (hnil : e.nextIn = []) (hpending : e.pending info = header ++ plain)
    (hheader : header.length = 12) (havail : e.availOut = min 16384 plain.length)
    (hremaining : e.RemainingUncompressed = BitVec.ofNat 64 plain.length) (hcompressed : e.RemainingCompressed = plain.length + 12) :
    (e.filled info).nextIn.length = min 16384 (plain.length + 12) ∧ (e.filled info).nextIn.getD 11 0 = header.getD 11 0 ∧
    Behind info plain.length (e.filled info).unheaded ∧ (e.filled info).unheaded.pending info = plain := by
  have hnext : (e.filled info).nextIn.length = min 16384 (plain.length + 12) := by
    rw [length_filled_nextIn info hback hnil, hcompressed]
    rfl
  have hfilled : (e.filled info).nextIn ++ (e.filled info).waiting info = header ++ plain := by
    rw [← hpending, ← filled_pending (e := e)]
    rfl
  have h12 : 12 ≤ (e.filled info).nextIn.length := by omega
  have hdrop : (e.filled info).unheaded.pending info = plain := by
    have hcut := congrArg (List.drop 12) hfilled
    rwa [List.drop_append_of_le_length h12, List.drop_left' hheader] at hcut
  refine ⟨hnext, ?_, ⟨⟨hback.filled.archive, hback.filled.buffer, hback.filled.crc⟩, rfl, ?_, ?_, ?_, ?_, ?_⟩, hdrop⟩
  · have hget := congrArg (fun l : List UInt8 => l[11]?) hfilled
    simp only [List.getElem?_append_left (show 11 < (e.filled info).nextIn.length by omega),
      List.getElem?_append_left (show 11 < header.length by omega)] at hget
    rw [List.getD_eq_getElem?_getD, List.getD_eq_getElem?_getD, hget]
  · rw [Entry.unheaded, filled_availOut, havail]
  · rw [Entry.unheaded, filled_RemainingUncompressed, hremaining]
  · rw [hdrop]
  · rw [Entry.unheaded, List.length_drop, hnext]
    omega
  · have hwait : ((e.filled info).waiting info).length = (e.filled info).RemainingCompressed := length_waiting info hback.filled
    have hlen := congrArg List.length hfilled
    rw [List.length_append, List.length_append, hheader, hwait, hnext] at hlen
    rw [show (e.filled info).unheaded.RemainingCompressed = (e.filled info).RemainingCompressed from rfl]
    omega

/-! ## The whole entry -/

variable {password rand plain rest InputBuffer : List UInt8} {tim : ULG} {pieces : List (List UInt8)} {inflateState : ι}

/-- What the archive says of an entry that `addSrc` has written with a password: `flg` is 9. -/
structure Written (info : EntryInfo) (password : List UInt8) (tim : ULG) (plain : List UInt8) : Prop where
  flag : info.flag = 9
  method : info.compression_method = 0
  time : info.dosDate = tim
  password : info.Password = some password
  compressed : info.compressed_size = plain.length + 12
  uncompressed : info.uncompressed_size.toNat = plain.length

theorem Written.encrypted (h : Written info password tim plain) : info.encrypted = true := by
  rw [EntryInfo.encrypted, h.flag]
  rfl

theorem length_encryptionHeader (hrand : rand.length = 12) : (encryptionHeader rand tim).length = 12 := by
  rw [encryptionHeader, List.length_append, List.length_take, hrand]
  rfl

/-- The data of the entry in the archive. -/
theorem length_encryptedEntry (hrand : rand.length = 12) (hpieces : pieces.flatten = plain) :
    (encryptedEntry password rand tim pieces).flatten.length = plain.length + 12 := by
  obtain ⟨hwrite, -⟩ := run_pieces (f := zencode) (passwordKeys password) (encryptionHeader rand tim :: pieces)
  rw [encryptedEntry, hwrite, length_run, List.flatten_cons, List.length_append, length_encryptionHeader hrand, hpieces, Nat.add_comm]

/-- When the first call begins. -/
theorem pending_initEntry_encrypted (h : Written info password tim plain) (hrand : rand.length = 12) (hpieces : pieces.flatten = plain) :
    (initEntry info InputBuffer ((encryptedEntry password rand tim pieces).flatten ++ rest) inflateState).pending info
      = encryptionHeader rand tim ++ plain := by
  have hlen : (encryptedEntry password rand tim pieces).flatten.length = plain.length + 12 := length_encryptedEntry hrand hpieces
  simp only [Entry.pending, Entry.waiting, initEntry, h.encrypted, if_true, List.nil_append, h.password, Option.getD_some, h.compressed]
  rw [← hlen, List.take_left, run_decryptInput_encryptedEntry, hpieces]

/-- The first call for the entry. Behind it the reader expects twelve bytes less than there are. -/
theorem returns_readEntry_encrypted (inflate : Inflate ι) (InputBuffer rest : List UInt8) (inflateState : ι)
    (h : Written info password tim plain) (hrand : rand.length = 12) (hpieces : pieces.flatten = plain)
    (hbuffer : InputBuffer.length = UNZ_BUFSIZE) (hplain : plain ≠ []) {fuel : Nat} (hfuel : 16386 < fuel) :
    Returns (readEntry inflate info 16384 fuel)
      (initEntry info InputBuffer ((encryptedEntry password rand tim pieces).flatten ++ rest) inflateState)
      fun n e' => n = firstCall plain.length ∧ e'.nextOut = plain.take n ∧ e'.pending info = plain.drop n ∧
        e'.RemainingUncompressed.toNat = (if 12 + n ≤ plain.length then plain.length - (12 + n) else 2 ^ 64 + plain.length - (12 + n)) ∧
        e'.LastErr = .ok ∧ e'.RemainingEncrypt = 0 ∧ e'.Backed := by
  have hn : plain.length < 2 ^ 64 := h.uncompressed ▸ info.uncompressed_size.isLt
  have hpos : 0 < plain.length := List.length_pos_of_ne_nil hplain
  have hdata : (encryptedEntry password rand tim pieces).flatten.length = plain.length + 12 := length_encryptedEntry hrand hpieces
  have hback₀ := backed_initEntry rest inflateState (Nat.le_of_eq hbuffer.symm) (hdata.trans h.compressed.symm)
  have hpending₀ : (initEntry info InputBuffer ((encryptedEntry password rand tim pieces).flatten ++ rest) inflateState).pending info
      = encryptionHeader rand tim ++ plain := pending_initEntry_encrypted h hrand hpieces
  generalize he : initEntry info InputBuffer ((encryptedEntry password rand tim pieces).flatten ++ rest) inflateState = e
    at hback₀ hpending₀ ⊢
  have hback : (e.called 16384).Backed := ⟨hback₀.archive, hback₀.buffer, hback₀.crc⟩
  have hnil : (e.called 16384).nextIn = [] := by rw [← he]; rfl
  have henc : (e.called 16384).RemainingEncrypt = 12 := by
    subst he
    exact if_pos h.encrypted
  have havail : (e.called 16384).availOut = min 16384 plain.length := by
    subst he
    exact congrArg (min 16384) h.uncompressed
  have hremaining : (e.called 16384).RemainingUncompressed = BitVec.ofNat 64 plain.length := by
    subst he
    rw [← h.uncompressed, BitVec.ofNat_toNat, BitVec.setWidth_eq]
    rfl
  have hcompressed : (e.called 16384).RemainingCompressed = plain.length + 12 := by
    subst he
    exact h.compressed
  have herr : (e.called 16384).LastErr = .ok := by rw [← he]; rfl
  have hcheck : (encryptionHeader rand tim).getD 11 0 = (e.called 16384).CrcEncTest := by
    subst he
    have hflag : info.flag.getLsbD 3 = true := by rw [h.flag]; rfl
    have htest : (if info.flag.getLsbD 3 then (⟨((info.dosDate >>> 8) &&& 0xff).setWidth 8⟩ : UInt8) else ⟨(info.crc >>> 24).setWidth 8⟩)
        = ⟨((tim >>> 8) &&& 0xff).setWidth 8⟩ := by rw [if_pos hflag, h.time]
    have htake : (rand.take 11).length = 11 := by rw [List.length_take, hrand]; rfl
    rw [encryptionHeader, List.getD_eq_getElem?_getD, List.getElem?_append_right (Nat.le_of_eq htake), htake]
    exact htest.symm
  obtain ⟨hnext, hlast, hbehind, hpending⟩ :=
    behind_of_header hback hnil hpending₀ (length_encryptionHeader hrand) havail hremaining hcompressed
  obtain ⟨fuel, rfl⟩ : ∃ f, fuel = f + 1 := ⟨fuel - 1, by omega⟩
  rw [returns_readEntry_eq, returns_readLoop_header h.method hback henc (by omega) (hlast.trans hcheck) (by omega)]
  refine (returns_readLoop_first inflate h.method hbehind hpos hn hfuel).mono ?_
  rintro ok e' ⟨rfl, hdel⟩
  have hfirst : firstCall plain.length < 2 ^ 63 := by
    unfold firstCall
    split <;> omega
  have hread := hdel.read
  rw [Entry.unheaded, filled_iRead, show (e.called 16384).iRead = 0 from rfl, Nat.zero_add] at hread
  rw [if_pos rfl, hread]
  refine ⟨rfl, ?_, ?_, hbehind.toNat_remaining hn hfirst hdel, ?_, hdel.header.trans hbehind.header, hdel.backed⟩
  · have hout := hdel.out
    rwa [hpending, Entry.unheaded, filled_nextOut, show (e.called 16384).nextOut = [] from rfl, List.nil_append] at hout
  · rw [hdel.pending, hpending]
  · rw [hdel.err, Entry.unheaded, filled_LastErr, herr]

/-- The copy of an entry with no bytes ends at once: the encryption header is not even read. -/
theorem finishes_unzipLoop_empty {e : Entry ι} (inflate : Inflate ι) (hok : e.LastErr = .ok) (h : e.RemainingUncompressed = 0) :
    Finishes (fun fuel => unzipLoop inflate info fuel fuel []) e fun out e' => out = [] ∧ e'.LastErr = .ok := by
  refine Finishes.of_lt (n := 0) fun fuel hfuel => ?_
  obtain ⟨calls, rfl⟩ : ∃ f, fuel = f + 1 := ⟨fuel - 1, by omega⟩
  unfold unzipLoop
  rw [returns_bind, returns_get, if_neg (fun hn => hn hok)]
  refine (returns_readEntry_nothing inflate info 16384 calls h).bind ?_
  rintro n e' ⟨rfl, rfl⟩
  rw [if_pos rfl, returns_pure]
  exact ⟨rfl, hok⟩

/-- An entry that was written with a password and is copied to a file, with this password: the copy comes to an end only
when the entry has no bytes, or 16384, or 16396 and more, and then its last twelve bytes are missing in the file. Otherwise
it never comes back, however many rounds and calls it may have. -/
theorem unzipLoop_encrypted (inflate : Inflate ι) (info : EntryInfo) (InputBuffer password rand plain rest : List UInt8) (tim : ULG)
    (pieces : List (List UInt8)) (inflateState : ι) (h : Written info password tim plain) (hrand : rand.length = 12)
    (hpieces : pieces.flatten = plain) (hbuffer : InputBuffer.length = UNZ_BUFSIZE) :
    let e := initEntry info InputBuffer ((encryptedEntry password rand tim pieces).flatten ++ rest) inflateState
    (plain = [] ∨ plain.length = 16384 ∨ 16396 ≤ plain.length →
      Finishes (fun fuel => unzipLoop inflate info fuel fuel []) e fun out e' => out = plain.take (plain.length - 12) ∧ e'.LastErr = .ok) ∧
    (¬(plain = [] ∨ plain.length = 16384 ∨ 16396 ≤ plain.length) →
      ∀ fuel Q, ¬ Returns (unzipLoop inflate info fuel fuel []) e Q) := by
  intro e
  have hok : e.LastErr = .ok := rfl
  constructor
  · rintro (rfl | hcase)
    · have hnone : info.uncompressed_size = 0 := BitVec.eq_of_toNat_eq h.uncompressed
      exact finishes_unzipLoop_empty inflate hok hnone
    have hplain : plain ≠ [] := by
      intro hnil
      rw [hnil, List.length_nil] at hcase
      omega
    refine Finishes.of_lt (n := 2 ^ 64) fun fuel hfuel => ?_
    have hcall := returns_readEntry_encrypted inflate InputBuffer rest inflateState h hrand hpieces hbuffer hplain
      (show 16386 < fuel by omega)
    obtain ⟨calls, rfl⟩ : ∃ f, fuel = f + 1 := ⟨fuel - 1, by omega⟩
    unfold unzipLoop
    rw [returns_bind, returns_get, if_neg (fun hn => hn hok)]
    refine hcall.bind ?_
    rintro n e₁ ⟨hn, hout, hpending, hrem, herr, henc, hback⟩
    have hlen := congrArg List.length hpending
    rw [List.length_drop] at hlen
    unfold firstCall at hn
    rw [if_pos (by split at hn <;> omega)] at hrem
    rw [if_neg (by split at hn <;> omega), returns_bind, returns_get]
    have hthere : e₁.RemainingUncompressed.toNat ≤ (e₁.pending info).length := by omega
    have hcalls : e₁.RemainingUncompressed.toNat < calls := by omega
    refine (returns_unzipLoop h.method hback henc herr hthere (Nat.lt_succ_of_lt hcalls) hcalls _).mono ?_
    rintro out e' ⟨hcopy, herr'⟩
    refine ⟨?_, herr'⟩
    rw [hcopy, hpending, hrem, hout, List.take_take, Nat.min_self, List.nil_append, ← List.take_add]
    congr 1
    split at hn <;> omega
  · intro hcase m Q hm
    have hplain : plain ≠ [] := fun hnil => hcase (.inl hnil)
    have hpos : 0 < plain.length := List.length_pos_of_ne_nil hplain
    have hret := unzipLoop_extendedBy (Nat.le_max_left m 16387) (Nat.le_max_left m 16387) [] e Q hm
    have hcall := returns_readEntry_encrypted inflate InputBuffer rest inflateState h hrand hpieces hbuffer hplain
      (show 16386 < max m 16387 by omega)
    obtain ⟨calls, hcalls⟩ : ∃ f, max m 16387 = f + 1 := ⟨max m 16387 - 1, by omega⟩
    rw [hcalls] at hret hcall
    unfold unzipLoop at hret
    rw [returns_bind, returns_get, if_neg (fun hn => hn hok), returns_bind] at hret
    obtain ⟨n, e₁, hrun, hafter⟩ := hret
    obtain ⟨hn, -, hpending, hrem, herr, henc, hback⟩ := hcall.of_eq hrun
    have hlen := congrArg List.length hpending
    rw [List.length_drop] at hlen
    unfold firstCall at hn
    rw [if_neg (by omega)] at hn
    rw [if_neg (by omega)] at hrem
    rw [if_neg (by omega), returns_bind, returns_get] at hafter
    exact not_returns_unzipLoop h.method hback henc herr (by omega) (by omega) calls _ _ hafter

/-- An entry of 16384 bytes: the file has 16372. -/
theorem unzipLoop_encrypted_buffer :
    Finishes (fun fuel => unzipLoop (fun (s : Unit) next _ => (0, next, [], s)) ⟨9, 0, 0x5a00, 0, 16396, 16384, some [0x6b]⟩ fuel fuel [])
      (initEntry ⟨9, 0, 0x5a00, 0, 16396, 16384, some [0x6b]⟩ (List.replicate UNZ_BUFSIZE 0)
        ((encryptedEntry [0x6b] (List.replicate 12 7) 0x5a00 [List.replicate 16384 1]).flatten ++ []) ())
      (fun out e' => out = (List.replicate 16384 1).take ((List.replicate 16384 (1 : UInt8)).length - 12) ∧ e'.LastErr = .ok) :=
  (unzipLoop_encrypted (fun (s : Unit) next _ => (0, next, [], s)) ⟨9, 0, 0x5a00, 0, 16396, 16384, some [0x6b]⟩
    (List.replicate UNZ_BUFSIZE 0) [0x6b] (List.replicate 12 7) (List.replicate 16384 1) [] 0x5a00 [List.replicate 16384 1] ()
    ⟨rfl, rfl, rfl, rfl, by rw [List.length_replicate], by rw [List.length_replicate]; rfl⟩ List.length_replicate
    List.flatten_singleton List.length_replicate).1 (.inr (.inl List.length_replicate))

end MgStd.Zip
