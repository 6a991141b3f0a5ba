import MgStd.Icmp.Checksum
import Mathlib.Tactic.IntervalCases
/-!
# Requests and replies

What goes through a field of 16 bits comes back as the number it was below 65536
only, and `ping_recv` does not look at the type of a packet.
-/

namespace MgStd.Icmp

open MgStd.Lib List

variable {getpid num seq : Int} {tval fin : Timeval} {request header message front rest : List UInt8} {hl i n : Nat} {diff : Option UInt64}

def ICMP_PROTO : UInt8 := 1

/-- The header of an IPv4 datagram, of `hl` words. -/
structure IpHeader (hl : Nat) (header : List UInt8) : Prop where
  min : 5 ≤ hl
  max : hl ≤ 15
  length : header.length = 4 * hl
  version : header.headD 0 = UInt8.ofNat (0x40 + hl)
  protocol : header.getD 9 0 = ICMP_PROTO

def icmpType (message : List UInt8) : UInt8 := message.headD 0

def icmpCode (message : List UInt8) : UInt8 := message.getD 1 0

def icmpId (message : List UInt8) : Nat := leNat ((message.drop 4).take 2)

def icmpSeq (message : List UInt8) : Nat := leNat ((message.drop 6).take 2)

def icmpData (message : List UInt8) : List UInt8 := message.drop 8

/-- A reply that carries back what the request had. -/
structure EchoReply (request message : List UInt8) : Prop where
  type : icmpType message = ICMP_ECHOREPLY
  code : icmpCode message = 0
  cksum : checksum message = 0
  id : icmpId message = icmpId request
  seq : icmpSeq message = icmpSeq request
  data : icmpData message = icmpData request

/-! ## What ping_send builds -/

theorem pingSend_eq (getpid num : Int) (tval : Timeval) : pingSend getpid tval num = some (packet ICMP_ECHO getpid num tval) := by
  have hbuf : 64 ≤ (replicate BUF_SIZE (0 : UInt8)).length := by
    rw [length_replicate]
    decide
  unfold pingSend
  rw [icmpPack_eq getpid num tval hbuf]
  exact congrArg some (take_left' (length_packet ICMP_ECHO getpid num tval))

theorem leNat_uint16 (n : Int) : leNat (leBytes 2 (uint16 n)) = uint16 n := by
  have hlt : uint16 n < 256 ^ 2 := by
    unfold uint16
    omega
  rw [leNat_leBytes, Nat.mod_eq_of_lt hlt]

/-- The fields of a message with this body, whatever its type, code and checksum are. -/
theorem fields_body (getpid num : Int) (tval : Timeval) (hfront : front.length = 4) :
    icmpId (front ++ body getpid num tval) = uint16 getpid ∧ icmpSeq (front ++ body getpid num tval) = uint16 num ∧
    icmpData (front ++ body getpid num tval) = tval.bytes ++ replicate 40 0 := by
  have hid : (front ++ body getpid num tval).drop 4 = body getpid num tval := drop_left' hfront
  have hseq : (front ++ body getpid num tval).drop (4 + 2) = leBytes 2 (uint16 num) ++ (tval.bytes ++ replicate 40 0) := by
    rw [← drop_drop, hid]
    exact drop_left' length_leBytes
  have hdata : (front ++ body getpid num tval).drop (4 + 2 + 2) = tval.bytes ++ replicate 40 0 := by
    rw [← drop_drop, hseq]
    exact drop_left' length_leBytes
  refine ⟨?_, ?_, hdata⟩
  · rw [icmpId, hid, body, take_left' length_leBytes, leNat_uint16]
  · rw [icmpSeq, hseq, take_left' length_leBytes, leNat_uint16]

theorem fields_packet (type : UInt8) (getpid num : Int) (tval : Timeval) :
    icmpId (packet type getpid num tval) = uint16 getpid ∧ icmpSeq (packet type getpid num tval) = uint16 num ∧
    icmpData (packet type getpid num tval) = tval.bytes ++ replicate 40 0 := by
  have hfront : ([type, 0] ++ leBytes 2 (checksum ([type, 0] ++ 0 :: 0 :: body getpid num tval)).toNat).length = 4 := by
    rw [length_append, length_leBytes]
    rfl
  rw [packet, ← append_assoc]
  exact fields_body getpid num tval hfront

/-! ## What ping_recv reads -/

/-- The field of the header that says where the message starts. -/
theorem IpHeader.hl_eq (h : IpHeader hl header) : (header.headD 0 &&& 0x0F).toNat = hl := by
  have hmin := h.min
  have hmax := h.max
  rw [h.version]
  interval_cases hl <;> rfl

/-- The first 8 bytes of a message are in the buffer behind the IP header. -/
theorem take_drop_buf (hmsg : 8 ≤ message.length) (hroom : header.length + 8 ≤ BUF_SIZE) (hin : i + n ≤ 8) :
    ((((header ++ message).take BUF_SIZE ++ rest).drop header.length).drop i).take n = (message.drop i).take n := by
  have hbuf : ((header ++ message).take BUF_SIZE ++ rest).drop header.length = message.take (BUF_SIZE - header.length) ++ rest := by
    rw [take_append, take_of_length_le (by omega), append_assoc, drop_left]
  have hlen : i + n ≤ (message.take (BUF_SIZE - header.length)).length := by
    rw [length_take]
    omega
  rw [hbuf, drop_append_of_le_length (by omega), take_append_of_le_length (by rw [length_drop]; omega), drop_take, take_take,
    Nat.min_eq_left (by omega)]

theorem icmpId_lt (hmsg : 8 ≤ message.length) : icmpId message < 65536 := by
  have hlen : ((message.drop 4).take 2).length = 2 := by
    rw [length_take, length_drop]
    omega
  have hlt := leNat_lt ((message.drop 4).take 2)
  rw [hlen] at hlt
  exact hlt

/-- The identifier decides, and nothing else. -/
theorem pingRecv_eq (fin : Timeval) (seq : Int) (diff : Option UInt64) (h : IpHeader hl header) (hmsg : 8 ≤ message.length) :
    ∃ diff', pingRecv getpid (some (header ++ message)) fin (some seq) diff =
      if (icmpId message : Int) ≠ getpid then (-1, some seq, diff) else (0, some (icmpSeq message : Int), diff') := by
  have hlen := h.length
  have hmin := h.min
  have hmax := h.max
  have hroom : header.length + 8 ≤ BUF_SIZE := by
    unfold BUF_SIZE
    omega
  have hhead : ∀ rest : List UInt8, ((header ++ message).take BUF_SIZE ++ rest).headD 0 = header.headD 0 := by
    intro rest
    cases hcons : header with
    | nil =>
      rw [hcons, length_nil] at hlen
      omega
    | cons first tail => rfl
  have hread : ∀ {i n : Nat} (rest : List UInt8), i + n ≤ 8 →
      ((((header ++ message).take BUF_SIZE ++ rest).drop (hl * 4)).drop i).take n = (message.drop i).take n := by
    intro i n rest hin
    rw [Nat.mul_comm, ← hlen]
    exact take_drop_buf hmsg hroom hin
  unfold pingRecv icmpId icmpSeq
  dsimp only
  rw [hhead, h.hl_eq, hread _ (by decide), hread _ (by decide)]
  split
  · exact ⟨diff, rfl⟩
  · exact ⟨_, rfl⟩

theorem pingRecv_own (fin : Timeval) (seq : Int) (diff : Option UInt64) (h : IpHeader hl header) (hmsg : 8 ≤ message.length)
    (hid : (icmpId message : Int) = getpid) :
    (pingRecv getpid (some (header ++ message)) fin (some seq) diff).1 = 0 ∧
    (pingRecv getpid (some (header ++ message)) fin (some seq) diff).2.1 = some (icmpSeq message : Int) := by
  obtain ⟨diff', hrecv⟩ := pingRecv_eq fin seq diff h hmsg
  rw [hrecv, if_neg (not_not.2 hid)]
  exact ⟨rfl, rfl⟩

theorem pingRecv_foreign (fin : Timeval) (seq : Int) (diff : Option UInt64) (h : IpHeader hl header) (hmsg : 8 ≤ message.length)
    (hid : (icmpId message : Int) ≠ getpid) : (pingRecv getpid (some (header ++ message)) fin (some seq) diff).1 = -1 := by
  obtain ⟨diff', hrecv⟩ := pingRecv_eq fin seq diff h hmsg
  rw [hrecv, if_pos hid]

theorem pingRecv_ret_iff (fin : Timeval) (seq : Int) (diff : Option UInt64) (h : IpHeader hl header) (hmsg : 8 ≤ message.length) :
    (pingRecv getpid (some (header ++ message)) fin (some seq) diff).1 = -1 ↔ (icmpId message : Int) ≠ getpid := by
  constructor
  · intro hret hid
    rw [(pingRecv_own fin seq diff h hmsg hid).1] at hret
    cases hret
  · exact pingRecv_foreign fin seq diff h hmsg

theorem uint16_eq_iff {n : Int} (hn : 0 ≤ n) : (uint16 n : Int) = n ↔ n < 65536 := by
  unfold uint16
  omega

/-- A reply is taken for what it is if and only if both numbers fit in their fields. -/
theorem pingRecv_reply_iff (hpid : 0 < getpid) (hnum : 0 ≤ num) (hip : IpHeader hl header) (hmsg : 8 ≤ message.length)
    (hreply : EchoReply (packet ICMP_ECHO getpid num tval) message) (fin : Timeval) (seq : Int) (diff : Option UInt64) :
    ((pingRecv getpid (some (header ++ message)) fin (some seq) diff).1 = 0 ∧
      (pingRecv getpid (some (header ++ message)) fin (some seq) diff).2.1 = some num) ↔ getpid < 65536 ∧ num < 65536 := by
  have hsent := fields_packet ICMP_ECHO getpid num tval
  have hid : (icmpId message : Int) = getpid ↔ getpid < 65536 := by
    rw [hreply.id, hsent.1]
    exact uint16_eq_iff (Int.le_of_lt hpid)
  have hseq : (icmpSeq message : Int) = num ↔ num < 65536 := by
    rw [hreply.seq, hsent.2.1]
    exact uint16_eq_iff hnum
  rw [← hid, ← hseq]
  by_cases hown : (icmpId message : Int) = getpid
  · obtain ⟨hret, hnum'⟩ := pingRecv_own fin seq diff hip hmsg hown
    rw [hret, hnum', Option.some.injEq]
    exact and_congr_left fun _ => iff_of_true rfl hown
  · rw [pingRecv_foreign fin seq diff hip hmsg hown]
    exact iff_of_false (fun h => absurd h.1 (by decide)) fun h => hown h.1

/-! ## Matching -/

/-- A reply to this request gives 0 and its number, other packets give -1. -/
structure PingMatches (getpid num : Int) (request header message : List UInt8) : Prop where
  reply : EchoReply request message → ∀ fin seq diff,
    (pingRecv getpid (some (header ++ message)) fin (some seq) diff).1 = 0 ∧
    (pingRecv getpid (some (header ++ message)) fin (some seq) diff).2.1 = some num
  other : icmpType message ≠ ICMP_ECHOREPLY ∨ icmpId message ≠ uint16 getpid → ∀ fin seq diff,
    (pingRecv getpid (some (header ++ message)) fin (some seq) diff).1 = -1

/-- The process id and the number have to fit in 16 bits, for a reply, and what is
not a reply has to carry another identifier. -/
theorem ping_matches_iff (hpid : 0 < getpid) (hnum : 0 ≤ num) (hsend : pingSend getpid tval num = some request)
    (hip : IpHeader hl header) (hmsg : 8 ≤ message.length) :
    PingMatches getpid num request header message ↔
      (EchoReply request message → getpid < 65536 ∧ num < 65536) ∧
      (icmpType message ≠ ICMP_ECHOREPLY → (icmpId message : Int) ≠ getpid) := by
  rw [pingSend_eq, Option.some.injEq] at hsend
  subst hsend
  constructor
  · intro h
    refine ⟨fun hreply => ?_, fun htype => ?_⟩
    · exact (pingRecv_reply_iff hpid hnum hip hmsg hreply _ _ _).1 (h.reply hreply ⟨0, 0⟩ 0 none)
    · exact (pingRecv_ret_iff _ _ _ hip hmsg).1 (h.other (.inl htype) ⟨0, 0⟩ 0 none)
  · rintro ⟨hreply, hother⟩
    refine ⟨fun h fin seq diff => ?_, fun h fin seq diff => ?_⟩
    · exact (pingRecv_reply_iff hpid hnum hip hmsg h fin seq diff).2 (hreply h)
    · apply pingRecv_foreign fin seq diff hip hmsg
      rcases h with htype | hid
      · exact hother htype
      · -- the process id fits, or it is not the identifier anyway
        rintro rfl
        apply hid
        have hlt := icmpId_lt hmsg
        unfold uint16
        omega

/-- The packet that a host sends back, under a header of 20 bytes. -/
theorem echoReply_packet (getpid num : Int) (tval : Timeval) :
    EchoReply (packet ICMP_ECHO getpid num tval) (packet ICMP_ECHOREPLY getpid num tval) := by
  obtain ⟨hid, hseq, hdata⟩ := fields_packet ICMP_ECHO getpid num tval
  obtain ⟨hid', hseq', hdata'⟩ := fields_packet ICMP_ECHOREPLY getpid num tval
  exact ⟨rfl, rfl, checksum_packet ICMP_ECHOREPLY getpid num tval, hid'.trans hid.symm, hseq'.trans hseq.symm, hdata'.trans hdata.symm⟩

def ipHeader : List UInt8 := [0x45, 0, 0, 84, 0, 0, 0, 0, 64, ICMP_PROTO] ++ replicate 10 0

theorem ipHeader_ok : IpHeader 5 ipHeader := ⟨by decide, by decide, rfl, rfl, rfl⟩

theorem le_length_packet (type : UInt8) (getpid num : Int) (tval : Timeval) : 8 ≤ (packet type getpid num tval).length := by
  rw [length_packet]
  decide

theorem ping_matches_iff_reply :
    PingMatches 65535 7 (packet ICMP_ECHO 65535 7 ⟨0, 0⟩) ipHeader (packet ICMP_ECHOREPLY 65535 7 ⟨0, 0⟩) := by
  have hsend := pingSend_eq 65535 7 ⟨0, 0⟩
  have htype : icmpType (packet ICMP_ECHOREPLY 65535 7 ⟨0, 0⟩) = ICMP_ECHOREPLY := rfl
  apply (ping_matches_iff (by decide) (by decide) hsend ipHeader_ok (le_length_packet _ _ _ _)).2
  exact ⟨fun _ => ⟨by decide, by decide⟩, fun h => absurd htype h⟩

/-- The reply to process 65537, and the request of process 1 on its way to the host itself. -/
theorem ping_matches_pid :
    (∃ request message, pingSend 65537 ⟨0, 0⟩ 0 = some request ∧ IpHeader 5 ipHeader ∧ 8 ≤ message.length ∧
      ¬ PingMatches 65537 0 request ipHeader message) ∧
    (∃ request, pingSend 1 ⟨0, 0⟩ 0 = some request ∧ IpHeader 5 ipHeader ∧ 8 ≤ request.length ∧
      ¬ PingMatches 1 0 request ipHeader request) := by
  constructor
  · refine ⟨_, packet ICMP_ECHOREPLY 65537 0 ⟨0, 0⟩, pingSend_eq 65537 0 ⟨0, 0⟩, ipHeader_ok,
      le_length_packet _ _ _ _, fun h => ?_⟩
    have hfits := (pingRecv_reply_iff (by decide) (by decide) ipHeader_ok (le_length_packet _ _ _ _) (echoReply_packet 65537 0 ⟨0, 0⟩)
      ⟨0, 0⟩ 0 none).1 (h.reply (echoReply_packet 65537 0 ⟨0, 0⟩) ⟨0, 0⟩ 0 none)
    exact absurd hfits.1 (by decide)
  · refine ⟨_, pingSend_eq 1 0 ⟨0, 0⟩, ipHeader_ok, le_length_packet _ _ _ _, fun h => ?_⟩
    have htype : icmpType (packet ICMP_ECHO 1 0 ⟨0, 0⟩) ≠ ICMP_ECHOREPLY := fun h => absurd h (by decide)
    have hid : (icmpId (packet ICMP_ECHO 1 0 ⟨0, 0⟩) : Int) = 1 := congrArg Int.ofNat (fields_packet ICMP_ECHO 1 0 ⟨0, 0⟩).1
    exact (pingRecv_ret_iff _ _ _ ipHeader_ok (le_length_packet _ _ _ _)).1 (h.other (.inl htype) ⟨0, 0⟩ 0 none) hid

end MgStd.Icmp
