import Mathlib.Algebra.Group.Int.Defs
import MgStd.Lib.Bytes
/-!
# icmp.c

Packets are lists of bytes, on a machine that has the low byte of a word first.
The process id, the clock and what `recvfrom` gives are arguments. A pointer for
a result is an option, `none` is NULL.
-/

namespace MgStd.Icmp

open MgStd.Lib

def BUF_SIZE : Nat := 1024
def PACK_LEN : Nat := 56
def ICMP_ECHO : UInt8 := 8
def ICMP_ECHOREPLY : UInt8 := 0

/-- `struct timeval` -/
structure Timeval where
  tvSec : Int64
  tvUsec : Int64
  deriving DecidableEq

/-- The bytes of the two `long`s. -/
def Timeval.bytes (t : Timeval) : List UInt8 := leBytes 8 t.tvSec.toUInt64.toNat ++ leBytes 8 t.tvUsec.toUInt64.toNat

def Timeval.ofBytes (bs : List UInt8) : Timeval :=
  ⟨(UInt64.ofNat (leNat (bs.take 8))).toInt64, (UInt64.ofNat (leNat ((bs.drop 8).take 8))).toInt64⟩

def diftime (fin bg : Timeval) : UInt64 := ((fin.tvSec - bg.tvSec) * 1000 * 1000 + (fin.tvUsec - bg.tvUsec)).toUInt64

/-- A number in a field of 16 bits. -/
def uint16 (n : Int) : Nat := (n % 2 ^ 16).toNat

/-! ## Checksum -/

/-- The words of the buffer, and its last byte if the length is odd, on top of `ret`. -/
def checksumLoop : UInt32 → List UInt8 → UInt32
  | ret, lo :: hi :: data => checksumLoop (ret + UInt32.ofNat (leNat [lo, hi])) data
  | ret, [last] => ret + UInt32.ofNat last.toNat
  | ret, [] => ret

def checksum (data : List UInt8) : UInt16 :=
  let ret := checksumLoop 0 data
  let ret := (ret >>> 16) + (ret &&& 0xFFFF)
  let ret := ret + (ret >>> 16)
  (~~~ ret).toUInt16

/-! ## Packets -/

/-- What `icmp_pack` returns, and the buffer afterwards. -/
def icmpPack (getpid : Int) (tval : Timeval) (num : Int) (buf : List UInt8) : Int × List UInt8 :=
  if buf.length < PACK_LEN + 8 then (-1, buf)
  else
    let p := List.replicate buf.length 0
    let p := memcpy p 0 [ICMP_ECHO]
    let p := memcpy p 1 [0]
    let p := memcpy p 2 (leBytes 2 0)
    let p := memcpy p 6 (leBytes 2 (uint16 num))
    let p := memcpy p 4 (leBytes 2 (uint16 getpid))
    let p := memcpy p 8 tval.bytes
    let p := memcpy p 2 (leBytes 2 (checksum (p.take (PACK_LEN + 8))).toNat)
    ((PACK_LEN + 8 : Nat), p)

/-- The packet that `ping_send` hands over to `sendto`. -/
def pingSend (getpid : Int) (tval : Timeval) (num : Int) : Option (List UInt8) :=
  let (len, buf) := icmpPack getpid tval num (List.replicate BUF_SIZE 0)
  if len < 0 then none else some (buf.take len.toNat)

/-- What `ping_recv` returns, and what is at `seq` and `diff` afterwards. A datagram that is too long is cut. -/
def pingRecv (getpid : Int) (received : Option (List UInt8)) (fin : Timeval) (seq : Option Int) (diff : Option UInt64) :
    Int × Option Int × Option UInt64 :=
  match received with
  | none => (-1, seq, diff)
  | some datagram =>
    let buf := datagram.take BUF_SIZE ++ List.replicate (BUF_SIZE - datagram.length) 0
    let ipHl := (buf.headD 0 &&& 0x0F).toNat
    let picmp := buf.drop (ipHl * 4)
    if (leNat ((picmp.drop 4).take 2) : Int) ≠ getpid then (-1, seq, diff)
    else (0, seq.map fun _ => (leNat ((picmp.drop 6).take 2) : Int), diff.map fun _ => diftime fin (.ofBytes (picmp.drop 8)))

end MgStd.Icmp
