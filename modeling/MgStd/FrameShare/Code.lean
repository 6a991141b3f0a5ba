import Mathlib.Algebra.Group.Nat.Defs
import MgStd.Lib.Bytes
import MgStd.Lib.Prog
import Mathlib.Logic.Function.Basic
/-!
# mgframe_share.c

The kernel has the shared-memory objects by name, the open descriptors and the
mappings. Which calls succeed is up to it, and what a new descriptor and a new
address are: the `Outcome` passed to `frame_create`.
-/

namespace MgStd.FrameShare

open MgStd.Lib

/-! ## The kernel -/

/-- A `void *` -/
inductive Addr
  | null
  /-- `MAP_FAILED` -/
  | mapFailed
  | page (a : Nat)
  deriving DecidableEq, Repr

structure Mapping where
  object : Nat
  length : Nat
  deriving DecidableEq, Repr

structure Kernel where
  objects : String → Option Nat := fun _ => none
  /-- the bytes of an object, up to the end of its last page -/
  bytes : Nat → List UInt8 := fun _ => []
  /-- the next object -/
  brk : Nat := 0
  fds : Int → Option Nat := fun _ => none
  maps : Nat → Option Mapping := fun _ => none

/-- The descriptor, and the address; `none` is failure. -/
structure Outcome where
  shmOpen : Option Nat
  ftruncate : Bool
  mmap : Option Nat

/-- With `O_CREAT`: an object that is not there is made, and has no bytes. -/
def shmOpen (name : String) (out : Outcome) : Prog Kernel Int :=
  match out.shmOpen with
  | none => pure (-1)
  | some fd => do
    let k ← get
    match k.objects name with
    | some o => modify fun k => { k with fds := Function.update k.fds fd (some o) }
    | none => modify fun k => { k with
        objects := Function.update k.objects name (some k.brk)
        bytes := Function.update k.bytes k.brk []
        brk := k.brk + 1
        fds := Function.update k.fds fd (some k.brk) }
    pure fd

def resize (n : Nat) (bs : List UInt8) : List UInt8 := bs.take n ++ List.replicate (n - bs.length) 0

def ftruncate (fd length : Int) (out : Outcome) : Prog Kernel Int := do
  let k ← get
  match k.fds fd with
  | none => pure (-1)
  | some o =>
    if out.ftruncate ∧ 0 ≤ length then do
      modify fun k => { k with bytes := Function.update k.bytes o (resize length.toNat (k.bytes o)) }
      pure 0
    else pure (-1)

/-- A length that is not positive, as a `size_t`, is zero or more than there is. -/
def mmap (length fd : Int) (out : Outcome) : Prog Kernel Addr := do
  let k ← get
  match out.mmap, k.fds fd with
  | some a, some o =>
    if 0 < length then do
      modify fun k => { k with maps := Function.update k.maps a (some ⟨o, length.toNat⟩) }
      pure (.page a)
    else pure .mapFailed
  | _, _ => pure .mapFailed

/-- `memcpy` to memory that may be mapped; there is nothing at `MAP_FAILED`. -/
def memcpyTo (addr : Addr) (data : List UInt8) (n : Nat) : Prog Kernel Unit :=
  match addr with
  | .null => fault .null
  | .mapFailed => fault .dangling
  | .page a => do
    let k ← get
    match k.maps a with
    | none => fault .dangling
    | some m =>
      if n ≤ m.length ∧ n ≤ (k.bytes m.object).length ∧ n ≤ data.length then
        modify fun k => { k with bytes := Function.update k.bytes m.object (memcpy (k.bytes m.object) 0 (data.take n)) }
      else fault .bounds

def shmUnlink (name : String) : Prog Kernel Unit := modify fun k => { k with objects := Function.update k.objects name none }

def close (fd : Int) : Prog Kernel Unit := modify fun k => { k with fds := Function.update k.fds fd none }

def munmap (addr : Addr) : Prog Kernel Unit :=
  match addr with
  | .page a => modify fun k => { k with maps := Function.update k.maps a none }
  | _ => pure ()

/-! ## Frames -/

/-- `frame_t` -/
structure Frame where
  fd : Int
  index : Int
  size : Int
  flags : Int
  addr : Addr
  deriving DecidableEq, Repr

/-- `ALIGN_TO_4K`, on an `int` that wraps around. -/
def alignTo4K (size : Int) : Int :=
  let n := (size + 0xfff).bmod (2 ^ 32)
  n - n % 0x1000

def frameDestroy (frame : Frame) : Prog Kernel Frame := do
  if 0 ≤ frame.fd then do
    shmUnlink ("/tmp/frame_" ++ toString frame.index)
    close frame.fd
  if frame.addr ≠ .null then munmap frame.addr
  pure { fd := -1, index := 0, size := 0, flags := 0, addr := .null }

/-- What `frame_create` returns, and `*f` afterwards. -/
def frameCreate (f : Frame) (index flags size : Int) (data : List UInt8) (out : Outcome) : Prog Kernel (Int × Frame) := do
  let f := { f with fd := -1, index, size, flags }
  let fd ← shmOpen ("frame_" ++ toString index) out
  if fd < 0 then do
    let f ← frameDestroy f
    pure (-1, f)
  else do
    let _ ← ftruncate fd (alignTo4K size) out
    let f := { f with fd }
    let addr ← mmap (alignTo4K size) fd out
    if addr = .null then do
      let f ← frameDestroy f
      pure (-1, f)
    else do
      memcpyTo addr data size.toNat
      pure (0, { f with addr })

end MgStd.FrameShare
