import MgStd.Lib.Chain
/-!
# mainloop.c

The main loop and its back ends: the list of entries, the list of nodes kept for
reuse, the descriptor sets of the select back end, and the part of the kernel the
loop talks to, which is the interest set of the epoll descriptor and the open timer
descriptors.

What the environment decides (whether `mainloop_malloc` and the system calls
succeed, the number of a new timer descriptor) is an `Outcome` passed to each
function. `mainloop_remove_fd` is cut in two at its call of the destroy
callback, which may use the main loop itself.

Each addition gets a number, its `entry`, that the node and the registration
carry, and `log` keeps what happened to the entries. The code reads neither.
-/

namespace MgStd.MainLoop

open MgStd.Lib

/-! ## Data -/

/-- `events_t` -/
structure Events where
  eventIn : Bool := false
  eventOut : Bool := false
  eventErr : Bool := false
  deriving DecidableEq, Repr

/-- The bits of `struct epoll_event` that the loop sets or reads. -/
structure EpollEvents where
  epollin : Bool := false
  epollout : Bool := false
  epollerr : Bool := false
  epollrdhup : Bool := false
  epolloneshot : Bool := false
  deriving DecidableEq, Repr

inductive MainloopDataType
  | general
  | timer
  deriving DecidableEq, Repr

/-- A function pointer; `none` is NULL. -/
abbrev Callback := Option Nat

/-- `mainloop_data_t` -/
structure MainloopData where
  next : Ptr Nat := none
  fd : Int := 0
  type : MainloopDataType := .general
  timeoutCallback : Callback := none
  eventCallback : Callback := none
  destroyCallback : Callback := none
  userData : Nat := 0
  entry : Nat := 0
  deriving DecidableEq, Repr

/-- What epoll keeps for a descriptor. -/
structure Registration where
  events : EpollEvents
  ptr : Ptr Nat
  entry : Nat
  deriving DecidableEq, Repr

/-- The first expiry of a timer descriptor; all zero is disarmed. -/
structure ItValue where
  tvSec : Nat := 0
  tvNsec : Nat := 0
  deriving DecidableEq, Repr

/-- What happens to an entry. -/
inductive Obs
  | added (entry : Nat) (destroy : Callback) (userData : Nat)
  /-- `mainloop_remove_fd` is through with the entry -/
  | removed (entry : Nat)
  /-- the destroy callback is called, by the final loop of `mainloop_run` or else by `mainloop_remove_fd` -/
  | destroyed (entry : Nat) (destroy : Callback) (userData : Nat) (final : Bool)
  /-- the event or timeout callback in the node of `entry` is called for an event that the kernel reported for `event` -/
  | called (event entry : Nat) (fd : Int) (events : Events) (userData : Nat)
  deriving DecidableEq, Repr

/-- `fd_set` -/
abbrev FdSet := Int → Bool

structure Loop where
  mem : Heap Nat MainloopData := fun _ => none
  /-- the next block of memory -/
  brk : Nat := 0
  mainloopDataHead : Ptr Nat := none
  mainloopFreeHead : Ptr Nat := none
  mainloopTerminate : Bool := false
  interest : Int → Option Registration := fun _ => none
  timers : Int → Option ItValue := fun _ => none
  rfds : FdSet := fun _ => false
  wfds : FdSet := fun _ => false
  maxfd : Int := 0
  entries : Nat := 0
  log : List Obs := []

/-- The answers of the environment to one call. -/
structure Outcome where
  malloc : Bool := true
  ctl : Bool := true
  settime : Bool := true
  timerfd : Int := -1
  deriving DecidableEq, Repr

abbrev LoopProg (α : Type) := Prog Loop α

def EIO : Int := 5
def ENXIO : Int := 6
def ENOMEM : Int := 12
def EINVAL : Int := 22
def MAX_EPOLL_EVENTS : Nat := 10
def FD_SETSIZE : Int := 1024

/-! ## Memory -/

def onMem {α : Type} (m : Prog (Heap Nat MainloopData) α) : LoopProg α :=
  zoom Loop.mem (fun h l => { l with mem := h }) m

def nodeOf (p : Ptr Nat) : LoopProg MainloopData := onMem (load p)
def setNode (p : Ptr Nat) (f : MainloopData → MainloopData) : LoopProg Unit := onMem (store p f)

/-- Every block is a new one, so that freed memory is told apart from memory in use. -/
def mainloopMalloc (ok : Bool) : LoopProg (Ptr Nat) := do
  let l ← get
  if ok then do
    modify fun l => { l with mem := Function.update l.mem l.brk (some {}), brk := l.brk + 1 }
    pure (some l.brk)
  else pure none

def mainloopFree : Ptr Nat → LoopProg Unit
  | none => pure ()
  | some a => do
    let _ ← nodeOf (some a)
    modify fun l => { l with mem := Function.update l.mem a none }

def getHead : LoopProg (Ptr Nat) := do pure (← get).mainloopDataHead
def setHead (p : Ptr Nat) : LoopProg Unit := modify fun l => { l with mainloopDataHead := p }
def getFreeHead : LoopProg (Ptr Nat) := do pure (← get).mainloopFreeHead
def setFreeHead (p : Ptr Nat) : LoopProg Unit := modify fun l => { l with mainloopFreeHead := p }
def note (o : Obs) : LoopProg Unit := modify fun l => { l with log := l.log ++ [o] }

def newEntry : LoopProg Nat := do
  let l ← get
  modify fun l => { l with entries := l.entries + 1 }
  pure l.entries

/-! ## System calls -/

/-- A descriptor that is registered cannot be added. -/
def epollCtlAdd (fd : Int) (reg : Registration) (out : Outcome) : LoopProg Int := do
  let l ← get
  if (l.interest fd).isNone ∧ out.ctl then do
    modify fun l => { l with interest := Function.update l.interest fd (some reg) }
    pure 0
  else pure (-1)

def epollCtlMod (fd : Int) (reg : Registration) (out : Outcome) : LoopProg Int := do
  let l ← get
  if (l.interest fd).isSome ∧ out.ctl then do
    modify fun l => { l with interest := Function.update l.interest fd (some reg) }
    pure 0
  else pure (-1)

def epollCtlDel (fd : Int) (out : Outcome) : LoopProg Int := do
  let l ← get
  if (l.interest fd).isSome ∧ out.ctl then do
    modify fun l => { l with interest := Function.update l.interest fd none }
    pure 0
  else pure (-1)

/-- Closing a descriptor takes it out of the interest set. -/
def close (fd : Int) : LoopProg Unit :=
  modify fun l => { l with
    timers := Function.update l.timers fd none
    interest := Function.update l.interest fd none }

def timerfdCreate (out : Outcome) : LoopProg Int := do
  if 0 ≤ out.timerfd then
    modify fun l => { l with timers := Function.update l.timers out.timerfd (some {}) }
  pure out.timerfd

def timeoutSet (fd : Int) (msec : Nat) (out : Outcome) : LoopProg Int := do
  let sec := msec / 1000
  let nsec := (msec - sec * 1000) * 1000 * 1000
  let l ← get
  if (l.timers fd).isSome ∧ out.settime then do
    modify fun l => { l with timers := Function.update l.timers fd (some ⟨sec, nsec⟩) }
    pure 0
  else pure (-1)

/-! ## The epoll back end -/

def epollAddFd (events : Events) (data : Ptr Nat) (out : Outcome) : LoopProg Int := do
  let d ← nodeOf data
  let ev : EpollEvents :=
    { epollin := events.eventIn, epollout := events.eventOut, epolloneshot := d.type = .timer }
  epollCtlAdd d.fd ⟨ev, data, d.entry⟩ out

def epollModifyFd (events : Events) (data : Ptr Nat) (out : Outcome) : LoopProg Int := do
  let d ← nodeOf data
  let ev : EpollEvents := { epollin := events.eventIn, epollout := events.eventOut }
  epollCtlMod d.fd ⟨ev, data, d.entry⟩ out

def epollRemoveFd (fd : Int) (out : Outcome) : LoopProg Int := epollCtlDel fd out

/-! ## The select back end -/

def checkFd (fd : Int) : LoopProg Unit := if 0 ≤ fd ∧ fd < FD_SETSIZE then pure () else fault .bounds

/-- `FD_SET` and `FD_CLR` on `rfds` -/
def setRfds (fd : Int) (b : Bool) : LoopProg Unit := do
  checkFd fd
  modify fun l => { l with rfds := Function.update l.rfds fd b }

/-- `FD_SET` and `FD_CLR` on `wfds` -/
def setWfds (fd : Int) (b : Bool) : LoopProg Unit := do
  checkFd fd
  modify fun l => { l with wfds := Function.update l.wfds fd b }

def selectAddFd (events : Events) (data : Ptr Nat) (_out : Outcome) : LoopProg Int := do
  let d ← nodeOf data
  if events.eventIn then setRfds d.fd true
  if events.eventOut then setWfds d.fd true
  modify fun l => { l with maxfd := if l.maxfd ≤ d.fd then d.fd + 1 else l.maxfd }
  pure 0

def selectRemoveFd (fd : Int) (_out : Outcome) : LoopProg Int := do
  setRfds fd false
  setWfds fd false
  pure 0

def selectModifyFd (events : Events) (data : Ptr Nat) (_out : Outcome) : LoopProg Int := do
  let d ← nodeOf data
  setRfds d.fd false
  setWfds d.fd false
  if events.eventIn then setRfds d.fd true
  if events.eventOut then setWfds d.fd true
  pure 0

/-- `mainloop_platform_add_fd`, `mainloop_platform_modify_fd` and `mainloop_platform_remove_fd` -/
structure Platform where
  addFd : Events → Ptr Nat → Outcome → LoopProg Int
  modifyFd : Events → Ptr Nat → Outcome → LoopProg Int
  removeFd : Int → Outcome → LoopProg Int

def epoll : Platform := ⟨epollAddFd, epollModifyFd, epollRemoveFd⟩
def select : Platform := ⟨selectAddFd, selectModifyFd, selectRemoveFd⟩

/-! ## Adding -/

/-- The first node kept for reuse, else a new one. -/
def takeNode (out : Outcome) : LoopProg (Ptr Nat) := do
  let data ← getFreeHead
  if data = none then mainloopMalloc out.malloc
  else do
    setFreeHead (← nodeOf data).next
    pure data

def mainloopAddFd (platform : Platform) (fd : Int) (events : Events) (callback destroy : Callback) (userData : Nat) (out : Outcome) :
    LoopProg Int := do
  if fd < 0 ∨ callback = none then pure (-EINVAL)
  else do
    let data ← takeNode out
    if data = none then pure (-ENOMEM)
    else do
      let entry ← newEntry
      setNode data fun _ =>
        { type := .general, fd, eventCallback := callback, destroyCallback := destroy, userData, entry }
      let head ← getHead
      setNode data fun d => { d with next := head }
      setHead data
      let ret ← platform.addFd events data out
      if 0 ≤ ret then note (.added entry destroy userData)
      pure ret

/-- The part of `mainloop_add_timeout` after the timer `fd` is set. -/
def addTimer (platform : Platform) (fd : Int) (callback destroy : Callback) (userData : Nat) (out : Outcome) : LoopProg Int := do
  let data ← takeNode out
  if data = none then pure (-ENOMEM)
  else do
    let entry ← newEntry
    setNode data fun _ =>
      { type := .timer, fd, timeoutCallback := callback, destroyCallback := destroy, userData, entry }
    let ret ← platform.addFd { eventIn := true } data out
    if ret < 0 then do
      close fd
      pure ret
    else do
      let head ← getHead
      setNode data fun d => { d with next := head }
      setHead data
      note (.added entry destroy userData)
      pure fd

def mainloopAddTimeout (platform : Platform) (msec : Int) (callback destroy : Callback) (userData : Nat) (out : Outcome) :
    LoopProg Int := do
  if callback = none then pure (-EINVAL)
  else do
    let fd ← timerfdCreate out
    if fd < 0 then pure (- EIO)
    else if 0 < msec then do
      let ret ← timeoutSet fd msec.toNat out
      if ret < 0 then do
        close fd
        pure (- EIO)
      else addTimer platform fd callback destroy userData out
    else addTimer platform fd callback destroy userData out

/-! ## Looking up a descriptor -/

/-- A round of `while (data)`; gives `data` and the node before it. -/
def walkRound (fd : Int) : Ptr Nat × Ptr Nat → LoopProg (Ptr Nat × Ptr Nat ⊕ Ptr Nat × Ptr Nat)
  | (data, prev) =>
    if data = none then pure (.inr (data, prev))
    else do
      let d ← nodeOf data
      if d.fd = fd then pure (.inr (data, prev)) else pure (.inl (d.next, data))

/-- A walk over more nodes than were ever allocated goes round in circles. -/
def findFd (fd : Int) : LoopProg (Ptr Nat × Ptr Nat) := do
  let l ← get
  loop (walkRound fd) (l.brk + 1) (l.mainloopDataHead, none)

def mainloopModifyFd (platform : Platform) (fd : Int) (events : Events) (out : Outcome) : LoopProg Int := do
  if fd < 0 then pure (-EINVAL)
  else do
    let (data, _) ← findFd fd
    if data = none then pure (- ENXIO) else platform.modifyFd events data out

def mainloopModifyTimeout (platform : Platform) (fd msec : Int) (out : Outcome) : LoopProg Int := do
  let msec := if msec ≤ 0 then 1 else msec
  let ret ← timeoutSet fd msec.toNat out
  if ret < 0 then pure (- EIO) else mainloopModifyFd platform fd { eventIn := true } out

/-! ## Removing -/

/-- What `mainloop_remove_fd` holds in its variables while the destroy callback runs. -/
structure Removal where
  data : Ptr Nat
  prev : Ptr Nat
  ret : Int
  destroyCallback : Callback
  entry : Nat
  deriving DecidableEq, Repr

/-- `mainloop_remove_fd` up to the destroy callback; an early `return` gives its value. -/
def removeBegin (platform : Platform) (fd : Int) (out : Outcome) : LoopProg (Int ⊕ Removal) := do
  if fd < 0 then pure (.inl (-EINVAL))
  else do
    let (data, prev) ← findFd fd
    if data = none then pure (.inl (- ENXIO))
    else do
      let d ← nodeOf data
      let ret ← platform.removeFd d.fd out
      if d.type = .timer then do
        close d.fd
        setNode data fun d => { d with fd := -1 }
      if d.destroyCallback ≠ none then note (.destroyed d.entry d.destroyCallback d.userData false)
      pure (.inr { data, prev, ret, destroyCallback := d.destroyCallback, entry := d.entry })

/-- The rest of `mainloop_remove_fd`. -/
def removeEnd (r : Removal) : LoopProg Int := do
  let head ← getHead
  if r.data = head then do
    setHead (← nodeOf head).next
  else do
    let next := (← nodeOf r.data).next
    setNode r.prev fun d => { d with next }
  let free ← getFreeHead
  setNode r.data fun d => { d with next := free }
  setFreeHead r.data
  note (.removed r.entry)
  pure r.ret

/-- `mainloop_remove_fd` with a destroy callback that does `destroy`. -/
def mainloopRemoveFd (platform : Platform) (fd : Int) (out : Outcome) (destroy : Removal → LoopProg Unit) : LoopProg Int := do
  match ← removeBegin platform fd out with
  | .inl ret => pure ret
  | .inr r => do
    destroy r
    removeEnd r

/-! ## Dispatching -/

/-- An event of the batch that `epoll_wait` returned. -/
structure Ready where
  events : EpollEvents
  data : Ptr Nat
  entry : Nat
  deriving DecidableEq, Repr

def eventsOf (ev : EpollEvents) : Events :=
  { eventIn := ev.epollin, eventOut := ev.epollout, eventErr := ev.epollerr || ev.epollrdhup }

/-- The call of a callback; gives whether there was one to call. -/
def callTimeout (ev : Ready) (d : MainloopData) : LoopProg Bool := do
  if d.timeoutCallback = none then pure false
  else do
    note (.called ev.entry d.entry d.fd (eventsOf ev.events) d.userData)
    pure true

/-- `readOk`: the timer has expired and `read` gives its count. It gives nothing on a negative descriptor. -/
def mainloopTimeoutProcess (ev : Ready) (d : MainloopData) (readOk : Bool) : LoopProg Bool := do
  if d.type ≠ .timer then pure false
  else if d.fd < 0 ∨ readOk = false then pure false
  else callTimeout ev d

/-- A round of the loop in `epoll_run`; gives whether a callback is running now. -/
def dispatchEvent (ev : Ready) (readOk : Bool) : LoopProg Bool := do
  let e := eventsOf ev.events
  let d ← nodeOf ev.data
  match d.type with
  | .general =>
    if d.eventCallback = none then fault .null
    else do
      note (.called ev.entry d.entry d.fd e d.userData)
      pure true
  | .timer => if e.eventErr then pure false else mainloopTimeoutProcess ev d readOk

/-- The loop of `epoll_run`, with callbacks that leave the main loop alone. -/
def epollRun (readOk : Ptr Nat → Bool) : List Ready → LoopProg Unit
  | [] => pure ()
  | ev :: rest => do
    let _ ← dispatchEvent ev (readOk ev.data)
    epollRun readOk rest

/-- `select` on copies of the two sets when no error is pending: the number of bits left, and the sets. -/
def sysSelect (readable writable : FdSet) : LoopProg (Nat × FdSet × FdSet) := do
  let l ← get
  let orfds : FdSet := fun fd => l.rfds fd && readable fd && decide (0 ≤ fd ∧ fd < l.maxfd)
  let owfds : FdSet := fun fd => l.wfds fd && writable fd && decide (0 ≤ fd ∧ fd < l.maxfd)
  let fds := (List.range l.maxfd.toNat).map Int.ofNat
  pure (fds.countP orfds + fds.countP owfds, orfds, owfds)

def fdIsSet (fd : Int) (s : FdSet) : LoopProg Bool := do
  checkFd fd
  pure (s fd)

def selectRound (orfds : FdSet) (readOk : Ptr Nat → Bool) : Ptr Nat → LoopProg (Ptr Nat ⊕ Unit)
  | data =>
    if data = none then pure (.inr ())
    else do
      let d ← nodeOf data
      -- both tests are on `orfds`
      let eventIn ← fdIsSet d.fd orfds
      let eventOut ← fdIsSet d.fd orfds
      if eventIn ∨ eventOut then
        match d.type with
        | .general =>
          if d.eventCallback = none then fault .null
          else note (.called d.entry d.entry d.fd { eventIn, eventOut } d.userData)
        | .timer =>
          let _ ← mainloopTimeoutProcess ⟨{ epollin := eventIn, epollout := eventOut }, data, d.entry⟩ d (readOk data)
      pure (.inl (← nodeOf data).next)

/-- `select_run`, with callbacks that leave the main loop alone. -/
def selectRun (readOk : Ptr Nat → Bool) (readable writable : FdSet) : LoopProg Nat := do
  let (ret, orfds, _) ← sysSelect readable writable
  if ret = 0 then pure ret
  else do
    let l ← get
    loop (selectRound orfds readOk) (l.brk + 1) l.mainloopDataHead
    pure ret

/-! ## Quitting -/

def freeRound : Ptr Nat → LoopProg (Ptr Nat ⊕ Unit)
  | data =>
    if data = none then pure (.inr ())
    else do
      let tmp := (← nodeOf data).next
      mainloopFree data
      pure (.inl tmp)

def mainloopQuit : LoopProg Unit := do
  modify fun l => { l with mainloopTerminate := true }
  let l ← get
  loop freeRound (l.brk + 1) l.mainloopFreeHead

/-- A round of the final loop of `mainloop_run` up to the destroy callback; gives `tmp`. -/
def sweepBegin (data : Ptr Nat) : LoopProg (Ptr Nat × Callback) := do
  let d ← nodeOf data
  if d.type = .timer then close d.fd
  if d.destroyCallback ≠ none then note (.destroyed d.entry d.destroyCallback d.userData true)
  pure (d.next, d.destroyCallback)

/-- `mainloop_init`, once the epoll descriptor is open. -/
def mainloopInit : Loop := {}

end MgStd.MainLoop
