import MgStd.MainLoop.Lists
import MgStd.Lib.Runs
/-!
# The main loop and its callbacks as a machine

The stack says who is running: the program before `mainloop_run`, the loop of
`epoll_run` with the rest of its batch, an event or timeout callback, a destroy
callback inside `mainloop_remove_fd` or inside the final loop of `mainloop_run`.
User code calls any function of the main loop, closes descriptors, and returns;
a run of the machine is one behaviour of all of it. A run that gets to the end of
`mainloop_run` leaves an empty stack.
-/

namespace MgStd.MainLoop

open MgStd.Lib

/-- A call that user code makes. `mainloop_remove_timeout` is `mainloop_remove_fd`. -/
inductive Op
  | addFd (fd : Int) (events : Events) (callback destroy : Callback) (userData : Nat)
  | addTimeout (msec : Int) (callback destroy : Callback) (userData : Nat)
  | modifyFd (fd : Int) (events : Events)
  | modifyTimeout (fd msec : Int)
  | removeFd (fd : Int)
  | quit
  deriving DecidableEq, Repr

/-- The call; a removal goes on after its destroy callback. -/
def Op.exec (op : Op) (out : Outcome) : LoopProg (Option Removal) :=
  match op with
  | .addFd fd events callback destroy userData => do
    let _ ← mainloopAddFd epoll fd events callback destroy userData out
    pure none
  | .addTimeout msec callback destroy userData => do
    let _ ← mainloopAddTimeout epoll msec callback destroy userData out
    pure none
  | .modifyFd fd events => do
    let _ ← mainloopModifyFd epoll fd events out
    pure none
  | .modifyTimeout fd msec => do
    let _ ← mainloopModifyTimeout epoll fd msec out
    pure none
  | .removeFd fd => do
    match ← removeBegin epoll fd out with
    | .inl _ => pure none
    | .inr r => pure (some r)
  | .quit => do
    mainloopQuit
    pure none

inductive Frame
  | program
  | dispatch (rest : List Ready)
  | callback
  | removal (r : Removal)
  | sweep (data : Ptr Nat)
  | sweepDestroy (data tmp : Ptr Nat) (destroy : Callback)
  deriving DecidableEq, Repr

/-- User code runs in this frame. Where there is no destroy callback, only its return is left. -/
def Frame.user : Frame → Bool
  | .program => true
  | .dispatch _ => false
  | .callback => true
  | .removal r => r.destroyCallback ≠ none
  | .sweep _ => false
  | .sweepDestroy _ _ destroy => destroy ≠ none

inductive Label
  | call (op : Op) (out : Outcome)
  | close (fd : Int)
  | ret
  | run
  | wait (ready : List (Int × EpollEvents))
  | next (readOk : Bool)
  | sweep
  deriving DecidableEq, Repr

structure Machine where
  loop : Loop
  stack : List Frame

/-- A new timer descriptor has a number that is not in use. -/
def Outcome.possible (out : Outcome) (l : Loop) : Bool :=
  out.timerfd < 0 || ((l.interest out.timerfd).isNone && (l.timers out.timerfd).isNone)

/-- `epoll_wait` gives at most `MAX_EPOLL_EVENTS` registered descriptors, each once. -/
def readyPossible (l : Loop) (ready : List (Int × EpollEvents)) : Bool :=
  ready.length ≤ MAX_EPOLL_EVENTS && decide (ready.map Prod.fst).Nodup && ready.all fun r => (l.interest r.1).isSome

def batch (l : Loop) (ready : List (Int × EpollEvents)) : List Ready :=
  ready.filterMap fun r => (l.interest r.1).map fun reg => ⟨r.2, reg.ptr, reg.entry⟩

theorem mem_batch {l : Loop} {ready : List (Int × EpollEvents)} {ev : Ready} (h : ev ∈ batch l ready) :
    ∃ fd reg, l.interest fd = some reg ∧ ev.data = reg.ptr ∧ ev.entry = reg.entry := by
  obtain ⟨⟨fd, e⟩, -, hev⟩ := List.mem_filterMap.1 h
  obtain ⟨reg, hreg, rfl⟩ := Option.map_eq_some_iff.1 hev
  exact ⟨fd, reg, hreg, rfl, rfl⟩

/-- Run `m`, which gives the frames to put on the stack. -/
def resume (m : LoopProg (List Frame)) (l : Loop) (stack : List Frame) : Except Fault Machine :=
  match m l with
  | .ok (frames, l') => .ok ⟨l', frames ++ stack⟩
  | .error e => .error e

def step (m : Machine) (label : Label) : Option (Except Fault Machine) :=
  match m.stack, label with
  | f :: stack, .call op out =>
    if f.user ∧ out.possible m.loop then
      some (resume (do let r ← op.exec out; pure (r.toList.map .removal ++ [f])) m.loop stack)
    else none
  | f :: stack, .close fd => if f.user then some (resume (do close fd; pure [f]) m.loop stack) else none
  | .callback :: stack, .ret => some (resume (pure []) m.loop stack)
  | .removal r :: stack, .ret => some (resume (do let _ ← removeEnd r; pure []) m.loop stack)
  | .sweepDestroy data tmp _ :: stack, .ret => some (resume (do mainloopFree data; pure [.sweep tmp]) m.loop stack)
  | .program :: stack, .run => some (resume (pure [.dispatch []]) m.loop stack)
  | .dispatch [] :: stack, .wait ready =>
    if m.loop.mainloopTerminate = false ∧ readyPossible m.loop ready then
      some (resume (pure [.dispatch (batch m.loop ready)]) m.loop stack)
    else none
  | .dispatch (ev :: rest) :: stack, .next readOk =>
    some (resume
      (do let called ← dispatchEvent ev readOk
          pure (if called then [.callback, .dispatch rest] else [.dispatch rest]))
      m.loop stack)
  | .dispatch [] :: stack, .sweep =>
    if m.loop.mainloopTerminate then some (resume (do pure [.sweep (← getHead)]) m.loop stack) else none
  | .sweep data :: stack, .sweep =>
    if data = none then some (resume (pure []) m.loop stack)
    else some (resume
      (do let (tmp, destroy) ← sweepBegin data
          pure [.sweepDestroy data tmp destroy])
      m.loop stack)
  | _, _ => none

/-- After `mainloop_init`. -/
def initial : Machine := ⟨mainloopInit, [.program]⟩

/-! ## What a call does -/

/-- The effect of a call on well-formed lists. -/
inductive Executed (l : Loop) (L F : List Nat) (out : Outcome) : Op → Option Removal → Loop → Prop
  | addFd {fd : Int} {events : Events} {callback destroy : Callback} {userData : Nat} {l' : Loop}
      (h : Added l F .general (AddFails l fd callback out) l') :
      Executed l L F out (.addFd fd events callback destroy userData) none l'
  | addTimeout {msec : Int} {callback destroy : Callback} {userData : Nat} {l' : Loop} (h : Added l F .timer False l') :
      Executed l L F out (.addTimeout msec callback destroy userData) none l'
  | modifyFd {fd : Int} {events : Events} {l' : Loop} (h : Modified l L l') :
      Executed l L F out (.modifyFd fd events) none l'
  | modifyTimeout {fd msec : Int} {l' : Loop} (h : Modified l L l') : Executed l L F out (.modifyTimeout fd msec) none l'
  | missing {fd ret : Int} {l' : Loop} (h : Begun l L fd out (.inl ret) l') : Executed l L F out (.removeFd fd) none l'
  | begun {fd : Int} {r : Removal} {l' : Loop} (h : Begun l L fd out (.inr r) l') :
      Executed l L F out (.removeFd fd) (some r) l'
  | quit : Executed l L F out .quit none { l with mem := freed l.mem F, mainloopTerminate := true }

theorem returns_exec {l : Loop} {L F : List Nat} (hl : Lists l L F) (op : Op) (out : Outcome) :
    Returns (op.exec out) l (Executed l L F out op) := by
  cases op with
  | addFd fd events callback destroy userData =>
    exact (returns_mainloopAddFd hl.free events callback destroy userData).bind fun _ _ h =>
      (returns_pure _ _ _).2 (.addFd h)
  | addTimeout msec callback destroy userData =>
    exact (returns_mainloopAddTimeout hl.free msec callback destroy userData).bind fun _ _ h =>
      (returns_pure _ _ _).2 (.addTimeout h)
  | modifyFd fd events =>
    exact (returns_mainloopModifyFd hl.live hl.below l.timers events).bind fun _ _ h =>
      (returns_pure _ _ _).2 (.modifyFd h)
  | modifyTimeout fd msec =>
    exact (returns_mainloopModifyTimeout hl.live hl.below msec).bind fun _ _ h =>
      (returns_pure _ _ _).2 (.modifyTimeout h)
  | removeFd fd =>
    refine (returns_removeBegin hl.live hl.below).bind fun r l' h => ?_
    cases r with
    | inl ret => exact (returns_pure _ _ _).2 (.missing h)
    | inr r => exact (returns_pure _ _ _).2 (.begun h)
  | quit =>
    refine (returns_mainloopQuit hl.free hl.below).bind fun _ l' h => (returns_pure _ _ _).2 ?_
    rw [h]
    exact .quit

/-- The addition gets as far as taking a node. -/
def Op.takes (op : Op) (out : Outcome) : Prop :=
  match op with
  | .addFd fd _ callback _ _ => 0 ≤ fd ∧ callback ≠ none
  | .addTimeout msec callback _ _ => callback ≠ none ∧ 0 ≤ out.timerfd ∧ (0 < msec → out.settime)
  | _ => False

/-- The call looks up a descriptor on the live list. -/
def Op.walks (op : Op) (l : Loop) (out : Outcome) : Prop :=
  match op with
  | .modifyFd fd _ => 0 ≤ fd
  | .modifyTimeout fd _ => 0 ≤ fd ∧ (l.timers fd).isSome ∧ out.settime
  | .removeFd fd => 0 ≤ fd
  | _ => False

/-- A call that neither takes a node nor looks one up leaves the lists alone. -/
theorem returns_exec_idle {l : Loop} {op : Op} {out : Outcome} (htk : ¬ op.takes out) (hw : ¬ op.walks l out)
    (hq : op ≠ .quit) : Returns (op.exec out) l fun r l' => r = none ∧ ∃ interest timers, l' = { l with interest, timers } ∧
      ∀ fd, interest fd = l.interest fd ∨ interest fd = none := by
  have hsame : ∃ interest timers, l = { l with interest, timers } ∧
      ∀ fd, interest fd = l.interest fd ∨ interest fd = none := ⟨l.interest, l.timers, rfl, fun _ => .inl rfl⟩
  cases op with
  | addFd fd events callback destroy userData =>
    have hbad : fd < 0 ∨ callback = none := by
      by_contra hno
      exact htk ⟨Int.not_lt.1 fun h => hno (.inl h), fun h => hno (.inr h)⟩
    simp only [Op.exec, mainloopAddFd, hbad, if_true, returns_bind, returns_pure]
    exact ⟨trivial, hsame⟩
  | addTimeout msec callback destroy userData =>
    simp only [Op.exec, mainloopAddTimeout, timerfdCreate, timeoutSet, returns_ite, returns_bind, returns_pure,
      returns_modify, returns_get, returns_close]
    refine ⟨fun _ => ⟨trivial, hsame⟩, fun hcb => ⟨fun hfd => ⟨fun h => absurd hfd (Int.not_le.2 h), fun _ => ?_⟩,
      fun hfd => ⟨fun _ => ⟨trivial, hsame⟩, fun h => absurd (Int.not_lt.1 h) hfd⟩⟩⟩
    refine ⟨fun hms => ⟨fun hset => absurd ⟨hcb, hfd, fun _ => hset.2⟩ htk, fun _ => ⟨fun _ => ⟨trivial, _, _, rfl, fun f => ?_⟩,
      fun h => absurd (by decide) h⟩⟩, fun hms => absurd ⟨hcb, hfd, fun h => absurd h hms⟩ htk⟩
    by_cases h : f = out.timerfd
    · exact .inr (by rw [h, Function.update_self])
    · exact .inl (Function.update_of_ne h _ _)
  | modifyFd fd events =>
    have hneg : fd < 0 := Int.not_le.1 hw
    simp only [Op.exec, mainloopModifyFd, hneg, if_true, returns_bind, returns_pure]
    exact ⟨trivial, hsame⟩
  | modifyTimeout fd msec =>
    simp only [Op.exec, mainloopModifyTimeout, mainloopModifyFd, timeoutSet, returns_ite, returns_bind, returns_pure,
      returns_modify, returns_get]
    refine ⟨fun hset => ⟨fun h => absurd h (by decide), fun _ => ⟨fun _ => ⟨trivial, l.interest, _, rfl, fun _ => .inl rfl⟩,
      fun hneg => absurd ⟨Int.not_lt.1 hneg, hset⟩ hw⟩⟩, fun _ => ⟨fun _ => ⟨trivial, hsame⟩, fun h => absurd (by decide) h⟩⟩
  | removeFd fd =>
    have hneg : fd < 0 := Int.not_le.1 hw
    simp only [Op.exec, removeBegin, hneg, if_true, returns_bind, returns_pure]
    exact ⟨trivial, hsame⟩
  | quit => exact absurd rfl hq

/-- The effect of a call next to a free list or to what is left of one. -/
inductive Handled (l : Loop) (L : List Nat) (out : Outcome) : Op → Option Removal → Loop → Prop
  | idle {op : Op} (interest : Int → Option Registration) (timers : Int → Option ItValue)
      (hi : ∀ fd reg, interest fd = some reg → l.interest fd = some reg ∨ ∃ x ∈ L, reg.ptr = some x) :
      Handled l L out op none { l with interest, timers }
  | addFd {fd : Int} {events : Events} {callback destroy : Callback} {userData : Nat} {l' : Loop} (F : List Nat)
      (hl : Lists l L F) (h : Added l F .general (AddFails l fd callback out) l') :
      Handled l L out (.addFd fd events callback destroy userData) none l'
  | addTimeout {msec : Int} {callback destroy : Callback} {userData : Nat} {l' : Loop} (F : List Nat)
      (hl : Lists l L F) (h : Added l F .timer False l') :
      Handled l L out (.addTimeout msec callback destroy userData) none l'
  | begun {fd : Int} {r : Removal} {l' : Loop} (h : Begun l L fd out (.inr r) l') :
      Handled l L out (.removeFd fd) (some r) l'
  | quit (F : List Nat) (hl : Lists l L F) :
      Handled l L out .quit none { l with mem := freed l.mem F, mainloopTerminate := true }

theorem Handled.of_modified {l l' : Loop} {L : List Nat} {out : Outcome} {op : Op} (hm : Modified l L l') :
    Handled l L out op none l' := by
  cases hm with
  | kept timers => exact .idle l.interest timers fun _ _ h => .inl h
  | renewed X x Z d ev timers hL hx hX hi =>
    refine .idle _ timers fun fd reg hreg => ?_
    by_cases hfd : fd = d.fd
    · rw [hfd, Function.update_self] at hreg
      cases hreg
      exact .inr ⟨x, by simp [hL], rfl⟩
    · rw [Function.update_of_ne hfd] at hreg
      exact .inl hreg

theorem returns_exec_kept {l : Loop} {L : List Nat} {op : Op} {out : Outcome} (hk : Kept l L)
    (htk : op.takes out → ¬ Stale l) (hq : op = .quit → ¬ Stale l) :
    Returns (op.exec out) l (Handled l L out op) := by
  rcases hk with ⟨F, hl⟩ | ⟨hs, hlive, hst⟩
  · refine (returns_exec hl op out).mono fun r l' he => ?_
    cases he with
    | addFd h => exact .addFd F hl h
    | addTimeout h => exact .addTimeout F hl h
    | modifyFd h => exact .of_modified h
    | modifyTimeout h => exact .of_modified h
    | missing h => cases h; exact .idle l.interest l.timers fun _ _ h => .inl h
    | begun h => exact .begun h
    | quit => exact .quit F hl
  · by_cases hw : op.walks l out
    · cases op with
      | modifyFd fd events =>
        exact (returns_mainloopModifyFd hlive hs.below l.timers events).bind fun _ _ h =>
          (returns_pure _ _ _).2 (.of_modified h)
      | modifyTimeout fd msec =>
        exact (returns_mainloopModifyTimeout hlive hs.below msec).bind fun _ _ h =>
          (returns_pure _ _ _).2 (.of_modified h)
      | removeFd fd =>
        refine (returns_removeBegin hlive hs.below).bind fun r l' h => ?_
        cases r with
        | inl ret => cases h; exact (returns_pure _ _ _).2 (.idle l.interest l.timers fun _ _ h => .inl h)
        | inr r => exact (returns_pure _ _ _).2 (.begun h)
      | _ => exact absurd hw not_false
    · refine (returns_exec_idle (fun h => htk h hst) hw fun h => hq h hst).mono ?_
      rintro _ _ ⟨rfl, interest, timers, rfl, hi⟩
      refine .idle interest timers fun fd reg hreg => .inl ?_
      rcases hi fd with h | h <;> rw [h] at hreg
      · exact hreg
      · cases hreg

/-! ## What a step does -/

inductive Step : Machine → Label → Machine → Prop
  | call {l l' : Loop} {f : Frame} {stack : List Frame} {op : Op} {out : Outcome} {r : Option Removal}
      (hf : f.user) (ho : out.possible l) (h : op.exec out l = .ok (r, l')) :
      Step ⟨l, f :: stack⟩ (.call op out) ⟨l', r.toList.map .removal ++ f :: stack⟩
  | close {l : Loop} {f : Frame} {stack : List Frame} {fd : Int} (hf : f.user) :
      Step ⟨l, f :: stack⟩ (.close fd) ⟨{ l with
        timers := Function.update l.timers fd none
        interest := Function.update l.interest fd none }, f :: stack⟩
  | returned {l : Loop} {stack : List Frame} : Step ⟨l, .callback :: stack⟩ .ret ⟨l, stack⟩
  | removed {l l' : Loop} {stack : List Frame} {r : Removal} {ret : Int} (h : removeEnd r l = .ok (ret, l')) :
      Step ⟨l, .removal r :: stack⟩ .ret ⟨l', stack⟩
  | swept {l l' : Loop} {stack : List Frame} {data tmp : Ptr Nat} {destroy : Callback}
      (h : mainloopFree data l = .ok ((), l')) :
      Step ⟨l, .sweepDestroy data tmp destroy :: stack⟩ .ret ⟨l', .sweep tmp :: stack⟩
  | run {l : Loop} {stack : List Frame} : Step ⟨l, .program :: stack⟩ .run ⟨l, .dispatch [] :: stack⟩
  | wait {l : Loop} {stack : List Frame} {ready : List (Int × EpollEvents)} (ht : l.mainloopTerminate = false)
      (hr : readyPossible l ready) :
      Step ⟨l, .dispatch [] :: stack⟩ (.wait ready) ⟨l, .dispatch (batch l ready) :: stack⟩
  | called {l l' : Loop} {stack : List Frame} {ev : Ready} {rest : List Ready} {readOk : Bool}
      (h : dispatchEvent ev readOk l = .ok (true, l')) :
      Step ⟨l, .dispatch (ev :: rest) :: stack⟩ (.next readOk) ⟨l', .callback :: .dispatch rest :: stack⟩
  | passed {l l' : Loop} {stack : List Frame} {ev : Ready} {rest : List Ready} {readOk : Bool}
      (h : dispatchEvent ev readOk l = .ok (false, l')) :
      Step ⟨l, .dispatch (ev :: rest) :: stack⟩ (.next readOk) ⟨l', .dispatch rest :: stack⟩
  | finish {l : Loop} {stack : List Frame} (ht : l.mainloopTerminate = true) :
      Step ⟨l, .dispatch [] :: stack⟩ .sweep ⟨l, .sweep l.mainloopDataHead :: stack⟩
  | done {l : Loop} {stack : List Frame} : Step ⟨l, .sweep none :: stack⟩ .sweep ⟨l, stack⟩
  | sweep {l l' : Loop} {stack : List Frame} {data : Nat} {tmp : Ptr Nat} {destroy : Callback}
      (h : sweepBegin (some data) l = .ok ((tmp, destroy), l')) :
      Step ⟨l, .sweep (some data) :: stack⟩ .sweep ⟨l', .sweepDestroy (some data) tmp destroy :: stack⟩

theorem resume_ok {m : LoopProg (List Frame)} {l : Loop} {stack : List Frame} {m' : Machine}
    (h : resume m l stack = .ok m') : Returns m l fun frames l' => m' = ⟨l', frames ++ stack⟩ := by
  unfold resume at h
  split at h
  · next frames l' hm => cases h; exact ⟨frames, l', hm, rfl⟩
  · cases h

theorem resume_error {m : LoopProg (List Frame)} {l : Loop} {stack : List Frame} {e : Fault}
    (h : resume m l stack = .error e) : m l = .error e := by
  unfold resume at h
  split at h
  · cases h
  · next hm => cases h; exact hm

/-- Every step of the machine is one of these. -/
theorem step_cases {m m' : Machine} {label : Label} (h : step m label = some (.ok m')) : Step m label m' := by
  obtain ⟨l, stack⟩ := m
  unfold step at h
  split at h
  · next f stack op out hstack =>
    obtain rfl := hstack
    split at h
    · next hc =>
      have hr := resume_ok (Option.some.inj h)
      simp only [returns_bind, returns_pure] at hr
      obtain ⟨r, l', he, rfl⟩ := hr
      rw [List.append_assoc]
      exact .call hc.1 hc.2 he
    · cases h
  · next f stack fd hstack =>
    obtain rfl := hstack
    split at h
    · next hf =>
      have hr := resume_ok (Option.some.inj h)
      simp only [returns_bind, returns_close, returns_pure] at hr
      subst hr
      exact .close hf
    · cases h
  · next stack hstack =>
    obtain rfl := hstack
    have hr := resume_ok (Option.some.inj h)
    simp only [returns_pure] at hr
    subst hr
    exact .returned
  · next r stack hstack =>
    obtain rfl := hstack
    have hr := resume_ok (Option.some.inj h)
    simp only [returns_bind, returns_pure] at hr
    obtain ⟨ret, l', he, rfl⟩ := hr
    exact .removed he
  · next data tmp destroy stack hstack =>
    obtain rfl := hstack
    have hr := resume_ok (Option.some.inj h)
    simp only [returns_bind, returns_pure] at hr
    obtain ⟨_, l', he, rfl⟩ := hr
    exact .swept he
  · next stack hstack =>
    obtain rfl := hstack
    have hr := resume_ok (Option.some.inj h)
    simp only [returns_pure] at hr
    subst hr
    exact .run
  · next stack ready hstack =>
    obtain rfl := hstack
    split at h
    · next hc =>
      have hr := resume_ok (Option.some.inj h)
      simp only [returns_pure] at hr
      subst hr
      exact .wait hc.1 hc.2
    · cases h
  · next ev rest stack readOk hstack =>
    obtain rfl := hstack
    have hr := resume_ok (Option.some.inj h)
    simp only [returns_bind, returns_pure] at hr
    obtain ⟨called, l', he, rfl⟩ := hr
    cases called with
    | true => exact .called he
    | false => exact .passed he
  · next stack hstack =>
    obtain rfl := hstack
    split at h
    · next ht =>
      have hr := resume_ok (Option.some.inj h)
      simp only [returns_bind, returns_getHead, returns_pure] at hr
      subst hr
      exact .finish ht
    · cases h
  · next data stack hstack =>
    obtain rfl := hstack
    split at h
    · next hnull =>
      have hr := resume_ok (Option.some.inj h)
      simp only [returns_pure] at hr
      subst hr hnull
      exact .done
    · next hdata =>
      obtain ⟨x, rfl⟩ := Option.ne_none_iff_exists'.1 hdata
      have hr := resume_ok (Option.some.inj h)
      simp only [returns_bind, returns_pure] at hr
      obtain ⟨⟨tmp, destroy⟩, l', he, rfl⟩ := hr
      exact .sweep he
  · cases h

/-- Every fault of the machine is a fault of one of these. -/
inductive StepFault (e : Fault) : Machine → Label → Prop
  | call {l : Loop} {f : Frame} {stack : List Frame} {op : Op} {out : Outcome} (hf : f.user)
      (h : op.exec out l = .error e) : StepFault e ⟨l, f :: stack⟩ (.call op out)
  | removed {l : Loop} {stack : List Frame} {r : Removal} (h : removeEnd r l = .error e) :
      StepFault e ⟨l, .removal r :: stack⟩ .ret
  | swept {l : Loop} {stack : List Frame} {data tmp : Ptr Nat} {destroy : Callback}
      (h : mainloopFree data l = .error e) : StepFault e ⟨l, .sweepDestroy data tmp destroy :: stack⟩ .ret
  | dispatch {l : Loop} {stack : List Frame} {ev : Ready} {rest : List Ready} {readOk : Bool}
      (h : dispatchEvent ev readOk l = .error e) : StepFault e ⟨l, .dispatch (ev :: rest) :: stack⟩ (.next readOk)
  | sweep {l : Loop} {stack : List Frame} {data : Nat} (h : sweepBegin (some data) l = .error e) :
      StepFault e ⟨l, .sweep (some data) :: stack⟩ .sweep

theorem bind_error {α β : Type} {m : LoopProg α} {f : α → β} {l : Loop} {e : Fault}
    (h : (do let a ← m; pure (f a)) l = .error e) : m l = .error e := by
  simp only [bind, StateT.bind] at h
  cases hm : m l with
  | error e' => simpa [hm, Except.bind] using h
  | ok r =>
    rw [hm] at h
    cases h

theorem step_error_cases {m : Machine} {label : Label} {e : Fault} (h : step m label = some (.error e)) :
    StepFault e m label := by
  obtain ⟨l, stack⟩ := m
  unfold step at h
  split at h
  · next f stack op out hstack =>
    obtain rfl := hstack
    split at h
    · next hc => exact .call hc.1 (bind_error (resume_error (Option.some.inj h)))
    · cases h
  · split at h
    · exact absurd (resume_error (Option.some.inj h)) nofun
    · cases h
  · exact absurd (resume_error (Option.some.inj h)) nofun
  · next hstack => obtain rfl := hstack; exact .removed (bind_error (resume_error (Option.some.inj h)))
  · next hstack => obtain rfl := hstack; exact .swept (bind_error (resume_error (Option.some.inj h)))
  · exact absurd (resume_error (Option.some.inj h)) nofun
  · split at h
    · exact absurd (resume_error (Option.some.inj h)) nofun
    · cases h
  · next hstack => obtain rfl := hstack; exact .dispatch (bind_error (resume_error (Option.some.inj h)))
  · split at h
    · exact absurd (resume_error (Option.some.inj h)) nofun
    · cases h
  · next hstack =>
    obtain rfl := hstack
    split at h
    · exact absurd (resume_error (Option.some.inj h)) nofun
    · next hdata =>
      obtain ⟨x, rfl⟩ := Option.ne_none_iff_exists'.1 hdata
      exact .sweep (bind_error (resume_error (Option.some.inj h)))
  · cases h

end MgStd.MainLoop
