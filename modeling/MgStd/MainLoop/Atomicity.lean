import MgStd.MainLoop.Lists
/-!
# Failed additions

What a negative return of `mainloop_add_fd` and `mainloop_add_timeout` leaves. A
registration that fails leaves the node of `mainloop_add_fd` on the live list,
and loses that of `mainloop_add_timeout`; without a node the latter leaves its
timer open.
-/

namespace MgStd.MainLoop

open MgStd.Lib

variable {l l' : Loop} {L F F' : List Nat} {p brk : Nat} {d : MainloopData} {fd : Int} {out : Outcome} {created : Int → Prop}

/-- Nothing of a failed call is left: the live list is as it was, the descriptors it created are closed, and its nodes and those
that were free are free, or released. -/
structure Undone (l : Loop) (L F : List Nat) (created : Int → Prop) (l' : Loop) : Prop where
  live : Chain MainloopData.next l'.mem l'.mainloopDataHead L
  records : ∀ x ∈ L, l'.mem x = l.mem x
  closed : ∀ fd, created fd → l'.timers fd = none
  nodes : ∃ F', Chain MainloopData.next l'.mem l'.mainloopFreeHead F' ∧
    ∀ x, x ∈ F ∨ l.brk ≤ x ∧ x < l'.brk → x ∈ F' ∨ l'.mem x = none

theorem Lists.undone (hl : Lists l L F) (hm : l'.mem = l.mem) (hb : l'.brk = l.brk) (hh : l'.mainloopDataHead = l.mainloopDataHead)
    (hf : l'.mainloopFreeHead = l.mainloopFreeHead) (hc : ∀ fd, created fd → l'.timers fd = none) : Undone l L F created l' := by
  have hl' := hl.of_eq hm hb hh hf
  refine ⟨hl'.live, fun x _ => by rw [hm], hc, F, hl'.free, fun x hx => hx.imp_right fun hx => ?_⟩
  rw [hb] at hx
  omega

/-- A node that was taken and linked is not undone. -/
theorem Picked.not_undone_linked (hl : Lists l L F) (hp : Picked l F p F' brk) (hh : l'.mainloopDataHead = some p) :
    ¬ Undone l L F created l' := by
  intro hu
  have hlive := hu.live
  rw [hh] at hlive
  obtain ⟨-, ys, -, rfl, -⟩ := chain_some.1 hlive
  exact (hp.fresh hl).1 (by simp)

/-- A node that was taken and is on no list is not undone. -/
theorem Picked.not_undone_lost (hl : Lists l L F) (hp : Picked l F p F' brk) (hcb : d.type = .general → d.eventCallback ≠ none)
    (hm : l'.mem = Function.update l.mem p (some d)) (hb : l'.brk = brk) (hh : l'.mainloopDataHead = l.mainloopDataHead)
    (hf : l'.mainloopFreeHead = F'.head?) : ¬ Undone l L F created l' := by
  rintro ⟨-, -, -, F₂, hfree, hnodes⟩
  obtain rfl := Chain.unique hfree (hl.take hp hcb hm hb hh hf).free
  have hpF : p ∈ F ∨ l.brk ≤ p ∧ p < l'.brk := by
    rcases hp with ⟨rfl, -⟩ | ⟨-, -, rfl, rfl⟩
    · simp
    · exact .inr ⟨Nat.le_refl _, by omega⟩
  rcases hnodes p hpF with hmem | hnone
  · exact (hp.fresh hl).2.1 hmem
  · rw [hm, Function.update_self] at hnone
    cases hnone

/-! ## Descriptors -/

theorem returns_mainloopAddFd_undone (hl : Lists l L F) (events : Events) (callback destroy : Callback) (userData : Nat) :
    Returns (mainloopAddFd epoll fd events callback destroy userData out) l fun ret l' =>
      (ret < 0 → Undone l L F (fun _ => False) l') ↔ ¬ AddFails l fd callback out := by
  simp only [mainloopAddFd, returns_ite, returns_pure, not_or]
  refine ⟨fun hbad => iff_of_true (fun _ => hl.undone rfl rfl rfl rfl fun _ hf => hf.elim) fun hf => ?_, ?_⟩
  · rcases hbad with hfd | hcb
    · exact Int.not_lt.2 hf.1.1 hfd
    · exact hf.1.2.1 hcb
  rintro ⟨hfd, hcb⟩
  rw [returns_bind]
  refine (returns_takeNode hl.free).mono ?_
  rintro _ _ (⟨rfl, rfl, hnone⟩ | ⟨p, F', brk, d, rfl, hp, hget, rfl⟩)
  · simp only [if_true, returns_pure]
    exact iff_of_true (fun _ => hl.undone rfl rfl rfl rfl fun _ hf => hf.elim) fun hf => hnone hf.1.2.2
  · simp only [reduceCtorEq, if_false, returns_bind, returns_newEntry, returns_setNode, Function.update_self,
      Option.some.injEq, exists_eq_left', Function.update_idem, returns_getHead, returns_setHead, epoll, epollAddFd,
      returns_nodeOf, epollCtlAdd, returns_get, returns_ite, returns_modify, returns_pure, returns_note,
      decide_false]
    have hfd := Int.not_lt.1 hfd
    refine ⟨fun hadd => ⟨fun _ => ?_, fun h => absurd (Int.le_refl 0) h⟩,
      fun hadd => ⟨fun h => absurd h (by decide), fun _ => ?_⟩⟩
    · exact iff_of_true (fun h => absurd h (by decide)) fun hf => hf.2 hadd
    · exact iff_of_false (fun hu => hp.not_undone_linked hl rfl (hu (by decide))) fun hok => hok ⟨⟨hfd, hcb, hget⟩, hadd⟩

/-! ## Timers -/

/-- `mainloop_add_timeout` gets to the node: its timer is created, and set where it is to be set. -/
def TimeoutStarts (msec : Int) (callback : Callback) (out : Outcome) : Prop :=
  callback ≠ none ∧ 0 ≤ out.timerfd ∧ (0 < msec → out.settime = true)

/-- After that it gets no node, or the registration fails. -/
def TimeoutFails (l : Loop) (msec : Int) (callback : Callback) (out : Outcome) : Prop :=
  TimeoutStarts msec callback out ∧
    ¬ ((l.mainloopFreeHead ≠ none ∨ out.malloc) ∧ (l.interest out.timerfd).isNone ∧ out.ctl)

/-- The descriptor that `mainloop_add_timeout` creates. -/
def CreatesTimer (callback : Callback) (out : Outcome) (fd : Int) : Prop :=
  callback ≠ none ∧ 0 ≤ out.timerfd ∧ fd = out.timerfd

theorem returns_addTimer_undone (hl : Lists l L F) (hfd : 0 ≤ fd) {timers : Int → Option ItValue} (ht : timers fd ≠ none)
    (hc : created fd) (callback destroy : Callback) (userData : Nat) :
    Returns (addTimer epoll fd callback destroy userData out) { l with timers } fun ret l' =>
      (ret < 0 → Undone l L F created l') ↔
        (l.mainloopFreeHead ≠ none ∨ out.malloc) ∧ (l.interest fd).isNone ∧ out.ctl := by
  rw [addTimer, returns_bind]
  refine (returns_takeNode (l := { l with timers }) hl.free).mono ?_
  rintro _ _ (⟨rfl, rfl, hnone⟩ | ⟨p, F', brk, d, rfl, hp, hget, rfl⟩)
  · -- the timer stays open
    simp only [if_true, returns_pure]
    exact iff_of_false (fun hu => ht ((hu (by decide)).closed fd hc)) fun hok => hnone hok.1
  · simp only [reduceCtorEq, if_false, returns_bind, returns_newEntry, returns_setNode, Function.update_self,
      Option.some.injEq, exists_eq_left', Function.update_idem, returns_getHead, returns_setHead, epoll, epollAddFd,
      returns_nodeOf, epollCtlAdd, returns_get, returns_ite, returns_modify, returns_pure, returns_note, returns_close]
    refine ⟨fun hadd => ⟨fun h => absurd h (by decide), fun _ => ?_⟩, fun hadd => ⟨fun _ => ?_, fun h => absurd (by decide) h⟩⟩
    · exact iff_of_true (fun h => absurd hfd (Int.not_le.2 h)) ⟨hget, hadd⟩
    · refine iff_of_false (fun hu => absurd (hu (by decide)) ?_) fun hok => hadd hok.2
      refine hp.not_undone_lost hl ?_ rfl rfl rfl rfl
      exact fun h => by cases h

theorem returns_mainloopAddTimeout_undone (hl : Lists l L F) (msec : Int) (callback destroy : Callback) (userData : Nat) :
    Returns (mainloopAddTimeout epoll msec callback destroy userData out) l fun ret l' =>
      (ret < 0 → Undone l L F (CreatesTimer callback out) l') ↔ ¬ TimeoutFails l msec callback out := by
  simp only [mainloopAddTimeout, timerfdCreate, timeoutSet, returns_ite, returns_bind, returns_pure, returns_modify,
    returns_get, returns_close]
  have hadd {timers : Int → Option ItValue} (hcb : callback ≠ none) (hfd : 0 ≤ out.timerfd) (hset : 0 < msec → out.settime = true)
      (ht : timers out.timerfd ≠ none) :
      Returns (addTimer epoll out.timerfd callback destroy userData out) { l with timers } fun ret l' =>
        (ret < 0 → Undone l L F (CreatesTimer callback out) l') ↔ ¬ TimeoutFails l msec callback out := by
    refine (returns_addTimer_undone hl hfd ht ⟨hcb, hfd, rfl⟩ callback destroy userData).mono fun ret l' h => h.trans ?_
    exact ⟨fun hok hf => hf.2 hok, fun hok => not_not.1 fun hno => hok ⟨⟨hcb, hfd, hset⟩, hno⟩⟩
  have hearly {l' : Loop} {ret : Int} (hu : Undone l L F (CreatesTimer callback out) l') (hno : ¬ TimeoutStarts msec callback out) :
      (ret < 0 → Undone l L F (CreatesTimer callback out) l') ↔ ¬ TimeoutFails l msec callback out :=
    iff_of_true (fun _ => hu) fun hf => hno hf.1
  refine ⟨fun hcb => ?_, fun hcb => ⟨fun hfd => ⟨fun h => absurd hfd (Int.not_le.2 h), fun _ => ?_⟩,
    fun hfd => ⟨fun _ => ?_, fun h => absurd (Int.not_lt.1 h) hfd⟩⟩⟩
  · exact hearly (hl.undone rfl rfl rfl rfl fun fd hc => absurd hcb hc.1) fun hs => hs.1 hcb
  · refine ⟨fun hpos => ⟨fun hset => ⟨fun h => absurd h (by decide), fun _ => ?_⟩,
      fun hset => ⟨fun _ => ?_, fun h => absurd (by decide) h⟩⟩, fun hpos => ?_⟩
    · exact hadd hcb hfd (fun _ => hset.2) (by rw [Function.update_self]; exact Option.some_ne_none _)
    · refine hearly (hl.undone rfl rfl rfl rfl ?_) fun hs => hset ⟨by simp, hs.2.2 hpos⟩
      rintro _ ⟨-, -, rfl⟩
      exact Function.update_self ..
    · exact hadd hcb hfd (fun h => absurd h hpos) (by rw [Function.update_self]; exact Option.some_ne_none _)
  · exact hearly (hl.undone rfl rfl rfl rfl fun fd hc => absurd hc.2.1 hfd) fun hs => hfd hs.2.1

/-- A negative return of `mainloop_add_fd` leaves nothing behind if and only if it is not the registration that failed, and one of
`mainloop_add_timeout` if and only if it failed before it asked for a node. -/
theorem mainloop_add_atomic_iff (hl : Lists l L F) (destroy : Callback) (userData : Nat) (callback : Callback) (out : Outcome) :
    (∀ fd events, Returns (mainloopAddFd epoll fd events callback destroy userData out) l (fun ret l' =>
      ret < 0 → Undone l L F (fun _ => False) l') ↔ ¬ AddFails l fd callback out) ∧
    ∀ msec, Returns (mainloopAddTimeout epoll msec callback destroy userData out) l (fun ret l' =>
      ret < 0 → Undone l L F (CreatesTimer callback out) l') ↔ ¬ TimeoutFails l msec callback out :=
  ⟨fun _ events => (returns_mainloopAddFd_undone hl events callback destroy userData).iff_of,
    fun msec => (returns_mainloopAddTimeout_undone hl msec callback destroy userData).iff_of⟩

/-- The descriptors 3 and 4 were added, and 4 was removed. -/
def oneFree : Loop := { mainloopInit with
  mem := Function.update (Function.update (fun _ => none) 0 (some { fd := 3, eventCallback := some 1 })) 1
    (some { fd := 4, eventCallback := some 1, entry := 1 })
  brk := 2
  mainloopDataHead := some 0
  mainloopFreeHead := some 1
  interest := Function.update (fun _ => none) 3 (some ⟨{}, some 0, 0⟩)
  entries := 2 }

theorem lists_oneFree : Lists oneFree [0] [1] := by
  have hmem : ∀ x d, oneFree.mem x = some d → x < 2 ∧ d.eventCallback = some 1 := by
    intro x d hd
    change Function.update (Function.update (fun _ => none) 0 _) 1 _ x = some d at hd
    simp only [Function.update_apply] at hd
    split at hd
    · next hx =>
      cases hd
      exact ⟨by omega, rfl⟩
    · split at hd
      · next hx =>
        cases hd
        exact ⟨by omega, rfl⟩
      · cases hd
  refine ⟨⟨fun x d hd => (hmem x d hd).1, fun x d hd _ => ?_⟩, ⟨rfl, _, rfl, rfl⟩, ⟨rfl, _, rfl, rfl⟩, by decide⟩
  rw [(hmem x d hd).2]
  exact Option.some_ne_none 1

/-- With a live and a free node: a registration that fails leaves the node of descriptor 5 behind, and a timer that
cannot be set leaves nothing. -/
theorem mainloop_add_atomic_iff_one_free :
    ¬ Returns (mainloopAddFd epoll 5 {} (some 1) none 0 { ctl := false }) oneFree (fun ret l' =>
      ret < 0 → Undone oneFree [0] [1] (fun _ => False) l') ∧
    Returns (mainloopAddTimeout epoll 10 (some 1) none 0 { settime := false, timerfd := 7 }) oneFree fun ret l' =>
      ret < 0 → Undone oneFree [0] [1] (CreatesTimer (some 1) { settime := false, timerfd := 7 }) l' := by
  have hfd := (mainloop_add_atomic_iff lists_oneFree none 0 (some 1) { ctl := false }).1 5 {}
  have htimeout := (mainloop_add_atomic_iff lists_oneFree none 0 (some 1) { settime := false, timerfd := 7 }).2 10
  constructor
  · intro hret
    refine hfd.1 hret ⟨⟨by decide, Option.some_ne_none 1, .inl (Option.some_ne_none 1)⟩, ?_⟩
    rintro ⟨-, hctl⟩
    cases hctl
  · refine htimeout.2 ?_
    rintro ⟨hstarts, -⟩
    cases hstarts.2.2 (by decide)

/-- `epoll_ctl` fails for the descriptor 3: its node is the live list. -/
theorem mainloop_add_fd_linked :
    ¬ ∀ (l : Loop) (L F : List Nat) (fd : Int) (events : Events) (callback destroy : Callback) (userData : Nat) (out : Outcome),
      Lists l L F → Returns (mainloopAddFd epoll fd events callback destroy userData out) l fun ret l' =>
        ret < 0 → Undone l L F (fun _ => False) l' := by
  intro hall
  obtain ⟨ret, l', hrun, hu⟩ := hall mainloopInit [] [] 3 {} (some 1) none 0 { ctl := false } lists_mainloopInit
  cases hrun
  cases (hu (by decide)).live

end MgStd.MainLoop
