import Mathlib.Algebra.Group.Int.Defs
import Mathlib.Algebra.Group.Nat.Defs
import MgStd.MainLoop.Lists
/-!
# mglibcurl.c

The timer of libcurl is one timer of the main loop, on a descriptor that is
remembered for good. The request to delete the timer closes it, and no later
request can set it again.
-/

namespace MgStd.Curl

open MgStd.Lib MgStd.MainLoop

variable {l l' : Loop} {L F : List Nat} {timerCb multi x msec : Nat} {fd : Int} {d : MainloopData} {out : Outcome}

/-- `mainloop_remove_timeout`, with destroy callbacks that leave the loop alone. -/
def mainloopRemoveTimeout (platform : Platform) (fd : Int) (out : Outcome) : LoopProg Int :=
  mainloopRemoveFd platform fd out fun _ => pure ()

/-- `usrp` points to the descriptor `fd`; `timeoutMs` is a `long`, and cut to an `int` in the second call. -/
def multiTimerCb (timeoutMs fd : Int) (out : Outcome) : LoopProg Int := do
  if timeoutMs = -1 then do
    let _ ← mainloopRemoveTimeout epoll fd out
    pure 0
  else do
    let _ ← mainloopModifyTimeout epoll fd (timeoutMs.bmod (2 ^ 32)) out
    pure 0

/-! ## What the requests ask for -/

/-- `msec` milliseconds, as the timer has them. -/
def expiry (msec : Nat) : ItValue := ⟨msec / 1000, msec % 1000 * 1000000⟩

/-- The live list has a node for `fd`, which epoll will report when the timer expires after `msec` milliseconds. -/
structure Armed (l : Loop) (timerCb multi : Nat) (fd : Int) (msec : Nat) (x : Nat) (d : MainloopData) : Prop where
  live : ∃ L, Chain MainloopData.next l.mem l.mainloopDataHead L ∧ x ∈ L
  node : l.mem x = some d
  fd_eq : d.fd = fd
  type : d.type = .timer
  timeoutCallback : d.timeoutCallback = some timerCb
  userData : d.userData = multi
  interest : ∃ reg, l.interest fd = some reg ∧ reg.ptr = some x ∧ reg.entry = d.entry ∧ reg.events = { epollin := true }
  expiry : l.timers fd = some (expiry msec)

/-- What is to hold after a request with this timeout. -/
structure Served (l : Loop) (timerCb multi : Nat) (fd timeoutMs : Int) : Prop where
  delete : timeoutMs = -1 → ∀ v, l.timers fd = some v → v = {}
  set : 0 ≤ timeoutMs → ∃ x d, Armed l timerCb multi fd (if timeoutMs = 0 then 1 else timeoutMs.toNat) x d

/-- Every request comes back, and is served, one after the other. -/
def Serves (timerCb multi : Nat) (fd : Int) : List Int → Loop → Prop
  | [], _ => True
  | timeoutMs :: rest, l => Returns (multiTimerCb timeoutMs fd {}) l fun _ l' =>
      Served l' timerCb multi fd timeoutMs ∧ Serves timerCb multi fd rest l'

/-- When an armed timer expires, `timer_cb` is called. -/
theorem Armed.called (h : Armed l timerCb multi fd msec x d) (hfd : 0 ≤ fd) :
    ∃ reg, l.interest fd = some reg ∧ Returns (dispatchEvent ⟨reg.events, reg.ptr, reg.entry⟩ true) l fun c l' =>
      c = true ∧ l' = { l with log := l.log ++ [.called d.entry d.entry fd { eventIn := true } multi] } := by
  obtain ⟨reg, hreg, hptr, hentry, hev⟩ := h.interest
  have hneg : ¬ fd < 0 := Int.not_lt.2 hfd
  refine ⟨reg, hreg, ?_⟩
  rw [hptr, hentry, hev]
  simp [dispatchEvent, mainloopTimeoutProcess, callTimeout, h.node, h.type, h.timeoutCallback, h.userData, h.fd_eq, eventsOf, hneg]

/-! ## The descriptor -/

/-- The timer is open, registered, and the first node of the live list. -/
structure Open (l : Loop) (timerCb multi : Nat) (fd : Int) (L F : List Nat) (x : Nat) (d : MainloopData) : Prop where
  lists : Lists l (x :: L) F
  node : l.mem x = some d
  fd_eq : d.fd = fd
  nonneg : 0 ≤ fd
  type : d.type = .timer
  timeoutCallback : d.timeoutCallback = some timerCb
  userData : d.userData = multi
  interest : l.interest fd ≠ none
  opened : l.timers fd ≠ none

/-- The timer is closed. -/
structure Closed (l : Loop) (fd : Int) (L F : List Nat) : Prop where
  lists : Lists l L F
  nonneg : 0 ≤ fd
  timers : l.timers fd = none

/-- `mainloop_add_timeout` opens it. -/
theorem returns_mainloopAddTimeout_open (hl : Lists l L F) (msec : Int) (destroy : Callback) :
    Returns (mainloopAddTimeout epoll msec (some timerCb) destroy multi out) l fun fd l' =>
      0 ≤ fd → ∃ L F x d, Open l' timerCb multi fd L F x d := by
  have hadd : ∀ {timers : Int → Option ItValue}, 0 ≤ out.timerfd → timers out.timerfd ≠ none →
      Returns (addTimer epoll out.timerfd (some timerCb) destroy multi out) { l with timers } fun fd l' =>
        0 ≤ fd → ∃ L F x d, Open l' timerCb multi fd L F x d := by
    intro timers hfd htimer
    rw [addTimer, returns_bind]
    refine (returns_takeNode (l := { l with timers }) hl.free).mono ?_
    rintro _ _ (⟨rfl, rfl, -⟩ | ⟨p, F', brk, d, rfl, hp, -, rfl⟩)
    · simp only [if_true, returns_pure]
      exact fun h => absurd h (by decide)
    · simp only [reduceCtorEq, if_false, returns_bind, returns_newEntry, returns_setNode, Function.update_self,
        Option.some.injEq, exists_eq_left', Function.update_idem, returns_getHead, returns_setHead, epoll, epollAddFd,
        returns_nodeOf, epollCtlAdd, returns_get, returns_ite, returns_modify, returns_pure, returns_note, returns_close]
      refine ⟨fun hok => ⟨fun h => absurd h (by decide), fun _ _ => ?_⟩,
        fun _ => ⟨fun _ h => absurd h (by decide), fun h => absurd (by decide) h⟩⟩
      refine ⟨L, F', p, _, ?_, Function.update_self .., rfl, hfd, rfl, rfl, rfl, ?_, htimer⟩
      · refine hl.push hp rfl ?_ rfl rfl rfl rfl
        exact fun hty => by cases hty
      · simp
  simp only [mainloopAddTimeout, timerfdCreate, timeoutSet, returns_ite, returns_bind, returns_pure, returns_modify,
    returns_get, returns_close]
  refine ⟨fun h => absurd h (Option.some_ne_none _), fun _ => ⟨fun hfd => ⟨fun h => absurd hfd (Int.not_le.2 h), fun _ => ?_⟩,
    fun hfd => ⟨fun _ h => absurd h (by decide), fun h => absurd (Int.not_lt.1 h) hfd⟩⟩⟩
  refine ⟨fun _ => ⟨fun _ => ⟨fun h => absurd h (by decide), fun _ => hadd hfd ?_⟩,
    fun _ => ⟨fun _ h => absurd h (by decide), fun h => absurd (by decide) h⟩⟩, fun _ => hadd hfd ?_⟩
  · rw [Function.update_self]
    exact Option.some_ne_none _
  · rw [Function.update_self]
    exact Option.some_ne_none _

/-! ## Requests -/

/-- The lookup ends at the first node. -/
theorem Open.found {v : Ptr Nat × Ptr Nat} (h : Open l timerCb multi fd L F x d) (hv : Found l (x :: L) fd v) : v = (some x, none) := by
  have hx : HasFd l x fd := ⟨d, h.node, h.fd_eq⟩
  cases hv with
  | missing hmiss => exact absurd hx (hmiss x List.mem_cons_self)
  | found X y Z d' hL _ _ hX =>
    cases X with
    | nil =>
      cases hL
      rfl
    | cons z X =>
      cases hL
      exact absurd hx (hX x List.mem_cons_self)

/-- The timer and the registration are renewed. -/
theorem Open.renew (h : Open l timerCb multi fd L F x d) {interest : Int → Option Registration} {timers : Int → Option ItValue}
    (hi : interest fd ≠ none) (ht : timers fd ≠ none) : Open { l with interest, timers } timerCb multi fd L F x d where
  lists := h.lists.of_eq rfl rfl rfl rfl
  node := h.node
  fd_eq := h.fd_eq
  nonneg := h.nonneg
  type := h.type
  timeoutCallback := h.timeoutCallback
  userData := h.userData
  interest := hi
  opened := ht

theorem returns_timeoutSet (h : l.timers fd ≠ none) :
    Returns (timeoutSet fd msec {}) l fun ret l' =>
      ret = 0 ∧ l' = { l with timers := Function.update l.timers fd (some (expiry msec)) } := by
  have hexpiry : (⟨msec / 1000, (msec - msec / 1000 * 1000) * 1000 * 1000⟩ : ItValue) = expiry msec := by
    rw [expiry, ItValue.mk.injEq]
    exact ⟨rfl, by omega⟩
  simp [timeoutSet, h, hexpiry]

/-- A timer that is not open cannot be set. -/
theorem returns_timeoutSet_closed (h : l.timers fd = none) : Returns (timeoutSet fd msec {}) l fun ret l' => ret = -1 ∧ l' = l := by
  simp [timeoutSet, h]

theorem returns_mainloopModifyFd_open (h : Open l timerCb multi fd L F x d) :
    Returns (mainloopModifyFd epoll fd { eventIn := true } {}) l fun _ l' =>
      l' = { l with interest := Function.update l.interest fd (some ⟨{ epollin := true }, some x, d.entry⟩) } := by
  rw [mainloopModifyFd, if_neg (Int.not_lt.2 h.nonneg), returns_bind]
  refine (returns_findFd h.lists.live h.lists.below).mono ?_
  rintro v _ ⟨rfl, hv⟩
  rw [h.found hv]
  simp [epoll, epollModifyFd, epollCtlMod, h.node, h.fd_eq, h.interest]

/-- A request to set the timer, while it is open. -/
theorem returns_multiTimerCb_set (h : Open l timerCb multi fd L F x d) {timeoutMs : Int} (h0 : 0 ≤ timeoutMs) (h31 : timeoutMs < 2 ^ 31) :
    Returns (multiTimerCb timeoutMs fd {}) l fun _ l' =>
      Armed l' timerCb multi fd (if timeoutMs = 0 then 1 else timeoutMs.toNat) x d ∧ Open l' timerCb multi fd L F x d := by
  have hcut : timeoutMs.bmod (2 ^ 32) = timeoutMs := by
    rw [Int.bmod_def]
    omega
  have hne : timeoutMs ≠ -1 := by omega
  have hmsec : (if timeoutMs ≤ 0 then 1 else timeoutMs).toNat = if timeoutMs = 0 then 1 else timeoutMs.toNat := by
    split <;> split <;> omega
  rw [multiTimerCb, if_neg hne, hcut, returns_bind, mainloopModifyTimeout, hmsec, returns_bind]
  refine (returns_timeoutSet h.opened).mono ?_
  rintro _ _ ⟨rfl, rfl⟩
  have htimer : (Function.update l.timers fd (some (expiry (if timeoutMs = 0 then 1 else timeoutMs.toNat))) fd) ≠ none := by
    rw [Function.update_self]
    exact Option.some_ne_none _
  have hset := h.renew h.interest htimer
  rw [if_neg (by decide)]
  refine (returns_mainloopModifyFd_open hset).mono ?_
  rintro _ _ rfl
  rw [returns_pure]
  refine ⟨⟨⟨x :: L, h.lists.live, List.mem_cons_self⟩, h.node, h.fd_eq, h.type, h.timeoutCallback, h.userData, ?_, ?_⟩,
    hset.renew ?_ htimer⟩
  · exact ⟨_, Function.update_self .., rfl, rfl, rfl⟩
  · exact Function.update_self ..
  · rw [Function.update_self]
    exact Option.some_ne_none _

/-- Such a request comes to nothing once the timer is closed. -/
theorem returns_multiTimerCb_closed (h : Closed l fd L F) {timeoutMs : Int} (h0 : 0 ≤ timeoutMs) :
    Returns (multiTimerCb timeoutMs fd {}) l fun _ l' => l' = l := by
  have hne : timeoutMs ≠ -1 := by omega
  rw [multiTimerCb, if_neg hne, returns_bind, mainloopModifyTimeout, returns_bind]
  refine (returns_timeoutSet_closed h.timers).mono ?_
  rintro _ _ ⟨rfl, rfl⟩
  rw [if_pos (by decide)]
  simp

/-- A removal closes the timer, if it is the first node. -/
theorem returns_removeBegin_timers (hl : Lists l L F) (h0 : 0 ≤ fd) : Returns (removeBegin epoll fd out) l fun _ l' =>
    l'.timers = Function.update l.timers fd none ∨
      l'.timers = l.timers ∧ ∀ x L' d, L = x :: L' → l.mem x = some d → d.fd = fd → d.type ≠ .timer := by
  rw [removeBegin, if_neg (Int.not_lt.2 h0), returns_bind]
  refine (returns_findFd hl.live hl.below).mono ?_
  rintro _ l ⟨rfl, hmiss | ⟨X, y, Z, d, hL, hy, rfl, hX⟩⟩
  · simp only [if_true, returns_pure]
    refine .inr ⟨trivial, fun x L' d hL hx hfd => absurd ⟨d, hx, hfd⟩ (hmiss x ?_)⟩
    rw [hL]
    exact List.mem_cons_self
  · simp only [reduceCtorEq, if_false, returns_bind, returns_nodeOf]
    refine ⟨d, hy, returns_epollRemoveFd.mono ?_⟩
    rintro ret _ rfl
    have hfirst : ∀ x L' d', L = x :: L' → l.mem x = some d' → d'.fd = d.fd → d' = d := by
      intro x L' d' hL' hx hfd
      cases X with
      | nil =>
        cases hL.symm.trans hL'
        exact Option.some.inj (hx.symm.trans hy)
      | cons z X =>
        cases hL.symm.trans hL'
        exact absurd ⟨d', hx, hfd⟩ (hX x List.mem_cons_self)
    cases ht : d.type with
    | timer => simp [hy]
    | general =>
      have hgeneral : ∀ x L' d', L = x :: L' → l.mem x = some d' → d'.fd = d.fd → d'.type ≠ .timer := by
        intro x L' d' hL' hx hfd
        rw [hfirst x L' d' hL' hx hfd, ht]
        exact fun hty => by cases hty
      simp only [reduceCtorEq, if_false, returns_bind, returns_ite, returns_note, returns_pure]
      exact ⟨fun _ => .inr ⟨trivial, hgeneral⟩, fun _ => .inr ⟨trivial, hgeneral⟩⟩

/-- A request to delete the timer. -/
theorem returns_multiTimerCb_delete (hl : Lists l L F) (h0 : 0 ≤ fd)
    (h : l.timers fd = none ∨ ∃ x L' d, L = x :: L' ∧ l.mem x = some d ∧ d.fd = fd ∧ d.type = .timer) :
    Returns (multiTimerCb (-1) fd {}) l fun _ l' => ∃ L F, Closed l' fd L F := by
  simp only [multiTimerCb, if_true, returns_bind, returns_pure, mainloopRemoveTimeout, mainloopRemoveFd]
  refine ((returns_removeBegin hl.live hl.below).and (returns_removeBegin_timers hl h0)).mono ?_
  rintro r l₁ ⟨hb, ht⟩
  have hclosed : l₁.timers fd = none := by
    rcases ht with ht | ⟨ht, hgeneral⟩
    · rw [ht, Function.update_self]
    · rcases h with h | ⟨x, L', d, hL, hx, hfd, htype⟩
      · rw [ht, h]
      · exact absurd htype (hgeneral x L' d hL hx hfd)
  cases r with
  | inl ret =>
    cases hb
    exact (returns_pure _ _ _).2 ⟨L, F, hl, h0, hclosed⟩
  | inr r =>
    have hlists : Lists l₁ L F ∧ ∃ X x Z, L = X ++ x :: Z ∧ r.data = some x ∧ r.prev = X.getLast? := by
      cases hb with
      | found X x Z d ret interest timers _ hL hx hfd hX hdel hkeep =>
        exact ⟨hl.rewrite hx d.closed_next (MainloopData.closed_callable (hl.callable x d hx)) rfl rfl rfl rfl, X, x, Z, hL, rfl, rfl⟩
    obtain ⟨hl₁, X, x, Z, rfl, hdata, hprev⟩ := hlists
    simp only [returns_bind, returns_pure]
    refine (returns_removeEnd hl₁ hdata (hprev ▸ unlink_found X x Z)).mono fun ret l' hrem => ?_
    obtain ⟨mem, hl'⟩ := hrem.eq
    refine ⟨X ++ Z, x :: F, hrem.lists, h0, ?_⟩
    rw [hl']
    exact hclosed

/-! ## Sequences of requests -/

theorem Closed.served_delete (h : Closed l fd L F) : Served l timerCb multi fd (-1) := by
  refine ⟨fun _ v hv => ?_, fun h => absurd h (by decide)⟩
  rw [h.timers] at hv
  cases hv

/-- Once the timer is closed, requests to delete it are all that is served. -/
theorem Closed.serves_iff {ts : List Int} (h : Closed l fd L F) (hts : ∀ t ∈ ts, t = -1 ∨ 0 ≤ t ∧ t < 2 ^ 31) :
    Serves timerCb multi fd ts l ↔ ∀ t ∈ ts, t = -1 := by
  induction ts generalizing l L F with
  | nil => exact ⟨nofun, fun _ => trivial⟩
  | cons t ts ih =>
    have hrest : ∀ t ∈ ts, t = -1 ∨ 0 ≤ t ∧ t < 2 ^ 31 := fun t ht => hts t (List.mem_cons_of_mem _ ht)
    rw [Serves, List.forall_mem_cons]
    apply Returns.iff_of
    rcases hts t List.mem_cons_self with rfl | ⟨h0, -⟩
    · refine (returns_multiTimerCb_delete h.lists h.nonneg (.inl h.timers)).mono ?_
      rintro _ l' ⟨L', F', hl'⟩
      rw [ih hl' hrest]
      exact ⟨fun hs => ⟨rfl, hs.2⟩, fun hs => ⟨hl'.served_delete, hs.2⟩⟩
    · refine (returns_multiTimerCb_closed h h0).mono ?_
      rintro _ _ rfl
      refine iff_of_false (fun hs => ?_) fun hs => ?_
      · obtain ⟨x, d, harmed⟩ := hs.1.set h0
        have hexpiry := harmed.expiry
        rw [h.timers] at hexpiry
        cases hexpiry
      · omega

theorem Open.serves_iff {ts : List Int} (h : Open l timerCb multi fd L F x d) (hts : ∀ t ∈ ts, t = -1 ∨ 0 ≤ t ∧ t < 2 ^ 31) :
    Serves timerCb multi fd ts l ↔ ts.Pairwise fun t t' => t = -1 → t' = -1 := by
  induction ts generalizing l with
  | nil => exact ⟨fun _ => .nil, fun _ => trivial⟩
  | cons t ts ih =>
    have hrest : ∀ t ∈ ts, t = -1 ∨ 0 ≤ t ∧ t < 2 ^ 31 := fun t ht => hts t (List.mem_cons_of_mem _ ht)
    rw [Serves, List.pairwise_cons]
    apply Returns.iff_of
    rcases hts t List.mem_cons_self with rfl | ⟨h0, h31⟩
    · refine (returns_multiTimerCb_delete h.lists h.nonneg (.inr ⟨x, L, d, rfl, h.node, h.fd_eq, h.type⟩)).mono ?_
      rintro _ l' ⟨L', F', hl'⟩
      rw [hl'.serves_iff hrest]
      constructor
      · rintro ⟨-, hs⟩
        exact ⟨fun t' ht' _ => hs t' ht', List.pairwise_of_forall_mem_list fun t _ t' ht' _ => hs t' ht'⟩
      · rintro ⟨hs, -⟩
        exact ⟨hl'.served_delete, fun t' ht' => hs t' ht' rfl⟩
    · refine (returns_multiTimerCb_set h h0 h31).mono ?_
      rintro _ l' ⟨harmed, hopen⟩
      rw [ih hopen hrest]
      constructor
      · rintro ⟨-, hs⟩
        exact ⟨fun t' _ ht => absurd ht (by omega), hs⟩
      · rintro ⟨-, hs⟩
        exact ⟨⟨fun ht => absurd ht (by omega), fun _ => ⟨x, d, harmed⟩⟩, hs⟩

/-- On a descriptor that `mainloop_add_timeout` made, all requests are served if and
only if none to set the timer comes after one to delete it. -/
theorem multi_timer_cb_iff {l₀ : Loop} (hl : Lists l₀ L F) (msec : Int) (destroy : Callback)
    (hadd : mainloopAddTimeout epoll msec (some timerCb) destroy multi out l₀ = .ok (fd, l)) (h0 : 0 ≤ fd)
    (ts : List Int) (hts : ∀ t ∈ ts, t = -1 ∨ 0 ≤ t ∧ t < 2 ^ 31) :
    Serves timerCb multi fd ts l ↔ ts.Pairwise fun t t' => t = -1 → t' = -1 := by
  obtain ⟨L, F, x, d, hopen⟩ := (returns_mainloopAddTimeout_open hl msec destroy).of_eq hadd h0
  exact hopen.serves_iff hts

/-- The descriptor 3, in the loop that was just initialised. -/
theorem mainloopAddTimeout_init :
    ∃ l, mainloopAddTimeout epoll 1000 (some 1) none 7 { timerfd := 3 } mainloopInit = .ok (3, l) := ⟨_, rfl⟩

theorem multi_timer_cb_iff_init :
    Returns (mainloopAddTimeout epoll 1000 (some 1) none 7 { timerfd := 3 }) mainloopInit fun fd l => Serves 1 7 fd [250, 0, -1, -1] l := by
  obtain ⟨l, hadd⟩ := mainloopAddTimeout_init
  have hserves := multi_timer_cb_iff lists_mainloopInit 1000 none hadd (by decide) [250, 0, -1, -1] (by decide)
  exact ⟨3, l, hadd, hserves.2 (by decide)⟩

/-- The timer is deleted, and then set to 250 milliseconds. -/
theorem multi_timer_cb_rearmed :
    Returns (mainloopAddTimeout epoll 1000 (some 1) none 7 { timerfd := 3 }) mainloopInit fun fd l => ¬ Serves 1 7 fd [-1, 250] l := by
  obtain ⟨l, hadd⟩ := mainloopAddTimeout_init
  obtain ⟨L, F, x, d, hopen⟩ := (returns_mainloopAddTimeout_open lists_mainloopInit 1000 none).of_eq hadd (by decide)
  refine ⟨3, l, hadd, fun hserves => ?_⟩
  have hpair := (hopen.serves_iff (by decide)).1 hserves
  exact absurd hpair (by decide)

end MgStd.Curl
