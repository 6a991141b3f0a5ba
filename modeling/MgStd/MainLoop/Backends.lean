import MgStd.MainLoop.Registration
import MgStd.MainLoop.Machine
import Mathlib.Data.List.Perm.Subperm
/-!
# The two back ends

The registrations that a sequence of calls makes are a list of requests. A back
end serves the main loop if what it stores says of every request what the calls
said: the interest set of epoll does, and so do the two descriptor sets and the
bound of select. From there the callbacks of one `epoll_run` and of one
`select_run` are functions of the requests and of what is ready.
-/

namespace MgStd.MainLoop

open MgStd.Lib

variable {l l' : Loop} {L F : List Nat} {x : Nat} {fd : Int}

/-! ## The requests -/

/-- A descriptor with the events asked for. -/
structure Request where
  fd : Int
  events : Events
  userData : Nat
  entry : Nat
  deriving DecidableEq, Repr

/-- What the calls asked for, the newest first. -/
structure Registry where
  entries : Nat := 0
  requests : List Request := []

def RegCall.apply (c : RegCall) (g : Registry) : Registry :=
  match c with
  | .addFd fd events _ _ userData => ⟨g.entries + 1, ⟨fd, events, userData, g.entries⟩ :: g.requests⟩
  | .modifyFd fd events => { g with requests := g.requests.map fun r => if r.fd = fd then { r with events } else r }
  | .removeFd fd => { g with requests := g.requests.filter fun r => r.fd ≠ fd }

def registry (calls : List RegCall) (g : Registry) : Registry := calls.foldl (fun g c => c.apply g) g

/-- Descriptors that are added are below `FD_SETSIZE`, and not there yet. -/
def RegCall.Allowed (c : RegCall) (g : Registry) : Prop :=
  match c with
  | .addFd fd _ callback _ _ => (0 ≤ fd ∧ fd < FD_SETSIZE) ∧ callback ≠ none ∧ ∀ r ∈ g.requests, r.fd ≠ fd
  | _ => True

instance (c : RegCall) (g : Registry) : Decidable (c.Allowed g) :=
  match c with
  | .addFd .. => inferInstanceAs (Decidable (_ ∧ _ ∧ _))
  | .modifyFd .. => .isTrue trivial
  | .removeFd .. => .isTrue trivial

def Allowed : List RegCall → Registry → Prop
  | [], _ => True
  | c :: calls, g => c.Allowed g ∧ Allowed calls (c.apply g)

instance decidableAllowed : ∀ (calls : List RegCall) (g : Registry), Decidable (Allowed calls g)
  | [], _ => .isTrue trivial
  | c :: calls, g => haveI := decidableAllowed calls (c.apply g); inferInstanceAs (Decidable (_ ∧ _))

/-- The calls over one back end, every answer of the environment being a good one. -/
def runCalls (platform : Platform) : List RegCall → LoopProg Unit
  | [] => pure ()
  | c :: calls => do
    let _ ← c.exec platform {}
    runCalls platform calls

/-- What was asked for and is ready. -/
def Request.ready (readable writable : FdSet) (r : Request) : Events :=
  { eventIn := r.events.eventIn && readable r.fd, eventOut := r.events.eventOut && writable r.fd }

def Request.isReady (readable writable : FdSet) (r : Request) : Bool :=
  (r.ready readable writable).eventIn || (r.ready readable writable).eventOut

def Request.call (r : Request) (events : Events) : Obs := .called r.entry r.entry r.fd events r.userData

/-- One call for each request that is ready, with what is ready. -/
def wanted (readable writable : FdSet) (rs : List Request) : List Obs :=
  (rs.filter (·.isReady readable writable)).map fun r => r.call (r.ready readable writable)

/-- One call for each request that is ready to be read, with both events. -/
def selectCalls (readable writable : FdSet) (rs : List Request) : List Obs :=
  (rs.filter fun r => (r.ready readable writable).eventIn).map fun r => r.call { eventIn := true, eventOut := true }

/-! ## Serving the main loop -/

/-- The node was filled for the request. -/
structure Fills (d : MainloopData) (r : Request) : Prop where
  type : d.type = .general
  fd : d.fd = r.fd
  userData : d.userData = r.userData
  entry : d.entry = r.entry

/-- Only what the back ends store changes. -/
def Rest (l l' : Loop) : Prop := ∃ interest rfds wfds maxfd, l' = { l with interest, rfds, wfds, maxfd }

/-- What the back end stores, as `Keeps` says it, follows the requests. -/
structure Serves (platform : Platform) (Keeps : Loop → List (Nat × Request) → Prop) : Prop where
  init : Keeps mainloopInit []
  frame : ∀ l l' R, Keeps l R → l'.interest = l.interest → l'.rfds = l.rfds → l'.wfds = l.wfds → l'.maxfd = l.maxfd →
    Keeps l' R
  add : ∀ l R x r d, Keeps l R → l.mem x = some d → Fills d r → 0 ≤ r.fd ∧ r.fd < FD_SETSIZE →
    (∀ p ∈ R, p.2.fd ≠ r.fd) →
    Returns (platform.addFd r.events (some x) {}) l fun ret l' => 0 ≤ ret ∧ Rest l l' ∧ Keeps l' ((x, r) :: R)
  modify : ∀ l X x r Z d events, Keeps l (X ++ (x, r) :: Z) → l.mem x = some d → Fills d r →
    0 ≤ r.fd ∧ r.fd < FD_SETSIZE → (∀ p ∈ X ++ Z, p.2.fd ≠ r.fd) →
    Returns (platform.modifyFd events (some x) {}) l fun _ l' => Rest l l' ∧ Keeps l' (X ++ (x, { r with events }) :: Z)
  remove : ∀ l X x r Z, Keeps l (X ++ (x, r) :: Z) → 0 ≤ r.fd ∧ r.fd < FD_SETSIZE → (∀ p ∈ X ++ Z, p.2.fd ≠ r.fd) →
    Returns (platform.removeFd r.fd {}) l fun _ l' => Rest l l' ∧ Keeps l' (X ++ Z)

/-- What the calls made is on the live list, one node for each request. -/
structure Holds (l : Loop) (g : Registry) (R : List (Nat × Request)) (F : List Nat) : Prop where
  lists : Lists l (R.map Prod.fst) F
  requests : R.map Prod.snd = g.requests
  entries : l.entries = g.entries
  fills : ∀ p ∈ R, ∃ d, l.mem p.1 = some d ∧ Fills d p.2
  range : ∀ p ∈ R, 0 ≤ p.2.fd ∧ p.2.fd < FD_SETSIZE
  distinct : (R.map fun p => p.2.fd).Nodup

theorem Holds.hasFd {g : Registry} {R : List (Nat × Request)} {p : Nat × Request} (h : Holds l g R F) (hp : p ∈ R) :
    HasFd l p.1 fd ↔ p.2.fd = fd := by
  obtain ⟨d, hd, hf⟩ := h.fills p hp
  constructor
  · rintro ⟨d', hd', rfl⟩
    obtain rfl : d' = d := by simpa [hd] using hd'.symm
    exact hf.fd.symm
  · exact fun hfd => ⟨d, hd, hf.fd.trans hfd⟩

theorem distinct_split {X Z : List (Nat × Request)} {p : Nat × Request}
    (h : ((X ++ p :: Z).map fun p => p.2.fd).Nodup) : ∀ q ∈ X ++ Z, q.2.fd ≠ p.2.fd := by
  rw [List.map_append, List.map_cons, List.nodup_middle, List.nodup_cons] at h
  rintro q hq hqp
  exact h.1 (hqp ▸ by simpa using List.mem_map_of_mem (f := fun p : Nat × Request => p.2.fd) hq)

/-- What a lookup finds, in terms of the requests. -/
theorem Holds.found {g : Registry} {R : List (Nat × Request)} {v : Ptr Nat × Ptr Nat} (h : Holds l g R F)
    (hv : Found l (R.map Prod.fst) fd v) :
    (v.1 = none ∧ ∀ p ∈ R, p.2.fd ≠ fd) ∨ ∃ X x r Z d, R = X ++ (x, r) :: Z ∧ v = (some x, (X.map Prod.fst).getLast?) ∧
      l.mem x = some d ∧ Fills d r ∧ r.fd = fd := by
  cases hv with
  | missing hno => exact .inl ⟨rfl, fun p hp hfd => hno p.1 (List.mem_map_of_mem hp) ((h.hasFd hp).2 hfd)⟩
  | found X x Z d hR hd hfd hX =>
    obtain ⟨X', T, rfl, rfl, hT⟩ := List.map_eq_append_iff.1 hR
    obtain ⟨⟨x', r⟩, Z', rfl, rfl, rfl⟩ := List.map_eq_cons_iff.1 hT
    have hmem : (x', r) ∈ X' ++ (x', r) :: Z' := by simp
    obtain ⟨d', hd', hf⟩ := h.fills _ hmem
    obtain rfl : d = d' := by simpa [hd] using hd'
    exact .inr ⟨X', x', r, Z', d, rfl, rfl, hd, hf, hf.fd.symm.trans hfd⟩

/-! ## One call -/

section
variable {platform : Platform} {Keeps : Loop → List (Nat × Request) → Prop} {g : Registry} {R : List (Nat × Request)}

theorem returns_addFd (hp : Serves platform Keeps) (h : Holds l g R F) (hk : Keeps l R) {events : Events}
    {callback destroy : Callback} {userData : Nat} (hok : (RegCall.addFd fd events callback destroy userData).Allowed g) :
    Returns (mainloopAddFd platform fd events callback destroy userData {}) l fun _ l' => ∃ R F,
      Holds l' ((RegCall.addFd fd events callback destroy userData).apply g) R F ∧ Keeps l' R := by
  obtain ⟨hfd, hcb, hnew⟩ := hok
  have hbad : ¬ (fd < 0 ∨ callback = none) := by rintro (hneg | hnull) <;> [omega; exact hcb hnull]
  simp only [mainloopAddFd, if_neg hbad, returns_bind]
  refine (returns_takeNode h.lists.free).mono ?_
  rintro _ _ (⟨-, -, hnone⟩ | ⟨p, F', brk, d, rfl, hpick, -, rfl⟩)
  · exact absurd (.inr rfl) hnone
  simp only [reduceCtorEq, if_false, returns_bind, returns_newEntry, returns_setNode, Function.update_self,
    Option.some.injEq, exists_eq_left', Function.update_idem, returns_getHead, returns_setHead]
  have hpL := (hpick.fresh h.lists).1
  have hnewR : ∀ p ∈ R, p.2.fd ≠ fd := fun p hpR => hnew p.2 (h.requests ▸ List.mem_map_of_mem hpR)
  refine Returns.mono (hp.add _ R p ⟨fd, events, userData, g.entries⟩ _ (hp.frame l _ R hk rfl rfl rfl rfl)
    (Function.update_self ..) ⟨rfl, rfl, rfl, h.entries⟩ hfd hnewR) ?_
  rintro ret _ ⟨hret, ⟨interest, rfds, wfds, maxfd, rfl⟩, hk'⟩
  simp only [returns_bind, returns_ite, returns_note, returns_pure]
  refine ⟨fun _ => ⟨(p, ⟨fd, events, userData, g.entries⟩) :: R, F', ?_, hp.frame _ _ _ hk' rfl rfl rfl rfl⟩,
    fun hneg => absurd hret hneg⟩
  refine ⟨h.lists.push hpick rfl (fun _ => hcb) rfl rfl rfl rfl, ?_, ?_, ?_, ?_, ?_⟩
  · simp [RegCall.apply, h.requests]
  · simp [RegCall.apply, h.entries]
  · intro q hq
    rcases List.mem_cons.1 hq with rfl | hq
    · exact ⟨_, Function.update_self .., rfl, rfl, rfl, h.entries⟩
    · obtain ⟨d', hd', hf⟩ := h.fills q hq
      have hqp : q.1 ≠ p := fun heq => hpL (heq ▸ List.mem_map_of_mem hq)
      exact ⟨d', by simp only [Function.update_of_ne hqp, hd'], hf⟩
  · intro q hq
    rcases List.mem_cons.1 hq with rfl | hq
    · exact hfd
    · exact h.range q hq
  · rw [List.map_cons, List.nodup_cons]
    refine ⟨fun hmem => ?_, h.distinct⟩
    obtain ⟨q, hq, hqfd⟩ := List.mem_map.1 hmem
    exact hnewR q hq hqfd

theorem returns_modifyFd (hp : Serves platform Keeps) (h : Holds l g R F) (hk : Keeps l R) (events : Events) :
    Returns (mainloopModifyFd platform fd events {}) l fun _ l' => ∃ R F,
      Holds l' ((RegCall.modifyFd fd events).apply g) R F ∧ Keeps l' R := by
  have hkeep : (∀ p ∈ R, p.2.fd ≠ fd) → ∃ R F, Holds l ((RegCall.modifyFd fd events).apply g) R F ∧ Keeps l R := by
    intro hno
    refine ⟨R, F, ⟨h.lists, ?_, h.entries, h.fills, h.range, h.distinct⟩, hk⟩
    have hid : g.requests.map (fun r => if r.fd = fd then { r with events } else r) = g.requests.map id := by
      refine List.map_congr_left fun r hr => ?_
      rw [← h.requests] at hr
      obtain ⟨p, hpR, rfl⟩ := List.mem_map.1 hr
      exact if_neg (hno p hpR)
    simp only [RegCall.apply, hid, List.map_id, h.requests]
  simp only [mainloopModifyFd, returns_ite, returns_pure]
  refine ⟨fun hneg => hkeep fun p hpR hfd => ?_, fun _ => ?_⟩
  · exact Int.not_lt.2 (h.range p hpR).1 (hfd ▸ hneg)
  rw [returns_bind]
  refine (returns_findFd h.lists.live h.lists.below).mono ?_
  rintro v l ⟨rfl, hv⟩
  rcases h.found hv with ⟨hnull, hno⟩ | ⟨X, x, r, Z, d, rfl, rfl, hd, hf, rfl⟩
  · simp only [hnull, if_true, returns_pure]
    exact hkeep hno
  simp only [reduceCtorEq, if_false]
  have hother := distinct_split h.distinct
  refine (hp.modify _ X x r Z d events hk hd hf (h.range (x, r) (by simp)) hother).mono ?_
  rintro ret l' ⟨hrest, hk'⟩
  refine ⟨X ++ (x, { r with events }) :: Z, F, ?_, hk'⟩
  have hsame {q : Nat × Request} (hq : q ∈ X ++ Z) : (if q.2.fd = r.fd then { q.2 with events } else q.2) = q.2 :=
    if_neg (hother q hq)
  obtain ⟨interest, rfds, wfds, maxfd, rfl⟩ := hrest
  have hl : Lists { l with interest, rfds, wfds, maxfd } ((X ++ (x, r) :: Z).map Prod.fst) F :=
    h.lists.of_eq rfl rfl rfl rfl
  refine ⟨by simpa using hl, ?_, h.entries, ?_, ?_, by simpa using h.distinct⟩
  · simp only [RegCall.apply, ← h.requests, List.map_append, List.map_cons, List.map_map, if_true]
    congr 1
    · exact List.map_congr_left fun q hq => (hsame (List.mem_append_left _ hq)).symm
    · congr 1
      exact List.map_congr_left fun q hq => (hsame (List.mem_append_right _ hq)).symm
  · intro q hq
    rcases List.mem_append.1 hq with hq | hq
    · exact h.fills q (List.mem_append_left _ hq)
    rcases List.mem_cons.1 hq with rfl | hq
    · exact ⟨d, hd, hf.type, hf.fd, hf.userData, hf.entry⟩
    · exact h.fills q (by simp [hq])
  · intro q hq
    rcases List.mem_append.1 hq with hq | hq
    · exact h.range q (List.mem_append_left _ hq)
    rcases List.mem_cons.1 hq with rfl | hq
    · exact h.range (x, r) (by simp)
    · exact h.range q (by simp [hq])

theorem returns_removeFd (hp : Serves platform Keeps) (h : Holds l g R F) (hk : Keeps l R) :
    Returns (mainloopRemoveFd platform fd {} fun _ => pure ()) l fun _ l' => ∃ R F,
      Holds l' ((RegCall.removeFd fd).apply g) R F ∧ Keeps l' R := by
  have hkeep : (∀ p ∈ R, p.2.fd ≠ fd) → ∃ R F, Holds l ((RegCall.removeFd fd).apply g) R F ∧ Keeps l R := by
    intro hno
    refine ⟨R, F, ⟨h.lists, ?_, h.entries, h.fills, h.range, h.distinct⟩, hk⟩
    rw [h.requests]
    refine (List.filter_eq_self.2 fun r hr => ?_).symm
    rw [← h.requests] at hr
    obtain ⟨p, hpR, rfl⟩ := List.mem_map.1 hr
    simpa using hno p hpR
  simp only [mainloopRemoveFd, removeBegin, returns_bind, returns_ite, returns_pure]
  refine ⟨fun hneg => hkeep fun p hpR hfd => ?_, fun _ => ?_⟩
  · exact Int.not_lt.2 (h.range p hpR).1 (hfd ▸ hneg)
  refine (returns_findFd h.lists.live h.lists.below).mono ?_
  rintro v l ⟨rfl, hv⟩
  rcases h.found hv with ⟨hnull, hno⟩ | ⟨X, x, r, Z, d, rfl, rfl, hd, hf, rfl⟩
  · exact ⟨fun _ => hkeep hno, fun hsome => absurd hnull hsome⟩
  have hother := distinct_split h.distinct
  simp only [reduceCtorEq, false_implies, true_and, not_false_eq_true, true_implies, returns_nodeOf, hd, Option.some.injEq,
    exists_eq_left', hf.fd, hf.type]
  refine (hp.remove _ X x r Z hk (h.range (x, r) (by simp)) hother).mono ?_
  rintro ret _ ⟨⟨interest, rfds, wfds, maxfd, rfl⟩, hk'⟩
  have hsub : ∀ q ∈ X ++ Z, q ∈ X ++ (x, r) :: Z := by
    intro q hq
    simp only [List.mem_append, List.mem_cons] at hq ⊢
    tauto
  have hend (log : List Obs) : Returns (removeEnd ⟨some x, (X.map Prod.fst).getLast?, ret, d.destroyCallback, d.entry⟩)
      { l with interest, rfds, wfds, maxfd, log } fun _ l' => ∃ R F,
        Holds l' ((RegCall.removeFd r.fd).apply g) R F ∧ Keeps l' R := by
    have hl : Lists { l with interest, rfds, wfds, maxfd, log } ((X ++ (x, r) :: Z).map Prod.fst) F :=
      h.lists.of_eq rfl rfl rfl rfl
    rw [List.map_append, List.map_cons] at hl
    refine (returns_removeEnd hl rfl (unlink_found _ x _)).mono fun _ l' hrem => ?_
    obtain ⟨mem, hl'⟩ := hrem.eq
    refine ⟨X ++ Z, x :: F, ⟨by simpa using hrem.lists, ?_, by rw [hl']; exact h.entries, ?_, ?_, ?_⟩, ?_⟩
    · have hkept (q : Nat × Request) (hq : q ∈ X ++ Z) : decide (q.2.fd ≠ r.fd) = true := by simpa using hother q hq
      simp only [RegCall.apply, ← h.requests, List.map_append, List.map_cons, List.filter_append, List.filter_map]
      rw [List.filter_cons_of_neg (by simp), List.filter_map]
      congr 2
      · exact (List.filter_eq_self.2 fun q hq => hkept q (List.mem_append_left _ hq)).symm
      · exact (List.filter_eq_self.2 fun q hq => hkept q (List.mem_append_right _ hq)).symm
    · intro q hq
      obtain ⟨d', hd', hf'⟩ := h.fills q (hsub q hq)
      obtain ⟨d'', hd'', ha⟩ := entry_of_info hrem.info hd'
      simp only [MainloopData.alone, MainloopData.mk.injEq] at ha
      exact ⟨d'', hd'', ha.2.2.1.trans hf'.type, ha.2.1.trans hf'.fd, ha.2.2.2.2.2.2.1.trans hf'.userData,
        ha.2.2.2.2.2.2.2.trans hf'.entry⟩
    · exact fun q hq => h.range q (hsub q hq)
    · exact (h.distinct.sublist (((List.sublist_cons_self _ Z).append_left X).map _))
    · exact hp.frame _ _ _ hk' (by rw [hl']) (by rw [hl']) (by rw [hl']) (by rw [hl'])
  simp only [returns_note, hend, implies_true, and_self]

/-! ## Every sequence of calls -/

theorem returns_runCalls (hp : Serves platform Keeps) {calls : List RegCall} (hok : Allowed calls g) (h : Holds l g R F)
    (hk : Keeps l R) : Returns (runCalls platform calls) l fun _ l' => ∃ R F, Holds l' (registry calls g) R F ∧ Keeps l' R := by
  induction calls generalizing l g R F with
  | nil => exact (returns_pure _ _ _).2 ⟨R, F, h, hk⟩
  | cons c calls ih =>
    obtain ⟨hc, hcs⟩ := hok
    have hcall : Returns (c.exec platform {}) l fun _ l' => ∃ R F, Holds l' (c.apply g) R F ∧ Keeps l' R := by
      cases c with
      | addFd => exact returns_addFd hp h hk hc
      | modifyFd => exact returns_modifyFd hp h hk _
      | removeFd => exact returns_removeFd hp h hk
    exact hcall.bind fun _ l' ⟨R', F', h', hk'⟩ => ih hcs h' hk'

theorem holds_init : Holds mainloopInit {} [] [] :=
  ⟨lists_mainloopInit, rfl, rfl, nofun, nofun, List.nodup_nil⟩

end

/-! ## What is stored for a descriptor -/

/-- The request for a descriptor, with its node. -/
def atFd (R : List (Nat × Request)) (fd : Int) : Option (Nat × Request) := R.find? fun p => p.2.fd = fd

section
variable {X Z R : List (Nat × Request)} {r : Request}

theorem atFd_some {p : Nat × Request} (h : atFd R fd = some p) : p ∈ R ∧ p.2.fd = fd :=
  ⟨List.mem_of_find?_eq_some h, by simpa using List.find?_some h⟩

theorem atFd_none (h : ∀ p ∈ R, p.2.fd ≠ fd) : atFd R fd = none :=
  List.find?_eq_none.2 fun p hp => by simpa using h p hp

theorem atFd_middle (hr : r.fd = fd) (h : ∀ p ∈ X ++ Z, p.2.fd ≠ fd) : atFd (X ++ (x, r) :: Z) fd = some (x, r) := by
  have hX : X.find? (fun p => decide (p.2.fd = fd)) = none := atFd_none fun p hp => h p (List.mem_append_left _ hp)
  simp [atFd, List.find?_append, hX, hr]

theorem atFd_of_mem {p : Nat × Request} (hd : (R.map fun p => p.2.fd).Nodup) (hp : p ∈ R) : atFd R p.2.fd = some p := by
  obtain ⟨X, Z, rfl⟩ := List.append_of_mem hp
  exact atFd_middle rfl (distinct_split hd)

theorem atFd_cons : atFd ((x, r) :: R) = Function.update (atFd R) r.fd (some (x, r)) := by
  funext fd
  by_cases hfd : fd = r.fd
  · simp [atFd, hfd]
  · simp [atFd, Function.update_of_ne hfd, Ne.symm hfd]

/-- Other descriptors do not depend on the request. -/
theorem atFd_ne (h : fd ≠ r.fd) : atFd (X ++ (x, r) :: Z) fd = atFd (X ++ Z) fd := by
  simp [atFd, List.find?_append, Ne.symm h]

theorem atFd_modify (events : Events) (h : ∀ p ∈ X ++ Z, p.2.fd ≠ r.fd) :
    atFd (X ++ (x, { r with events }) :: Z) =
      Function.update (atFd (X ++ (x, r) :: Z)) r.fd (some (x, { r with events })) := by
  funext fd
  by_cases hfd : fd = r.fd
  · subst hfd
    rw [Function.update_self]
    exact atFd_middle rfl h
  · rw [Function.update_of_ne hfd, atFd_ne hfd]
    exact atFd_ne hfd

theorem atFd_remove (h : ∀ p ∈ X ++ Z, p.2.fd ≠ r.fd) :
    atFd (X ++ Z) = Function.update (atFd (X ++ (x, r) :: Z)) r.fd none := by
  funext fd
  by_cases hfd : fd = r.fd
  · rw [hfd, Function.update_self, atFd_none h]
  · rw [Function.update_of_ne hfd, atFd_ne hfd]

end

/-! ## epoll -/

def registrationOf (p : Nat × Request) : Registration :=
  ⟨{ epollin := p.2.events.eventIn, epollout := p.2.events.eventOut }, some p.1, p.2.entry⟩

/-- The interest set is that of the requests. -/
def EpollKeeps (l : Loop) (R : List (Nat × Request)) : Prop := l.interest = Option.map registrationOf ∘ atFd R

theorem epoll_serves : Serves epoll EpollKeeps := by
  constructor <;> simp only [EpollKeeps]
  · rfl
  · intro l l' R h hi _ _ _
    exact hi.trans h
  · intro l R x r d h hd hf _ hnew
    have hnone : l.interest r.fd = none := by rw [h, Function.comp_apply, atFd_none hnew, Option.map_none]
    simp only [epoll, epollAddFd, epollCtlAdd, returns_bind, returns_nodeOf, hd, Option.some.injEq, exists_eq_left', hf.fd,
      returns_get, returns_ite, returns_modify, returns_pure, hnone, Option.isNone_none, true_implies,
      not_true_eq_false, false_implies, and_true]
    refine ⟨Int.le_refl 0, ⟨_, _, _, _, rfl⟩, ?_⟩
    rw [atFd_cons, Function.comp_update, ← h]
    simp [registrationOf, hf.type, hf.entry]
  · intro l X x r Z d events h hd hf _ hother
    have hsome : (l.interest r.fd).isSome := by rw [h, Function.comp_apply, atFd_middle rfl hother]; rfl
    simp only [epoll, epollModifyFd, epollCtlMod, returns_bind, returns_nodeOf, hd, Option.some.injEq, exists_eq_left', hf.fd,
      returns_get, returns_ite, returns_modify, returns_pure, hsome, true_implies, not_true_eq_false,
      false_implies, and_true]
    refine ⟨⟨_, _, _, _, rfl⟩, ?_⟩
    rw [atFd_modify events hother, Function.comp_update, ← h]
    simp [registrationOf, hf.entry]
  · intro l X x r Z h _ hother
    have hsome : (l.interest r.fd).isSome := by rw [h, Function.comp_apply, atFd_middle rfl hother]; rfl
    simp only [epoll, epollRemoveFd, epollCtlDel, returns_bind, returns_get, returns_ite, returns_modify, returns_pure, hsome,
      true_implies, not_true_eq_false, false_implies, and_true]
    refine ⟨⟨_, _, _, _, rfl⟩, ?_⟩
    rw [atFd_remove (x := x) hother, Function.comp_update, ← h, Option.map_none]

/-! ## select -/

/-- What is asked for, `false` where nothing is. -/
def asks (f : Events → Bool) (p : Option (Nat × Request)) : Bool := p.elim false fun p => f p.2.events

/-- The two sets are those of the requests, and below the bound. -/
structure SelectKeeps (l : Loop) (R : List (Nat × Request)) : Prop where
  rfds : l.rfds = asks Events.eventIn ∘ atFd R
  wfds : l.wfds = asks Events.eventOut ∘ atFd R
  bound : ∀ p ∈ R, p.2.fd < l.maxfd

@[simp] theorem returns_setRfds (hfd : 0 ≤ fd ∧ fd < FD_SETSIZE) (b : Bool) (Q : Unit → Loop → Prop) :
    Returns (setRfds fd b) l Q ↔ Q () { l with rfds := Function.update l.rfds fd b } := by
  simp [setRfds, checkFd, hfd]

@[simp] theorem returns_setWfds (hfd : 0 ≤ fd ∧ fd < FD_SETSIZE) (b : Bool) (Q : Unit → Loop → Prop) :
    Returns (setWfds fd b) l Q ↔ Q () { l with wfds := Function.update l.wfds fd b } := by
  simp [setWfds, checkFd, hfd]

/-- `FD_SET` if `b`, where the descriptor is not in the set yet. -/
theorem returns_if_setRfds {k : LoopProg Int} (hfd : 0 ≤ fd ∧ fd < FD_SETSIZE) (b : Bool) (h : l.rfds fd = false)
    (Q : Int → Loop → Prop) : Returns (if b then (do setRfds fd true; k) else k) l Q ↔
      Returns k { l with rfds := Function.update l.rfds fd b } Q := by
  cases b with
  | true => simp [hfd]
  | false => rw [if_neg Bool.false_ne_true, ← h, Function.update_eq_self]

theorem returns_if_setWfds {k : LoopProg Int} (hfd : 0 ≤ fd ∧ fd < FD_SETSIZE) (b : Bool) (h : l.wfds fd = false)
    (Q : Int → Loop → Prop) : Returns (if b then (do setWfds fd true; k) else k) l Q ↔
      Returns k { l with wfds := Function.update l.wfds fd b } Q := by
  cases b with
  | true => simp [hfd]
  | false => rw [if_neg Bool.false_ne_true, ← h, Function.update_eq_self]

theorem select_serves : Serves select SelectKeeps := by
  constructor
  · exact ⟨rfl, rfl, nofun⟩
  · intro l l' R h _ hr hw hm
    exact ⟨hr.trans h.rfds, hw.trans h.wfds, fun p hp => hm ▸ h.bound p hp⟩
  · intro l R x r d h hd hf hfd hnew
    have hr : l.rfds r.fd = false := by rw [h.rfds, Function.comp_apply, atFd_none hnew]; rfl
    have hw : l.wfds r.fd = false := by rw [h.wfds, Function.comp_apply, atFd_none hnew]; rfl
    simp only [select, selectAddFd, returns_bind, returns_nodeOf, hd, Option.some.injEq, exists_eq_left', hf.fd,
      returns_if_setRfds hfd, returns_if_setWfds hfd, hr, hw, returns_modify, returns_pure]
    refine ⟨Int.le_refl 0, ⟨_, _, _, _, rfl⟩, ?_, ?_, ?_⟩
    · rw [atFd_cons, Function.comp_update, ← h.rfds]; rfl
    · rw [atFd_cons, Function.comp_update, ← h.wfds]; rfl
    · intro p hp
      simp only
      rcases List.mem_cons.1 hp with rfl | hp
      · split <;> simp only <;> omega
      · have hlt := h.bound p hp
        split <;> omega
  · intro l X x r Z d events h hd hf hfd hother
    simp only [select, selectModifyFd, returns_bind, returns_nodeOf, hd, Option.some.injEq, exists_eq_left', hf.fd,
      returns_setRfds hfd, returns_setWfds hfd, returns_if_setRfds hfd, returns_if_setWfds hfd, Function.update_self,
      Function.update_idem, returns_pure]
    refine ⟨⟨_, _, _, _, rfl⟩, ?_, ?_, ?_⟩
    · rw [atFd_modify events hother, Function.comp_update, ← h.rfds]; rfl
    · rw [atFd_modify events hother, Function.comp_update, ← h.wfds]; rfl
    · intro p hp
      simp only [List.mem_append, List.mem_cons] at hp
      rcases hp with hp | rfl | hp
      · exact h.bound p (by simp [hp])
      · exact h.bound (x, r) (by simp)
      · exact h.bound p (by simp [hp])
  · intro l X x r Z h hfd hother
    simp only [select, selectRemoveFd, returns_bind, returns_setRfds hfd, returns_setWfds hfd, returns_pure]
    refine ⟨⟨_, _, _, _, rfl⟩, ?_, ?_, ?_⟩
    · rw [atFd_remove (x := x) hother, Function.comp_update, ← h.rfds]; rfl
    · rw [atFd_remove (x := x) hother, Function.comp_update, ← h.wfds]; rfl
    · intro p hp
      refine h.bound p ?_
      simp only [List.mem_append, List.mem_cons] at hp ⊢
      tauto

/-! ## One run of epoll -/

section
variable {g : Registry} {R : List (Nat × Request)} {readable writable : FdSet} {readOk : Ptr Nat → Bool}
  {ready : List (Int × EpollEvents)}

/-- The descriptor is registered for something that it is ready for. -/
def ReadyFor (l : Loop) (readable writable : FdSet) (e : Int × EpollEvents) : Prop :=
  ∃ reg, l.interest e.1 = some reg ∧
    e.2 = { epollin := reg.events.epollin && readable e.1, epollout := reg.events.epollout && writable e.1 } ∧
    (e.2.epollin || e.2.epollout) = true

/-- An answer of `epoll_wait` when no error is pending: in any order, all that is ready, if there is room for it. -/
structure Waits (l : Loop) (readable writable : FdSet) (ready : List (Int × EpollEvents)) : Prop where
  once : (ready.map Prod.fst).Nodup
  room : ready.length ≤ MAX_EPOLL_EVENTS
  right : ∀ e ∈ ready, ReadyFor l readable writable e
  all : ready.length < MAX_EPOLL_EVENTS → ∀ e, ReadyFor l readable writable e → e ∈ ready

theorem Holds.distinct_fds (h : Holds l g R F) : (g.requests.map Request.fd).Nodup := by
  rw [← h.requests, List.map_map]
  exact h.distinct

theorem request_ext {rs : List Request} (hd : (rs.map Request.fd).Nodup) {r q : Request} (hr : r ∈ rs) (hq : q ∈ rs)
    (hfd : r.fd = q.fd) : r = q := List.inj_on_of_nodup_map hd hr hq hfd

theorem ReadyFor.request (hk : EpollKeeps l R) {e : Int × EpollEvents} (he : ReadyFor l readable writable e) :
    ∃ p ∈ R, p.2.fd = e.1 ∧ l.interest e.1 = some (registrationOf p) ∧ eventsOf e.2 = p.2.ready readable writable ∧
      p.2.isReady readable writable := by
  obtain ⟨reg, hreg, hev, hany⟩ := he
  have hkeeps := congrFun hk e.1
  rw [hreg] at hkeeps
  obtain ⟨p, hp, rfl⟩ := Option.map_eq_some_iff.1 hkeeps.symm
  obtain ⟨hpR, hpe⟩ := atFd_some hp
  have hev' : eventsOf e.2 = p.2.ready readable writable := by
    rw [hev]
    simp [eventsOf, Request.ready, registrationOf, hpe]
  refine ⟨p, hpR, hpe, hreg, hev', ?_⟩
  rw [Request.isReady, ← hev']
  exact hany

/-- What `epoll_wait` says of the request when it is ready. -/
def Request.answer (readable writable : FdSet) (r : Request) : Int × EpollEvents :=
  (r.fd, { epollin := r.events.eventIn && readable r.fd, epollout := r.events.eventOut && writable r.fd })

theorem readyFor_of_request (h : Holds l g R F) (hk : EpollKeeps l R) {r : Request} (hr : r ∈ g.requests)
    (hready : r.isReady readable writable) : ReadyFor l readable writable (r.answer readable writable) := by
  rw [← h.requests] at hr
  obtain ⟨p, hp, rfl⟩ := List.mem_map.1 hr
  refine ⟨registrationOf p, ?_, rfl, hready⟩
  rw [hk, Function.comp_apply, Request.answer, atFd_of_mem h.distinct hp, Option.map_some]

/-- The answer in the order of the requests. -/
theorem waits_answers (h : Holds l g R F) (hk : EpollKeeps l R)
    (hmax : (g.requests.filter (·.isReady readable writable)).length ≤ MAX_EPOLL_EVENTS) :
    Waits l readable writable ((g.requests.filter (·.isReady readable writable)).map (·.answer readable writable)) where
  once := by
    rw [List.map_map]
    exact h.distinct_fds.sublist (List.filter_sublist.map _)
  room := by rwa [List.length_map]
  right := by
    intro e he
    obtain ⟨r, hr, rfl⟩ := List.mem_map.1 he
    obtain ⟨hr, hready⟩ := List.mem_filter.1 hr
    exact readyFor_of_request h hk hr hready
  all := by
    intro _ e he
    obtain ⟨p, hp, hpe, hreg, -, hready⟩ := he.request hk
    obtain ⟨reg, hreg', hev, -⟩ := he
    rw [hreg] at hreg'
    cases hreg'
    refine List.mem_map.2 ⟨p.2, List.mem_filter.2 ⟨h.requests ▸ List.mem_map_of_mem hp, hready⟩, Prod.ext hpe ?_⟩
    rw [hev, Request.answer, hpe, registrationOf]

/-- The events are dispatched to the requests that are ready, in the order of the answer. -/
theorem returns_epollRun (readOk : Ptr Nat → Bool) (h : Holds l g R F) (hk : EpollKeeps l R) (hr : ∀ e ∈ ready, ReadyFor l readable writable e) :
    ∃ rs : List Request, rs.map Request.fd = ready.map Prod.fst ∧ (∀ r ∈ rs, r ∈ g.requests ∧ r.isReady readable writable) ∧
      ∀ log, Returns (epollRun readOk (batch l ready)) { l with log } fun _ l' =>
        l' = { l with log := log ++ rs.map fun r => r.call (r.ready readable writable) } := by
  induction ready with
  | nil => exact ⟨[], rfl, nofun, fun log => by simp [batch, epollRun]⟩
  | cons e ready ih =>
    obtain ⟨rs, hfds, hrs, hrun⟩ := ih fun e' he' => hr e' (List.mem_cons_of_mem _ he')
    obtain ⟨p, hp, hpe, hreg, hev, hready⟩ := (hr e List.mem_cons_self).request hk
    obtain ⟨d, hd, hf⟩ := h.fills p hp
    refine ⟨p.2 :: rs, by simp [hpe, hfds], ?_, fun log => ?_⟩
    · intro r hr'
      rcases List.mem_cons.1 hr' with rfl | hr'
      · exact ⟨h.requests ▸ List.mem_map_of_mem hp, hready⟩
      · exact hrs r hr'
    · have hcb := h.lists.callable p.1 d hd hf.type
      have hbatch : batch l (e :: ready) = ⟨e.2, some p.1, p.2.entry⟩ :: batch l ready := by
        simp [batch, hreg, registrationOf]
      simp only [hbatch, epollRun, dispatchEvent, returns_bind,
        returns_nodeOf, hd, Option.some.injEq, exists_eq_left', hf.type, hcb, if_false, returns_note, returns_pure]
      have hcall : .called p.2.entry d.entry d.fd (eventsOf e.2) d.userData = p.2.call (p.2.ready readable writable) := by
        rw [hev, hf.entry, hf.fd, hf.userData, Request.call]
      rw [hcall]
      simpa only [List.append_assoc, List.singleton_append, List.map_cons] using hrun (log ++ [p.2.call (p.2.ready readable writable)])

/-- With at most `MAX_EPOLL_EVENTS` requests ready, all of them are answered. -/
theorem Waits.perm (h : Holds l g R F) (hk : EpollKeeps l R) (hw : Waits l readable writable ready)
    (hmax : (g.requests.filter (·.isReady readable writable)).length ≤ MAX_EPOLL_EVENTS) {rs : List Request}
    (hfds : rs.map Request.fd = ready.map Prod.fst) (hrs : ∀ r ∈ rs, r ∈ g.requests ∧ r.isReady readable writable) :
    rs.Perm (g.requests.filter (·.isReady readable writable)) := by
  have hnd : rs.Nodup := List.Nodup.of_map _ (hfds ▸ hw.once)
  have hsub : rs ⊆ g.requests.filter (·.isReady readable writable) := fun r hr => List.mem_filter.2 (hrs r hr)
  have hlen : rs.length = ready.length := by simpa using congrArg List.length hfds
  by_cases hfull : ready.length < MAX_EPOLL_EVENTS
  · have hnd' : (g.requests.filter (·.isReady readable writable)).Nodup := (List.Nodup.of_map _ h.distinct_fds).filter _
    refine (List.perm_ext_iff_of_nodup hnd hnd').2 fun r => ⟨fun hr => hsub hr, fun hr => ?_⟩
    obtain ⟨hrg, hready⟩ := List.mem_filter.1 hr
    have hanswer := readyFor_of_request h hk hrg hready
    have hfd : r.fd ∈ rs.map Request.fd := hfds ▸ List.mem_map_of_mem (hw.all hfull _ hanswer)
    obtain ⟨q, hq, hqfd⟩ := List.mem_map.1 hfd
    exact request_ext h.distinct_fds (hrs q hq).1 hrg hqfd ▸ hq
  · exact (hnd.subperm hsub).perm_of_length_le (by omega)

/-! ## One run of select -/

/-- The set of descriptors that `select` leaves for reading. -/
def readSet (l : Loop) (readable : FdSet) : FdSet := fun fd => l.rfds fd && readable fd && decide (0 ≤ fd ∧ fd < l.maxfd)

theorem readSet_request (h : Holds l g R F) (hk : SelectKeeps l R) {p : Nat × Request} (hp : p ∈ R) :
    readSet l readable p.2.fd = (p.2.ready readable writable).eventIn := by
  have hin : l.rfds p.2.fd = p.2.events.eventIn := by
    rw [hk.rfds, Function.comp_apply, atFd_of_mem h.distinct hp]
    rfl
  have hbound : 0 ≤ p.2.fd ∧ p.2.fd < l.maxfd := ⟨(h.range p hp).1, hk.bound p hp⟩
  simp [readSet, Request.ready, hin, hbound]

/-- The walk is past the requests `X`. -/
def Selecting (l : Loop) (R : List (Nat × Request)) (readable writable : FdSet) (k : Nat) (data : Ptr Nat) (l' : Loop) : Prop :=
  ∃ X Z, R = X ++ Z ∧ Chain MainloopData.next l.mem data (Z.map Prod.fst) ∧
    l' = { l with log := l.log ++ selectCalls readable writable (X.map Prod.snd) } ∧ Z.length = k

theorem selectCalls_append (rs : List Request) (r : Request) : selectCalls readable writable (rs ++ [r]) =
    selectCalls readable writable rs ++
      if (r.ready readable writable).eventIn then [r.call { eventIn := true, eventOut := true }] else [] := by
  cases hr : (r.ready readable writable).eventIn <;> simp [selectCalls, hr]

theorem returns_selectRound (h : Holds l g R F) (hk : SelectKeeps l R) {k : Nat} {data : Ptr Nat}
    (hs : Selecting l R readable writable k data l') : Returns (selectRound (readSet l readable) readOk data) l' fun v l' =>
      match v with
      | .inl data => ∃ j < k, Selecting l R readable writable j data l'
      | .inr _ => l' = { l with log := l.log ++ selectCalls readable writable g.requests } := by
  obtain ⟨X, Z, hR, hZ, rfl, rfl⟩ := hs
  cases Z with
  | nil =>
    obtain rfl : data = none := hZ
    simp only [selectRound, if_true, returns_pure]
    rw [← h.requests, hR, List.append_nil]
  | cons p Z =>
    obtain ⟨rfl, d, hd, hZ⟩ := hZ
    have hp : p ∈ R := by simp [hR]
    obtain ⟨d', hd', hf⟩ := h.fills p hp
    obtain rfl : d = d' := by simpa [hd] using hd'
    have hcb := h.lists.callable p.1 d hd hf.type
    have hset : readSet l readable p.2.fd = (p.2.ready readable writable).eventIn := readSet_request h hk hp
    have hnext (events : List Obs) (he : events = selectCalls readable writable ((X ++ [p]).map Prod.snd)) :
        ∃ j < (p :: Z).length, Selecting l R readable writable j d.next { l with log := l.log ++ events } :=
      ⟨Z.length, by simp, X ++ [p], Z, by simp [hR], hZ, by rw [he], rfl⟩
    simp only [selectRound, reduceCtorEq, if_false, returns_bind, returns_nodeOf, hd, Option.some.injEq, exists_eq_left',
      fdIsSet, checkFd, hf.fd, h.range p hp, and_self, if_true, returns_pure, hset]
    cases hr : (p.2.ready readable writable).eventIn with
    | true =>
      simp only [or_self, if_true, hf.type, hcb, if_false, returns_bind, returns_note, returns_nodeOf, returns_pure, hd,
        Option.some.injEq, exists_eq_left', List.append_assoc]
      refine hnext _ ?_
      rw [List.map_append, List.map_singleton, selectCalls_append, if_pos hr, Request.call, hf.entry, hf.userData]
    | false =>
      simp only [Bool.false_eq_true, or_self, if_false, returns_bind, returns_nodeOf, returns_pure, hd, Option.some.injEq,
        exists_eq_left']
      refine hnext _ ?_
      rw [List.map_append, List.map_singleton, selectCalls_append, if_neg (by simp [hr]), List.append_nil]

theorem returns_selectRun (readOk : Ptr Nat → Bool) (readable writable : FdSet) (h : Holds l g R F) (hk : SelectKeeps l R) :
    Returns (selectRun readOk readable writable) l fun _ l' =>
      l' = { l with log := l.log ++ selectCalls readable writable g.requests } := by
  simp only [selectRun, sysSelect, returns_bind, returns_get, returns_pure, returns_ite]
  refine ⟨fun hzero => ?_, fun _ => ?_⟩
  · -- nothing is ready
    have hnone : selectCalls readable writable g.requests = [] := by
      refine List.map_eq_nil_iff.2 (List.filter_eq_nil_iff.2 fun r hr hin => ?_)
      rw [← h.requests] at hr
      obtain ⟨p, hp, rfl⟩ := List.mem_map.1 hr
      have hset : readSet l readable p.2.fd = true := (readSet_request h hk hp).trans hin
      have hlt : p.2.fd.toNat < l.maxfd.toNat := by
        have hlo := (h.range p hp).1
        have hhi := hk.bound p hp
        omega
      have hmem : p.2.fd ∈ (List.range l.maxfd.toNat).map Int.ofNat :=
        List.mem_map.2 ⟨p.2.fd.toNat, List.mem_range.2 hlt, Int.toNat_of_nonneg (h.range p hp).1⟩
      exact List.countP_eq_zero.1 (Nat.eq_zero_of_add_eq_zero_right hzero) _ hmem hset
    rw [hnone, List.append_nil]
  · change Returns (loop (selectRound (readSet l readable) readOk) (l.brk + 1) l.mainloopDataHead) l _
    refine returns_loop (Selecting l R readable writable) (fun k data l' hs => ?_) (l.brk + 1) R.length
      l.mainloopDataHead l ⟨[], R, rfl, h.lists.live, by simp [selectCalls], rfl⟩ ?_
    · refine (returns_selectRound h hk hs).mono fun v l' hv => ?_
      cases v <;> exact hv
    have hle := chain_length_le h.lists.live h.lists.below
    rw [List.length_map] at hle
    exact Nat.lt_succ_of_le hle

/-! ## Agreement -/

theorem wanted_eq {rs : List Request} {r : Request} {events : Events} (hd : (rs.map Request.fd).Nodup) (hr : r ∈ rs)
    (hc : r.call events ∈ wanted readable writable rs) : r.isReady readable writable ∧ events = r.ready readable writable := by
  obtain ⟨q, hq, hcall⟩ := List.mem_map.1 hc
  obtain ⟨hq, hready⟩ := List.mem_filter.1 hq
  simp only [Request.call, Obs.called.injEq] at hcall
  obtain rfl := request_ext hd hq hr hcall.2.2.1
  exact ⟨hready, hcall.2.2.2.1.symm⟩

/-- The calls of `select_run` are the wanted ones if no request is ready for one direction only. -/
theorem selectCalls_perm_iff (readable writable : FdSet) {rs : List Request} (hd : (rs.map Request.fd).Nodup) :
    (selectCalls readable writable rs).Perm (wanted readable writable rs) ↔
      ∀ r ∈ rs, (r.ready readable writable).eventIn = (r.ready readable writable).eventOut := by
  constructor
  · intro hperm r hr
    cases hin : (r.ready readable writable).eventIn with
    | true =>
      -- `select_run` calls it with both events
      have hmem : r.call { eventIn := true, eventOut := true } ∈ selectCalls readable writable rs :=
        List.mem_map.2 ⟨r, List.mem_filter.2 ⟨hr, hin⟩, rfl⟩
      obtain ⟨-, heq⟩ := wanted_eq hd hr (hperm.subset hmem)
      rw [← heq]
    | false =>
      cases hout : (r.ready readable writable).eventOut with
      | false => rfl
      | true =>
        -- `select_run` misses it
        have hready : r.isReady readable writable = true := by rw [Request.isReady, hout, Bool.or_true]
        have hmem : r.call (r.ready readable writable) ∈ wanted readable writable rs :=
          List.mem_map.2 ⟨r, List.mem_filter.2 ⟨hr, hready⟩, rfl⟩
        obtain ⟨q, hq, hcall⟩ := List.mem_map.1 (hperm.mem_iff.2 hmem)
        obtain ⟨hq, hqin⟩ := List.mem_filter.1 hq
        simp only [Request.call, Obs.called.injEq] at hcall
        obtain rfl := request_ext hd hq hr hcall.2.2.1
        exact absurd (hin.symm.trans hqin) Bool.false_ne_true
  · intro hagree
    have hfilter : rs.filter (·.isReady readable writable) = rs.filter fun r => (r.ready readable writable).eventIn := by
      refine List.filter_congr fun r hr => ?_
      rw [Request.isReady, ← hagree r hr, Bool.or_self]
    refine List.Perm.of_eq ?_
    rw [wanted, hfilter]
    refine List.map_congr_left fun r hr => ?_
    obtain ⟨hr, hin⟩ := List.mem_filter.1 hr
    have hboth : r.ready readable writable = { eventIn := true, eventOut := true } := by
      have hout := (hagree r hr).symm.trans hin
      simp only [Request.ready] at hin hout ⊢
      rw [hin, hout]
    rw [hboth]

end

/-- After the same calls on both back ends, `select_run` and `epoll_run` call the same callbacks with the same events,
each descriptor that something asked for is ready of once and with what is ready, exactly if every descriptor is ready for
both of its directions or for none. -/
theorem select_run_agrees_iff {calls : List RegCall} (hok : Allowed calls {}) (readable writable : FdSet)
    (readOk : Ptr Nat → Bool) : ∃ l₁ l₂, runCalls epoll calls mainloopInit = .ok ((), l₁) ∧
      runCalls select calls mainloopInit = .ok ((), l₂) ∧ ∀ ready, Waits l₁ readable writable ready →
        ((registry calls {}).requests.filter (·.isReady readable writable)).length ≤ MAX_EPOLL_EVENTS →
        ∃ ret calls₁ calls₂, epollRun readOk (batch l₁ ready) l₁ = .ok ((), { l₁ with log := l₁.log ++ calls₁ }) ∧
          selectRun readOk readable writable l₂ = .ok (ret, { l₂ with log := l₂.log ++ calls₂ }) ∧
          (calls₂.Perm calls₁ ∧ calls₂.Perm (wanted readable writable (registry calls {}).requests) ↔
            ∀ r ∈ (registry calls {}).requests,
              (r.events.eventIn && readable r.fd) = (r.events.eventOut && writable r.fd)) := by
  obtain ⟨⟨⟩, l₁, hrun₁, R₁, F₁, h₁, hk₁⟩ := returns_runCalls epoll_serves hok holds_init epoll_serves.init
  obtain ⟨⟨⟩, l₂, hrun₂, R₂, F₂, h₂, hk₂⟩ := returns_runCalls select_serves hok holds_init select_serves.init
  refine ⟨l₁, l₂, hrun₁, hrun₂, fun ready hw hmax => ?_⟩
  obtain ⟨rs, hfds, hrs, hepoll⟩ := returns_epollRun readOk h₁ hk₁ hw.right
  obtain ⟨⟨⟩, l₁', hrun₁', rfl⟩ := hepoll l₁.log
  obtain ⟨ret, l₂', hrun₂', rfl⟩ := returns_selectRun readOk readable writable h₂ hk₂
  have hwanted : (rs.map fun r => r.call (r.ready readable writable)).Perm (wanted readable writable (registry calls {}).requests) :=
    (hw.perm h₁ hk₁ hmax hfds hrs).map _
  refine ⟨ret, _, _, hrun₁', hrun₂', ?_⟩
  have hiff := selectCalls_perm_iff readable writable h₁.distinct_fds
  constructor
  · exact fun hperm => hiff.1 hperm.2
  · intro hagree
    have hperm := hiff.2 hagree
    exact ⟨hperm.trans hwanted.symm, hperm⟩

/-- The descriptors 3 and 6 are asked for both directions, 6 after a modification, and 4 to be read; 5 is removed. -/
def fourCalls : List RegCall :=
  [.addFd 3 { eventIn := true, eventOut := true } (some 0) none 7, .addFd 4 { eventIn := true } (some 0) none 8,
    .addFd 5 { eventIn := true, eventOut := true } (some 0) none 9, .removeFd 5,
    .addFd 6 { eventOut := true } (some 0) none 10, .modifyFd 6 { eventIn := true, eventOut := true }]

/-- All of them but 4 are ready for both. -/
theorem select_run_agrees_iff_four : ∃ l₁ l₂ ret calls₁ calls₂,
    epollRun (fun _ => false) (batch l₁ [(6, { epollin := true, epollout := true }), (3, { epollin := true, epollout := true })]) l₁ =
      .ok ((), { l₁ with log := l₁.log ++ calls₁ }) ∧
    selectRun (fun _ => false) (fun fd => fd != 4) (fun fd => fd != 4) l₂ = .ok (ret, { l₂ with log := l₂.log ++ calls₂ }) ∧
    calls₂.Perm calls₁ ∧ calls₂.Perm
      [.called 3 3 6 { eventIn := true, eventOut := true } 10, .called 0 0 3 { eventIn := true, eventOut := true } 7] := by
  have hok : Allowed fourCalls {} := by decide
  obtain ⟨l₁, l₂, hrun₁, -, hall⟩ := select_run_agrees_iff hok (fun fd => fd != 4) (fun fd => fd != 4) fun _ => false
  obtain ⟨R, F, hholds, hkeeps⟩ := (returns_runCalls epoll_serves hok holds_init epoll_serves.init).of_eq hrun₁
  have hwaits : Waits l₁ (fun fd => fd != 4) (fun fd => fd != 4) _ := waits_answers hholds hkeeps (by decide)
  obtain ⟨ret, calls₁, calls₂, h₁, h₂, hiff⟩ := hall _ hwaits (by decide)
  exact ⟨l₁, l₂, ret, calls₁, calls₂, h₁, h₂, hiff.2 (by decide)⟩

/-- What a back end calls, from `mainloop_init` on. -/
def callsOf {α : Type} (platform : Platform) (calls : List RegCall) (run : Loop → LoopProg α) : Option (List Obs) :=
  match (do runCalls platform calls; let l ← get; let _ ← run l; pure l.log.length) mainloopInit with
  | .ok (n, l) => some (l.log.drop n)
  | .error _ => none

/-- Descriptor 3 is asked to be read and is ready to be read: `select_run` reports it ready to be written too. -/
theorem select_run_disagrees :
    callsOf epoll [.addFd 3 { eventIn := true } (some 0) none 7]
      (fun l => epollRun (fun _ => false) (batch l [(3, { epollin := true })])) =
        some [.called 0 0 3 { eventIn := true } 7] ∧
    callsOf select [.addFd 3 { eventIn := true } (some 0) none 7]
      (fun _ => selectRun (fun _ => false) (fun _ => true) (fun _ => false)) =
        some [.called 0 0 3 { eventIn := true, eventOut := true } 7] ∧
    ¬ [Obs.called 0 0 3 { eventIn := true, eventOut := true } 7].Perm [.called 0 0 3 { eventIn := true } 7] := by
  refine ⟨by decide +kernel, by decide +kernel, by simp⟩

end MgStd.MainLoop
