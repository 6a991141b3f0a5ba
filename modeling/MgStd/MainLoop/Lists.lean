import MgStd.MainLoop.Code
/-!
# The lists of the main loop

What each function does to the live list, to the list of nodes kept for reuse
and to the records of the nodes, as one specification for each function.
-/

namespace MgStd.MainLoop

open MgStd.Lib

variable {l l' : Loop} {L F F' : List Nat} {p x : Nat} {d : MainloopData} {fd : Int} {out : Outcome}

/-! ## Single statements -/

@[simp] theorem returns_nodeOf (Q : MainloopData → Loop → Prop) :
    Returns (nodeOf (some x)) l Q ↔ ∃ d, l.mem x = some d ∧ Q d l := by
  simp [nodeOf, onMem]

@[simp] theorem not_returns_nodeOf_null (Q : MainloopData → Loop → Prop) : ¬ Returns (nodeOf none) l Q := by
  simp [nodeOf, onMem]

@[simp] theorem returns_setNode (f : MainloopData → MainloopData) (Q : Unit → Loop → Prop) :
    Returns (setNode (some x) f) l Q ↔
      ∃ d, l.mem x = some d ∧ Q () { l with mem := Function.update l.mem x (some (f d)) } := by
  simp [setNode, onMem]

@[simp] theorem not_returns_setNode_null (f : MainloopData → MainloopData) (Q : Unit → Loop → Prop) :
    ¬ Returns (setNode none f) l Q := by
  simp [setNode, onMem]

@[simp] theorem returns_getHead (Q : Ptr Nat → Loop → Prop) : Returns getHead l Q ↔ Q l.mainloopDataHead l := by
  simp [getHead]

@[simp] theorem returns_setHead (q : Ptr Nat) (Q : Unit → Loop → Prop) :
    Returns (setHead q) l Q ↔ Q () { l with mainloopDataHead := q } := by
  simp [setHead]

@[simp] theorem returns_getFreeHead (Q : Ptr Nat → Loop → Prop) :
    Returns getFreeHead l Q ↔ Q l.mainloopFreeHead l := by
  simp [getFreeHead]

@[simp] theorem returns_setFreeHead (q : Ptr Nat) (Q : Unit → Loop → Prop) :
    Returns (setFreeHead q) l Q ↔ Q () { l with mainloopFreeHead := q } := by
  simp [setFreeHead]

@[simp] theorem returns_note (o : Obs) (Q : Unit → Loop → Prop) :
    Returns (note o) l Q ↔ Q () { l with log := l.log ++ [o] } := by
  simp [note]

@[simp] theorem returns_newEntry (Q : Nat → Loop → Prop) :
    Returns newEntry l Q ↔ Q l.entries { l with entries := l.entries + 1 } := by
  simp [newEntry]

@[simp] theorem returns_close (Q : Unit → Loop → Prop) :
    Returns (close fd) l Q ↔ Q () { l with
      timers := Function.update l.timers fd none
      interest := Function.update l.interest fd none } := by
  simp [close]

/-! ## The lists -/

/-- No block from `brk` on is in use, and a node that is not a timer has an event callback. -/
structure Sound (l : Loop) : Prop where
  below : ∀ x d, l.mem x = some d → x < l.brk
  callable : ∀ x d, l.mem x = some d → d.type = .general → d.eventCallback ≠ none

/-- The live list and the list of free nodes. -/
structure Lists (l : Loop) (L F : List Nat) : Prop extends Sound l where
  live : Chain MainloopData.next l.mem l.mainloopDataHead L
  free : Chain MainloopData.next l.mem l.mainloopFreeHead F
  disjoint : ∀ x ∈ L, x ∉ F

/-- A node without its link. -/
def MainloopData.alone (d : MainloopData) : MainloopData := { d with next := none }

/-- The record of a node, apart from its link. -/
def info (l : Loop) (x : Nat) : Option MainloopData := (l.mem x).map MainloopData.alone

def HasFd (l : Loop) (x : Nat) (fd : Int) : Prop := ∃ d, l.mem x = some d ∧ d.fd = fd

theorem chain_length_le {h : Heap Nat MainloopData} {q : Ptr Nat} {n : Nat} (hc : Chain MainloopData.next h q L)
    (hb : ∀ x d, h x = some d → x < n) : L.length ≤ n := by
  have hsub : L ⊆ List.range n := by
    intro x hx
    obtain ⟨d, hd⟩ := Seg.alloc hc hx
    exact List.mem_range.2 (hb x d hd)
  simpa using List.Nodup.length_le_of_subset hc.nodup hsub

theorem Lists.alloc (hl : Lists l L F) (hx : x ∈ L) : ∃ d, l.mem x = some d := Seg.alloc hl.live hx

theorem lists_mainloopInit : Lists mainloopInit [] [] := ⟨⟨nofun, nofun⟩, rfl, rfl, nofun⟩

/-- Memory, the block counter and the two heads are all that the lists depend on. -/
theorem Lists.of_eq (hl : Lists l L F) (hm : l'.mem = l.mem) (hb : l'.brk = l.brk)
    (hh : l'.mainloopDataHead = l.mainloopDataHead) (hf : l'.mainloopFreeHead = l.mainloopFreeHead) : Lists l' L F := by
  constructor
  · exact ⟨by rw [hm, hb]; exact hl.below, by rw [hm]; exact hl.callable⟩
  · rw [hm, hh]; exact hl.live
  · rw [hm, hf]; exact hl.free
  · exact hl.disjoint

/-- A block below `brk` is written. -/
theorem Sound.write {brk : Nat} (hs : Sound l) (hx : x < brk) (hle : l.brk ≤ brk)
    (hcb : d.type = .general → d.eventCallback ≠ none) (hm : l'.mem = Function.update l.mem x (some d))
    (hb : l'.brk = brk) : Sound l' := by
  constructor
  · intro y dy hy
    rw [hm] at hy
    rw [hb]
    by_cases hyx : y = x
    · rw [hyx]; exact hx
    · exact Nat.lt_of_lt_of_le (hs.below y dy (by rwa [Function.update_of_ne hyx] at hy)) hle
  · intro y dy hy
    rw [hm] at hy
    by_cases hyx : y = x
    · rw [hyx, Function.update_self] at hy
      cases hy
      exact hcb
    · exact hs.callable y dy (by rwa [Function.update_of_ne hyx] at hy)

/-- A record is written, but for its link. -/
theorem Lists.rewrite (hl : Lists l L F) (hx : l.mem x = some d) {d' : MainloopData} (hn : d'.next = d.next)
    (hcb : d'.type = .general → d'.eventCallback ≠ none) (hm : l'.mem = Function.update l.mem x (some d'))
    (hb : l'.brk = l.brk) (hh : l'.mainloopDataHead = l.mainloopDataHead)
    (hf : l'.mainloopFreeHead = l.mainloopFreeHead) : Lists l' L F := by
  constructor
  · exact hl.toSound.write (hl.below x d hx) (Nat.le_refl _) hcb hm hb
  · rw [hm, hh]; exact Seg.update_same hl.live hx hn
  · rw [hm, hf]; exact Seg.update_same hl.free hx hn
  · exact hl.disjoint

/-! ## Looking up a descriptor -/

/-- The first node of the list with this descriptor, and the node before it. -/
inductive Found (l : Loop) (L : List Nat) (fd : Int) : Ptr Nat × Ptr Nat → Prop
  | missing : (∀ y ∈ L, ¬ HasFd l y fd) → Found l L fd (none, L.getLast?)
  | found (X : List Nat) (x : Nat) (Z : List Nat) (d : MainloopData) : L = X ++ x :: Z → l.mem x = some d →
      d.fd = fd → (∀ y ∈ X, ¬ HasFd l y fd) → Found l L fd (some x, X.getLast?)

/-- The walk has passed the nodes `X`; those of `Z` are to come. -/
def Walking (l : Loop) (L : List Nat) (fd : Int) (k : Nat) (v : Ptr Nat × Ptr Nat) (l' : Loop) : Prop :=
  ∃ X Z, L = X ++ Z ∧ Chain MainloopData.next l.mem v.1 Z ∧ v.2 = X.getLast? ∧ (∀ y ∈ X, ¬ HasFd l y fd) ∧
    l' = l ∧ Z.length = k

theorem returns_findFd (hc : Chain MainloopData.next l.mem l.mainloopDataHead L)
    (hb : ∀ x d, l.mem x = some d → x < l.brk) : Returns (findFd fd) l fun v l' => l' = l ∧ Found l L fd v := by
  simp only [findFd, returns_bind, returns_get]
  refine returns_loop (Walking l L fd) ?_ (l.brk + 1) L.length (l.mainloopDataHead, none) l
    ⟨[], L, rfl, hc, rfl, by simp, rfl, rfl⟩ (Nat.lt_succ_of_le (chain_length_le hc hb))
  rintro k ⟨data, prev⟩ _ ⟨X, Z, rfl, hZ, rfl, hX, rfl, rfl⟩
  cases Z with
  | nil =>
    obtain rfl : data = none := hZ
    rw [List.append_nil] at *
    simp only [walkRound, if_true, returns_pure]
    exact ⟨trivial, .missing hX⟩
  | cons x Z =>
    obtain ⟨rfl, d, hd, hZ⟩ := hZ
    simp only [walkRound, reduceCtorEq, if_false, returns_bind, returns_nodeOf, returns_ite, returns_pure]
    refine ⟨d, hd, fun hfd => ⟨trivial, .found X x Z d rfl hd hfd hX⟩, fun hfd => ?_⟩
    refine ⟨Z.length, by simp, X ++ [x], Z, by simp, hZ, by simp, ?_, rfl, rfl⟩
    intro y hy
    rcases List.mem_append.1 hy with hy | hy
    · exact hX y hy
    · rw [List.mem_singleton.1 hy]
      rintro ⟨d', hd', hfd'⟩
      rw [hd] at hd'
      cases hd'
      exact hfd hfd'

/-! ## Adding -/

/-- `p` is the first free node, leaving `F'`, or a new block. -/
def Picked (l : Loop) (F : List Nat) (p : Nat) (F' : List Nat) (brk : Nat) : Prop :=
  (F = p :: F' ∧ brk = l.brk) ∨ (F = [] ∧ F' = [] ∧ p = l.brk ∧ brk = l.brk + 1)

theorem returns_takeNode (hc : Chain MainloopData.next l.mem l.mainloopFreeHead F) :
    Returns (takeNode out) l fun q l' => (q = none ∧ l' = l ∧ ¬ (l.mainloopFreeHead ≠ none ∨ out.malloc)) ∨
      ∃ p F' brk d, q = some p ∧ Picked l F p F' brk ∧ (l.mainloopFreeHead ≠ none ∨ out.malloc) ∧
        l' = { l with mem := Function.update l.mem p (some d), brk, mainloopFreeHead := F'.head? } := by
  simp only [takeNode, returns_bind, returns_getFreeHead, returns_ite, returns_pure]
  cases F with
  | nil =>
    have hnull : l.mainloopFreeHead = none := hc
    refine ⟨fun _ => ?_, fun h => absurd hnull h⟩
    simp only [mainloopMalloc, returns_bind, returns_get, returns_ite, returns_modify, returns_pure]
    refine ⟨fun hm => .inr ⟨l.brk, [], l.brk + 1, {}, rfl, .inr ⟨rfl, rfl, rfl, rfl⟩, .inr hm, ?_⟩,
      fun hm => .inl ⟨trivial, trivial, not_or.2 ⟨not_not.2 hnull, hm⟩⟩⟩
    rw [← hnull, List.head?_nil, hnull]
  | cons p F =>
    obtain ⟨hp, d, hd, hF⟩ := hc
    rw [hp]
    simp only [reduceCtorEq, false_implies, true_and, not_false_eq_true, true_implies, returns_nodeOf, returns_setFreeHead]
    refine ⟨d, hd, .inr ⟨p, F, l.brk, d, rfl, .inl ⟨rfl, rfl⟩, .inl (Option.some_ne_none p), ?_⟩⟩
    rw [update_same hd, ← Chain.head_eq hF]

theorem Picked.fresh {brk : Nat} (hl : Lists l L F) (hp : Picked l F p F' brk) :
    p ∉ L ∧ p ∉ F' ∧ (∀ x ∈ F', x ∈ F) ∧ l.brk ≤ brk ∧ p < brk := by
  rcases hp with ⟨rfl, rfl⟩ | ⟨rfl, rfl, rfl, rfl⟩
  · have hnd := hl.free.nodup
    obtain ⟨d, hd⟩ := Seg.alloc hl.free (x := p) (by simp)
    refine ⟨fun h => hl.disjoint p h (by simp), (List.nodup_cons.1 hnd).1, fun x hx => List.mem_cons_of_mem _ hx, Nat.le_refl _,
      hl.below p d hd⟩
  · refine ⟨fun h => ?_, by simp, by simp, by omega, by omega⟩
    obtain ⟨d, hd⟩ := hl.alloc h
    exact Nat.lt_irrefl _ (hl.below _ d hd)

/-- The node taken is written; the lists are those of before, without it. -/
theorem Lists.take {brk : Nat} (hl : Lists l L F) (hp : Picked l F p F' brk)
    (hcb : d.type = .general → d.eventCallback ≠ none) (hm : l'.mem = Function.update l.mem p (some d))
    (hb : l'.brk = brk) (hh : l'.mainloopDataHead = l.mainloopDataHead) (hf : l'.mainloopFreeHead = F'.head?) :
    Lists l' L F' := by
  obtain ⟨hpL, hpF, hsub, hle, hlt⟩ := hp.fresh hl
  constructor
  · exact hl.toSound.write hlt hle hcb hm hb
  · rw [hm, hh]; exact Seg.update hl.live hpL _
  · rw [hm, hf]
    rcases hp with ⟨rfl, -⟩ | ⟨-, rfl, -, -⟩
    · obtain ⟨-, n, -, hF⟩ := hl.free
      rw [← Chain.head_eq hF]
      exact Seg.update hF hpF _
    · rfl
  · exact fun x hx hxF => hl.disjoint x hx (hsub x hxF)

/-- The node taken is written and linked before the live list. -/
theorem Lists.push {brk : Nat} (hl : Lists l L F) (hp : Picked l F p F' brk) (hn : d.next = l.mainloopDataHead)
    (hcb : d.type = .general → d.eventCallback ≠ none) (hm : l'.mem = Function.update l.mem p (some d))
    (hb : l'.brk = brk) (hh : l'.mainloopDataHead = some p) (hf : l'.mainloopFreeHead = F'.head?) :
    Lists l' (p :: L) F' := by
  obtain ⟨hpL, hpF, -, -, -⟩ := hp.fresh hl
  have ht : Lists { l' with mainloopDataHead := l.mainloopDataHead } L F' := hl.take hp hcb hm hb rfl hf
  refine ⟨⟨ht.below, ht.callable⟩, ?_, ht.free, ?_⟩
  · rw [hm, hh]; exact Chain.push hl.live hpL hn
  · intro x hx
    rcases List.mem_cons.1 hx with rfl | hx
    · exact hpF
    · exact ht.disjoint x hx

/-- What an addition does to the loop: nothing, or it takes a node `p` and links it before the live list, or loses it.
`failed` is the failure of the registration that goes unnoticed. -/
inductive Added (l : Loop) (F : List Nat) (type : MainloopDataType) (failed : Prop) : Loop → Prop
  | rejected (interest : Int → Option Registration) (timers : Int → Option ItValue) (hf : ¬ failed)
      (hg : type = .general → interest = l.interest) (hi : ∀ fd, interest fd = l.interest fd ∨ interest fd = none) : Added l F type failed { l with interest, timers }
  | lost (p : Nat) (F' : List Nat) (brk : Nat) (d : MainloopData) (interest : Int → Option Registration)
      (timers : Int → Option ItValue) (hp : Picked l F p F' brk) (he : d.entry = l.entries) (hf : ¬ failed)
      (ht : d.type = type) (hty : type = .timer) (hn : d.next = none) (hi : ∀ fd, interest fd = l.interest fd ∨ interest fd = none) :
      Added l F type failed { l with
        mem := Function.update l.mem p (some d), brk, mainloopFreeHead := F'.head?, entries := l.entries + 1
        interest, timers }
  | registered (p : Nat) (F' : List Nat) (brk : Nat) (d : MainloopData) (ev : EpollEvents)
      (timers : Int → Option ItValue) (hp : Picked l F p F' brk) (he : d.entry = l.entries) (hf : ¬ failed)
      (ht : d.type = type) (hn : d.next = l.mainloopDataHead) (hfd : 0 ≤ d.fd) (hcb : d.type = .general → d.eventCallback ≠ none)
      (hi : l.interest d.fd = none) :
      Added l F type failed { l with
        mem := Function.update l.mem p (some d), brk, mainloopFreeHead := F'.head?, entries := l.entries + 1
        mainloopDataHead := some p, timers
        interest := Function.update l.interest d.fd (some ⟨ev, some p, l.entries⟩)
        log := l.log ++ [.added l.entries d.destroyCallback d.userData] }
  | unregistered (p : Nat) (F' : List Nat) (brk : Nat) (d : MainloopData) (hp : Picked l F p F' brk)
      (he : d.entry = l.entries) (ht : d.type = type) (hn : d.next = l.mainloopDataHead) (hfd : 0 ≤ d.fd)
      (hcb : d.type = .general → d.eventCallback ≠ none) (hf : failed) :
      Added l F type failed { l with
        mem := Function.update l.mem p (some d), brk, mainloopFreeHead := F'.head?, entries := l.entries + 1
        mainloopDataHead := some p }

/-- `mainloop_add_fd` gets a node. -/
def AddTakes (l : Loop) (fd : Int) (callback : Callback) (out : Outcome) : Prop :=
  0 ≤ fd ∧ callback ≠ none ∧ (l.mainloopFreeHead ≠ none ∨ out.malloc)

/-- `mainloop_add_fd` gets a node, and the registration fails. -/
def AddFails (l : Loop) (fd : Int) (callback : Callback) (out : Outcome) : Prop :=
  AddTakes l fd callback out ∧ ¬ ((l.interest fd).isNone ∧ out.ctl)

theorem returns_mainloopAddFd (hc : Chain MainloopData.next l.mem l.mainloopFreeHead F) (events : Events)
    (callback destroy : Callback) (userData : Nat) :
    Returns (mainloopAddFd epoll fd events callback destroy userData out) l
      fun _ l' => Added l F .general (AddFails l fd callback out) l' := by
  simp only [mainloopAddFd, returns_ite, returns_pure, not_or]
  refine ⟨fun hbad => ?_, ?_⟩
  · refine .rejected l.interest l.timers (fun hf => ?_) (fun _ => rfl) fun _ => .inl rfl
    rcases hbad with hfd | hcb
    · exact Int.not_lt.2 hf.1.1 hfd
    · exact hf.1.2.1 hcb
  rintro ⟨hfd, hcb⟩
  rw [returns_bind]
  refine (returns_takeNode hc).mono ?_
  rintro _ _ (⟨rfl, rfl, hnone⟩ | ⟨p, F', brk, d, rfl, hp, hget, rfl⟩)
  · simp only [if_true, returns_pure]
    exact .rejected _ _ (fun hf => hnone hf.1.2.2) (fun _ => rfl) fun _ => .inl rfl
  · simp only [reduceCtorEq, if_false, returns_bind, returns_newEntry, returns_setNode, Function.update_self,
      Option.some.injEq, exists_eq_left', Function.update_idem, returns_getHead, returns_setHead, epoll, epollAddFd,
      returns_nodeOf, epollCtlAdd, returns_get, returns_ite, returns_modify, returns_pure, returns_note,
      decide_false]
    have hfd := Int.not_lt.1 hfd
    refine ⟨fun hadd => ⟨fun _ => ?_, fun h => absurd (Int.le_refl 0) h⟩,
      fun hadd => ⟨fun h => absurd h (by decide), fun _ => ?_⟩⟩
    · exact .registered p F' brk _ _ l.timers hp rfl (fun hf => hf.2 hadd) rfl rfl hfd (fun _ => hcb)
        (Option.isNone_iff_eq_none.1 hadd.1)
    · exact .unregistered p F' brk _ hp rfl rfl rfl hfd (fun _ => hcb) ⟨⟨hfd, hcb, hget⟩, hadd⟩

theorem returns_addTimer (hc : Chain MainloopData.next l.mem l.mainloopFreeHead F) (hfd : 0 ≤ fd)
    (timers : Int → Option ItValue) (callback destroy : Callback) (userData : Nat) :
    Returns (addTimer epoll fd callback destroy userData out) { l with timers } fun _ l' => Added l F .timer False l' := by
  rw [addTimer, returns_bind]
  refine (returns_takeNode (l := { l with timers }) hc).mono ?_
  rintro _ _ (⟨rfl, rfl, -⟩ | ⟨p, F', brk, d, rfl, hp, -, rfl⟩)
  · simp only [if_true, returns_pure]
    exact .rejected _ _ not_false (fun hty => by cases hty) fun _ => .inl rfl
  · simp only [reduceCtorEq, if_false, returns_bind, returns_newEntry, returns_setNode, Function.update_self,
      Option.some.injEq, exists_eq_left', Function.update_idem, returns_getHead, returns_setHead, epoll, epollAddFd,
      returns_nodeOf, epollCtlAdd, returns_get, returns_ite, returns_modify, returns_pure, returns_note, returns_close]
    refine ⟨fun hadd => ⟨fun h => absurd h (by decide), fun _ => ?_⟩, fun _ => ⟨fun _ => ?_, fun h => absurd (by decide) h⟩⟩
    · exact .registered p F' brk _ _ _ hp rfl not_false rfl rfl hfd (fun hty => by cases hty) (Option.isNone_iff_eq_none.1 hadd.1)
    · refine .lost p F' brk _ _ _ hp rfl not_false rfl rfl rfl fun f => ?_
      by_cases h : f = fd
      · exact .inr (by rw [h, Function.update_self])
      · exact .inl (Function.update_of_ne h _ _)

theorem returns_mainloopAddTimeout (hc : Chain MainloopData.next l.mem l.mainloopFreeHead F) (msec : Int)
    (callback destroy : Callback) (userData : Nat) :
    Returns (mainloopAddTimeout epoll msec callback destroy userData out) l fun _ l' => Added l F .timer False l' := by
  simp only [mainloopAddTimeout, timerfdCreate, timeoutSet, returns_ite, returns_bind, returns_pure, returns_modify,
    returns_get, returns_close]
  have hnot : MainloopDataType.timer ≠ .general := fun hty => by cases hty
  refine ⟨fun _ => .rejected _ _ not_false hnot.elim fun _ => .inl rfl,
    fun _ => ⟨fun hfd => ⟨fun h => absurd hfd (Int.not_le.2 h), fun _ => ?_⟩,
    fun hfd => ⟨fun _ => .rejected _ _ not_false hnot.elim fun _ => .inl rfl, fun h => absurd (Int.not_lt.1 h) hfd⟩⟩⟩
  refine ⟨fun _ => ⟨fun _ => ⟨fun h => absurd h (by decide), fun _ => returns_addTimer hc hfd _ _ _ _⟩,
    fun _ => ⟨fun _ => .rejected _ _ not_false hnot.elim fun f => ?_, fun h => absurd (by decide) h⟩⟩,
    fun _ => returns_addTimer hc hfd _ _ _ _⟩
  by_cases h : f = out.timerfd
  · exact .inr (by rw [h, Function.update_self])
  · exact .inl (Function.update_of_ne h _ _)

/-! ## Modifying -/

/-- What a modification does: the first node of the live list with a registered descriptor may be named by the registration from now on. -/
inductive Modified (l : Loop) (L : List Nat) : Loop → Prop
  | kept (timers : Int → Option ItValue) : Modified l L { l with timers }
  | renewed (X : List Nat) (x : Nat) (Z : List Nat) (d : MainloopData) (ev : EpollEvents) (timers : Int → Option ItValue)
      (hL : L = X ++ x :: Z) (hx : l.mem x = some d) (hX : ∀ y ∈ X, ¬ HasFd l y d.fd) (hi : (l.interest d.fd).isSome) :
      Modified l L { l with
        interest := Function.update l.interest d.fd (some ⟨ev, some x, d.entry⟩), timers }

theorem returns_mainloopModifyFd (hc : Chain MainloopData.next l.mem l.mainloopDataHead L)
    (hb : ∀ x d, l.mem x = some d → x < l.brk) (timers : Int → Option ItValue) (events : Events) :
    Returns (mainloopModifyFd epoll fd events out) { l with timers } fun _ l' => Modified l L l' := by
  simp only [mainloopModifyFd, returns_ite, returns_pure]
  refine ⟨fun _ => .kept _, fun _ => ?_⟩
  rw [returns_bind]
  refine (returns_findFd (l := { l with timers }) hc hb).mono ?_
  rintro _ _ ⟨rfl, hmiss | ⟨X, x, Z, d, hL, hx, rfl, hX⟩⟩
  · simp only [if_true, returns_pure]
    exact .kept _
  · simp only [reduceCtorEq, if_false, epoll, epollModifyFd, epollCtlMod, returns_bind, returns_nodeOf, returns_get,
      returns_ite, returns_modify, returns_pure]
    exact ⟨d, hx, fun hmod => .renewed X x Z d _ _ hL hx hX hmod.1, fun _ => .kept _⟩

theorem returns_mainloopModifyTimeout (hc : Chain MainloopData.next l.mem l.mainloopDataHead L)
    (hb : ∀ x d, l.mem x = some d → x < l.brk) (msec : Int) :
    Returns (mainloopModifyTimeout epoll fd msec out) l fun _ l' => Modified l L l' := by
  simp only [mainloopModifyTimeout, timeoutSet, returns_ite, returns_bind, returns_pure, returns_modify, returns_get]
  exact ⟨fun _ => ⟨fun h => absurd h (by decide), fun _ => returns_mainloopModifyFd hc hb _ _⟩,
    fun _ => ⟨fun _ => .kept _, fun h => absurd (by decide) h⟩⟩

/-! ## Removing -/

/-- The node of a removed timer no longer names a descriptor. -/
def MainloopData.closed (d : MainloopData) : MainloopData := if d.type = .timer then { d with fd := -1 } else d

theorem MainloopData.closed_entry (d : MainloopData) : d.closed.entry = d.entry := by
  unfold MainloopData.closed; split <;> rfl

theorem MainloopData.closed_next (d : MainloopData) : d.closed.next = d.next := by
  unfold MainloopData.closed; split <;> rfl

theorem MainloopData.closed_callable {d : MainloopData} (h : d.type = .general → d.eventCallback ≠ none) :
    d.closed.type = .general → d.closed.eventCallback ≠ none := by
  unfold MainloopData.closed; split <;> exact h

/-- The descriptor of `d` stays registered. -/
def DelFails (l : Loop) (d : MainloopData) (out : Outcome) : Prop :=
  d.type = .general ∧ (l.interest d.fd).isSome ∧ out.ctl = false

/-- `mainloop_remove_fd` up to the destroy callback. -/
inductive Begun (l : Loop) (L : List Nat) (fd : Int) (out : Outcome) : Int ⊕ Removal → Loop → Prop
  | missing (ret : Int) (h : fd < 0 ∨ ∀ y ∈ L, ¬ HasFd l y fd) : Begun l L fd out (.inl ret) l
  | found (X : List Nat) (x : Nat) (Z : List Nat) (d : MainloopData) (ret : Int) (interest : Int → Option Registration)
      (timers : Int → Option ItValue) (h0 : 0 ≤ fd) (hL : L = X ++ x :: Z) (hx : l.mem x = some d) (hfd : d.fd = fd)
      (hX : ∀ y ∈ X, ¬ HasFd l y fd)
      (hdel : ¬ DelFails l d out → interest = Function.update l.interest fd none)
      (hkeep : DelFails l d out → interest = l.interest) :
      Begun l L fd out
        (.inr { data := some x, prev := X.getLast?, ret, destroyCallback := d.destroyCallback, entry := d.entry })
        { l with
          mem := Function.update l.mem x (some d.closed), interest, timers
          log := if d.destroyCallback = none then l.log
            else l.log ++ [.destroyed d.entry d.destroyCallback d.userData false] }

theorem returns_epollRemoveFd : Returns (epollRemoveFd fd out) l fun _ l' =>
    l' = { l with interest := if (l.interest fd).isSome ∧ out.ctl = false then l.interest
      else Function.update l.interest fd none } := by
  simp only [epollRemoveFd, epollCtlDel, returns_bind, returns_get, returns_ite, returns_modify, returns_pure]
  cases hi : l.interest fd with
  | none => exact ⟨fun h => absurd h.1 Bool.false_ne_true, fun _ => by rw [if_neg (by simp), ← hi, Function.update_eq_self]⟩
  | some reg => cases out.ctl <;> simp

theorem returns_removeBegin (hc : Chain MainloopData.next l.mem l.mainloopDataHead L)
    (hb : ∀ x d, l.mem x = some d → x < l.brk) :
    Returns (removeBegin epoll fd out) l (Begun l L fd out) := by
  simp only [removeBegin, returns_ite, returns_pure]
  refine ⟨fun h => .missing _ (.inl h), fun h0 => ?_⟩
  rw [returns_bind]
  refine (returns_findFd hc hb).mono ?_
  rintro _ l ⟨rfl, hmiss | ⟨X, x, Z, d, hL, hx, rfl, hX⟩⟩
  · simp only [if_true, returns_pure]
    exact .missing _ (.inr hmiss)
  · have h0 : 0 ≤ d.fd := Int.not_lt.1 h0
    simp only [reduceCtorEq, if_false, returns_bind, returns_nodeOf]
    refine ⟨d, hx, returns_epollRemoveFd.mono ?_⟩
    rintro ret _ rfl
    simp only [returns_bind, returns_ite, returns_close, returns_setNode, returns_note, returns_pure, hx,
      Option.some.injEq, exists_eq_left', ne_eq]
    have hfound (interest : Int → Option Registration) (timers : Int → Option ItValue)
        (hdel : ¬ DelFails l d out → interest = Function.update l.interest d.fd none)
        (hkeep : DelFails l d out → interest = l.interest) :=
      Begun.found X x Z d ret interest timers h0 hL hx rfl hX hdel hkeep
    cases ht : d.type with
    | timer =>
      have hcl : d.closed = { d with fd := -1 } := by simp [MainloopData.closed, ht]
      have hnot : ¬ DelFails l d out := fun h => by simp [DelFails, ht] at h
      have hdel : Function.update (if (l.interest d.fd).isSome ∧ out.ctl = false then l.interest
          else Function.update l.interest d.fd none) d.fd none = Function.update l.interest d.fd none := by
        split
        · rfl
        · rw [Function.update_idem]
      rw [hdel, ← ht, ← hcl]
      have hf := hfound _ (Function.update l.timers d.fd none) (fun _ => rfl) fun h => absurd h hnot
      refine ⟨fun _ => ⟨fun hd => by simpa [hd] using hf, fun hd => by simpa [not_not.1 hd] using hf⟩, fun h => absurd rfl h⟩
    | general =>
      have hcl : d.closed = d := by simp [MainloopData.closed, ht]
      have hmem : Function.update l.mem x (some d.closed) = l.mem := by rw [hcl, update_same hx]
      have hf := hfound (if (l.interest d.fd).isSome ∧ out.ctl = false then l.interest
        else Function.update l.interest d.fd none) l.timers (fun h => if_neg fun hdel => h ⟨ht, hdel⟩) fun h => if_pos h.2
      exact ⟨fun hty => (by cases hty), fun _ => ⟨fun hd => by simpa [hd, hmem] using hf, fun hd => by simpa [not_not.1 hd, hmem] using hf⟩⟩

/-- Taking `x` out of a list: from the front, or behind `prev`, where what lies between goes too. -/
inductive Unlink (x : Nat) (prev : Ptr Nat) : List Nat → List Nat → Prop
  | head (Z : List Nat) : Unlink x prev (x :: Z) Z
  | behind (X : List Nat) (q : Nat) (Y Z : List Nat) (hq : prev = some q) :
      Unlink x prev (X ++ q :: (Y ++ x :: Z)) (X ++ q :: Z)

theorem Unlink.subset {prev : Ptr Nat} {L' : List Nat} (hu : Unlink x prev L L') : ∀ y ∈ L', y ∈ L := by
  cases hu with
  | head => intro y hy; exact List.mem_cons_of_mem _ hy
  | behind X q Y Z hq => intro y hy; simp only [List.mem_append, List.mem_cons] at hy ⊢; tauto

theorem Unlink.not_mem {prev : Ptr Nat} {L' : List Nat} (hu : Unlink x prev L L') (hnd : L.Nodup) : x ∈ L ∧ x ∉ L' := by
  cases hu with
  | head => simpa using (List.nodup_cons.1 hnd).1
  | behind X q Y Z hq =>
    refine ⟨by simp, fun hx => ?_⟩
    simp only [List.nodup_append, List.nodup_cons, List.mem_append, List.mem_cons] at hnd hx
    obtain ⟨-, ⟨hq', -, ⟨hxZ, -⟩, -⟩, hdis⟩ := hnd
    rcases hx with hx | rfl | hx
    · exact hdis x hx x (.inr (.inr (.inl rfl))) rfl
    · exact hq' (.inr (.inl rfl))
    · exact hxZ hx

/-- What a lookup finds is in place. -/
theorem unlink_found (X : List Nat) (x : Nat) (Z : List Nat) : Unlink x X.getLast? (X ++ x :: Z) (X ++ Z) := by
  rcases List.eq_nil_or_concat X with rfl | ⟨X, q, rfl⟩
  · exact .head Z
  · simpa using Unlink.behind X q [] Z (x := x) (by simp)

/-- What the end of a removal does: `x` moves to the front of the free list, and links are all that changes. -/
structure Removed (l : Loop) (x : Nat) (L' F : List Nat) (entry : Nat) (l' : Loop) : Prop where
  eq : ∃ mem, l' = { l with
    mem, mainloopDataHead := L'.head?, mainloopFreeHead := some x, log := l.log ++ [.removed entry] }
  lists : Lists l' L' (x :: F)
  info : ∀ y, info l' y = info l y
  frame : ∀ y, y ∉ L' → y ≠ x → l'.mem y = l.mem y

theorem info_update {h : Heap Nat MainloopData} (hx : h x = some d) {d' : MainloopData} (hd : d'.alone = d.alone) (y : Nat) :
    (Function.update h x (some d') y).map MainloopData.alone = (h y).map MainloopData.alone := by
  by_cases hy : y = x
  · rw [hy, Function.update_self, hx, Option.map_some, Option.map_some, hd]
  · rw [Function.update_of_ne hy]

/-- The records are those of before, but for their links. -/
theorem entry_of_info (hi : ∀ y, info l' y = info l y) (hd : l.mem x = some d) :
    ∃ d', l'.mem x = some d' ∧ d'.alone = d.alone := by
  have h := hi x
  simp only [info, hd, Option.map_some] at h
  exact Option.map_eq_some_iff.1 h

/-- Soundness is about the records apart from their links. -/
theorem Sound.of_info (hs : Sound l) (hi : ∀ y, info l' y = info l y) (hb : l'.brk = l.brk) : Sound l' := by
  have hback : ∀ y d', l'.mem y = some d' → ∃ d, l.mem y = some d ∧ d.alone = d'.alone :=
    fun y d' hd' => entry_of_info (fun y => (hi y).symm) hd'
  constructor
  · intro y d' hd'
    obtain ⟨d, hd, -⟩ := hback y d' hd'
    rw [hb]
    exact hs.below y d hd
  · intro y d' hd' ht
    obtain ⟨d, hd, he⟩ := hback y d' hd'
    simp only [MainloopData.alone, MainloopData.mk.injEq] at he
    rw [← he.2.2.2.2.1]
    exact hs.callable y d hd (he.2.2.1 ▸ ht)

/-- The end of a removal, once the links that skip `x` are in `mem`. -/
theorem removed_of_mem {L' : List Nat} {mem : Heap Nat MainloopData} {e : Nat} (hl : Lists l L F) (hx : mem x = some d)
    (hxL : x ∈ L) (hxL' : x ∉ L') (hsub : ∀ y ∈ L', y ∈ L) (hlive : Chain MainloopData.next mem L'.head? L')
    (hinfo : ∀ y, (mem y).map MainloopData.alone = (l.mem y).map MainloopData.alone)
    (hframe : ∀ y ∉ L', mem y = l.mem y) :
    Removed l x L' F e { l with
      mem := Function.update mem x (some { d with next := l.mainloopFreeHead })
      mainloopDataHead := L'.head?, mainloopFreeHead := some x, log := l.log ++ [.removed e] } := by
  have hxF := hl.disjoint x hxL
  have hfree : Chain MainloopData.next mem l.mainloopFreeHead F :=
    Seg.frame hl.free fun y hy => hframe y fun hy' => hl.disjoint y (hsub y hy') hy
  have hinfo' : ∀ y, (Function.update mem x (some { d with next := l.mainloopFreeHead }) y).map MainloopData.alone =
      (l.mem y).map MainloopData.alone := by
    intro y
    have hd : ({ d with next := l.mainloopFreeHead } : MainloopData).alone = d.alone := rfl
    rw [← hinfo y]
    exact info_update hx hd y
  refine ⟨⟨_, rfl⟩, ⟨hl.toSound.of_info hinfo' rfl, Seg.update hlive hxL' _, Chain.push hfree hxF rfl, ?_⟩, hinfo', ?_⟩
  · intro y hy hyF
    rcases List.mem_cons.1 hyF with rfl | hyF
    · exact hxL' hy
    · exact hl.disjoint y (hsub y hy) hyF
  · intro y hy hyx
    change Function.update mem x _ y = _
    rw [Function.update_of_ne hyx, hframe y hy]

theorem returns_removeEnd (hl : Lists l L F) {r : Removal} {L' : List Nat} (hx : r.data = some x)
    (hu : Unlink x r.prev L L') : Returns (removeEnd r) l fun _ l' => Removed l x L' F r.entry l' := by
  have hnd := hl.live.nodup
  obtain ⟨hxL, hxL'⟩ := hu.not_mem hnd
  obtain ⟨d, hd⟩ := Seg.alloc hl.live hxL
  have hsub := hu.subset
  simp only [removeEnd, returns_bind, returns_getHead, returns_ite, hx]
  cases hu with
  | head Z =>
    obtain ⟨hh, d', hd', hZ⟩ := hl.live
    obtain rfl : d = d' := by simpa [hd] using hd'
    rw [hh]
    simp only [returns_nodeOf, returns_setHead, returns_getFreeHead, returns_setNode, returns_setFreeHead,
      returns_note, returns_pure, true_implies, not_true_eq_false, false_implies, and_true, hd, Option.some.injEq,
      exists_eq_left']
    have hZ' := Chain.head_eq hZ
    rw [hZ'] at hZ ⊢
    exact removed_of_mem hl hd hxL hxL' hsub hZ (fun _ => rfl) fun _ _ => rfl
  | behind X q Y Z hq =>
    have hqx : q ≠ x := by rintro rfl; simp at hxL'
    obtain ⟨dq, hdq⟩ := Seg.alloc hl.live (x := q) (by simp)
    have hne : some x ≠ l.mainloopDataHead := by
      rw [Chain.head_eq hl.live]
      cases X with
      | nil => simpa using hqx.symm
      | cons y X => rintro h; cases h; simp at hxL'
    have hlive := Chain.cut hl.live hd (m := { dq with next := d.next }) rfl
    have hhead : l.mainloopDataHead = (X ++ q :: Z).head? := Chain.head_eq hlive
    refine ⟨fun h => absurd h hne, fun _ => ?_⟩
    simp only [hq, returns_nodeOf, returns_getFreeHead, returns_setNode, returns_setFreeHead, returns_note,
      returns_pure, hd, hdq, Option.some.injEq, exists_eq_left', Function.update_of_ne hqx.symm]
    rw [hhead] at hlive ⊢
    refine removed_of_mem hl (by rw [Function.update_of_ne hqx.symm, hd]) hxL hxL' hsub hlive (info_update hdq rfl) ?_
    intro y hy
    exact Function.update_of_ne (by rintro rfl; simp at hy) _ _

/-! ## Quitting -/

/-- The memory without the blocks at `F`. -/
def freed (h : Heap Nat MainloopData) (F : List Nat) : Heap Nat MainloopData := fun y => if y ∈ F then none else h y

@[simp] theorem freed_nil (h : Heap Nat MainloopData) : freed h [] = h := by
  funext y
  simp [freed]

/-- The blocks `X` are freed; those of `Z` are to come. -/
def Freeing (l : Loop) (F : List Nat) (k : Nat) (p : Ptr Nat) (l' : Loop) : Prop :=
  ∃ X Z, F = X ++ Z ∧ Chain MainloopData.next l.mem p Z ∧
    l' = { l with mem := freed l.mem X, mainloopTerminate := true } ∧ Z.length = k

theorem returns_mainloopQuit (hc : Chain MainloopData.next l.mem l.mainloopFreeHead F)
    (hb : ∀ x d, l.mem x = some d → x < l.brk) : Returns mainloopQuit l fun _ l' =>
      l' = { l with mem := freed l.mem F, mainloopTerminate := true } := by
  simp only [mainloopQuit, returns_bind, returns_modify, returns_get]
  refine returns_loop (Freeing l F) ?_ (l.brk + 1) F.length l.mainloopFreeHead _
    ⟨[], F, rfl, hc, by rw [freed_nil], rfl⟩ (Nat.lt_succ_of_le (chain_length_le hc hb))
  rintro k p _ ⟨X, Z, hF, hZ, rfl, rfl⟩
  cases Z with
  | nil =>
    obtain rfl : p = none := hZ
    simp [freeRound, hF]
  | cons x Z =>
    obtain ⟨rfl, d, hd, hZ⟩ := hZ
    have hnd := hc.nodup
    rw [hF] at hnd
    have hxX : x ∉ X := fun hx => (List.nodup_append.1 hnd).2.2 x hx x List.mem_cons_self rfl
    have hd' : freed l.mem X x = some d := by simp [freed, hxX, hd]
    simp only [freeRound, reduceCtorEq, if_false, returns_bind, returns_nodeOf, mainloopFree, returns_modify,
      returns_pure, hd', Option.some.injEq, exists_eq_left']
    refine ⟨Z.length, by simp, X ++ [x], Z, by simp [hF], hZ, ?_, rfl⟩
    congr 1
    funext y
    by_cases hy : y = x
    · simp [freed, hy]
    · simp [freed, hy]

/-- The free list is gone, and its head is still there. -/
def Stale (l : Loop) : Prop := ∃ f, l.mainloopFreeHead = some f ∧ l.mem f = none

/-- The live list, next to a free list or to what is left of one. -/
def Kept (l : Loop) (L : List Nat) : Prop :=
  (∃ F, Lists l L F) ∨ (Sound l ∧ Chain MainloopData.next l.mem l.mainloopDataHead L ∧ Stale l)

theorem Kept.sound (hk : Kept l L) : Sound l := by
  rcases hk with ⟨F, hl⟩ | ⟨hs, -, -⟩
  · exact hl.toSound
  · exact hs

theorem Kept.live (hk : Kept l L) : Chain MainloopData.next l.mem l.mainloopDataHead L := by
  rcases hk with ⟨F, hl⟩ | ⟨-, hc, -⟩
  · exact hl.live
  · exact hc

theorem Kept.lists (hk : Kept l L) (hs : ¬ Stale l) : ∃ F, Lists l L F :=
  hk.resolve_right fun ⟨_, _, h⟩ => hs h

theorem Kept.of_eq (hk : Kept l L) (hm : l'.mem = l.mem) (hb : l'.brk = l.brk)
    (hh : l'.mainloopDataHead = l.mainloopDataHead) (hf : l'.mainloopFreeHead = l.mainloopFreeHead) : Kept l' L := by
  rcases hk with ⟨F, hl⟩ | ⟨hs, hc, hst⟩
  · exact .inl ⟨F, hl.of_eq hm hb hh hf⟩
  · refine .inr ⟨⟨by rw [hm, hb]; exact hs.below, by rw [hm]; exact hs.callable⟩, by rw [hm, hh]; exact hc, ?_⟩
    obtain ⟨f, hf', hfm⟩ := hst
    exact ⟨f, by rw [hf, hf'], by rw [hm, hfm]⟩

theorem Kept.rewrite (hk : Kept l L) (hx : l.mem x = some d) {d' : MainloopData} (hn : d'.next = d.next)
    (hcb : d'.type = .general → d'.eventCallback ≠ none) (hm : l'.mem = Function.update l.mem x (some d'))
    (hb : l'.brk = l.brk) (hh : l'.mainloopDataHead = l.mainloopDataHead)
    (hf : l'.mainloopFreeHead = l.mainloopFreeHead) : Kept l' L := by
  rcases hk with ⟨F, hl⟩ | ⟨hs, hc, f, hf', hfm⟩
  · exact .inl ⟨F, hl.rewrite hx hn hcb hm hb hh hf⟩
  · refine .inr ⟨hs.write (hs.below x d hx) (Nat.le_refl _) hcb hm hb, ?_, f, by rw [hf, hf'], ?_⟩
    · rw [hm, hh]; exact Seg.update_same hc hx hn
    · have hne : f ≠ x := by rintro rfl; rw [hfm] at hx; cases hx
      rw [hm, Function.update_of_ne hne, hfm]

theorem freed_alloc {h : Heap Nat MainloopData} (hx : freed h F x = some d) : x ∉ F ∧ h x = some d := by
  simp only [freed] at hx
  split at hx
  · cases hx
  · next hxF => exact ⟨hxF, hx⟩

theorem Lists.not_stale (hl : Lists l L F) : ¬ Stale l := by
  rintro ⟨f, hf, hm⟩
  have hc := hl.free
  rw [hf] at hc
  obtain ⟨n, -, hn, -⟩ := chain_some.1 hc
  rw [hm] at hn
  cases hn

theorem Lists.freed (hl : Lists l L F) :
    Kept { l with mem := freed l.mem F, mainloopTerminate := true } L := by
  have hs : Sound { l with mem := MainLoop.freed l.mem F, mainloopTerminate := true } :=
    ⟨fun x d hx => hl.below x d (freed_alloc hx).2, fun x d hx => hl.callable x d (freed_alloc hx).2⟩
  have hlive : Chain MainloopData.next (MainLoop.freed l.mem F) l.mainloopDataHead L :=
    Seg.frame hl.live fun x hx => if_neg (hl.disjoint x hx)
  cases F with
  | nil => exact .inl ⟨[], hs, hlive, hl.free, by simp⟩
  | cons f F => exact .inr ⟨hs, hlive, f, hl.free.1, if_pos List.mem_cons_self⟩

/-- A second quit frees the free list again. -/
theorem mainloopQuit_stale (hs : Stale l) : mainloopQuit l = .error .dangling := by
  obtain ⟨f, hf, hm⟩ := hs
  simp [mainloopQuit, bind, StateT.bind, modify, modifyGet, MonadStateOf.modifyGet, StateT.modifyGet, get, getThe,
    MonadStateOf.get, StateT.get, pure, Except.pure, Except.bind, hf, loop, freeRound, nodeOf, onMem, zoom, load, hm]

/-! ## Dispatching and sweeping -/

theorem returns_dispatchEvent (hs : Sound l) {ev : Ready} (hp : ev.data = some p) (hd : l.mem p = some d) (readOk : Bool) :
    Returns (dispatchEvent ev readOk) l fun c l' => (c = false ∧ l' = l) ∨
      c = true ∧ (d.type = .timer → 0 ≤ d.fd) ∧
        l' = { l with log := l.log ++ [.called ev.entry d.entry d.fd (eventsOf ev.events) d.userData] } := by
  simp only [dispatchEvent, hp, returns_bind, returns_nodeOf, hd, Option.some.injEq, exists_eq_left']
  cases ht : d.type with
  | general =>
    have hcb := hs.callable p d hd ht
    simp only [hcb, if_false, returns_bind, returns_note, returns_pure]
    exact .inr ⟨trivial, fun hty => (by cases hty), trivial⟩
  | timer =>
    simp only [mainloopTimeoutProcess, callTimeout, ht, ne_eq, not_true_eq_false, if_false, returns_ite, returns_pure,
      returns_bind, returns_note]
    refine ⟨fun _ => .inl ⟨trivial, trivial⟩, fun _ => ⟨fun _ => .inl ⟨trivial, trivial⟩, fun hfd =>
      ⟨fun _ => .inl ⟨trivial, trivial⟩, fun _ => .inr ⟨trivial, fun _ => by omega, trivial⟩⟩⟩⟩

/-- An event is only dispatched to a node in use. -/
theorem dispatchEvent_node {ev : Ready} {readOk c : Bool} (h : dispatchEvent ev readOk l = .ok (c, l')) :
    ∃ p d, ev.data = some p ∧ l.mem p = some d := by
  have hr : Returns (dispatchEvent ev readOk) l fun _ _ => True := ⟨c, l', h, trivial⟩
  rw [dispatchEvent, returns_bind] at hr
  cases hp : ev.data with
  | none => simp [hp] at hr
  | some p =>
    rw [hp, returns_nodeOf] at hr
    obtain ⟨d, hd, -⟩ := hr
    exact ⟨p, d, rfl, hd⟩

/-- An event that calls its callback leaves a line in the log, and nothing else. -/
theorem dispatchEvent_called (hs : Sound l) {ev : Ready} {readOk : Bool} (h : dispatchEvent ev readOk l = .ok (true, l')) :
    ∃ p d, ev.data = some p ∧ l.mem p = some d ∧ (d.type = .timer → 0 ≤ d.fd) ∧
      l' = { l with log := l.log ++ [.called ev.entry d.entry d.fd (eventsOf ev.events) d.userData] } := by
  obtain ⟨p, d, hp, hd⟩ := dispatchEvent_node h
  rcases (returns_dispatchEvent hs hp hd readOk).of_eq h with ⟨hf, -⟩ | ⟨-, htimer, hl'⟩
  · cases hf
  · exact ⟨p, d, hp, hd, htimer, hl'⟩

/-- One that does not leaves all as it is. -/
theorem dispatchEvent_passed (hs : Sound l) {ev : Ready} {readOk : Bool} (h : dispatchEvent ev readOk l = .ok (false, l')) : l' = l := by
  obtain ⟨p, d, hp, hd⟩ := dispatchEvent_node h
  rcases (returns_dispatchEvent hs hp hd readOk).of_eq h with ⟨-, hl'⟩ | ⟨hf, -⟩
  · exact hl'
  · cases hf

/-- A round of the final loop: only the kernel's side and the log change. -/
theorem returns_sweepBegin (hd : l.mem p = some d) : Returns (sweepBegin (some p)) l fun r l' =>
    r = (d.next, d.destroyCallback) ∧ ∃ interest timers, l' = { l with
      interest, timers
      log := if d.destroyCallback = none then l.log
        else l.log ++ [.destroyed d.entry d.destroyCallback d.userData true] } := by
  simp only [sweepBegin, returns_bind, returns_nodeOf, hd, Option.some.injEq, exists_eq_left', returns_ite,
    returns_close, returns_note, returns_pure, ne_eq]
  cases hcb : d.destroyCallback with
  | none =>
    exact ⟨fun _ => ⟨fun h => absurd rfl h, fun _ => ⟨trivial, _, _, rfl⟩⟩,
      fun _ => ⟨fun h => absurd rfl h, fun _ => ⟨trivial, _, _, rfl⟩⟩⟩
  | some cb =>
    exact ⟨fun _ => ⟨fun _ => ⟨trivial, _, _, rfl⟩, fun h => absurd (Option.some_ne_none cb) h⟩,
      fun _ => ⟨fun _ => ⟨trivial, _, _, rfl⟩, fun h => absurd (Option.some_ne_none cb) h⟩⟩

theorem returns_mainloopFree (hd : l.mem p = some d) : Returns (mainloopFree (some p)) l fun _ l' =>
    l' = { l with mem := Function.update l.mem p none } := by
  simp [mainloopFree, hd]

end MgStd.MainLoop
