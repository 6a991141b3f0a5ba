import MgStd.MainLoop.Lists
import MgStd.Lib.Runs
/-!
# The live list and the interest set

Under any sequence of `mainloop_add_fd`, `mainloop_modify_fd` and
`mainloop_remove_fd`, the live list and the interest set of epoll stay in step
exactly as long as no registration of an added descriptor and no removal of a
registered one fails. `mainloop_add_fd` links its node before it registers the
descriptor, and leaves it linked when this fails.
-/

namespace MgStd.MainLoop

open MgStd.Lib

variable {l l' : Loop} {L F : List Nat} {x : Nat} {fd : Int} {out : Outcome}

/-- A call from outside the callbacks; the destroy callbacks leave the loop alone. -/
inductive RegCall
  | addFd (fd : Int) (events : Events) (callback destroy : Callback) (userData : Nat)
  | modifyFd (fd : Int) (events : Events)
  | removeFd (fd : Int)

def RegCall.exec (platform : Platform) (c : RegCall) (out : Outcome) : LoopProg Int :=
  match c with
  | .addFd fd events callback destroy userData => mainloopAddFd platform fd events callback destroy userData out
  | .modifyFd fd events => mainloopModifyFd platform fd events out
  | .removeFd fd => mainloopRemoveFd platform fd out fun _ => pure ()

def callStep (l : Loop) (c : RegCall × Outcome) : Option (Except Fault Loop) :=
  some (match c.1.exec epoll c.2 l with
    | .ok (_, l') => .ok l'
    | .error e => .error e)

/-- The descriptors on the live list `L` are those registered, each on one node, which is the one epoll holds. -/
structure Registered (l : Loop) (L : List Nat) : Prop where
  live : Chain MainloopData.next l.mem l.mainloopDataHead L
  listed : ∀ x ∈ L, ∀ fd, HasFd l x fd → ∃ reg, l.interest fd = some reg ∧ reg.ptr = some x
  registered : ∀ fd reg, l.interest fd = some reg → ∃ x ∈ L, reg.ptr = some x ∧ HasFd l x fd

theorem Registered.once (hr : Registered l L) {y : Nat} (hx : x ∈ L) (hy : y ∈ L) (hfx : HasFd l x fd) (hfy : HasFd l y fd) :
    x = y := by
  obtain ⟨reg, hreg, hpx⟩ := hr.listed x hx fd hfx
  obtain ⟨reg', hreg', hpy⟩ := hr.listed y hy fd hfy
  rw [hreg] at hreg'
  cases hreg'
  rw [hpx] at hpy
  exact Option.some.inj hpy

/-- Nothing of `fd` is left. -/
def Gone (l : Loop) (L : List Nat) (fd : Int) : Prop := l.interest fd = none ∧ ∀ x ∈ L, ¬ HasFd l x fd

/-- The call comes back with the two stores in step, and a removal leaves nothing of its descriptor. -/
def InStep (l : Loop) (c : RegCall × Outcome) : Prop :=
  ∃ l' L, callStep l c = some (.ok l') ∧ Registered l' L ∧ ∀ fd, c.1 = .removeFd fd → Gone l' L fd

/-- No registration of an added descriptor fails, and no removal of a registered one. -/
def Answered (l : Loop) : RegCall × Outcome → Prop
  | (.addFd fd _ callback _ _, out) => ¬ AddFails l fd callback out
  | (.modifyFd .., _) => True
  | (.removeFd fd, out) => (l.interest fd).isSome → out.ctl = true

/-! ## One call -/

/-- Before and after every call; only descriptors are added. -/
structure Sync (l : Loop) (L F : List Nat) : Prop where
  lists : Lists l L F
  listed : ∀ x ∈ L, ∀ fd, HasFd l x fd → ∃ reg, l.interest fd = some reg ∧ reg.ptr = some x
  registered : ∀ fd reg, l.interest fd = some reg → ∃ x ∈ L, reg.ptr = some x ∧ HasFd l x fd
  general : ∀ x ∈ L, ∀ d, l.mem x = some d → d.type = .general ∧ 0 ≤ d.fd

theorem Sync.reg (h : Sync l L F) : Registered l L := ⟨h.lists.live, h.listed, h.registered⟩

theorem hasFd_update {h : Heap Nat MainloopData} {p : Nat} {d : MainloopData} (hm : l'.mem = Function.update h p (some d))
    (hx : x ≠ p) : HasFd l' x fd ↔ ∃ d, h x = some d ∧ d.fd = fd := by
  unfold HasFd
  rw [hm, Function.update_of_ne hx]

theorem hasFd_update_self {h : Heap Nat MainloopData} {p : Nat} {d : MainloopData}
    (hm : l'.mem = Function.update h p (some d)) : HasFd l' p fd ↔ d.fd = fd := by
  unfold HasFd
  simp [hm]

theorem Sync.added {failed : Prop} (h : Sync l L F) (ha : Added l F .general failed l') (hf : ¬ failed) :
    ∃ L F, Sync l' L F := by
  cases ha with
  | rejected interest timers _ hg hi =>
    cases hg rfl
    exact ⟨L, F, h.lists.of_eq rfl rfl rfl rfl, h.listed, h.registered, h.general⟩
  | lost p F' brk d interest timers hp he _ ht hty hn hi => cases hty
  | registered p F' brk d ev timers hp he _ ht hn hfd hcb hi =>
    have hpL := (hp.fresh h.lists).1
    have hne : ∀ x ∈ L, x ≠ p := by rintro x hx rfl; exact hpL hx
    refine ⟨p :: L, F', h.lists.push hp hn hcb rfl rfl rfl rfl, ?_, ?_, ?_⟩
    · intro x hx fd hfd
      rcases List.mem_cons.1 hx with rfl | hx
      · rw [hasFd_update_self rfl] at hfd
        rw [← hfd]
        exact ⟨_, Function.update_self .., rfl⟩
      · rw [hasFd_update rfl (hne x hx)] at hfd
        obtain ⟨reg, hreg, hptr⟩ := h.listed x hx fd hfd
        have hfd' : fd ≠ d.fd := by rintro rfl; rw [hi] at hreg; cases hreg
        exact ⟨reg, by simp only [Function.update_of_ne hfd', hreg], hptr⟩
    · intro fd reg hreg
      by_cases hfd' : fd = d.fd
      · subst hfd'
        simp only [Function.update_self, Option.some.injEq] at hreg
        exact ⟨p, List.mem_cons_self, by rw [← hreg], (hasFd_update_self rfl).2 rfl⟩
      · simp only [Function.update_of_ne hfd'] at hreg
        obtain ⟨x, hx, hptr, hfd⟩ := h.registered fd reg hreg
        exact ⟨x, List.mem_cons_of_mem _ hx, hptr, (hasFd_update rfl (hne x hx)).2 hfd⟩
    · intro x hx dx hdx
      rcases List.mem_cons.1 hx with rfl | hx
      · simp only [Function.update_self, Option.some.injEq] at hdx
        exact hdx ▸ ⟨ht, hfd⟩
      · simp only [Function.update_of_ne (hne x hx)] at hdx
        exact h.general x hx dx hdx
  | unregistered p F' brk d hp he ht hn hfd hcb hfail => exact absurd hfail hf

/-- A node linked without a registration: its descriptor has a node too many, or one without a registration. -/
theorem Sync.not_registered {failed : Prop} (h : Sync l L F) (ha : Added l F .general failed l') (hf : failed)
    (L' : List Nat) : ¬ Registered l' L' := by
  cases ha with
  | rejected interest timers hfail => exact absurd hf hfail
  | lost p F' brk d interest timers hp he hfail => exact absurd hf hfail
  | registered p F' brk d ev timers hp he hfail => exact absurd hf hfail
  | unregistered p F' brk d hp he ht hn hfd hcb =>
    intro hr
    have hl : Lists { l with
        mem := Function.update l.mem p (some d), brk, mainloopDataHead := some p, mainloopFreeHead := F'.head?
        entries := l.entries + 1 } (p :: L) F' := h.lists.push hp hn hcb rfl rfl rfl rfl
    obtain rfl : L' = p :: L := Chain.unique hr.live hl.live
    obtain ⟨reg, hreg, hptr⟩ := hr.listed p List.mem_cons_self d.fd ((hasFd_update_self rfl).2 rfl)
    obtain ⟨x, hx, hptr', -⟩ := h.registered d.fd reg hreg
    rw [hptr] at hptr'
    cases hptr'
    exact (hp.fresh h.lists).1 hx

theorem Sync.modified (h : Sync l L F) (hm : Modified l L l') : Sync l' L F := by
  cases hm with
  | kept timers => exact ⟨h.lists.of_eq rfl rfl rfl rfl, h.listed, h.registered, h.general⟩
  | renewed X x Z d ev timers hL hx hX hi =>
    have hxL : x ∈ L := by simp [hL]
    refine ⟨h.lists.of_eq rfl rfl rfl rfl, ?_, ?_, h.general⟩
    · intro y hy fd hfd
      by_cases hfd' : fd = d.fd
      · subst hfd'
        obtain rfl := h.reg.once hxL hy ⟨d, hx, rfl⟩ hfd
        exact ⟨_, Function.update_self .., rfl⟩
      · obtain ⟨reg, hreg, hptr⟩ := h.listed y hy fd hfd
        exact ⟨reg, by simp only [Function.update_of_ne hfd', hreg], hptr⟩
    · intro fd reg hreg
      by_cases hfd' : fd = d.fd
      · subst hfd'
        simp only [Function.update_self, Option.some.injEq] at hreg
        exact ⟨x, hxL, by rw [← hreg], d, hx, rfl⟩
      · simp only [Function.update_of_ne hfd'] at hreg
        exact h.registered fd reg hreg

/-- A removal, from its beginning to its end. -/
theorem returns_mainloopRemoveFd (h : Sync l L F) :
    Returns (mainloopRemoveFd epoll fd out fun _ => pure ()) l fun _ l' =>
      (l' = l ∧ Gone l L fd) ∨ ∃ X x Z, L = X ++ x :: Z ∧ HasFd l x fd ∧ Lists l' (X ++ Z) (x :: F) ∧
        (∀ y, info l' y = info l y) ∧
        l'.interest = if (l.interest fd).isSome ∧ out.ctl = false then l.interest else Function.update l.interest fd none := by
  simp only [mainloopRemoveFd, returns_bind]
  refine (returns_removeBegin h.lists.live h.lists.below).mono fun r l₁ hb => ?_
  cases hb with
  | missing ret hmiss =>
    have hnone : ∀ x ∈ L, ¬ HasFd l x fd := by
      rcases hmiss with hneg | hnone
      · rintro x hx ⟨d, hd, rfl⟩
        exact Int.not_le.2 hneg (h.general x hx d hd).2
      · exact hnone
    refine (returns_pure _ _ _).2 (.inl ⟨rfl, ?_, hnone⟩)
    refine Option.eq_none_iff_forall_ne_some.2 fun reg hreg => ?_
    obtain ⟨x, hx, -, hfd⟩ := h.registered fd reg hreg
    exact hnone x hx hfd
  | found X x Z d ret interest timers h0 hL hx hfd hX hdel hkeep =>
    have hxL : x ∈ L := by simp [hL]
    have hgen := (h.general x hxL d hx).1
    have hcl : d.closed = d := by simp [MainloopData.closed, hgen]
    rw [hcl, update_same hx]
    rw [hL] at h
    have hl (log : List Obs) : Lists { l with interest, timers, log } (X ++ x :: Z) F := h.lists.of_eq rfl rfl rfl rfl
    simp only [returns_bind, returns_pure]
    refine Returns.mono (returns_removeEnd (hl _) rfl (unlink_found X x Z)) fun ret l' hrem => ?_
    obtain ⟨mem, hl'⟩ := hrem.eq
    refine .inr ⟨X, x, Z, hL, ⟨d, hx, hfd⟩, hrem.lists, hrem.info, ?_⟩
    rw [hl', ← hfd]
    by_cases hfail : (l.interest d.fd).isSome ∧ out.ctl = false
    · rw [if_pos hfail, hkeep ⟨hgen, hfail⟩]
    · rw [if_neg hfail, hdel fun h => hfail h.2, hfd]

theorem hasFd_of_info (hi : ∀ y, info l' y = info l y) : HasFd l' x fd ↔ HasFd l x fd := by
  have hfd (l : Loop) : HasFd l x fd ↔ (info l x).map MainloopData.fd = some fd := by
    simp [HasFd, info, MainloopData.alone]
  rw [hfd, hfd, hi]

theorem Sync.removed {X Z : List Nat} (h : Sync l (X ++ x :: Z) F) (hfd : HasFd l x fd) (hl : Lists l' (X ++ Z) (x :: F))
    (hi : ∀ y, info l' y = info l y) (hint : l'.interest = Function.update l.interest fd none) :
    Sync l' (X ++ Z) (x :: F) ∧ Gone l' (X ++ Z) fd := by
  have hx : x ∉ X ++ Z := fun hx => hl.disjoint x hx List.mem_cons_self
  have hsub : ∀ y ∈ X ++ Z, y ∈ X ++ x :: Z := by
    intro y hy
    simp only [List.mem_append, List.mem_cons] at hy ⊢
    tauto
  have hne : ∀ y ∈ X ++ Z, ∀ fd', HasFd l y fd' → fd' ≠ fd := by
    rintro y hy fd' hfd' rfl
    exact hx (h.reg.once (hsub y hy) (by simp) hfd' hfd ▸ hy)
  refine ⟨⟨hl, ?_, ?_, ?_⟩, by rw [hint, Function.update_self], fun y hy hfd' => hne y hy fd ((hasFd_of_info hi).1 hfd') rfl⟩
  · intro y hy fd' hfd'
    rw [hasFd_of_info hi] at hfd'
    obtain ⟨reg, hreg, hptr⟩ := h.listed y (hsub y hy) fd' hfd'
    exact ⟨reg, by rw [hint, Function.update_of_ne (hne y hy fd' hfd'), hreg], hptr⟩
  · intro fd' reg hreg
    rw [hint] at hreg
    have hfd' : fd' ≠ fd := by rintro rfl; rw [Function.update_self] at hreg; cases hreg
    rw [Function.update_of_ne hfd'] at hreg
    obtain ⟨y, hy, hptr, hfdy⟩ := h.registered fd' reg hreg
    refine ⟨y, ?_, hptr, (hasFd_of_info hi).2 hfdy⟩
    have hyx : y ≠ x := by
      rintro rfl
      obtain ⟨d, hd, rfl⟩ := hfdy
      obtain ⟨d', hd', rfl⟩ := hfd
      rw [hd] at hd'
      cases hd'
      exact hfd' rfl
    simp only [List.mem_append, List.mem_cons] at hy ⊢
    tauto
  · intro y hy d hd
    have hy' := hi y
    simp only [info, hd, Option.map_some] at hy'
    obtain ⟨d', hd', ha⟩ := Option.map_eq_some_iff.1 hy'.symm
    have hg := h.general y (hsub y hy) d' hd'
    simp only [MainloopData.alone, MainloopData.mk.injEq] at ha
    rwa [ha.2.1, ha.2.2.1] at hg

/-- The registration outlives the node. -/
theorem Sync.not_registered_removed {X Z : List Nat} (h : Sync l (X ++ x :: Z) F) (hfd : HasFd l x fd)
    (hl : Lists l' (X ++ Z) (x :: F)) (hint : l'.interest = l.interest) (L' : List Nat) : ¬ Registered l' L' := by
  intro hr
  obtain rfl : L' = X ++ Z := Chain.unique hr.live hl.live
  obtain ⟨reg, hreg, hptr⟩ := h.listed x (by simp) fd hfd
  obtain ⟨y, hy, hptr', -⟩ := hr.registered fd reg (by rw [hint, hreg])
  rw [hptr] at hptr'
  cases hptr'
  exact hl.disjoint x hy List.mem_cons_self

/-! ## Every sequence of calls -/

/-- A call that returns is one step. -/
theorem callStep_of_returns {c : RegCall × Outcome} {Q : Loop → Prop} (h : Returns (c.1.exec epoll c.2) l fun _ l' => Q l') :
    ∃ l', callStep l c = some (.ok l') ∧ Q l' := by
  obtain ⟨ret, l', he, hq⟩ := h
  exact ⟨l', by simp [callStep, he], hq⟩

theorem Sync.call (h : Sync l L F) (c : RegCall × Outcome) :
    ∃ l', callStep l c = some (.ok l') ∧
      (Answered l c → ∃ L F, Sync l' L F ∧ ∀ fd, c.1 = .removeFd fd → Gone l' L fd) ∧
      (¬ Answered l c → ∀ L, ¬ Registered l' L) := by
  obtain ⟨call, out⟩ := c
  apply callStep_of_returns
  cases call with
  | addFd fd events callback destroy userData =>
    refine (returns_mainloopAddFd h.lists.free events callback destroy userData).mono fun _ l' ha => ?_
    refine ⟨fun hok => ?_, fun hno => h.not_registered ha (not_not.1 hno)⟩
    obtain ⟨L', F', hs⟩ := h.added ha hok
    exact ⟨L', F', hs, nofun⟩
  | modifyFd fd events =>
    refine (returns_mainloopModifyFd h.lists.live h.lists.below l.timers events).mono fun _ l' hm => ?_
    exact ⟨fun _ => ⟨L, F, h.modified hm, nofun⟩, fun hno => absurd trivial hno⟩
  | removeFd fd =>
    refine (returns_mainloopRemoveFd h).mono ?_
    rintro _ l' (⟨rfl, hgone⟩ | ⟨X, x, Z, rfl, hfd, hl, hi, hint⟩)
    · refine ⟨fun _ => ⟨L, F, h, ?_⟩, fun hno => absurd ?_ hno⟩
      · rintro _ ⟨⟩
        exact hgone
      · rw [Answered, hgone.1]
        exact nofun
    · refine ⟨fun hok => ?_, fun hno => ?_⟩
      · rw [if_neg fun hf => by simp [hok hf.1] at hf] at hint
        obtain ⟨hs, hgone⟩ := h.removed hfd hl hi hint
        refine ⟨X ++ Z, x :: F, hs, ?_⟩
        rintro _ ⟨⟩
        exact hgone
      · simp only [Answered, Classical.not_imp, Bool.not_eq_true] at hno
        rw [if_pos hno] at hint
        exact h.not_registered_removed hfd hl hint

theorem Sync.inStep_iff (h : Sync l L F) (c : RegCall × Outcome) : InStep l c ↔ Answered l c := by
  obtain ⟨l', he, hok, hno⟩ := h.call c
  constructor
  · rintro ⟨l'', L', he', hr, -⟩
    rw [he] at he'
    cases he'
    by_contra hbad
    exact hno hbad L' hr
  · intro hans
    obtain ⟨L', F', hs, hgone⟩ := hok hans
    exact ⟨l', L', he, hs.reg, hgone⟩

theorem Sync.step {c : RegCall × Outcome} (h : ∃ L F, Sync l L F) (hc : Answered l c)
    (hs : callStep l c = some (.ok l')) : ∃ L F, Sync l' L F := by
  obtain ⟨L, F, h⟩ := h
  obtain ⟨l'', he, hok, -⟩ := h.call c
  rw [hs] at he
  cases he
  obtain ⟨L', F', hsync, -⟩ := hok hc
  exact ⟨L', F', hsync⟩

/-- After `mainloop_init`, a sequence of calls keeps the live list and the interest set in step, each removal leaving
nothing of its descriptor, if and only if no registration of an added descriptor and no removal of a registered one
fails. -/
theorem mainloop_registration_iff (cs : List (RegCall × Outcome)) (l : Loop) :
    Run callStep InStep mainloopInit cs l ↔ Run callStep Answered mainloopInit cs l := by
  have h0 : ∃ L F, Sync mainloopInit L F := ⟨[], [], lists_mainloopInit, by simp, nofun, by simp⟩
  constructor
  · intro h
    exact (h.mono_inv (fun l => ∃ L F, Sync l L F) h0 (fun l c ⟨_, _, hs⟩ hc => (hs.inStep_iff c).1 hc)
      fun l c l' hs _ hc => Sync.step hs hc).1
  · intro h
    exact (h.mono_inv (fun l => ∃ L F, Sync l L F) h0 (fun l c ⟨_, _, hs⟩ hc => (hs.inStep_iff c).2 hc)
      fun l c l' hs hc _ => Sync.step hs hc).1

/-- Descriptor 3 is added twice. The second time epoll refuses it, and there are two nodes for one registration; after
one removal there is a node for none. -/
theorem mainloop_add_fd_twice : ∃ l₁ l₂,
    Run callStep (fun _ _ => True) mainloopInit [(.addFd 3 { eventIn := true } (some 0) none 0, {}),
      (.addFd 3 { eventIn := true } (some 0) none 0, {})] l₁ ∧ (∀ L, ¬ Registered l₁ L) ∧
    callStep l₁ (.removeFd 3, {}) = some (.ok l₂) ∧ l₂.interest 3 = none ∧
    ∃ x, l₂.mainloopDataHead = some x ∧ HasFd l₂ x 3 := by
  refine ⟨_, _, .cons trivial rfl (.cons trivial rfl .nil), fun L hr => ?_, rfl, rfl, 0, rfl, _, rfl, rfl⟩
  have hL : L = [1, 0] := Chain.unique hr.live ⟨rfl, _, rfl, rfl, _, rfl, rfl⟩
  obtain ⟨reg, hreg, hptr⟩ := hr.listed 1 (by simp [hL]) 3 ⟨_, rfl, rfl⟩
  cases hreg
  cases hptr

end MgStd.MainLoop
