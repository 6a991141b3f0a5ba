import MgStd.MainLoop.Removal
import MgStd.MainLoop.Lifetime
/-!
# Dispatching after a removal

`epoll_run` dispatches a batch of node pointers that it took before any callback
ran. A removed timer is recognised by its descriptor -1; a removed descriptor is
not, and a node taken again belongs to another entry. As long as a batch holds no
event of such a node, every callback is called for the entry that the kernel
reported, and before that entry was removed.
-/

namespace MgStd.MainLoop

open MgStd.Lib

variable {l l' : Loop} {L L' F F' : List Nat} {x y : Nat} {m m' : Machine} {label : Label} {stack : List Frame}

/-! ## The property -/

/-- Each callback is called for the entry that the event was reported for, and this was not removed before. -/
def NoLate (log : List Obs) : Prop :=
  ∀ before after event entry fd events userData, log = before ++ .called event entry fd events userData :: after →
    event = entry ∧ .removed entry ∉ before

theorem NoLate.append {log new : List Obs} (h : NoLate log)
    (hnew : ∀ event entry fd events userData, .called event entry fd events userData ∉ new) : NoLate (log ++ new) := by
  intro before after event entry fd events userData heq
  rcases List.append_eq_append_iff.1 heq with ⟨mid, rfl, hn⟩ | ⟨mid, hl, hmid⟩
  · exact absurd (hn ▸ List.mem_append_right _ List.mem_cons_self) (hnew event entry fd events userData)
  · cases mid with
    | nil =>
      rw [List.nil_append] at hmid
      exact absurd (hmid ▸ List.mem_cons_self) (hnew event entry fd events userData)
    | cons o mid =>
      rw [List.cons_append, List.cons.injEq] at hmid
      exact h before mid event entry fd events userData (hmid.1 ▸ hl)

theorem NoLate.called {log : List Obs} {entry : Nat} {fd : Int} {events : Events} {userData : Nat} (h : NoLate log)
    (hn : .removed entry ∉ log) : NoLate (log ++ [.called entry entry fd events userData]) := by
  intro before after event' entry' fd' events' userData' heq
  rcases List.append_eq_append_iff.1 heq with ⟨mid, rfl, hmid⟩ | ⟨mid, hl, hmid⟩
  · cases mid with
    | nil =>
      simp only [List.nil_append, List.cons.injEq, Obs.called.injEq] at hmid
      obtain ⟨⟨rfl, rfl, -⟩, -⟩ := hmid
      exact ⟨rfl, by simpa using hn⟩
    | cons o mid => simp at hmid
  · cases mid with
    | nil =>
      simp only [List.nil_append, List.cons.injEq, Obs.called.injEq] at hmid
      obtain ⟨⟨rfl, rfl, -⟩, -⟩ := hmid
      rw [List.append_nil] at hl
      exact ⟨rfl, hl ▸ hn⟩
    | cons o mid =>
      rw [List.cons_append, List.cons.injEq] at hmid
      exact h before mid event' entry' fd' events' userData' (hmid.1 ▸ hl)

/-! ## The condition -/

/-- A lookup of `fd` finds the node `x`, with the record `d`. -/
def Finds (l : Loop) (fd : Int) (x : Nat) (d : MainloopData) : Prop :=
  ∃ X Z, Chain MainloopData.next l.mem l.mainloopDataHead (X ++ x :: Z) ∧ l.mem x = some d ∧ d.fd = fd ∧
    ∀ y ∈ X, ¬ HasFd l y fd

/-- Nobody quits. No addition takes a node that an event of the batch is still to be dispatched to. No descriptor stays
registered when it is removed. A removal unlinks a node in its place that still holds the entry being removed; no event of
this is still to be dispatched, if it is not a timer. -/
def DispatchCond (m : Machine) : Label → Prop
  | .call op out =>
    op ≠ .quit ∧
    (∀ p, m.loop.mainloopFreeHead = some p → op.takes out → ∀ ev ∈ pending m.stack, ev.data ≠ some p) ∧
    ∀ fd, op = .removeFd fd → ∀ x d, Finds m.loop fd x d → ¬ DelFails m.loop d out
  | .ret => ∀ r stack, m.stack = .removal r :: stack → InPlace m.loop r ∧
      ∃ x d, r.data = some x ∧ m.loop.mem x = some d ∧ d.entry = r.entry ∧
        (d.type = .general → ∀ ev ∈ pending m.stack, ev.entry ≠ r.entry)
  | _ => True

/-! ## The invariant -/

/-- The registrations name live nodes, the entries they were made for, and no entry that was removed. While a destroy
callback runs, the descriptor of its node is registered for a node before it on the list, if at all. The events still to be
dispatched belong to the entries in their nodes, or their nodes are those of removed timers. -/
structure Present (m : Machine) (L F : List Nat) : Prop where
  lists : Lists m.loop L F
  terminate : m.loop.mainloopTerminate = false
  outer : Outer m.stack
  below : ∀ x d, m.loop.mem x = some d → d.entry < m.loop.entries
  inj : ∀ x y d d', m.loop.mem x = some d → m.loop.mem y = some d' → d.entry = d'.entry → x = y
  gone : ∀ e, .removed e ∈ m.loop.log → e < m.loop.entries ∧ ∀ x ∈ L, ∀ d, m.loop.mem x = some d → d.entry ≠ e
  interest : ∀ fd reg, m.loop.interest fd = some reg → 0 ≤ fd ∧
    ∃ x ∈ L, ∃ d, reg.ptr = some x ∧ m.loop.mem x = some d ∧ d.fd = fd ∧ d.entry = reg.entry
  removing : ∀ r, .removal r ∈ m.stack → r.entry < m.loop.entries ∧ ∃ x, r.data = some x ∧
    ∀ d, x ∈ L → m.loop.mem x = some d → d.entry = r.entry → (d.type = .timer → d.fd < 0) ∧
      ∀ reg y, m.loop.interest d.fd = some reg → reg.ptr = some y → [y, x].Sublist L
  pending : ∀ ev ∈ pending m.stack, ∃ p d, ev.data = some p ∧ m.loop.mem p = some d ∧
    (d.entry = ev.entry ∧ .removed ev.entry ∉ m.loop.log ∨ d.type = .timer ∧ d.fd < 0)
  log : NoLate m.loop.log

/-- Only the kernel's side changes, where registrations only go, and the log, where no entry is removed. -/
theorem Present.kernel {stack' : List Frame} {interest : Int → Option Registration} {timers : Int → Option ItValue}
    {log : List Obs} (h : Present ⟨l, stack⟩ L F) (hi : ∀ fd reg, interest fd = some reg → l.interest fd = some reg)
    (hrem : ∀ e, .removed e ∈ log → .removed e ∈ l.log) (hlog : NoLate log) (ho : Outer stack')
    (hr : ∀ r, .removal r ∈ stack' → .removal r ∈ stack)
    (hp : ∀ ev ∈ MainLoop.pending stack', ev ∈ MainLoop.pending stack) :
    Present ⟨{ l with interest, timers, log }, stack'⟩ L F := by
  refine ⟨h.lists.of_eq rfl rfl rfl rfl, h.terminate, ho, h.below, h.inj, fun e he => h.gone e (hrem e he),
    fun fd reg hreg => h.interest fd reg (hi fd reg hreg), ?_, ?_, hlog⟩
  · intro r hr'
    obtain ⟨hlt, x, hx, hrm⟩ := h.removing r (hr r hr')
    refine ⟨hlt, x, hx, fun d hxL hd hde => ?_⟩
    obtain ⟨ht, hbef⟩ := hrm d hxL hd hde
    exact ⟨ht, fun reg y hreg hptr => hbef reg y (hi _ _ hreg) hptr⟩
  · intro ev hev
    obtain ⟨p, d, hp, hd, hpr⟩ := h.pending ev (hp ev hev)
    exact ⟨p, d, hp, hd, hpr.imp_left fun ⟨hde, hn⟩ => ⟨hde, fun he => hn (hrem _ he)⟩⟩

/-- A memory whose records are those of the machine, up to other fields than the entries. -/
theorem Present.entries {m : Machine} {mem : Nat → Option MainloopData} (h : Present m L F)
    (hback : ∀ y d', mem y = some d' → ∃ d₀, m.loop.mem y = some d₀ ∧ d'.entry = d₀.entry) :
    (∀ y d', mem y = some d' → d'.entry < m.loop.entries) ∧
      (∀ y z dy dz, mem y = some dy → mem z = some dz → dy.entry = dz.entry → y = z) ∧
      ∀ e, .removed e ∈ m.loop.log → e < m.loop.entries ∧ ∀ y ∈ L, ∀ d', mem y = some d' → d'.entry ≠ e := by
  refine ⟨fun y d' hd' => ?_, fun y z dy dz hdy hdz hyz => ?_, fun e he => ?_⟩
  · obtain ⟨d₀, hd₀, hent⟩ := hback y d' hd'
    exact hent ▸ h.below y d₀ hd₀
  · obtain ⟨dy₀, hdy₀, hy⟩ := hback y dy hdy
    obtain ⟨dz₀, hdz₀, hz⟩ := hback z dz hdz
    exact h.inj y z dy₀ dz₀ hdy₀ hdz₀ (hy.symm.trans (hyz.trans hz))
  · obtain ⟨hlt, hne⟩ := h.gone e he
    refine ⟨hlt, fun y hy d' hd' => ?_⟩
    obtain ⟨d₀, hd₀, hent⟩ := hback y d' hd'
    exact hent ▸ hne y hy d₀ hd₀

/-! ## Adding -/

/-- A node is taken, and filled with a new entry; `hi` is about the interest set it leaves. -/
theorem Present.take {p brk : Nat} {d : MainloopData} {new : List Obs} (h : Present ⟨l, stack⟩ L F) (hp : Picked l F p F' brk)
    (hpend : ∀ ev ∈ MainLoop.pending stack, ev.data ≠ some p) (he : d.entry = l.entries) (hl' : Lists l' L' F')
    (hL' : ∀ x ∈ L', x = p ∨ x ∈ L) (hsub : L.Sublist L') (hm : l'.mem = Function.update l.mem p (some d))
    (hent : l'.entries = l.entries + 1) (ht : l'.mainloopTerminate = l.mainloopTerminate) (hlog : l'.log = l.log ++ new)
    (hnew : ∀ o ∈ new, ∃ e cb ud, o = .added e cb ud)
    (hi : ∀ fd reg, l'.interest fd = some reg → l.interest fd = some reg ∨
      0 ≤ fd ∧ L' = p :: L ∧ d.fd = fd ∧ reg.ptr = some p ∧ reg.entry = l.entries) : Present ⟨l', stack⟩ L' F' := by
  have hpL := (hp.fresh h.lists).1
  have hmem {x : Nat} (hx : x ≠ p) : l'.mem x = l.mem x := by rw [hm, Function.update_of_ne hx]
  have hself {d' : MainloopData} (hd' : l'.mem p = some d') : d' = d := by
    rw [hm, Function.update_self] at hd'
    exact (Option.some.inj hd').symm
  have hrem {e : Nat} (hmem : .removed e ∈ l'.log) : .removed e ∈ l.log := by
    rw [hlog] at hmem
    refine (List.mem_append.1 hmem).resolve_right fun hn => ?_
    obtain ⟨e', cb, ud, ho⟩ := hnew _ hn
    cases ho
  refine ⟨hl', ht.trans h.terminate, h.outer, ?_, ?_, ?_, ?_, ?_, ?_, ?_⟩
  · intro x d' hd'
    rw [hent]
    by_cases hx : x = p
    · subst hx
      rw [hself hd', he]
      exact Nat.lt_succ_self _
    · exact Nat.lt_succ_of_lt (h.below x d' (by rwa [← hmem hx]))
  · intro x y dx dy hdx hdy hxy
    by_cases hx : x = p <;> by_cases hy : y = p
    · rw [hx, hy]
    · subst hx
      have hlt := h.below y dy (by rwa [← hmem hy])
      rw [← hxy, hself hdx, he] at hlt
      exact absurd hlt (Nat.lt_irrefl _)
    · subst hy
      have hlt := h.below x dx (by rwa [← hmem hx])
      rw [hxy, hself hdy, he] at hlt
      exact absurd hlt (Nat.lt_irrefl _)
    · exact h.inj x y dx dy (by rwa [← hmem hx]) (by rwa [← hmem hy]) hxy
  · intro e hmem'
    obtain ⟨hlt, hne⟩ := h.gone e (hrem hmem')
    refine ⟨by rw [hent]; exact Nat.lt_succ_of_lt hlt, fun x hx d' hd' => ?_⟩
    by_cases hxp : x = p
    · subst hxp
      rw [hself hd', he]
      exact (Nat.ne_of_lt hlt).symm
    · exact hne x ((hL' x hx).resolve_left hxp) d' (by rwa [← hmem hxp])
  · intro fd reg hreg
    rcases hi fd reg hreg with hold | ⟨hfd, hL, hdfd, hptr, hre⟩
    · obtain ⟨hfd, x, hx, d', hptr, hd', hdf, hde⟩ := h.interest fd reg hold
      have hxp : x ≠ p := by rintro rfl; exact hpL hx
      exact ⟨hfd, x, hsub.subset hx, d', hptr, by rw [hmem hxp]; exact hd', hdf, hde⟩
    · exact ⟨hfd, p, by simp [hL], d, hptr, by rw [hm, Function.update_self], hdfd, he.trans hre.symm⟩
  · intro r hr
    obtain ⟨hlt, x, hx, hrm⟩ := h.removing r hr
    refine ⟨by rw [hent]; exact Nat.lt_succ_of_lt hlt, x, hx, fun d' hxL hd' hde => ?_⟩
    by_cases hxp : x = p
    · subst hxp
      rw [hself hd', he] at hde
      exact absurd hde (Nat.ne_of_lt hlt).symm
    · have hxL := (hL' x hxL).resolve_left hxp
      obtain ⟨ht, hbef⟩ := hrm d' hxL (by rwa [← hmem hxp]) hde
      refine ⟨ht, fun reg y hreg hptr => ?_⟩
      rcases hi _ reg hreg with hold | ⟨-, hL, -, hptr', -⟩
      · exact (hbef reg y hold hptr).trans hsub
      · rw [hptr] at hptr'
        cases hptr'
        rw [hL]
        exact (List.singleton_sublist.2 hxL).cons_cons _
  · intro ev hev
    obtain ⟨q, d', hq, hd', hpr⟩ := h.pending ev hev
    have hqp : q ≠ p := by rintro rfl; exact hpend ev hev hq
    refine ⟨q, d', hq, by rw [hmem hqp]; exact hd', hpr.imp_left fun ⟨hde, hn⟩ => ⟨hde, fun hmem' => hn (hrem hmem')⟩⟩
  · rw [hlog]
    refine h.log.append fun event entry fd events userData hmem' => ?_
    obtain ⟨e, cb, ud, ho⟩ := hnew _ hmem'
    cases ho

theorem Present.added {type : MainloopDataType} {failed : Prop} (h : Present ⟨l, stack⟩ L F)
    (hpend : ∀ p, l.mainloopFreeHead = some p → ∀ ev ∈ MainLoop.pending stack, ev.data ≠ some p)
    (ha : Added l F type failed l') : ∃ L' F', Present ⟨l', stack⟩ L' F' := by
  have hpick {p : Nat} {F' : List Nat} {brk : Nat} (hp : Picked l F p F' brk) :
      ∀ ev ∈ MainLoop.pending stack, ev.data ≠ some p := by
    rcases hp with ⟨rfl, -⟩ | ⟨-, -, rfl, -⟩
    · exact hpend p h.lists.free.1
    · -- a new block is no node yet
      intro ev hev hdata
      obtain ⟨q, d, hq, hd, -⟩ := h.pending ev hev
      obtain rfl : q = l.brk := by simpa [hdata] using hq.symm
      exact Nat.lt_irrefl _ (h.lists.below _ d hd)
  cases ha with
  | rejected interest timers _ hg hi =>
    refine ⟨L, F, h.kernel (fun fd reg hreg => ?_) (fun _ he => he) h.log h.outer (fun _ hr => hr) fun _ hev => hev⟩
    rcases hi fd with heq | heq <;> rw [heq] at hreg
    · exact hreg
    · cases hreg
  | lost p F' brk d interest timers hp he _ ht hty hn hi =>
    have hl' : Lists { l with
        mem := Function.update l.mem p (some d), brk, mainloopFreeHead := F'.head?, entries := l.entries + 1
        interest, timers } L F' := h.lists.take hp (by simp [ht, hty]) rfl rfl rfl rfl
    refine ⟨L, F', h.take hp (hpick hp) he hl' (fun _ hx => .inr hx) (.refl L) rfl rfl rfl
      (show _ = l.log ++ [] from (List.append_nil _).symm) (by simp) fun fd reg hreg => .inl ?_⟩
    rcases hi fd with heq | heq <;> simp only [heq] at hreg
    · exact hreg
    · cases hreg
  | registered p F' brk d ev timers hp he _ ht hn hfd hcb hi =>
    have hl' : Lists { l with
        mem := Function.update l.mem p (some d), brk, mainloopFreeHead := F'.head?, entries := l.entries + 1
        mainloopDataHead := some p, timers
        interest := Function.update l.interest d.fd (some ⟨ev, some p, l.entries⟩)
        log := l.log ++ [.added l.entries d.destroyCallback d.userData] } (p :: L) F' :=
      h.lists.push hp hn hcb rfl rfl rfl rfl
    refine ⟨p :: L, F', h.take hp (hpick hp) he hl' (fun _ hx => List.mem_cons.1 hx) (List.sublist_cons_self p L) rfl rfl rfl
      rfl (fun o ho => ⟨_, _, _, List.mem_singleton.1 ho⟩) fun fd reg hreg => ?_⟩
    by_cases hfd' : fd = d.fd
    · simp only [hfd', Function.update_self, Option.some.injEq] at hreg
      exact .inr ⟨hfd' ▸ hfd, rfl, hfd'.symm, hreg ▸ rfl, hreg ▸ rfl⟩
    · exact .inl (by simpa only [Function.update_of_ne hfd'] using hreg)
  | unregistered p F' brk d hp he ht hn hfd hcb hf =>
    have hl' : Lists { l with
        mem := Function.update l.mem p (some d), brk, mainloopFreeHead := F'.head?, entries := l.entries + 1
        mainloopDataHead := some p } (p :: L) F' := h.lists.push hp hn hcb rfl rfl rfl rfl
    exact ⟨p :: L, F', h.take hp (hpick hp) he hl' (fun _ hx => List.mem_cons.1 hx) (List.sublist_cons_self p L)
      rfl rfl rfl (show _ = l.log ++ [] from (List.append_nil _).symm) (by simp) fun fd reg hreg => .inl hreg⟩

/-! ## Modifying -/

/-- Two nodes in order, the earlier one not in `X`: the node after `X` is the earlier one, or before both. -/
theorem sublist_of_first {X Z : List Nat} {y z : Nat} (hy : y ∉ X) (h : [y, z].Sublist (X ++ x :: Z)) :
    [x, z].Sublist (X ++ x :: Z) := by
  obtain ⟨A, B, hAB, hA, hB⟩ := List.sublist_append_iff.1 h
  have hnil : A = [] := by
    cases A with
    | nil => rfl
    | cons a A =>
      rw [List.cons_append, List.cons.injEq] at hAB
      exact absurd (hA.subset (hAB.1 ▸ List.mem_cons_self)) hy
  subst hnil
  rw [List.nil_append] at hAB
  subst hAB
  have hz : [z].Sublist Z := by
    cases hB with
    | cons _ hB => exact (List.sublist_cons_self y [z]).trans hB
    | cons_cons _ hB => exact hB
  exact (hz.cons_cons x).trans (List.sublist_append_right X _)

theorem Present.modified (h : Present ⟨l, stack⟩ L F) (hm : Modified l L l') : Present ⟨l', stack⟩ L F := by
  cases hm with
  | kept timers =>
    exact h.kernel (fun _ _ hreg => hreg) (fun _ he => he) h.log h.outer (fun _ hr => hr) fun _ hev => hev
  | renewed X x Z d ev timers hL hx hX hi =>
    obtain ⟨old, hold⟩ := Option.isSome_iff_exists.1 hi
    obtain ⟨hfd, w, hwL, dw, hptr, hw, hwfd, -⟩ := h.interest d.fd old hold
    have hwX : w ∉ X := fun hwX => hX w hwX ⟨dw, hw, hwfd⟩
    refine ⟨h.lists.of_eq rfl rfl rfl rfl, h.terminate, h.outer, h.below, h.inj, h.gone, ?_, ?_, h.pending, h.log⟩
    · intro fd reg hreg
      by_cases hfd' : fd = d.fd
      · simp only [hfd', Function.update_self, Option.some.injEq] at hreg
        subst hreg hfd'
        exact ⟨hfd, x, by simp [hL], d, rfl, hx, rfl, rfl⟩
      · exact h.interest fd reg (by simpa only [Function.update_of_ne hfd'] using hreg)
    · intro r hr
      obtain ⟨hlt, z, hz, hrm⟩ := h.removing r hr
      refine ⟨hlt, z, hz, fun dz hzL hdz hde => ?_⟩
      obtain ⟨ht, hbef⟩ := hrm dz hzL hdz hde
      refine ⟨ht, fun reg y hreg hy => ?_⟩
      by_cases hfd' : dz.fd = d.fd
      · simp only [hfd', Function.update_self, Option.some.injEq] at hreg
        obtain rfl : x = y := by rw [← hreg] at hy; exact Option.some.inj hy
        have hwz := hbef old w (hfd' ▸ hold) hptr
        rw [hL] at hwz ⊢
        exact sublist_of_first hwX hwz
      · exact hbef reg y (by simpa only [Function.update_of_ne hfd'] using hreg) hy

/-! ## Removing -/

/-- Closing a node changes its descriptor, if it is a timer's, and nothing else. -/
theorem update_closed {d : MainloopData} (hx : l.mem x = some d) {y : Nat} {d' : MainloopData}
    (hy : Function.update l.mem x (some d.closed) y = some d') :
    ∃ d₀, l.mem y = some d₀ ∧ d'.entry = d₀.entry ∧ d'.type = d₀.type ∧ (d' = d₀ ∨ d'.type = .timer ∧ d'.fd < 0) := by
  by_cases hyx : y = x
  · rw [hyx, Function.update_self] at hy
    obtain rfl := Option.some.inj hy
    refine ⟨d, hyx ▸ hx, d.closed_entry, ?_⟩
    unfold MainloopData.closed
    split
    · next ht => exact ⟨rfl, .inr ⟨ht, by simp⟩⟩
    · exact ⟨rfl, .inl rfl⟩
  · rw [Function.update_of_ne hyx] at hy
    exact ⟨d', hy, rfl, rfl, .inl rfl⟩

theorem Present.begun {fd : Int} {out : Outcome} {r : Removal} (h : Present ⟨l, stack⟩ L F)
    (hb : Begun l L fd out (.inr r) l') (hdel : ∀ x d, Finds l fd x d → ¬ DelFails l d out) :
    Present ⟨l', .removal r :: stack⟩ L F := by
  cases hb with
  | found X x Z d ret interest timers h0 hL hx hfd hX hgone hkeep =>
    obtain rfl := hgone (hdel x d ⟨X, Z, hL ▸ h.lists.live, hx, hfd, hX⟩)
    have hback : ∀ {y d'}, Function.update l.mem x (some d.closed) y = some d' → _ := update_closed hx
    have hnone {f : Int} {reg : Registration} (hreg : Function.update l.interest fd none f = some reg) :
        f ≠ fd ∧ l.interest f = some reg := by
      by_cases hf : f = fd
      · rw [hf, Function.update_self] at hreg; cases hreg
      · exact ⟨hf, by rwa [Function.update_of_ne hf] at hreg⟩
    have hneg {f : Int} {reg : Registration} (hf : f < 0) (hreg : l.interest f = some reg) : False :=
      Int.not_lt.2 (h.interest f reg hreg).1 hf
    have hrem {e : Nat} (he : .removed e ∈ (if d.destroyCallback = none then l.log
        else l.log ++ [.destroyed d.entry d.destroyCallback d.userData false])) : .removed e ∈ l.log := by
      split at he
      · exact he
      · simpa using he
    obtain ⟨hbelow, hinj, hkept⟩ := h.entries fun y d' hd' => (hback hd').imp fun d₀ hd₀ => ⟨hd₀.1, hd₀.2.1⟩
    refine ⟨h.lists.rewrite hx d.closed_next (MainloopData.closed_callable (h.lists.callable x d hx)) rfl rfl rfl rfl,
      h.terminate, h.outer, hbelow, hinj, fun e he => hkept e (hrem he), ?_, ?_, ?_, ?_⟩
    · intro f reg hreg
      obtain ⟨hf, hreg⟩ := hnone hreg
      obtain ⟨h0, y, hy, dy, hptr, hdy, hyf, hye⟩ := h.interest f reg hreg
      have hyx : y ≠ x := by
        rintro rfl
        rw [hx] at hdy
        obtain rfl := Option.some.inj hdy
        exact hf (hyf.symm.trans hfd)
      exact ⟨h0, y, hy, dy, hptr, (Function.update_of_ne hyx _ _).trans hdy, hyf, hye⟩
    · intro r hr
      rcases List.mem_cons.1 hr with hr | hr
      · cases hr
        refine ⟨h.below x d hx, x, rfl, fun d' _ hd' _ => ?_⟩
        simp only [Function.update_self, Option.some.injEq] at hd'
        subst hd'
        cases ht : d.type with
        | timer =>
          have hcl : d.closed.fd < 0 := by simp [MainloopData.closed, ht]
          exact ⟨fun _ => hcl, fun reg y hreg _ => (hneg hcl (hnone hreg).2).elim⟩
        | general =>
          have hcl : d.closed = d := by simp [MainloopData.closed, ht]
          rw [hcl, ht]
          exact ⟨fun hty => (by cases hty), fun reg y hreg _ => absurd hfd (hnone hreg).1⟩
      · obtain ⟨hlt, z, hz, hrm⟩ := h.removing r hr
        refine ⟨hlt, z, hz, fun d' hzL hd' hde => ?_⟩
        obtain ⟨d₀, hd₀, hent, hty, rfl | ⟨hti, hneg'⟩⟩ := hback hd'
        · obtain ⟨ht, hbef⟩ := hrm d' hzL hd₀ hde
          exact ⟨ht, fun reg y hreg hptr => hbef reg y (hnone hreg).2 hptr⟩
        · exact ⟨fun _ => hneg', fun reg y hreg _ => (hneg hneg' (hnone hreg).2).elim⟩
    · intro ev hev
      obtain ⟨p, dp, hp, hdp, hpr⟩ := h.pending ev (by simpa [MainLoop.pending] using hev)
      by_cases hpx : p = x
      · subst hpx
        obtain rfl : dp = d := by simpa [hx] using hdp.symm
        refine ⟨p, dp.closed, hp, Function.update_self .., ?_⟩
        rcases hpr with ⟨hde, hn⟩ | ⟨hti, hneg'⟩
        · exact .inl ⟨dp.closed_entry.trans hde, fun he => hn (hrem he)⟩
        · exact .inr (by simp [MainloopData.closed, hti])
      · exact ⟨p, dp, hp, (Function.update_of_ne hpx _ _).trans hdp, hpr.imp_left fun hin =>
          ⟨hin.1, fun he => hin.2 (hrem he)⟩⟩
    · simp only
      split
      · exact h.log
      · exact h.log.append (by simp)

theorem Present.removed {r : Removal} {ret : Int} {d : MainloopData} (h : Present ⟨l, .removal r :: stack⟩ L F)
    (hp : InPlace l r) (hx : r.data = some x) (hd : l.mem x = some d) (he : d.entry = r.entry)
    (hgen : d.type = .general → ∀ ev ∈ MainLoop.pending (.removal r :: stack), ev.entry ≠ r.entry)
    (hr : removeEnd r l = .ok (ret, l')) : Present ⟨l', stack⟩ (L.erase x) (x :: F) := by
  have hu := hp.unlink h.lists hx
  have hrem := (returns_removeEnd h.lists hx hu).of_eq hr
  have hnd := h.lists.live.nodup
  obtain ⟨hxL, hxL'⟩ := hu.not_mem hnd
  obtain ⟨mem, hl'⟩ := hrem.eq
  have hback {y : Nat} {d' : MainloopData} (hd' : l'.mem y = some d') :
      ∃ d₀, l.mem y = some d₀ ∧ d'.entry = d₀.entry ∧ d'.type = d₀.type ∧ d'.fd = d₀.fd := by
    obtain ⟨d₀, hd₀, ha⟩ := entry_of_info (fun y => (hrem.info y).symm) hd'
    simp only [MainloopData.alone, MainloopData.mk.injEq] at ha
    exact ⟨d₀, hd₀, ha.2.2.2.2.2.2.2.symm, ha.2.2.1.symm, ha.2.1.symm⟩
  have hforth {y : Nat} {d₀ : MainloopData} (hd₀ : l.mem y = some d₀) :
      ∃ d', l'.mem y = some d' ∧ d'.entry = d₀.entry ∧ d'.type = d₀.type ∧ d'.fd = d₀.fd := by
    obtain ⟨d', hd', ha⟩ := entry_of_info hrem.info hd₀
    simp only [MainloopData.alone, MainloopData.mk.injEq] at ha
    exact ⟨d', hd', ha.2.2.2.2.2.2.2, ha.2.2.1, ha.2.1⟩
  have hlog {e : Nat} (hmem : .removed e ∈ l'.log) : .removed e ∈ l.log ∨ e = r.entry := by
    simpa [hl'] using hmem
  have hint : l'.interest = l.interest := by rw [hl']
  have hent : l'.entries = l.entries := by rw [hl']
  obtain ⟨hlt, x', hx', hrm⟩ := h.removing r List.mem_cons_self
  obtain rfl : x' = x := by simpa [hx] using hx'.symm
  obtain ⟨hti, hbef⟩ := hrm d hxL hd he
  -- no registration names the node
  have hunreg {f : Int} {reg : Registration} (hreg : l.interest f = some reg) : reg.ptr ≠ some x' := by
    intro hptr
    obtain ⟨-, y, -, dy, hptr', hdy, hyf, -⟩ := h.interest f reg hreg
    obtain rfl : x' = y := by simpa [hptr] using hptr'
    obtain rfl : d = dy := by simpa [hd] using hdy
    exact absurd (hnd.sublist (hbef reg x' (hyf ▸ hreg) hptr)) (by simp)
  obtain ⟨hbelow, hinj, hkept⟩ := h.entries fun y d' hd' => (hback hd').imp fun d₀ hd₀ => ⟨hd₀.1, hd₀.2.1⟩
  refine ⟨hrem.lists, by rw [hl']; exact h.terminate, h.outer, hent ▸ hbelow, hinj, ?_, ?_, ?_, ?_, ?_⟩
  · intro e hmem
    rw [hent]
    rcases hlog hmem with hmem | rfl
    · obtain ⟨hlt, hne⟩ := hkept e hmem
      exact ⟨hlt, fun y hy => hne y (List.mem_of_mem_erase hy)⟩
    · refine ⟨hlt, fun y hy d' hd' hye => ?_⟩
      obtain ⟨d₀, hd₀, hde, -⟩ := hback hd'
      obtain rfl := h.inj y x' d₀ d hd₀ hd ((hde.symm.trans hye).trans he.symm)
      exact hxL' hy
  · intro f reg hreg
    rw [hint] at hreg
    obtain ⟨h0, y, hy, dy, hptr, hdy, hyf, hye⟩ := h.interest f reg hreg
    have hyx : y ≠ x' := by rintro rfl; exact hunreg hreg hptr
    obtain ⟨d', hd', hde, -, hdf⟩ := hforth hdy
    exact ⟨h0, y, (List.mem_erase_of_ne hyx).2 hy, d', hptr, hd', hdf.trans hyf, hde.trans hye⟩
  · intro r' hr'
    obtain ⟨hlt', z, hz, hrm'⟩ := h.removing r' (List.mem_cons_of_mem _ hr')
    refine ⟨by rw [hent]; exact hlt', z, hz, fun d' hzL hd' hde => ?_⟩
    obtain ⟨d₀, hd₀, hde₀, hty, hdf⟩ := hback hd'
    obtain ⟨ht, hbef'⟩ := hrm' d₀ (List.mem_of_mem_erase hzL) hd₀ (hde₀ ▸ hde)
    rw [hty, hdf, hint]
    refine ⟨ht, fun reg y hreg hptr => ?_⟩
    have hyx : y ≠ x' := by rintro rfl; exact hunreg hreg hptr
    have hzx : z ≠ x' := by rintro rfl; exact hxL' hzL
    have hers := (hbef' reg y hreg hptr).erase x'
    rwa [List.erase_of_not_mem (by simp [hyx.symm, hzx.symm])] at hers
  · intro ev hev
    obtain ⟨p, dp, hp, hdp, hpr⟩ := h.pending ev (by simpa [MainLoop.pending] using hev)
    obtain ⟨d', hd', hde, hty, hdf⟩ := hforth hdp
    refine ⟨p, d', hp, hd', ?_⟩
    rw [hde, hty, hdf]
    rcases hpr with ⟨hpe, hn⟩ | hpt
    · by_cases hev' : ev.entry = r.entry
      · -- an event of the entry itself: only a timer's is left
        obtain rfl := h.inj p x' dp d hdp hd ((hpe.trans hev').trans he.symm)
        obtain rfl : d = dp := by simpa [hd] using hdp
        cases ht : d.type with
        | general => exact absurd hev' (hgen ht ev (by simpa [MainLoop.pending] using hev))
        | timer => exact .inr ⟨rfl, hti ht⟩
      · exact .inl ⟨hpe, fun hmem => (hlog hmem).elim hn hev'⟩
    · exact .inr hpt
  · rw [hl']
    exact h.log.append (by simp)

/-! ## Every step -/

theorem Present.call {op : Op} {out : Outcome} {r : Option Removal} (h : Present ⟨l, stack⟩ L F)
    (hc : DispatchCond ⟨l, stack⟩ (.call op out)) (he : op.exec out l = .ok (r, l')) :
    ∃ L' F', Present ⟨l', r.toList.map .removal ++ stack⟩ L' F' := by
  obtain ⟨hquit, htake, hdel⟩ := hc
  by_cases hidle : ¬ op.takes out ∧ ¬ op.walks l out
  · obtain ⟨rfl, interest, timers, rfl, hi⟩ := (returns_exec_idle hidle.1 hidle.2 hquit).of_eq he
    refine ⟨L, F, h.kernel (fun fd reg hreg => ?_) (fun _ he => he) h.log h.outer (fun _ hr => hr) fun _ hev => hev⟩
    rcases hi fd with heq | heq <;> rw [heq] at hreg
    · exact hreg
    · cases hreg
  have htw : ¬ op.walks l out → op.takes out := fun hw => not_not.1 fun ht => hidle ⟨ht, hw⟩
  have hexec := (returns_exec h.lists op out).of_eq he
  cases hexec with
  | addFd ha => exact h.added (fun p hp => htake p hp (htw not_false)) ha
  | addTimeout ha => exact h.added (fun p hp => htake p hp (htw not_false)) ha
  | modifyFd hm => exact ⟨L, F, h.modified hm⟩
  | modifyTimeout hm => exact ⟨L, F, h.modified hm⟩
  | missing hb => cases hb; exact ⟨L, F, h⟩
  | begun hb => exact ⟨L, F, h.begun hb (hdel _ rfl)⟩
  | quit => exact absurd rfl hquit

theorem Present.wait {ready : List (Int × EpollEvents)} (h : Present ⟨l, .dispatch [] :: stack⟩ L F) :
    Present ⟨l, .dispatch (batch l ready) :: stack⟩ L F := by
  obtain rfl := h.outer.dispatch
  refine ⟨h.lists, h.terminate, trivial, h.below, h.inj, h.gone, h.interest, by simp, ?_, h.log⟩
  intro ev hev
  obtain ⟨fd, reg, hreg, hdata, hentry⟩ := mem_batch (by simpa [MainLoop.pending] using hev)
  obtain ⟨-, x, hxL, d, hptr, hd, -, hde⟩ := h.interest fd reg hreg
  refine ⟨x, d, hdata.trans hptr, hd, .inl ⟨hde.trans hentry.symm, fun hmem => ?_⟩⟩
  exact (h.gone _ hmem).2 x hxL d hd (hde.trans hentry.symm)

theorem Present.step (h : Present m L F) (hc : DispatchCond m label) (hs : step m label = some (.ok m')) :
    ∃ L' F', Present m' L' F' := by
  cases step_cases hs with
  | call hf ho he => exact h.call hc he
  | @close l f stack fd hf =>
    refine ⟨L, F, h.kernel (fun fd' reg hreg => ?_) (fun _ he => he) h.log h.outer (fun _ hr => hr) fun _ hev => hev⟩
    by_cases hfd : fd' = fd
    · rw [hfd, Function.update_self] at hreg; cases hreg
    · rwa [Function.update_of_ne hfd] at hreg
  | returned =>
    exact ⟨L, F, h.kernel (fun _ _ hreg => hreg) (fun _ he => he) h.log h.outer (fun _ hr => List.mem_cons_of_mem _ hr)
      fun _ hev => hev⟩
  | removed he =>
    obtain ⟨hp, x, d, hx, hd, hde, hgen⟩ := hc _ _ rfl
    exact ⟨_, _, h.removed hp hx hd hde hgen he⟩
  | swept => exact absurd h.outer not_false
  | run =>
    obtain rfl := h.outer.program
    exact ⟨L, F, h.kernel (fun _ _ hreg => hreg) (fun _ he => he) h.log trivial (by simp) (by simp [MainLoop.pending])⟩
  | wait ht hr => exact ⟨L, F, h.wait⟩
  | @called l l' stack ev rest readOk he =>
    obtain rfl := h.outer.dispatch
    obtain ⟨p, d, hp, hd, hpr⟩ := h.pending ev (by simp [MainLoop.pending])
    obtain ⟨p', d', hp', hd', hti, rfl⟩ := dispatchEvent_called h.lists.toSound he
    cases hp.symm.trans hp'
    cases hd.symm.trans hd'
    have hpre : d.entry = ev.entry ∧ .removed ev.entry ∉ l.log :=
      hpr.resolve_right fun hcl => Int.not_lt.2 (hti hcl.1) hcl.2
    refine ⟨L, F, h.kernel (fun _ _ hreg => hreg) (by simp) ?_ trivial (by simp) fun _ hev => ?_⟩
    · rw [hpre.1]
      exact h.log.called hpre.2
    · exact pending_next (by simpa [MainLoop.pending] using hev)
  | @passed l l' stack ev rest readOk he =>
    obtain rfl := h.outer.dispatch
    obtain rfl := dispatchEvent_passed h.lists.toSound he
    exact ⟨L, F, h.kernel (fun _ _ hreg => hreg) (fun _ he => he) h.log trivial (by simp) fun _ hev => pending_next hev⟩
  | finish ht => exact absurd (ht.symm.trans h.terminate) (by decide)
  | done => exact absurd h.outer not_false
  | sweep => exact absurd h.outer not_false

theorem present_initial : Present initial [] [] := by
  refine ⟨lists_mainloopInit, rfl, trivial, fun x d hx => (nomatch hx), fun x _ _ _ hx => (nomatch hx), ?_, ?_, ?_, ?_, ?_⟩
  · exact fun e he => absurd he List.not_mem_nil
  · exact fun fd reg hreg => nomatch hreg
  · simp [initial]
  · simp [initial, pending]
  · intro before after event entry fd events userData heq
    cases before <;> cases heq

/-- In every run that meets the condition, callbacks are called for entries that were not removed before, with their own
events. -/
theorem mainloop_dispatch_present {ls : List Label} (h : Run MainLoop.step DispatchCond initial ls m) : NoLate m.loop.log := by
  have hinv : ∃ L F, Present m L F :=
    h.inv (fun m => ∃ L F, Present m L F) ⟨[], [], present_initial⟩ fun _ _ _ ⟨_, _, hi⟩ hc hs => hi.step hc hs
  obtain ⟨L, F, hp⟩ := hinv
  exact hp.log

/-- A check of the condition, for removals at the head of the live list and additions that find no free node. -/
def dispatchCheck (m : Machine) : Label → Bool
  | .call op out => op ≠ .quit && m.loop.mainloopFreeHead = none && out.ctl
  | .ret =>
    match m.stack with
    | .removal r :: _ => r.data = m.loop.mainloopDataHead && match r.data.bind m.loop.mem with
      | some d => d.entry = r.entry && (d.type = .timer || (pending m.stack).all fun ev => ev.entry ≠ r.entry)
      | none => false
    | _ => true
  | _ => true

theorem dispatchCond_of_check (h : dispatchCheck m label = true) : DispatchCond m label := by
  cases label with
  | call op out =>
    simp only [dispatchCheck, Bool.and_eq_true, decide_eq_true_eq] at h
    obtain ⟨⟨hq, hfree⟩, hctl⟩ := h
    exact ⟨hq, fun p hp => absurd (hfree.symm.trans hp) nofun, fun _ _ _ _ _ hdel => absurd (hctl.symm.trans hdel.2.2) nofun⟩
  | ret =>
    intro r stack hstack
    simp only [dispatchCheck, hstack, Bool.and_eq_true, decide_eq_true_eq] at h
    obtain ⟨hhead, h⟩ := h
    refine ⟨.inl hhead, ?_⟩
    split at h
    · next d hd =>
      obtain ⟨x, hx, hd⟩ := Option.bind_eq_some_iff.1 hd
      simp only [Bool.and_eq_true, Bool.or_eq_true, decide_eq_true_eq, List.all_eq_true] at h
      refine ⟨x, d, hx, hd, h.1, fun ht ev hev => ?_⟩
      exact (h.2.resolve_left (by simp [ht])) ev (hstack ▸ hev)
    · cases h
  | _ => trivial

/-- The callback of descriptor 3 removes the timer 5, which is next in the batch: it is passed over. -/
theorem mainloop_dispatch_present_timer : ∃ m,
    Run step DispatchCond initial [.call (.addFd 3 { eventIn := true } (some 0) none 30) {},
      .call (.addTimeout 100 (some 0) none 50) { timerfd := 5 }, .run,
      .wait [(3, { epollin := true }), (5, { epollin := true })], .next false, .call (.removeFd 5) {}, .ret, .ret,
      .next true] m ∧
    m.loop.log = [.added 0 none 30, .added 1 none 50, .called 0 0 3 { eventIn := true } 30, .removed 1] ∧
    NoLate m.loop.log := by
  have hexec : (exec step dispatchCheck initial [.call (.addFd 3 { eventIn := true } (some 0) none 30) {},
      .call (.addTimeout 100 (some 0) none 50) { timerfd := 5 }, .run,
      .wait [(3, { epollin := true }), (5, { epollin := true })], .next false, .call (.removeFd 5) {}, .ret, .ret,
      .next true]).map (fun m => m.loop.log) =
        some [.added 0 none 30, .added 1 none 50, .called 0 0 3 { eventIn := true } 30, .removed 1] := by decide +kernel
  obtain ⟨m, hm, hlog⟩ := Option.map_eq_some_iff.1 hexec
  have hrun := run_of_exec (fun _ _ => dispatchCond_of_check) hm
  exact ⟨m, hrun, hlog, mainloop_dispatch_present hrun⟩

/-- The callback of descriptor 3 removes descriptor 4, which is next in the batch: the callback of 4 is called after its
removal. When the callback adds descriptor 5 as well, 5 gets the node of 4, and the event of 4. -/
theorem mainloop_dispatch_late :
    (∃ m, Run step (fun _ _ => True) initial [.call (.addFd 3 { eventIn := true } (some 0) none 30) {},
      .call (.addFd 4 { eventIn := true } (some 0) none 40) {}, .run,
      .wait [(3, { epollin := true }), (4, { epollin := true })], .next false, .call (.removeFd 4) {}, .ret, .ret,
      .next false] m ∧ .called 1 1 4 { eventIn := true } 40 ∈ m.loop.log ∧ ¬ NoLate m.loop.log) ∧
    ∃ m, Run step (fun _ _ => True) initial [.call (.addFd 3 { eventIn := true } (some 0) none 30) {},
      .call (.addFd 4 { eventIn := true } (some 0) none 40) {}, .run,
      .wait [(3, { epollin := true }), (4, { epollin := true })], .next false, .call (.removeFd 4) {}, .ret,
      .call (.addFd 5 { eventIn := true } (some 0) none 50) {}, .ret, .next false] m ∧
      .called 1 2 5 { eventIn := true } 50 ∈ m.loop.log ∧ ¬ NoLate m.loop.log := by
  constructor
  · have hexec : (exec step (fun _ _ => true) initial [.call (.addFd 3 { eventIn := true } (some 0) none 30) {},
        .call (.addFd 4 { eventIn := true } (some 0) none 40) {}, .run,
        .wait [(3, { epollin := true }), (4, { epollin := true })], .next false, .call (.removeFd 4) {}, .ret, .ret,
        .next false]).map (fun m => m.loop.log) = some [.added 0 none 30, .added 1 none 40,
          .called 0 0 3 { eventIn := true } 30, .removed 1, .called 1 1 4 { eventIn := true } 40] := by decide +kernel
    obtain ⟨m, hm, hlog⟩ := Option.map_eq_some_iff.1 hexec
    refine ⟨m, run_of_exec (fun _ _ _ => trivial) hm, by simp [hlog], fun hno => ?_⟩
    rw [hlog] at hno
    exact (hno [.added 0 none 30, .added 1 none 40, .called 0 0 3 { eventIn := true } 30, .removed 1] [] _ _ _ _ _ rfl).2
      (by simp)
  · have hexec : (exec step (fun _ _ => true) initial [.call (.addFd 3 { eventIn := true } (some 0) none 30) {},
        .call (.addFd 4 { eventIn := true } (some 0) none 40) {}, .run,
        .wait [(3, { epollin := true }), (4, { epollin := true })], .next false, .call (.removeFd 4) {}, .ret,
        .call (.addFd 5 { eventIn := true } (some 0) none 50) {}, .ret, .next false]).map (fun m => m.loop.log) =
          some [.added 0 none 30, .added 1 none 40, .called 0 0 3 { eventIn := true } 30, .removed 1, .added 2 none 50,
            .called 1 2 5 { eventIn := true } 50] := by decide +kernel
    obtain ⟨m, hm, hlog⟩ := Option.map_eq_some_iff.1 hexec
    refine ⟨m, run_of_exec (fun _ _ _ => trivial) hm, by simp [hlog], fun hno => ?_⟩
    rw [hlog] at hno
    exact absurd (hno [.added 0 none 30, .added 1 none 40, .called 0 0 3 { eventIn := true } 30, .removed 1, .added 2 none 50]
      [] _ _ _ _ _ rfl).1 (by decide)

end MgStd.MainLoop
