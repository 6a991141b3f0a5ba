import MgStd.MainLoop.Lifetime
/-!
# Destroy callbacks

A ledger over whole runs: the entries added so far are those whose destroy
callback was called and those that are still on the live list, each once. At the
end of `mainloop_run` the live list has been swept, and what was added is what was
destroyed.
-/

namespace MgStd.MainLoop

open MgStd.Lib

variable {l l' : Loop} {L L' F : List Nat} {x : Nat} {m m' : Machine} {label : Label}

/-- An entry, its destroy callback and its user data. -/
abbrev Due := Nat × Callback × Nat

/-- The destroy callbacks of the entries added. -/
def addedOf (log : List Obs) : List Due :=
  log.filterMap fun o => match o with
    | .added e cb ud => if cb = none then none else some (e, cb, ud)
    | _ => none

/-- The destroy callbacks called. -/
def destroyedOf (log : List Obs) : List Due :=
  log.filterMap fun o => match o with
    | .destroyed e cb ud _ => some (e, cb, ud)
    | _ => none

/-- The destroy callback that a node still owes. -/
def due (d : MainloopData) : Option Due :=
  if d.destroyCallback = none then none else some (d.entry, d.destroyCallback, d.userData)

def dues (l : Loop) (S : List Nat) : List Due := S.filterMap fun x => (l.mem x).bind due

/-- A destroy callback runs in this frame. -/
def Frame.destroying : Frame → Bool
  | .removal _ => true
  | .sweepDestroy .. => true
  | _ => false

/-- Destroy callbacks do not call back, nothing is added or removed after a quit, and no registration of an added
descriptor fails. -/
def DestroyCond (m : Machine) : Label → Prop
  | .call op out =>
    (∀ f stack, m.stack = f :: stack → f.destroying = false) ∧
    (m.loop.mainloopTerminate = true → ¬ op.takes out ∧ ∀ fd, op ≠ .removeFd fd) ∧
    ∀ fd events callback destroy userData, op = .addFd fd events callback destroy userData →
      ¬ AddFails m.loop fd callback out
  | _ => True

/-! ## The ledger -/

@[simp] theorem addedOf_append (log log' : List Obs) : addedOf (log ++ log') = addedOf log ++ addedOf log' :=
  List.filterMap_append

@[simp] theorem destroyedOf_append (log log' : List Obs) :
    destroyedOf (log ++ log') = destroyedOf log ++ destroyedOf log' := List.filterMap_append

/-- With `S` still on the list, nothing was destroyed twice and nothing is forgotten; entry numbers are used once. -/
structure Ledger (l : Loop) (S : List Nat) : Prop where
  balance : (addedOf l.log).Perm (destroyedOf l.log ++ dues l S)
  once : ((addedOf l.log).map Prod.fst).Nodup
  below : ∀ e ∈ (addedOf l.log).map Prod.fst, e < l.entries

/-- The log grew by what touches no destroy callback, and the records of `S` are those of before. -/
theorem Ledger.of_eq {S : List Nat} {new : List Obs} (h : Ledger l S) (hlog : l'.log = l.log ++ new)
    (hadd : addedOf new = []) (hdes : destroyedOf new = []) (hent : l.entries ≤ l'.entries)
    (hmem : ∀ x ∈ S, (l'.mem x).bind due = (l.mem x).bind due) : Ledger l' S := by
  have hdues : dues l' S = dues l S := List.filterMap_congr hmem
  refine ⟨?_, ?_, ?_⟩ <;> rw [hlog, addedOf_append, hadd, List.append_nil]
  · rw [destroyedOf_append, hdes, List.append_nil, hdues]
    exact h.balance
  · exact h.once
  · exact fun e he => Nat.lt_of_lt_of_le (h.below e he) hent

theorem due_of_info (hi : ∀ y, info l' y = info l y) (y : Nat) : (l'.mem y).bind due = (l.mem y).bind due := by
  have hdue (l : Loop) : (l.mem y).bind due = (info l y).bind due := by
    cases hy : l.mem y <;> simp [info, hy, due, MainloopData.alone]
  rw [hdue, hdue, hi]

theorem dues_append (S S' : List Nat) : dues l (S ++ S') = dues l S ++ dues l S' := List.filterMap_append

theorem dues_cons (S : List Nat) : dues l (x :: S) = ((l.mem x).bind due).toList ++ dues l S := by
  cases h : (l.mem x).bind due <;> simp [dues, h]

theorem addedOf_added (d : MainloopData) : addedOf [.added d.entry d.destroyCallback d.userData] = (due d).toList := by
  cases h : d.destroyCallback <;> simp [addedOf, due, h]

theorem destroyedOf_due (d : MainloopData) (final : Bool) :
    destroyedOf (if d.destroyCallback = none then [] else [.destroyed d.entry d.destroyCallback d.userData final]) =
      (due d).toList := by
  cases h : d.destroyCallback <;> simp [destroyedOf, due, h]

/-- A node is linked, and its entry logged. -/
theorem Ledger.push {S : List Nat} {p : Nat} {d : MainloopData} (h : Ledger l S) (hp : p ∉ S) (he : d.entry = l.entries)
    (hm : l'.mem = Function.update l.mem p (some d))
    (hlog : l'.log = l.log ++ [.added l.entries d.destroyCallback d.userData]) (hent : l'.entries = l.entries + 1) :
    Ledger l' (p :: S) := by
  have hdues : dues l' (p :: S) = (due d).toList ++ dues l S := by
    have hS : dues l' S = dues l S := List.filterMap_congr fun x hx => by
      have hxp : x ≠ p := by rintro rfl; exact hp hx
      rw [hm, Function.update_of_ne hxp]
    rw [dues_cons, hS, hm, Function.update_self]
    rfl
  have hadd : addedOf l'.log = addedOf l.log ++ (due d).toList := by
    rw [hlog, addedOf_append, ← he, addedOf_added]
  have hdes : destroyedOf l'.log = destroyedOf l.log := by
    rw [hlog, destroyedOf_append]
    exact List.append_nil _
  have hkey : ∀ e ∈ (due d).toList.map Prod.fst, e = l.entries := by
    intro e hmem
    unfold due at hmem
    split at hmem
    · simp at hmem
    · simpa [he] using hmem
  refine ⟨?_, ?_, ?_⟩
  · rw [hadd, hdes, hdues]
    refine (h.balance.append_right _).trans ?_
    rw [List.append_assoc]
    exact List.perm_append_comm.append_left _
  · rw [hadd, List.map_append, List.nodup_append]
    refine ⟨h.once, ?_, ?_⟩
    · cases due d <;> simp
    · rintro a ha b hb rfl
      exact Nat.lt_irrefl _ (hkey a hb ▸ h.below a ha)
  · rw [hadd, List.map_append, hent]
    intro e hmem
    rcases List.mem_append.1 hmem with hmem | hmem
    · exact Nat.lt_succ_of_lt (h.below e hmem)
    · rw [hkey e hmem]; exact Nat.lt_succ_self _

/-- The destroy callback of the node between `X` and `Z` is called. -/
theorem Ledger.destroyed {X Z : List Nat} {d : MainloopData} (final : Bool) (h : Ledger l (X ++ x :: Z)) (hd : l.mem x = some d)
    (hlog : l'.log = l.log ++ if d.destroyCallback = none then []
      else [.destroyed d.entry d.destroyCallback d.userData final])
    (hent : l'.entries = l.entries) (hmem : ∀ y ∈ X ++ Z, l'.mem y = l.mem y) : Ledger l' (X ++ Z) := by
  have hdues : dues l (X ++ x :: Z) = dues l X ++ ((due d).toList ++ dues l Z) := by
    rw [dues_append, dues_cons, hd]
    rfl
  have hdues' : dues l' (X ++ Z) = dues l X ++ dues l Z := by
    rw [← dues_append]
    exact List.filterMap_congr fun y hy => by rw [hmem y hy]
  have hadd : addedOf l'.log = addedOf l.log := by
    rw [hlog, addedOf_append]
    split <;> exact List.append_nil _
  have hdes : destroyedOf l'.log = destroyedOf l.log ++ (due d).toList := by
    rw [hlog, destroyedOf_append, destroyedOf_due]
  refine ⟨?_, by rw [hadd]; exact h.once, by rw [hadd, hent]; exact h.below⟩
  rw [hadd, hdes, hdues']
  refine h.balance.trans ?_
  rw [hdues, List.append_assoc]
  refine List.Perm.append_left _ ?_
  rw [← List.append_assoc, ← List.append_assoc]
  exact List.perm_append_comm.append_right _

/-- The destroy callbacks that removals called belong to removals that are through, or to that of `current`. -/
def Completed (log : List Obs) (current : Option Nat) : Prop :=
  ∀ e cb ud, .destroyed e cb ud false ∈ log → .removed e ∈ log ∨ current = some e

theorem Completed.append {log new : List Obs} {current : Option Nat} (h : Completed log current)
    (hnew : ∀ e cb ud, .destroyed e cb ud false ∉ new) : Completed (log ++ new) current := by
  intro e cb ud hmem
  rcases List.mem_append.1 hmem with hmem | hmem
  · exact (h e cb ud hmem).imp_left (List.mem_append_left _)
  · exact absurd hmem (hnew e cb ud)

/-! ## What each function does to the ledger -/

theorem Added.ledger {type : MainloopDataType} {failed : Prop} (hl : Lists l L F) (h : Ledger l L) (hc : Completed l.log none)
    (ha : Added l F type failed l') (hf : ¬ failed) :
    ∃ L' F', Lists l' L' F' ∧ Ledger l' L' ∧ Completed l'.log none ∧ l'.mainloopTerminate = l.mainloopTerminate := by
  cases ha with
  | rejected interest timers =>
    exact ⟨L, F, hl.of_eq rfl rfl rfl rfl, ⟨h.balance, h.once, h.below⟩, hc, rfl⟩
  | lost p F' brk d interest timers hp he _ ht hty hn hi =>
    refine ⟨L, F', hl.take hp (by simp [ht, hty]) rfl rfl rfl rfl,
      h.of_eq (List.append_nil _).symm rfl rfl (Nat.le_succ _) fun x hx => ?_, hc, rfl⟩
    have hxp : x ≠ p := by rintro rfl; exact (hp.fresh hl).1 hx
    simp only [Function.update_of_ne hxp]
  | registered p F' brk d ev timers hp he _ ht hn hfd hcb hi =>
    exact ⟨p :: L, F', hl.push hp hn hcb rfl rfl rfl rfl, h.push (hp.fresh hl).1 he rfl rfl rfl,
      hc.append (by simp), rfl⟩
  | unregistered p F' brk d hp he ht hn hfd hcb hfail => exact absurd hfail hf

theorem Begun.ledger {fd : Int} {out : Outcome} {r : Removal} (hl : Lists l L F) (h : Ledger l L) (hc : Completed l.log none)
    (hb : Begun l L fd out (.inr r) l') :
    ∃ x L', Lists l' L F ∧ r.data = some x ∧ Unlink x r.prev L L' ∧ Ledger l' L' ∧ Completed l'.log (some r.entry) := by
  cases hb with
  | found X x Z d ret interest timers h0 hL hx hfd hX hdel hkeep =>
    have hnd := hl.live.nodup
    subst hL
    have hxXZ := ((unlink_found X x Z).not_mem hnd).2
    refine ⟨x, X ++ Z, hl.rewrite hx d.closed_next (MainloopData.closed_callable (hl.callable x d hx)) rfl rfl rfl rfl, rfl,
      unlink_found X x Z, ?_, ?_⟩
    · refine h.destroyed false hx ?_ rfl fun y hy => ?_
      · simp only
        split <;> simp
      · have hyx : y ≠ x := by rintro rfl; exact hxXZ hy
        simp only [Function.update_of_ne hyx]
    · intro e cb ud hmem
      simp only at hmem ⊢
      split at hmem
      · next hcb => rw [if_pos hcb]; exact (hc e cb ud hmem).imp_right nofun
      · next hcb =>
        rw [if_neg hcb]
        rcases List.mem_append.1 hmem with hmem | hmem
        · exact .inl (List.mem_append_left _ ((hc e cb ud hmem).resolve_right nofun))
        · simp only [List.mem_singleton, Obs.destroyed.injEq] at hmem
          exact .inr (by rw [hmem.1])

theorem Removed.ledger {e : Nat} (h : Ledger l L') (hc : Completed l.log (some e)) (hr : Removed l x L' F e l') :
    Ledger l' L' ∧ Completed l'.log none ∧ l'.mainloopTerminate = l.mainloopTerminate := by
  obtain ⟨mem, hl'⟩ := hr.eq
  have hlog : l'.log = l.log ++ [.removed e] := by rw [hl']
  refine ⟨h.of_eq hlog rfl rfl (Nat.le_of_eq (by rw [hl'])) fun y _ => due_of_info hr.info y, ?_, by rw [hl']⟩
  rw [hlog]
  intro e' cb ud hmem
  simp only [List.mem_append, List.mem_singleton, reduceCtorEq, or_false] at hmem
  refine .inl ?_
  rcases hc e' cb ud hmem with hrem | hcur
  · exact List.mem_append_left _ hrem
  · cases hcur
    exact List.mem_append_right _ List.mem_cons_self

/-! ## Every step -/

/-- No destroy callback runs. -/
def Quiet : List Frame → Prop
  | [.program] => True
  | [.dispatch _] => True
  | [.callback, .dispatch _] => True
  | _ => False

theorem Quiet.dispatch {rest : List Ready} {stack : List Frame} (h : Quiet (.dispatch rest :: stack)) : stack = [] := by
  cases stack with
  | nil => rfl
  | cons f stack => exact absurd h not_false

theorem Quiet.program {stack : List Frame} (h : Quiet (.program :: stack)) : stack = [] := by
  cases stack with
  | nil => rfl
  | cons f stack => exact absurd h not_false

theorem Quiet.callback {stack : List Frame} (h : Quiet (.callback :: stack)) : ∃ rest, stack = [.dispatch rest] := by
  match stack, h with
  | [.dispatch rest], _ => exact ⟨rest, rfl⟩

inductive LedgerInv : Machine → Prop
  | working {l : Loop} {stack : List Frame} {L : List Nat} (hk : Kept l L) (hq : l.mainloopTerminate = false → ¬ Stale l)
      (hs : Quiet stack) (hled : Ledger l L) (hc : Completed l.log none) : LedgerInv ⟨l, stack⟩
  | removing {l : Loop} {r : Removal} {stack : List Frame} {x : Nat} {L L' F : List Nat} (hl : Lists l L F)
      (hx : r.data = some x) (hu : Unlink x r.prev L L') (hs : Quiet stack) (hled : Ledger l L')
      (hc : Completed l.log (some r.entry)) : LedgerInv ⟨l, .removal r :: stack⟩
  | sweep {l : Loop} {p : Ptr Nat} {S : List Nat} (h : Sweeping l p S) (hled : Ledger l S) (hc : Completed l.log none) :
      LedgerInv ⟨l, [.sweep p]⟩
  | destroy {l : Loop} {x : Nat} {d : MainloopData} {cb : Callback} {S : List Nat} (h : Sweeping l (some x) (x :: S))
      (hd : l.mem x = some d) (hled : Ledger l S) (hc : Completed l.log none) :
      LedgerInv ⟨l, [.sweepDestroy (some x) d.next cb]⟩
  | done {l : Loop} (hled : Ledger l []) (hc : Completed l.log none) : LedgerInv ⟨l, []⟩

theorem LedgerInv.call {stack : List Frame} {op : Op} {out : Outcome} {r : Option Removal} (hk : Kept l L)
    (hq : l.mainloopTerminate = false → ¬ Stale l) (hs : Quiet stack) (hled : Ledger l L) (hc : Completed l.log none)
    (hcond : DestroyCond ⟨l, stack⟩ (.call op out)) (he : op.exec out l = .ok (r, l')) :
    LedgerInv ⟨l', r.toList.map .removal ++ stack⟩ := by
  obtain ⟨-, hterm, hadd⟩ := hcond
  have hstale : (∃ fd, op = .removeFd fd) ∨ op.takes out → ¬ Stale l := by
    intro hop
    refine hq ?_
    cases ht : l.mainloopTerminate with
    | false => rfl
    | true =>
      obtain ⟨htk, hrem⟩ := hterm ht
      rcases hop with ⟨fd, rfl⟩ | hop
      · exact absurd rfl (hrem fd)
      · exact absurd hop htk
  have hquit : op = .quit → ¬ Stale l := by
    rintro rfl hst
    refine not_returns_of_error (mainloopQuit_stale hst) (fun _ _ => True) ?_
    have hr : Returns (Op.quit.exec out) l fun _ _ => True := ⟨r, l', he, trivial⟩
    simp only [Op.exec, returns_bind] at hr
    exact hr.mono fun _ _ _ => trivial
  have hh := (returns_exec_kept hk (fun h => hstale (.inr h)) hquit).of_eq he
  cases hh with
  | idle interest timers hi => exact .working (hk.of_eq rfl rfl rfl rfl) hq hs ⟨hled.balance, hled.once, hled.below⟩ hc
  | addFd F hl ha =>
    obtain ⟨L', F', hl', hled', hc', ht⟩ := ha.ledger hl hled hc (hadd _ _ _ _ _ rfl)
    exact .working (.inl ⟨F', hl'⟩) (fun _ => hl'.not_stale) hs hled' hc'
  | addTimeout F hl ha =>
    obtain ⟨L', F', hl', hled', hc', ht⟩ := ha.ledger hl hled hc not_false
    exact .working (.inl ⟨F', hl'⟩) (fun _ => hl'.not_stale) hs hled' hc'
  | begun hb =>
    obtain ⟨F, hl⟩ := hk.lists (hstale (.inl ⟨_, rfl⟩))
    obtain ⟨x, L', hl', hx, hu, hled', hc'⟩ := hb.ledger hl hled hc
    exact .removing hl' hx hu hs hled' hc'
  | quit F hl =>
    refine .working hl.freed (fun hrun => Bool.noConfusion hrun) hs
      (hled.of_eq (List.append_nil _).symm rfl rfl (Nat.le_refl _) fun x hx => ?_) hc
    simp only [freed, if_neg (hl.disjoint x hx)]

theorem LedgerInv.step (h : LedgerInv m) (hcond : DestroyCond m label) (hs : step m label = some (.ok m')) : LedgerInv m' := by
  cases step_cases hs with
  | call hf ho he =>
    cases h with
    | working hk hq hst hled hc => exact .call hk hq hst hled hc hcond he
    | removing => exact absurd (hcond.1 _ _ rfl) nofun
    | sweep => cases hf
    | destroy => exact absurd (hcond.1 _ _ rfl) nofun
  | close hf =>
    cases h with
    | working hk hq hst hled hc =>
      exact .working (hk.of_eq rfl rfl rfl rfl) hq hst ⟨hled.balance, hled.once, hled.below⟩ hc
    | removing hl hx hu hst hled hc =>
      exact .removing (hl.of_eq rfl rfl rfl rfl) hx hu hst ⟨hled.balance, hled.once, hled.below⟩ hc
    | sweep => cases hf
    | destroy h hd hled hc => exact .destroy (h.of_eq rfl rfl rfl) hd ⟨hled.balance, hled.once, hled.below⟩ hc
  | returned =>
    cases h with
    | working hk hq hst hled hc =>
      obtain ⟨rest, rfl⟩ := hst.callback
      exact .working hk hq trivial hled hc
  | removed he =>
    cases h with
    | working hk hq hst => exact absurd hst not_false
    | removing hl hx hu hst hled hc =>
      have hr := (returns_removeEnd hl hx hu).of_eq he
      obtain ⟨hled', hc', ht⟩ := hr.ledger hled hc
      exact .working (.inl ⟨_, hr.lists⟩) (fun _ => hr.lists.not_stale) hst hled' hc'
  | swept he =>
    cases h with
    | working hk hq hst => exact absurd hst not_false
    | @destroy l x d cb S h hd hled hc =>
      have hl' := (returns_mainloopFree hd).of_eq he
      subst hl'
      refine .sweep (h.free_node hd) (hled.of_eq (List.append_nil _).symm rfl rfl (Nat.le_refl _) fun y hy => ?_) hc
      have hyx : y ≠ x := by rintro rfl; exact (List.nodup_cons.1 (Chain.nodup h.chain)).1 hy
      simp only [Function.update_of_ne hyx]
  | run =>
    cases h with
    | working hk hq hst hled hc =>
      obtain rfl := hst.program
      exact .working hk hq trivial hled hc
  | wait ht hr =>
    cases h with
    | working hk hq hst hled hc =>
      obtain rfl := hst.dispatch
      exact .working hk hq trivial hled hc
  | called he =>
    cases h with
    | working hk hq hst hled hc =>
      obtain rfl := hst.dispatch
      obtain ⟨p, d, -, -, -, rfl⟩ := dispatchEvent_called hk.sound he
      exact .working (hk.of_eq rfl rfl rfl rfl) hq trivial
        (hled.of_eq rfl rfl rfl (Nat.le_refl _) fun _ _ => rfl) (hc.append (by simp))
  | passed he =>
    cases h with
    | working hk hq hst hled hc =>
      obtain rfl := hst.dispatch
      obtain rfl := dispatchEvent_passed hk.sound he
      exact .working hk hq trivial hled hc
  | finish ht =>
    cases h with
    | working hk hq hst hled hc =>
      obtain rfl := hst.dispatch
      exact .sweep hk.sweeping hled hc
  | done =>
    cases h with
    | working hk hq hst => exact absurd hst not_false
    | sweep h hled hc =>
      obtain rfl := chain_null.1 h.chain
      exact .done hled hc
  | sweep he =>
    cases h with
    | working hk hq hst => exact absurd hst not_false
    | sweep h hled hc =>
      obtain ⟨d, S, hd, rfl, hS⟩ := chain_some.1 h.chain
      obtain ⟨hr, interest, timers, rfl⟩ := (returns_sweepBegin hd).of_eq he
      cases hr
      refine .destroy (h.of_eq rfl rfl rfl) hd (Ledger.destroyed (X := []) true hled hd ?_ rfl fun _ _ => rfl) ?_
      · simp only
        split <;> simp
      · simp only
        split
        · exact hc
        · exact hc.append (by simp)

theorem ledgerInv_initial : LedgerInv initial :=
  .working (.inl ⟨[], lists_mainloopInit⟩) (fun _ => lists_mainloopInit.not_stale) trivial
    ⟨.refl _, List.nodup_nil, nofun⟩ nofun

theorem filter_key {α β : Type} [DecidableEq α] {ts : List (α × β)} {t : α × β} (hk : (ts.map Prod.fst).Nodup) (ht : t ∈ ts) :
    ts.filter (fun u => u.1 = t.1) = [t] := by
  induction ts with
  | nil => cases ht
  | cons u ts ih =>
    obtain ⟨hu, hts⟩ := List.nodup_cons.1 hk
    rcases List.mem_cons.1 ht with rfl | ht
    · have hnone : ts.filter (fun u => u.1 = t.1) = [] :=
        List.filter_eq_nil_iff.2 fun v hv he => hu (List.mem_map.2 ⟨v, hv, of_decide_eq_true he⟩)
      simp [hnone]
    · have hne : u.1 ≠ t.1 := fun he => hu (he ▸ List.mem_map_of_mem ht)
      rw [List.filter_cons_of_neg (by simpa using hne), ih hts ht]

/-! ## What an addition logs -/

/-- The entry is logged exactly if the return is not negative. -/
def Noted (l : Loop) (destroy : Callback) (userData : Nat) (ret : Int) (l' : Loop) : Prop :=
  l'.log = l.log ++ if 0 ≤ ret then [.added l.entries destroy userData] else []

theorem Noted.rejected {destroy : Callback} {userData : Nat} {ret : Int} (hret : ret < 0) (hlog : l'.log = l.log) :
    Noted l destroy userData ret l' := by
  unfold Noted
  rw [hlog, if_neg (Int.not_le.2 hret), List.append_nil]

theorem Noted.added {destroy : Callback} {userData : Nat} {ret : Int} (hret : 0 ≤ ret)
    (hlog : l'.log = l.log ++ [.added l.entries destroy userData]) : Noted l destroy userData ret l' := by
  unfold Noted
  rw [hlog, if_pos hret]

theorem returns_mainloopAddFd_noted {fd : Int} {out : Outcome} (hl : Lists l L F) (events : Events) (callback destroy : Callback)
    (userData : Nat) : Returns (mainloopAddFd epoll fd events callback destroy userData out) l (Noted l destroy userData) := by
  simp only [mainloopAddFd, returns_ite, returns_pure, not_or]
  refine ⟨fun _ => .rejected (by decide) rfl, fun _ => ?_⟩
  rw [returns_bind]
  refine (returns_takeNode hl.free).mono ?_
  rintro _ _ (⟨rfl, rfl, -⟩ | ⟨p, F', brk, d, rfl, -, -, rfl⟩)
  · simp only [if_true, returns_pure]
    exact .rejected (by decide) rfl
  · simp only [reduceCtorEq, if_false, returns_bind, returns_newEntry, returns_setNode, Function.update_self,
      Option.some.injEq, exists_eq_left', Function.update_idem, returns_getHead, returns_setHead, epoll, epollAddFd,
      returns_nodeOf, epollCtlAdd, returns_get, returns_ite, returns_modify, returns_pure, returns_note,
      decide_false]
    refine ⟨fun _ => ⟨fun hret => .added hret rfl, fun h => absurd (Int.le_refl 0) h⟩,
      fun _ => ⟨fun h => absurd h (by decide), fun _ => .rejected (by decide) rfl⟩⟩

theorem returns_addTimer_noted {fd : Int} {out : Outcome} (hl : Lists l L F) (hfd : 0 ≤ fd) (timers : Int → Option ItValue)
    (callback destroy : Callback) (userData : Nat) :
    Returns (addTimer epoll fd callback destroy userData out) { l with timers } (Noted l destroy userData) := by
  rw [addTimer, returns_bind]
  refine (returns_takeNode (l := { l with timers }) hl.free).mono ?_
  rintro _ _ (⟨rfl, rfl, -⟩ | ⟨p, F', brk, d, rfl, -, -, rfl⟩)
  · simp only [if_true, returns_pure]
    exact .rejected (by decide) rfl
  · simp only [reduceCtorEq, if_false, returns_bind, returns_newEntry, returns_setNode, Function.update_self,
      Option.some.injEq, exists_eq_left', Function.update_idem, returns_getHead, returns_setHead, epoll, epollAddFd,
      returns_nodeOf, epollCtlAdd, returns_get, returns_ite, returns_modify, returns_pure, returns_note, returns_close]
    exact ⟨fun _ => ⟨fun h => absurd h (by decide), fun _ => .added hfd rfl⟩,
      fun _ => ⟨fun hret => .rejected hret rfl, fun h => absurd (by decide) h⟩⟩

theorem returns_mainloopAddTimeout_noted {out : Outcome} (hl : Lists l L F) (msec : Int) (callback destroy : Callback) (userData : Nat) :
    Returns (mainloopAddTimeout epoll msec callback destroy userData out) l (Noted l destroy userData) := by
  simp only [mainloopAddTimeout, timerfdCreate, timeoutSet, returns_ite, returns_bind, returns_pure, returns_modify,
    returns_get, returns_close]
  refine ⟨fun _ => .rejected (by decide) rfl, fun _ => ⟨fun hfd => ⟨fun h => absurd hfd (Int.not_le.2 h), fun _ => ?_⟩,
    fun hfd => ⟨fun _ => .rejected (by decide) rfl, fun h => absurd (Int.not_le.1 hfd) h⟩⟩⟩
  refine ⟨fun _ => ⟨fun _ => ⟨fun h => absurd h (by decide), fun _ => returns_addTimer_noted hl hfd _ _ _ _⟩,
    fun _ => ⟨fun _ => .rejected (by decide) rfl, fun h => absurd (by decide) h⟩⟩,
    fun _ => returns_addTimer_noted hl hfd _ _ _ _⟩

/-! ## The end of a run -/

/-- In every run from `mainloop_init` to the end of `mainloop_run` that meets the condition, the destroy callback of each
entry added was called exactly once, with the entry's user data: by the removal of the entry, which came to its end, or
by the final loop. -/
theorem mainloop_destroy_once {ls : List Label} (h : Run step DestroyCond initial ls ⟨l, []⟩) :
    ∀ e cb ud, .added e (some cb) ud ∈ l.log →
      (destroyedOf l.log).filter (fun t => t.1 = e) = [(e, some cb, ud)] ∧
      (.destroyed e (some cb) ud false ∈ l.log ∧ .removed e ∈ l.log ∨ .destroyed e (some cb) ud true ∈ l.log) := by
  intro e cb ud hadd
  have hinv : LedgerInv ⟨l, []⟩ := h.inv LedgerInv ledgerInv_initial fun _ _ _ hi hc hs => hi.step hc hs
  cases hinv with
  | working hk hq hst => exact absurd hst not_false
  | done hled hc =>
    have hmem : (e, some cb, ud) ∈ addedOf l.log := List.mem_filterMap.2 ⟨_, hadd, rfl⟩
    have hbal : (destroyedOf l.log).Perm (addedOf l.log) := by simpa [dues] using hled.balance.symm
    refine ⟨?_, ?_⟩
    · have hfil := hbal.filter fun t => t.1 = e
      rw [filter_key hled.once hmem] at hfil
      exact List.perm_singleton.1 hfil
    · obtain ⟨o, ho, hoe⟩ := List.mem_filterMap.1 (hbal.mem_iff.2 hmem)
      cases o with
      | destroyed e' cb' ud' final =>
        cases hoe
        cases final with
        | false => exact .inl ⟨ho, (hc e (some cb) ud ho).resolve_right nofun⟩
        | true => exact .inr ho
      | _ => cases hoe

/-- A check of the condition, for runs without calls after a quit. -/
def destroyCheck (m : Machine) : Label → Bool
  | .call op out => !m.loop.mainloopTerminate && m.stack.all (fun f => !f.destroying) && match op with
    | .addFd fd _ _ _ _ => (m.loop.interest fd).isNone && out.ctl
    | _ => true
  | _ => true

theorem destroyCond_of_check {m : Machine} {label : Label} (h : destroyCheck m label = true) : DestroyCond m label := by
  cases label with
  | call op out =>
    simp only [destroyCheck, Bool.and_eq_true, Bool.not_eq_true', List.all_eq_true] at h
    obtain ⟨⟨hterm, hstack⟩, hop⟩ := h
    refine ⟨fun f stack hf => hstack f (hf ▸ List.mem_cons_self), fun ht => absurd ht (by simp [hterm]), ?_⟩
    rintro fd events callback destroy userData rfl ⟨-, hfail⟩
    exact hfail (by simpa using hop)
  | _ => trivial

/-- The timer 9 fires, and descriptor 3 is removed by its own callback, which then quits. The timer and descriptor 4 are left
to the final loop. -/
theorem mainloop_destroy_once_timer : ∃ l,
    Run step DestroyCond initial [.call (.addTimeout 5 (some 2) (some 1) 90) { timerfd := 9 },
      .call (.addFd 4 {} (some 0) (some 1) 40) {}, .call (.addFd 3 {} (some 0) (some 1) 30) {}, .run,
      .wait [(9, { epollin := true }), (3, { epollin := true })], .next true, .ret, .next false, .call (.removeFd 3) {}, .ret,
      .call .quit {}, .ret, .sweep, .sweep, .ret, .sweep, .ret, .sweep] ⟨l, []⟩ ∧
    (destroyedOf l.log).filter (fun t => t.1 = 0) = [(0, some 1, 90)] ∧
    (destroyedOf l.log).filter (fun t => t.1 = 2) = [(2, some 1, 30)] := by
  have hexec : (exec step destroyCheck initial [.call (.addTimeout 5 (some 2) (some 1) 90) { timerfd := 9 },
      .call (.addFd 4 {} (some 0) (some 1) 40) {}, .call (.addFd 3 {} (some 0) (some 1) 30) {}, .run,
      .wait [(9, { epollin := true }), (3, { epollin := true })], .next true, .ret, .next false, .call (.removeFd 3) {}, .ret,
      .call .quit {}, .ret, .sweep, .sweep, .ret, .sweep, .ret, .sweep]).map
        (fun m => (m.stack, decide (.added 0 (some 1) 90 ∈ m.loop.log ∧ .added 2 (some 1) 30 ∈ m.loop.log))) =
          some ([], true) := by decide +kernel
  obtain ⟨⟨l, stack⟩, hm, heq⟩ := Option.map_eq_some_iff.1 hexec
  obtain ⟨hstack, hadd⟩ := Prod.mk.inj heq
  cases hstack
  obtain ⟨htimer, hfd⟩ := of_decide_eq_true hadd
  have hrun := run_of_exec (fun _ _ => destroyCond_of_check) hm
  exact ⟨l, hrun, (mainloop_destroy_once hrun 0 1 90 htimer).1, (mainloop_destroy_once hrun 2 1 30 hfd).1⟩

end MgStd.MainLoop
