import MgStd.MainLoop.Machine
/-!
# Re-entrant removal

`mainloop_remove_fd` unlinks with the `data` and `prev` that it found before it
called the destroy callback. Whatever the callback adds and removes meanwhile, the
removal does what it should exactly when `data` is still in its place: at the head
of the live list, or right behind `prev`.
-/

namespace MgStd.MainLoop

open MgStd.Lib

variable {l l₀ l₁ : Loop} {L F : List Nat} {x : Nat} {r : Removal}

/-- The node `x` is on the live list with the entry `e`. -/
def LiveAt (l : Loop) (x e : Nat) : Prop :=
  ∃ L, Chain MainloopData.next l.mem l.mainloopDataHead L ∧ x ∈ L ∧ ∃ d, l.mem x = some d ∧ d.entry = e

/-- `data` is at the head of the live list, or `prev` is on the list and `data` comes next. -/
def InPlace (l : Loop) (r : Removal) : Prop :=
  r.data = l.mainloopDataHead ∨ ∃ L q d, Chain MainloopData.next l.mem l.mainloopDataHead L ∧ q ∈ L ∧
    r.prev = some q ∧ l.mem q = some d ∧ d.next = r.data

/-- From `l`, the end of the removal comes back without a fault. It leaves a live list and a free list that are acyclic
and disjoint, the removed node on the free list, and all other entries where they are: those live in `l`, and those live
in `l₀` that were not removed since. -/
def RemovesOnly (l₀ l : Loop) (r : Removal) : Prop :=
  ∃ ret l', removeEnd r l = .ok (ret, l') ∧ ∃ L F, Lists l' L F ∧ (∃ x ∈ F, r.data = some x) ∧
    ∀ x e, r.data ≠ some x → LiveAt l x e ∨ LiveAt l₀ x e ∧ .removed e ∉ l.log.drop l₀.log.length → LiveAt l' x e

/-- What the destroy callback does: it adds descriptors, and removes descriptors other than those being removed. -/
def Others (m : Machine) : Label → Prop
  | .call (.addFd ..) _ => True
  | .call (.removeFd fd) _ => ∀ r x, .removal r ∈ m.stack → r.data = some x → ¬ HasFd m.loop x fd
  | .ret => ∃ r stack, m.stack = .removal r :: stack
  | _ => False

/-- `P` holds when the destroy callback of a removal returns. -/
def AtEnd (P : Loop → Removal → Prop) (m : Machine) : Label → Prop
  | .ret => ∀ r stack, m.stack = .removal r :: stack → P m.loop r
  | _ => True

/-- The removals in the callback find their nodes in place when they unlink. -/
def Reentrant (m : Machine) (label : Label) : Prop := Others m label ∧ AtEnd InPlace m label

/-- The removals in the callback do what they should from the return of their destroy callbacks on. -/
def Orderly (m : Machine) (label : Label) : Prop := Others m label ∧ AtEnd (fun l r => RemovesOnly l l r) m label

/-! ## In place -/

theorem Lists.liveAt (hl : Lists l L F) {e : Nat} : LiveAt l x e ↔ x ∈ L ∧ ∃ d, l.mem x = some d ∧ d.entry = e := by
  constructor
  · rintro ⟨L', hL', hx⟩
    obtain rfl : L' = L := Chain.unique hL' hl.live
    exact hx
  · intro hx
    exact ⟨L, hl.live, hx⟩

theorem InPlace.unlink (hl : Lists l L F) (hx : r.data = some x) (hp : InPlace l r) : Unlink x r.prev L (L.erase x) := by
  have hnd := hl.live.nodup
  rcases hp with hhead | ⟨L', q, d, hL', hq, hprev, hd, hn⟩
  · have hc := hl.live
    rw [← hhead, hx] at hc
    obtain ⟨n, Z, -, rfl, -⟩ := chain_some.1 hc
    rw [List.erase_cons_head]
    exact .head Z
  · obtain rfl : L' = L := Chain.unique hL' hl.live
    obtain ⟨X, T, rfl⟩ := List.append_of_mem hq
    obtain ⟨-, d', hd', hT⟩ := seg_split.1 hL'
    obtain rfl : d = d' := by simpa [hd] using hd'
    rw [hn, hx] at hT
    obtain ⟨n, Z, -, rfl, -⟩ := chain_some.1 hT
    have hxX : x ∉ X := fun h => (List.nodup_append.1 hnd).2.2 x h x (by simp) rfl
    have hqx : q ≠ x := by rintro rfl; simp [List.nodup_append] at hnd
    rw [List.erase_append_right _ hxX, List.erase_cons_tail (by simpa using hqx), List.erase_cons_head]
    exact .behind X q [] Z hprev

/-! ## Inside the callback -/

/-- The nodes being removed. -/
def busy (stack : List Frame) : List Nat :=
  stack.filterMap fun f => match f with
    | .removal r => r.data
    | _ => none

theorem mem_busy {stack : List Frame} : x ∈ busy stack ↔ ∃ r, .removal r ∈ stack ∧ r.data = some x := by
  simp only [busy, List.mem_filterMap]
  constructor
  · rintro ⟨f, hf, hx⟩
    cases f with
    | removal r => exact ⟨r, hf, hx⟩
    | _ => cases hx
  · rintro ⟨r, hr, hx⟩
    exact ⟨.removal r, hr, hx⟩

/-- During the callbacks of removals, of which that of `x₀` began first, in `l₀`; `since` is the log from then on. -/
structure Within (l₀ : Loop) (x₀ : Nat) (m : Machine) (L F : List Nat) (since : List Obs) : Prop where
  lists : Lists m.loop L F
  log : m.loop.log = l₀.log ++ since
  distinct : (busy m.stack).Nodup
  held : ∀ r, .removal r ∈ m.stack → ∃ x ∈ L, r.data = some x ∧ ∃ d, m.loop.mem x = some d ∧ d.entry = r.entry
  live : ∀ x e, x ≠ x₀ → LiveAt l₀ x e → .removed e ∉ since → x ∈ L ∧ ∃ d, m.loop.mem x = some d ∧ d.entry = e

/-- The records of the live nodes may change but for the entries they hold. -/
theorem Within.of_entries {x₀ : Nat} {m m' : Machine} {L' F' : List Nat} {since new : List Obs}
    (h : Within l₀ x₀ m L F since) (hl : Lists m'.loop L' F') (hstack : m'.stack = m.stack)
    (hlog : m'.loop.log = m.loop.log ++ new) (hsub : ∀ x ∈ L, x ∈ L')
    (hmem : ∀ x ∈ L, ∀ d, m.loop.mem x = some d → ∃ d', m'.loop.mem x = some d' ∧ d'.entry = d.entry) :
    Within l₀ x₀ m' L' F' (since ++ new) := by
  refine ⟨hl, by rw [hlog, h.log, List.append_assoc], hstack ▸ h.distinct, ?_, ?_⟩
  · intro r hr
    obtain ⟨x, hx, hrx, d, hd, he⟩ := h.held r (hstack ▸ hr)
    obtain ⟨d', hd', he'⟩ := hmem x hx d hd
    exact ⟨x, hsub x hx, hrx, d', hd', he'.trans he⟩
  · intro x e hx hle hrem
    obtain ⟨hxL, d, hd, he⟩ := h.live x e hx hle fun hmem => hrem (List.mem_append_left _ hmem)
    obtain ⟨d', hd', he'⟩ := hmem x hxL d hd
    exact ⟨hsub x hxL, d', hd', he'.trans he⟩

theorem Within.added {x₀ : Nat} {stack : List Frame} {since : List Obs} {type : MainloopDataType}
    {failed : Prop} (h : Within l₀ x₀ ⟨l, stack⟩ L F since) (ha : Added l F type failed l₁) :
    ∃ L F since, Within l₀ x₀ ⟨l₁, stack⟩ L F since := by
  have hl := h.lists
  have hupd {p : Nat} (hp : p ∉ L) (d : MainloopData) :
      ∀ x ∈ L, ∀ d', l.mem x = some d' → ∃ d'', Function.update l.mem p (some d) x = some d'' ∧ d''.entry = d'.entry := by
    intro x hx d' hd'
    have hxp : x ≠ p := by rintro rfl; exact hp hx
    exact ⟨d', by rw [Function.update_of_ne hxp, hd'], rfl⟩
  cases ha with
  | rejected interest timers hf hg hi =>
    exact ⟨L, F, since ++ [], h.of_entries (hl.of_eq rfl rfl rfl rfl) rfl (List.append_nil _).symm (fun _ hx => hx)
      fun x _ d hd => ⟨d, hd, rfl⟩⟩
  | lost p F' brk d interest timers hp he hf ht hty hn hi =>
    exact ⟨L, F', since ++ [], h.of_entries (hl.take hp (by simp [ht, hty]) rfl rfl rfl rfl) rfl (List.append_nil _).symm
      (fun _ hx => hx) (hupd (hp.fresh hl).1 d)⟩
  | registered p F' brk d ev timers hp he hf ht hn hfd hcb hi =>
    exact ⟨p :: L, F', since ++ [_], h.of_entries (hl.push hp hn hcb rfl rfl rfl rfl) rfl rfl
      (fun _ hx => List.mem_cons_of_mem _ hx) (hupd (hp.fresh hl).1 d)⟩
  | unregistered p F' brk d hp he ht hn hfd hcb hf =>
    exact ⟨p :: L, F', since ++ [], h.of_entries (hl.push hp hn hcb rfl rfl rfl rfl) rfl (List.append_nil _).symm
      (fun _ hx => List.mem_cons_of_mem _ hx) (hupd (hp.fresh hl).1 d)⟩

/-- A removal begins at `x`. -/
theorem Lists.begun {fd : Int} {out : Outcome} (hl : Lists l L F) (hb : Begun l L fd out (.inr r) l₁) :
    ∃ x ∈ L, r.data = some x ∧ HasFd l x fd ∧ Lists l₁ L F ∧ ∃ d new, l.mem x = some d ∧ r.entry = d.entry ∧
      l₁.mem = Function.update l.mem x (some d.closed) ∧ l₁.log = l.log ++ new ∧ ∀ e, .removed e ∉ new := by
  cases hb with
  | found X x Z d ret interest timers h0 hL hx hfd hX hdel hkeep =>
    refine ⟨x, by simp [hL], rfl, ⟨d, hx, hfd⟩, hl.rewrite hx d.closed_next (MainloopData.closed_callable (hl.callable x d hx))
      rfl rfl rfl rfl, d, if d.destroyCallback = none then [] else [.destroyed d.entry d.destroyCallback d.userData false],
      hx, rfl, rfl, ?_, ?_⟩
    · simp only
      split <;> simp
    · intro e
      split <;> simp

theorem Within.begun {x₀ : Nat} {stack : List Frame} {since : List Obs} {fd : Int} {out : Outcome}
    (h : Within l₀ x₀ ⟨l, stack⟩ L F since) (hfree : ∀ r x, .removal r ∈ stack → r.data = some x → ¬ HasFd l x fd)
    (hb : Begun l L fd out (.inr r) l₁) : ∃ L F since, Within l₀ x₀ ⟨l₁, .removal r :: stack⟩ L F since := by
  obtain ⟨x, hxL, hrx, hfd, hl₁, d, new, hd, he, hmem, hlog, -⟩ := h.lists.begun hb
  have hupd : ∀ y ∈ L, ∀ d', l.mem y = some d' → ∃ d'', l₁.mem y = some d'' ∧ d''.entry = d'.entry := by
    intro y _ d' hd'
    rw [hmem]
    by_cases hyx : y = x
    · subst hyx
      rw [hd] at hd'
      cases hd'
      exact ⟨d.closed, Function.update_self .., d.closed_entry⟩
    · exact ⟨d', by rw [Function.update_of_ne hyx, hd'], rfl⟩
  have hw : Within l₀ x₀ ⟨l₁, stack⟩ L F (since ++ new) := h.of_entries hl₁ rfl hlog (fun _ hx => hx) hupd
  refine ⟨L, F, since ++ new, hl₁, hw.log, ?_, ?_, hw.live⟩
  · have hbusy : busy (.removal r :: stack) = x :: busy stack := by simp [busy, hrx]
    rw [hbusy]
    refine List.nodup_cons.2 ⟨fun hx => ?_, h.distinct⟩
    obtain ⟨r', hr', hrx'⟩ := mem_busy.1 hx
    exact hfree r' x hr' hrx' hfd
  · intro r' hr'
    rcases List.mem_cons.1 hr' with hr' | hr'
    · cases hr'
      obtain ⟨d', hd', he'⟩ := hupd x hxL d hd
      exact ⟨x, hxL, hrx, d', hd', he'.trans he.symm⟩
    · exact hw.held r' hr'

theorem Within.removed {x₀ : Nat} {stack : List Frame} {since : List Obs} {ret : Int}
    (h : Within l₀ x₀ ⟨l, .removal r :: stack⟩ L F since) (hp : InPlace l r) (hr : removeEnd r l = .ok (ret, l₁)) :
    ∃ L F since, Within l₀ x₀ ⟨l₁, stack⟩ L F since := by
  obtain ⟨x, hxL, hrx, d, hd, he⟩ := h.held r List.mem_cons_self
  have hrem := (returns_removeEnd h.lists hrx (hp.unlink h.lists hrx)).of_eq hr
  have hnd := h.lists.live.nodup
  obtain ⟨mem, hl₁⟩ := hrem.eq
  have hbusy : busy (.removal r :: stack) = x :: busy stack := by simp [busy, hrx]
  have hdist := h.distinct
  rw [hbusy, List.nodup_cons] at hdist
  have hkeep : ∀ y ∈ L, y ≠ x → y ∈ L.erase x := fun y hy hyx => (List.mem_erase_of_ne hyx).2 hy
  have hentry : ∀ {y d}, l.mem y = some d → ∃ d', l₁.mem y = some d' ∧ d'.entry = d.entry := by
    intro y d hd
    obtain ⟨d', hd', ha⟩ := entry_of_info hrem.info hd
    exact ⟨d', hd', by simp only [MainloopData.alone, MainloopData.mk.injEq] at ha; exact ha.2.2.2.2.2.2.2⟩
  refine ⟨L.erase x, x :: F, since ++ [.removed r.entry], hrem.lists, ?_, hdist.2, ?_, ?_⟩
  · have hlog := h.log
    simp only at hlog
    rw [hl₁, ← List.append_assoc, ← hlog]
  · intro r' hr'
    obtain ⟨y, hy, hry, d', hd', he'⟩ := h.held r' (List.mem_cons_of_mem _ hr')
    have hyx : y ≠ x := by rintro rfl; exact hdist.1 (mem_busy.2 ⟨r', hr', hry⟩)
    obtain ⟨d'', hd'', he''⟩ := hentry hd'
    exact ⟨y, hkeep y hy hyx, hry, d'', hd'', he''.trans he'⟩
  · intro y e hy hle hnot
    simp only [List.mem_append, List.mem_singleton, Obs.removed.injEq, not_or] at hnot
    obtain ⟨hyL, d', hd', he'⟩ := h.live y e hy hle hnot.1
    have hyx : y ≠ x := by
      rintro rfl
      rw [show l.mem y = some d' from hd'] at hd
      cases hd
      exact hnot.2 (he'.symm.trans he)
    obtain ⟨d'', hd'', he''⟩ := hentry hd'
    exact ⟨hkeep y hyL hyx, d'', hd'', he''.trans he'⟩

theorem Within.step {x₀ : Nat} {m m' : Machine} {label : Label} (h : ∃ L F since, Within l₀ x₀ m L F since)
    (hok : Reentrant m label) (hs : step m label = some (.ok m')) : ∃ L F since, Within l₀ x₀ m' L F since := by
  obtain ⟨L, F, since, h⟩ := h
  obtain ⟨hoth, hend⟩ := hok
  cases step_cases hs with
  | @call l l' f stack op out r hf ho he =>
    have hex := (returns_exec h.lists op out).of_eq he
    cases hex with
    | addFd ha => exact h.added ha
    | missing hb => cases hb; exact ⟨L, F, since, h⟩
    | begun hb => exact h.begun hoth hb
    | _ => exact absurd hoth (by simp [Others])
  | removed hr => exact h.removed (hend _ _ rfl) hr
  | returned => obtain ⟨r', stack', heq⟩ := hoth; cases heq
  | swept => obtain ⟨r', stack', heq⟩ := hoth; cases heq
  | _ => exact absurd hoth (by simp [Others])

/-- The callback begins. -/
theorem within_begun {fd : Int} {out : Outcome} (hl : Lists l L F) (hb : removeBegin epoll fd out l = .ok (.inr r, l₁)) :
    ∃ x, r.data = some x ∧ ∃ L F since, Within l x ⟨l₁, [.removal r]⟩ L F since := by
  have hbegun := (returns_removeBegin hl.live hl.below).of_eq hb
  obtain ⟨x, hxL, hrx, -⟩ := hl.begun hbegun
  have h0 : Within l x ⟨l, []⟩ L F [] :=
    ⟨hl, (List.append_nil _).symm, List.nodup_nil, by simp, fun y e _ hle _ => hl.liveAt.1 hle⟩
  exact ⟨x, hrx, h0.begun (by simp) hbegun⟩

/-! ## The end of the removal -/

theorem removesOnly_of_inPlace {since : List Obs} (h : Within l₀ x ⟨l, [.removal r]⟩ L F since) (hrx : r.data = some x)
    (hp : InPlace l r) : RemovesOnly l₀ l r := by
  obtain ⟨ret, l', he, hrem⟩ := returns_removeEnd h.lists hrx (hp.unlink h.lists hrx)
  refine ⟨ret, l', he, L.erase x, x :: F, hrem.lists, ⟨x, List.mem_cons_self, hrx⟩, ?_⟩
  intro y e hy hle
  have hlive : y ∈ L ∧ ∃ d, l.mem y = some d ∧ d.entry = e := by
    rcases hle with hle | ⟨hle, hnot⟩
    · exact h.lists.liveAt.1 hle
    · refine h.live y e (by rintro rfl; exact hy hrx) hle fun hmem => hnot ?_
      have hlog := h.log
      simp only at hlog
      rwa [hlog, List.drop_left]
  obtain ⟨hyL, d, hd, hde⟩ := hlive
  obtain ⟨d', hd', ha⟩ := entry_of_info hrem.info hd
  simp only [MainloopData.alone, MainloopData.mk.injEq] at ha
  refine hrem.lists.liveAt.2 ⟨(List.mem_erase_of_ne ?_).2 hyL, d', hd', ha.2.2.2.2.2.2.2.trans hde⟩
  rintro rfl
  exact hy hrx

/-- Out of place, the end of the removal writes to `prev`, if that is not NULL, and to `data` only. -/
theorem removeEnd_elsewhere {l' : Loop} {ret : Int} (he : removeEnd r l = .ok (ret, l'))
    (hne : r.data ≠ l.mainloopDataHead) {q : Nat} (hq : r.prev ≠ some q) (hqx : r.data ≠ some q) : l'.mem q = l.mem q := by
  have hr : Returns (removeEnd r) l fun _ l'' => l'' = l' := ⟨ret, l', he, rfl⟩
  simp only [removeEnd, returns_bind, returns_getHead, returns_ite] at hr
  have hr := hr.2 hne
  cases hx : r.data with
  | none => simp [hx] at hr
  | some x =>
    cases hp : r.prev with
    | none => simp [hx, hp] at hr
    | some p =>
      simp only [hx, hp, returns_nodeOf, returns_setNode, returns_getFreeHead, returns_setFreeHead, returns_note,
        returns_pure] at hr
      obtain ⟨d, hd, dp, hdp, d', hd', rfl⟩ := hr
      have hqp : q ≠ p := by rintro rfl; exact hq hp
      have hqx' : q ≠ x := by rintro rfl; exact hqx hx
      simp only [Function.update_of_ne hqx', Function.update_of_ne hqp]

theorem inPlace_of_removesOnly (hl : Lists l L F) (hx : x ∈ L) (hrx : r.data = some x) (hr : RemovesOnly l₀ l r) :
    InPlace l r := by
  obtain ⟨ret, l', he, L', F', hl', ⟨x', hx', hrx'⟩, hlive⟩ := hr
  obtain rfl : x' = x := by simpa [hrx] using hrx'.symm
  by_contra hout
  have hne : r.data ≠ l.mainloopDataHead := fun h => hout (.inl h)
  obtain ⟨X, Z, rfl⟩ := List.append_of_mem hx
  rcases List.eq_nil_or_concat X with rfl | ⟨X, q, rfl⟩
  · exact hne (by rw [hrx, Chain.head_eq hl.live]; rfl)
  · -- `q` comes before `data`, and still points to it
    have hnd := hl.live.nodup
    rw [List.concat_eq_append, List.append_assoc] at hl hnd
    have hc := hl.live
    obtain ⟨-, d, hd, hn, -⟩ := seg_split.1 hc
    have hqx : q ≠ x' := by rintro rfl; simp [List.nodup_append] at hnd
    have hprev : r.prev ≠ some q := fun h => hout (.inr ⟨_, q, d, hc, by simp, h, hd, hn.trans hrx.symm⟩)
    have hrq : r.data ≠ some q := by rw [hrx]; simpa using hqx.symm
    have hq' : l'.mem q = some d := by rw [removeEnd_elsewhere he hne hprev hrq, hd]
    obtain ⟨hqL, -⟩ := hl'.liveAt.1 (hlive q d.entry hrq (.inl (hl.liveAt.2 ⟨by simp, d, hd, rfl⟩)))
    exact hl'.disjoint x' (Chain.next_mem hl'.live hqL hq' hn) hx'

theorem removesOnly_iff_inPlace {x₀ : Nat} {m : Machine} {since : List Obs} (h : Within l₀ x₀ m L F since)
    (hr : .removal r ∈ m.stack) : RemovesOnly m.loop m.loop r ↔ InPlace m.loop r := by
  obtain ⟨x, hx, hrx, d, hd, he⟩ := h.held r hr
  have h0 : Within m.loop x ⟨m.loop, [.removal r]⟩ L F [] := by
    refine ⟨h.lists, (List.append_nil _).symm, by simp [busy, hrx], ?_, fun y e _ hle _ => h.lists.liveAt.1 hle⟩
    intro r' hr'
    obtain rfl : r' = r := by simpa using hr'
    exact ⟨x, hx, hrx, d, hd, he⟩
  exact ⟨inPlace_of_removesOnly h.lists hx hrx, removesOnly_of_inPlace h0 hrx⟩

theorem AtEnd.mono_of {P Q : Loop → Removal → Prop} {m : Machine} {label : Label} (h : AtEnd P m label)
    (hpq : ∀ r, .removal r ∈ m.stack → P m.loop r → Q m.loop r) : AtEnd Q m label := by
  cases label with
  | ret => exact fun r stack hr => hpq r (hr ▸ List.mem_cons_self) (h r stack hr)
  | _ => trivial

/-- For every main loop with well-formed lists, every registered descriptor, and every destroy callback that adds
descriptors and removes others: the removals, that of the descriptor and those that the callback makes, do what they
should if and only if each, when its destroy callback returns, finds its node still at the head of the live list or right
behind the node it was behind. -/
theorem mainloop_remove_fd_iff {fd : Int} {out : Outcome} {l₂ : Loop} {ls : List Label} (hl : Lists l L F)
    (hb : removeBegin epoll fd out l = .ok (.inr r, l₁)) :
    (Run step Orderly ⟨l₁, [.removal r]⟩ ls ⟨l₂, [.removal r]⟩ ∧ RemovesOnly l l₂ r) ↔
      (Run step Reentrant ⟨l₁, [.removal r]⟩ ls ⟨l₂, [.removal r]⟩ ∧ InPlace l₂ r) := by
  obtain ⟨x, hrx, hw₁⟩ := within_begun hl hb
  constructor
  · rintro ⟨hord, hro⟩
    have hre : Run step Reentrant ⟨l₁, [.removal r]⟩ ls ⟨l₂, [.removal r]⟩ ∧
        ∃ L F since, Within l x ⟨l₂, [.removal r]⟩ L F since :=
      hord.mono_inv (fun m => ∃ L F since, Within l x m L F since) hw₁
        (fun m label ⟨_, _, _, hw⟩ ⟨hoth, hend⟩ => ⟨hoth, hend.mono_of fun r hr => (removesOnly_iff_inPlace hw hr).1⟩)
        fun m label m' hw _ hok => Within.step hw hok
    obtain ⟨hre, L', F', since, hw⟩ := hre
    obtain ⟨x', hx', hrx', -⟩ := hw.held r List.mem_cons_self
    exact ⟨hre, inPlace_of_removesOnly hw.lists hx' hrx' hro⟩
  · rintro ⟨hre, hp⟩
    have hord : Run step Orderly ⟨l₁, [.removal r]⟩ ls ⟨l₂, [.removal r]⟩ ∧
        ∃ L F since, Within l x ⟨l₂, [.removal r]⟩ L F since :=
      hre.mono_inv (fun m => ∃ L F since, Within l x m L F since) hw₁
        (fun m label ⟨_, _, _, hw⟩ ⟨hoth, hend⟩ => ⟨hoth, hend.mono_of fun r hr => (removesOnly_iff_inPlace hw hr).2⟩)
        fun m label m' hw hok _ => Within.step hw hok
    obtain ⟨hord, L', F', since, hw⟩ := hord
    exact ⟨hord, removesOnly_of_inPlace hw hrx hp⟩

/-- Descriptor 3, with a destroy callback. -/
def oneEntry : Loop :=
  { mem := Function.update (fun _ => none) 0 (some { fd := 3, eventCallback := some 0, destroyCallback := some 1 })
    brk := 1, mainloopDataHead := some 0, entries := 1
    interest := Function.update (fun _ => none) 3 (some ⟨{}, some 0, 0⟩) }

/-- Descriptor 4 on the live list before descriptor 3. -/
def twoEntries : Loop :=
  { oneEntry with
    mem := Function.update oneEntry.mem 1 (some { next := some 0, fd := 4, eventCallback := some 0, entry := 1 })
    brk := 2, mainloopDataHead := some 1, entries := 2
    interest := Function.update oneEntry.interest 4 (some ⟨{}, some 1, 1⟩) }

theorem lists_twoEntries : Lists twoEntries [1, 0] [] := by
  have h : Lists oneEntry [0] [] :=
    lists_mainloopInit.push (.inr ⟨rfl, rfl, rfl, rfl⟩) rfl (by simp) rfl rfl rfl rfl
  exact h.push (.inr ⟨rfl, rfl, rfl, rfl⟩) rfl (by simp) rfl rfl rfl rfl

/-- The callback adds descriptor 5, and 4 is still right before 3. -/
theorem mainloop_remove_fd_iff_added : ∃ r l₁ l₂ ls, removeBegin epoll 3 {} twoEntries = .ok (.inr r, l₁) ∧ ls ≠ [] ∧
    Run step Orderly ⟨l₁, [.removal r]⟩ ls ⟨l₂, [.removal r]⟩ ∧ RemovesOnly twoEntries l₂ r := by
  let add : Label := .call (.addFd 5 {} (some 0) none 0) {}
  obtain ⟨r, l₁, hb, l₂, hs, hp⟩ : ∃ r l₁, removeBegin epoll 3 {} twoEntries = .ok (.inr r, l₁) ∧
      ∃ l₂, step ⟨l₁, [.removal r]⟩ add = some (.ok ⟨l₂, [.removal r]⟩) ∧ InPlace l₂ r :=
    ⟨_, _, rfl, _, rfl, .inr ⟨[2, 1, 0], 1, _, ⟨rfl, _, rfl, rfl, _, rfl, rfl, _, rfl, rfl⟩, by simp, rfl, rfl, rfl⟩⟩
  have hplace : Run step Reentrant ⟨l₁, [.removal r]⟩ [add] ⟨l₂, [.removal r]⟩ := .cons ⟨trivial, trivial⟩ hs .nil
  exact ⟨r, l₁, l₂, [add], hb, nofun, (mainloop_remove_fd_iff lists_twoEntries hb).2 ⟨hplace, hp⟩⟩

/-- The destroy callback of the only entry adds a descriptor: the entry is no longer at the head, and there is no `prev`. -/
theorem mainloop_remove_fd_null : ∃ m,
    Run step (fun _ _ => True) initial [.call (.addFd 3 { eventIn := true } (some 0) (some 1) 0) {}, .call (.removeFd 3) {},
      .call (.addFd 4 { eventIn := true } (some 0) none 0) {}] m ∧ step m .ret = some (.error .null) :=
  run_fault (by decide +kernel)

end MgStd.MainLoop
