import MgStd.MainLoop.Machine
/-!
# The lifetime of the nodes

Nodes move between the live list, the free list and the allocator.
`mainloop_quit` frees the free list and leaves `mainloop_free_head` as it is. The
runs in which nothing reaches freed memory through it, or through a batch of
events, are those in which no node is freed twice, read or linked after it was
freed.
-/

namespace MgStd.MainLoop

open MgStd.Lib

variable {l l' : Loop} {L L' F F' : List Nat} {x : Nat} {m m' : Machine} {label : Label}

/-! ## The property -/

/-- Where the loop keeps a link to a node. -/
inductive Place
  | head
  | freeHead
  | next (x : Nat)

def Loop.link (l : Loop) : Place → Ptr Nat
  | .head => l.mainloopDataHead
  | .freeHead => l.mainloopFreeHead
  | .next x => (l.mem x).bind MainloopData.next

def WasFreed (l : Loop) (a : Nat) : Prop := a < l.brk ∧ l.mem a = none

/-- What links to freed memory was there before. -/
def OldLinks (l l' : Loop) : Prop := ∀ place a, WasFreed l a → l'.link place = some a → l.link place = some a

/-- The step does not free a node twice, does not read or hand out a freed one (these are faults), and does not link one. -/
def NodeSafe (m : Machine) (label : Label) : Prop :=
  (∀ e, step m label ≠ some (.error e)) ∧ ∀ m', step m label = some (.ok m') → OldLinks m.loop m'.loop

/-! ## The condition -/

/-- The events of the batch that are still to be dispatched. -/
def pending (stack : List Frame) : List Ready :=
  stack.flatMap fun f => match f with
    | .dispatch rest => rest
    | _ => []

def Frame.final : Frame → Bool
  | .sweepDestroy .. => true
  | _ => false

/-- No step uses `mainloop_free_head` while it names a freed node; a quit leaves no event of the batch behind whose node it
frees; a removal unlinks a node that is at the head of the live list or somewhere behind `prev`; the destroy callbacks of
the final loop do not use the live list or add to it. -/
def NodeCond (m : Machine) : Label → Prop
  | .call op out =>
    (op.takes out → ¬ Stale m.loop) ∧
    (op = .quit → ¬ Stale m.loop ∧ ∀ F, Chain MainloopData.next m.loop.mem m.loop.mainloopFreeHead F →
      ∀ ev ∈ pending m.stack, ∀ p ∈ F, ev.data ≠ some p) ∧
    ((∃ f ∈ m.stack, f.final) → ¬ op.takes out ∧ ¬ op.walks m.loop out)
  | .ret => ∀ r stack, m.stack = .removal r :: stack → ¬ Stale m.loop ∧
      ∃ x L L', r.data = some x ∧ Chain MainloopData.next m.loop.mem m.loop.mainloopDataHead L ∧ Unlink x r.prev L L'
  | _ => True

/-! ## Links -/

theorem OldLinks.of_next (hm : ∀ y d', l'.mem y = some d' → ∃ d, l.mem y = some d ∧ d.next = d'.next)
    (hh : l'.mainloopDataHead = l.mainloopDataHead) (hf : l'.mainloopFreeHead = l.mainloopFreeHead) : OldLinks l l' := by
  intro place a _ hlink
  cases place with
  | head => rwa [Loop.link, hh] at hlink
  | freeHead => rwa [Loop.link, hf] at hlink
  | next y =>
    obtain ⟨d', hd', hn⟩ := Option.bind_eq_some_iff.1 hlink
    obtain ⟨d, hd, he⟩ := hm y d' hd'
    exact Option.bind_eq_some_iff.2 ⟨d, hd, he.trans hn⟩

/-- Lists over nodes that were in use, or are new, link nothing else. -/
theorem Lists.oldLinks (hl' : Lists l' L' F') (hL : ∀ y ∈ L', (∃ d, l.mem y = some d) ∨ l.brk ≤ y)
    (hF : ∀ y ∈ F', (∃ d, l.mem y = some d) ∨ l.brk ≤ y)
    (hrest : ∀ y, y ∉ L' → y ∉ F' → ∀ d', l'.mem y = some d' → d'.next = none ∨ l.mem y = some d') : OldLinks l l' := by
  have hused {a : Nat} (hfreed : WasFreed l a) : a ∉ L' ∧ a ∉ F' := by
    constructor <;> intro ha
    · rcases hL a ha with ⟨d, hd⟩ | hle
      · rw [hfreed.2] at hd; cases hd
      · exact Nat.not_lt.2 hle hfreed.1
    · rcases hF a ha with ⟨d, hd⟩ | hle
      · rw [hfreed.2] at hd; cases hd
      · exact Nat.not_lt.2 hle hfreed.1
  intro place a hfreed hlink
  obtain ⟨haL, haF⟩ := hused hfreed
  cases place with
  | head =>
    rw [Loop.link, Chain.head_eq hl'.live] at hlink
    exact absurd (List.mem_of_head? hlink) haL
  | freeHead =>
    rw [Loop.link, Chain.head_eq hl'.free] at hlink
    exact absurd (List.mem_of_head? hlink) haF
  | next y =>
    obtain ⟨d', hd', hn⟩ := Option.bind_eq_some_iff.1 hlink
    by_cases hyL : y ∈ L'
    · exact absurd (Chain.next_mem hl'.live hyL hd' hn) haL
    by_cases hyF : y ∈ F'
    · exact absurd (Chain.next_mem hl'.free hyF hd' hn) haF
    rcases hrest y hyL hyF d' hd' with hnull | hold
    · rw [hnull] at hn; cases hn
    · exact Option.bind_eq_some_iff.2 ⟨d', hold, hn⟩

/-! ## Memory in use -/

/-- What is in use stays in use, and what the block counter passed is in use. -/
structure Grows (l l' : Loop) : Prop where
  brk : l.brk ≤ l'.brk
  used : ∀ a d, l.mem a = some d → ∃ d', l'.mem a = some d'
  new : ∀ a, l.brk ≤ a → a < l'.brk → ∃ d', l'.mem a = some d'
  terminate : l'.mainloopTerminate = l.mainloopTerminate

theorem Grows.of_update {d : MainloopData} {p : Nat} (hm : l'.mem = Function.update l.mem p (some d))
    (hb : l.brk ≤ l'.brk) (hnew : ∀ a, l.brk ≤ a → a < l'.brk → a = p)
    (ht : l'.mainloopTerminate = l.mainloopTerminate) : Grows l l' := by
  refine ⟨hb, fun a d' hd' => ?_, fun a hle hlt => ?_, ht⟩
  · rw [hm]
    by_cases ha : a = p
    · exact ⟨d, by rw [ha, Function.update_self]⟩
    · exact ⟨d', by rw [Function.update_of_ne ha, hd']⟩
  · rw [hm, hnew a hle hlt]
    exact ⟨d, Function.update_self ..⟩

theorem Grows.of_mem (hm : l'.mem = l.mem) (hb : l'.brk = l.brk) (ht : l'.mainloopTerminate = l.mainloopTerminate) :
    Grows l l' := by
  refine ⟨hb ▸ Nat.le_refl _, fun a d hd => ⟨d, by rw [hm, hd]⟩, fun a hle hlt => ?_, ht⟩
  rw [hb] at hlt
  exact absurd hlt (Nat.not_lt.2 hle)

/-! ## What each function does to the memory in use -/

theorem Added.grows {type : MainloopDataType} {failed : Prop} (hl : Lists l L F) (ha : Added l F type failed l') :
    Grows l l' ∧ OldLinks l l' ∧ (∃ L' F', Lists l' L' F') ∧
      ∀ fd reg, l'.interest fd = some reg → l.interest fd = some reg ∨ ∃ p < l'.brk, reg.ptr = some p := by
  have hpicked {p : Nat} {F' : List Nat} {brk : Nat} (hp : Picked l F p F' brk) :
      (l.brk ≤ brk ∧ ∀ a, l.brk ≤ a → a < brk → a = p) ∧ ((∃ d, l.mem p = some d) ∨ l.brk ≤ p) ∧
        ∀ y ∈ F', (∃ d, l.mem y = some d) ∨ l.brk ≤ y := by
    rcases hp with ⟨rfl, rfl⟩ | ⟨rfl, rfl, rfl, rfl⟩
    · exact ⟨⟨Nat.le_refl _, fun a hle hlt => absurd hlt (Nat.not_lt.2 hle)⟩, .inl (Seg.alloc hl.free List.mem_cons_self),
        fun y hy => .inl (Seg.alloc hl.free (List.mem_cons_of_mem _ hy))⟩
    · exact ⟨⟨Nat.le_succ _, fun a hle hlt => by omega⟩, .inr (Nat.le_refl _), by simp⟩
  have hframe {p : Nat} (d : MainloopData) (y : Nat) (hy : y ≠ p) (d' : MainloopData)
      (hd' : Function.update l.mem p (some d) y = some d') : d'.next = none ∨ l.mem y = some d' :=
    .inr (by rwa [Function.update_of_ne hy] at hd')
  cases ha with
  | rejected interest timers _ hg hi =>
    refine ⟨.of_mem rfl rfl rfl, .of_next (fun y d hd => ⟨d, hd, rfl⟩) rfl rfl, ⟨L, F, hl.of_eq rfl rfl rfl rfl⟩, ?_⟩
    intro fd reg hreg
    rcases hi fd with h | h <;> simp only [h] at hreg
    · exact .inl hreg
    · cases hreg
  | lost p F' brk d interest timers hp he _ ht hty hn hi =>
    obtain ⟨⟨hb, hnew⟩, hpu, hF'⟩ := hpicked hp
    have hl' : Lists { l with
        mem := Function.update l.mem p (some d), brk, mainloopFreeHead := F'.head?, entries := l.entries + 1
        interest, timers } L F' := hl.take hp (by simp [ht, hty]) rfl rfl rfl rfl
    refine ⟨.of_update rfl hb hnew rfl, hl'.oldLinks (fun y hy => .inl (hl.alloc hy)) hF' fun y _ _ d' hd' => ?_,
      ⟨L, F', hl'⟩, ?_⟩
    · by_cases hy : y = p
      · simp only [hy, Function.update_self, Option.some.injEq] at hd'
        exact .inl (hd' ▸ hn)
      · exact hframe d y hy d' hd'
    · intro fd reg hreg
      rcases hi fd with h | h <;> simp only [h] at hreg
      · exact .inl hreg
      · cases hreg
  | registered p F' brk d ev timers hp he _ ht hn hfd hcb hi =>
    obtain ⟨⟨hb, hnew⟩, hpu, hF'⟩ := hpicked hp
    have hl' : Lists { l with
        mem := Function.update l.mem p (some d), brk, mainloopFreeHead := F'.head?, entries := l.entries + 1
        mainloopDataHead := some p, timers
        interest := Function.update l.interest d.fd (some ⟨ev, some p, l.entries⟩)
        log := l.log ++ [.added l.entries d.destroyCallback d.userData] } (p :: L) F' := hl.push hp hn hcb rfl rfl rfl rfl
    refine ⟨.of_update rfl hb hnew rfl, hl'.oldLinks ?_ hF' fun y hy _ d' hd' => ?_, ⟨p :: L, F', hl'⟩, ?_⟩
    · intro y hy
      rcases List.mem_cons.1 hy with rfl | hy
      · exact hpu
      · exact .inl (hl.alloc hy)
    · exact hframe d y (by rintro rfl; simp at hy) d' hd'
    · intro fd reg hreg
      by_cases hfd' : fd = d.fd
      · simp only [hfd', Function.update_self, Option.some.injEq] at hreg
        exact .inr ⟨p, (hp.fresh hl).2.2.2.2, hreg ▸ rfl⟩
      · exact .inl (by simpa only [Function.update_of_ne hfd'] using hreg)
  | unregistered p F' brk d hp he ht hn hfd hcb hf =>
    obtain ⟨⟨hb, hnew⟩, hpu, hF'⟩ := hpicked hp
    have hl' : Lists { l with
        mem := Function.update l.mem p (some d), brk, mainloopFreeHead := F'.head?, entries := l.entries + 1
        mainloopDataHead := some p } (p :: L) F' := hl.push hp hn hcb rfl rfl rfl rfl
    refine ⟨.of_update rfl hb hnew rfl, hl'.oldLinks ?_ hF' fun y hy _ d' hd' => ?_, ⟨p :: L, F', hl'⟩, fun fd reg hreg => .inl hreg⟩
    · intro y hy
      rcases List.mem_cons.1 hy with rfl | hy
      · exact hpu
      · exact .inl (hl.alloc hy)
    · exact hframe d y (by rintro rfl; simp at hy) d' hd'

theorem Begun.grows {fd : Int} {out : Outcome} {r : Removal} (hk : Kept l L) (hb : Begun l L fd out (.inr r) l') :
    Grows l l' ∧ OldLinks l l' ∧ Kept l' L ∧ ∀ fd reg, l'.interest fd = some reg → l.interest fd = some reg := by
  cases hb with
  | found X x Z d ret interest timers h0 hL hx hfd hX hdel hkeep =>
    refine ⟨.of_update rfl (Nat.le_refl _) (fun a hle hlt => absurd hlt (Nat.not_lt.2 hle)) rfl, .of_next ?_ rfl rfl, ?_, ?_⟩
    · intro y d' hd'
      by_cases hy : y = x
      · simp only [hy, Function.update_self, Option.some.injEq] at hd'
        exact ⟨d, hy ▸ hx, hd' ▸ d.closed_next.symm⟩
      · exact ⟨d', by simpa only [Function.update_of_ne hy] using hd', rfl⟩
    · exact hk.rewrite hx d.closed_next (MainloopData.closed_callable (hk.sound.callable x d hx)) rfl rfl rfl rfl
    · intro f reg hreg
      by_cases hf : DelFails l d out
      · rwa [hkeep hf] at hreg
      · simp only [hdel hf] at hreg
        by_cases hff : f = fd
        · rw [hff, Function.update_self] at hreg; cases hreg
        · rwa [Function.update_of_ne hff] at hreg

theorem Removed.grows {e : Nat} (hl : Lists l L F) (hx : x ∈ L) (hsub : ∀ y ∈ L', y ∈ L) (hr : Removed l x L' F e l') :
    Grows l l' ∧ OldLinks l l' ∧ l'.interest = l.interest := by
  obtain ⟨mem, hl'⟩ := hr.eq
  refine ⟨⟨Nat.le_of_eq (by rw [hl']), fun a d hd => ?_, fun a hle hlt => ?_, by rw [hl']⟩, hr.lists.oldLinks ?_ ?_ ?_, by rw [hl']⟩
  · obtain ⟨d', hd', -⟩ := entry_of_info hr.info hd
    exact ⟨d', hd'⟩
  · rw [hl'] at hlt
    exact absurd hlt (Nat.not_lt.2 hle)
  · exact fun y hy => .inl (hl.alloc (hsub y hy))
  · intro y hy
    rcases List.mem_cons.1 hy with rfl | hy
    · exact .inl (hl.alloc hx)
    · exact .inl (Seg.alloc hl.free hy)
  · intro y hyL hyF d' hd'
    rw [hr.frame y hyL (by rintro rfl; simp at hyF)] at hd'
    exact .inr hd'

/-! ## Before the final loop -/

/-- The stack before the final loop: callbacks over the program or over the loop of `epoll_run`. -/
def Outer : List Frame → Prop
  | [.program] => True
  | [.dispatch _] => True
  | .callback :: stack => Outer stack
  | .removal _ :: stack => Outer stack
  | _ => False

theorem Outer.dispatch {rest : List Ready} {stack : List Frame} (h : Outer (.dispatch rest :: stack)) : stack = [] := by
  cases stack with
  | nil => rfl
  | cons f stack => exact absurd h not_false

theorem Outer.program {stack : List Frame} (h : Outer (.program :: stack)) : stack = [] := by
  cases stack with
  | nil => rfl
  | cons f stack => exact absurd h not_false

/-- While nothing was freed, every block is in use; the nodes of pending events always are. -/
structure Working (m : Machine) (L : List Nat) : Prop where
  kept : Kept m.loop L
  outer : Outer m.stack
  pending : ∀ ev ∈ pending m.stack, ∃ p d, ev.data = some p ∧ m.loop.mem p = some d
  whole : m.loop.mainloopTerminate = false → (∀ a < m.loop.brk, ∃ d, m.loop.mem a = some d) ∧
    ∀ fd reg, m.loop.interest fd = some reg → ∃ p < m.loop.brk, reg.ptr = some p

theorem Working.grow (h : Working m L) (hk : Kept m'.loop L') (ho : Outer m'.stack) (hg : Grows m.loop m'.loop)
    (hi : ∀ fd reg, m'.loop.interest fd = some reg → m.loop.interest fd = some reg ∨ ∃ p < m'.loop.brk, reg.ptr = some p)
    (hp : ∀ ev ∈ MainLoop.pending m'.stack, ev ∈ MainLoop.pending m.stack) : Working m' L' := by
  refine ⟨hk, ho, fun ev hev => ?_, fun ht => ⟨fun a ha => ?_, fun fd reg hreg => ?_⟩⟩
  · obtain ⟨p, d, hp, hd⟩ := h.pending ev (hp ev hev)
    obtain ⟨d', hd'⟩ := hg.used p d hd
    exact ⟨p, d', hp, hd'⟩
  · rw [hg.terminate] at ht
    by_cases hlt : a < m.loop.brk
    · obtain ⟨d, hd⟩ := (h.whole ht).1 a hlt
      exact hg.used a d hd
    · exact hg.new a (Nat.not_lt.1 hlt) ha
  · rw [hg.terminate] at ht
    rcases hi fd reg hreg with hold | hnew
    · obtain ⟨p, hp, hptr⟩ := (h.whole ht).2 fd reg hold
      exact ⟨p, Nat.lt_of_lt_of_le hp hg.brk, hptr⟩
    · exact hnew

@[simp] theorem pending_removals (r : Option Removal) (stack : List Frame) :
    pending (r.toList.map .removal ++ stack) = pending stack := by
  cases r <;> simp [pending]

theorem pending_next {ev : Ready} {rest : List Ready} {ev' : Ready} {stack : List Frame}
    (h : ev' ∈ pending (.dispatch rest :: stack)) : ev' ∈ pending (.dispatch (ev :: rest) :: stack) := by
  simp only [pending, List.flatMap_cons, List.mem_append, List.mem_cons] at h ⊢
  exact h.imp_left .inr

theorem Working.call {f : Frame} {stack : List Frame} {op : Op} {out : Outcome} {r : Option Removal}
    (h : Working ⟨l, f :: stack⟩ L) (hh : Handled l L out op r l')
    (hq : op = .quit → ∀ F, Chain MainloopData.next l.mem l.mainloopFreeHead F →
      ∀ ev ∈ MainLoop.pending (f :: stack), ∀ p ∈ F, ev.data ≠ some p) :
    (∃ L', Working ⟨l', r.toList.map .removal ++ f :: stack⟩ L') ∧ OldLinks l l' := by
  cases hh with
  | idle interest timers hi =>
    refine ⟨⟨L, h.grow (h.kept.of_eq rfl rfl rfl rfl) h.outer (.of_mem rfl rfl rfl) ?_ fun _ hev => hev⟩,
      .of_next (fun y d hd => ⟨d, hd, rfl⟩) rfl rfl⟩
    intro fd reg hreg
    refine (hi fd reg hreg).imp_right ?_
    rintro ⟨x, hx, hptr⟩
    obtain ⟨d, hd⟩ := Seg.alloc h.kept.live hx
    exact ⟨x, h.kept.sound.below x d hd, hptr⟩
  | addFd F hl ha =>
    obtain ⟨hg, hold, ⟨L', F', hl'⟩, hi⟩ := ha.grows hl
    exact ⟨⟨L', h.grow (.inl ⟨F', hl'⟩) h.outer hg hi fun _ hev => hev⟩, hold⟩
  | addTimeout F hl ha =>
    obtain ⟨hg, hold, ⟨L', F', hl'⟩, hi⟩ := ha.grows hl
    exact ⟨⟨L', h.grow (.inl ⟨F', hl'⟩) h.outer hg hi fun _ hev => hev⟩, hold⟩
  | @begun fd r l' hb =>
    obtain ⟨hg, hold, hk, hi⟩ := hb.grows h.kept
    exact ⟨⟨L, h.grow hk h.outer hg (fun fd reg hreg => .inl (hi fd reg hreg)) fun _ hev => by simpa [MainLoop.pending] using hev⟩,
      hold⟩
  | quit F hl =>
    refine ⟨⟨L, hl.freed, h.outer, fun ev hev => ?_, nofun⟩, .of_next (fun y d hd => ⟨d, (freed_alloc hd).2, rfl⟩) rfl rfl⟩
    obtain ⟨p, d, hp, hd⟩ := h.pending ev hev
    exact ⟨p, d, hp, (if_neg fun hpF => hq rfl F hl.free ev hev p hpF hp).trans hd⟩

/-! ## The final loop -/

/-- The rest of the live list, next to a free list or to what is left of one. -/
structure Sweeping (l : Loop) (p : Ptr Nat) (S : List Nat) : Prop where
  sound : Sound l
  chain : Chain MainloopData.next l.mem p S
  free : (∃ F, Chain MainloopData.next l.mem l.mainloopFreeHead F ∧ ∀ x ∈ S, x ∉ F) ∨ Stale l

inductive NodeInv : Machine → Prop
  | working {m : Machine} {L : List Nat} (h : Working m L) : NodeInv m
  | sweep {l : Loop} {p : Ptr Nat} {S : List Nat} (h : Sweeping l p S) : NodeInv ⟨l, [.sweep p]⟩
  | destroy {l : Loop} {x : Nat} {d : MainloopData} {cb : Callback} {S : List Nat} (h : Sweeping l (some x) (x :: S))
      (hd : l.mem x = some d) : NodeInv ⟨l, [.sweepDestroy (some x) d.next cb]⟩
  | done {l : Loop} : NodeInv ⟨l, []⟩

theorem Kept.sweeping (hk : Kept l L) : Sweeping l l.mainloopDataHead L := by
  refine ⟨hk.sound, hk.live, ?_⟩
  rcases hk with ⟨F, hl⟩ | ⟨-, -, hst⟩
  · exact .inl ⟨F, hl.free, hl.disjoint⟩
  · exact .inr hst

/-- Only the kernel's side and the log change. -/
theorem Sweeping.of_eq {p : Ptr Nat} {S : List Nat} (h : Sweeping l p S) (hm : l'.mem = l.mem) (hb : l'.brk = l.brk)
    (hf : l'.mainloopFreeHead = l.mainloopFreeHead) : Sweeping l' p S := by
  refine ⟨⟨by rw [hm, hb]; exact h.sound.below, by rw [hm]; exact h.sound.callable⟩, by rw [hm]; exact h.chain, ?_⟩
  rw [hm, hf, Stale, hm, hf]
  exact h.free

theorem Sweeping.quit {p : Ptr Nat} {S : List Nat} (h : Sweeping l p S) (hc : Chain MainloopData.next l.mem l.mainloopFreeHead F)
    (hS : ∀ x ∈ S, x ∉ F) : Sweeping { l with mem := freed l.mem F, mainloopTerminate := true } p S := by
  refine ⟨⟨fun x d hx => h.sound.below x d (freed_alloc hx).2, fun x d hx => h.sound.callable x d (freed_alloc hx).2⟩,
    Seg.frame h.chain fun x hx => if_neg (hS x hx), ?_⟩
  cases F with
  | nil => exact .inl ⟨[], hc, by simp⟩
  | cons f F => exact .inr ⟨f, hc.1, if_pos List.mem_cons_self⟩

theorem alloc_of_free {y : Nat} {d : MainloopData} (hy : Function.update l.mem x none y = some d) : l.mem y = some d := by
  by_cases hyx : y = x
  · rw [hyx, Function.update_self] at hy; cases hy
  · rwa [Function.update_of_ne hyx] at hy

theorem Sweeping.free_node {d : MainloopData} {S : List Nat} (h : Sweeping l (some x) (x :: S)) (hd : l.mem x = some d) :
    Sweeping { l with mem := Function.update l.mem x none } d.next S := by
  have hnd := Chain.nodup h.chain
  obtain ⟨-, d', hd', hS⟩ := h.chain
  obtain rfl : d = d' := by simpa [hd] using hd'
  refine ⟨⟨fun y dy hy => h.sound.below y dy (alloc_of_free hy), fun y dy hy => h.sound.callable y dy (alloc_of_free hy)⟩,
    Seg.update hS (List.nodup_cons.1 hnd).1 _, ?_⟩
  rcases h.free with ⟨F, hF, hdis⟩ | ⟨f, hf, hfm⟩
  · exact .inl ⟨F, Seg.update hF (hdis x List.mem_cons_self) _, fun y hy => hdis y (List.mem_cons_of_mem _ hy)⟩
  · refine .inr ⟨f, hf, ?_⟩
    change Function.update l.mem x none f = none
    by_cases hfx : f = x
    · rw [hfx, Function.update_self]
    · rw [Function.update_of_ne hfx, hfm]

/-- A call from a destroy callback of the final loop. -/
theorem Sweeping.returns_exec {p : Ptr Nat} {S : List Nat} {op : Op} {out : Outcome} (h : Sweeping l p S)
    (htk : ¬ op.takes out) (hw : ¬ op.walks l out) (hq : op = .quit → ¬ Stale l) :
    Returns (op.exec out) l fun r l' => r = none ∧ Sweeping l' p S ∧ OldLinks l l' ∧ ∀ x ∈ S, l'.mem x = l.mem x := by
  by_cases hop : op = .quit
  · subst hop
    obtain ⟨F, hF, hdis⟩ := h.free.resolve_right (hq rfl)
    refine (returns_mainloopQuit hF h.sound.below).bind fun _ l' hl' => (returns_pure _ _ _).2 ⟨rfl, ?_⟩
    subst hl'
    exact ⟨h.quit hF hdis, .of_next (fun y d hd => ⟨d, (freed_alloc hd).2, rfl⟩) rfl rfl, fun x hx => if_neg (hdis x hx)⟩
  · refine (returns_exec_idle htk hw hop).mono ?_
    rintro _ _ ⟨rfl, interest, timers, rfl, -⟩
    exact ⟨rfl, h.of_eq rfl rfl rfl, .of_next (fun y d hd => ⟨d, hd, rfl⟩) rfl rfl, fun _ _ => rfl⟩

/-! ## Every step -/

/-- The removal finds its node behind `prev` or at the head. -/
theorem Working.removes {r : Removal} {stack : List Frame} (h : Working ⟨l, .removal r :: stack⟩ L)
    (hc : NodeCond ⟨l, .removal r :: stack⟩ .ret) : ∃ F x L', Lists l L F ∧ r.data = some x ∧ Unlink x r.prev L L' := by
  obtain ⟨hst, x, L₁, L', hx, hL₁, hu⟩ := hc r stack rfl
  obtain ⟨F, hl⟩ := h.kept.lists hst
  obtain rfl : L₁ = L := Chain.unique hL₁ hl.live
  exact ⟨F, x, L', hl, hx, hu⟩

theorem NodeInv.no_fault (h : NodeInv m) (hc : NodeCond m label) (e : Fault) : step m label ≠ some (.error e) := by
  intro hs
  cases step_error_cases hs with
  | call hf he =>
    cases h with
    | working h => exact not_returns_of_error he _ (returns_exec_kept h.kept hc.1 fun hq => (hc.2.1 hq).1)
    | sweep => cases hf
    | destroy h =>
      obtain ⟨htk, hw⟩ := hc.2.2 ⟨_, List.mem_cons_self, rfl⟩
      exact not_returns_of_error he _ (h.returns_exec htk hw fun hq => (hc.2.1 hq).1)
  | removed he =>
    cases h with
    | working h =>
      obtain ⟨F, x, L', hl, hx, hu⟩ := h.removes hc
      exact not_returns_of_error he _ (returns_removeEnd hl hx hu)
  | swept he =>
    cases h with
    | working h => exact h.outer
    | destroy h hd => exact not_returns_of_error he _ (returns_mainloopFree hd)
  | dispatch he =>
    cases h with
    | working h =>
      obtain ⟨p, d, hp, hd⟩ := h.pending _ List.mem_cons_self
      exact not_returns_of_error he _ (returns_dispatchEvent h.kept.sound hp hd _)
  | sweep he =>
    cases h with
    | working h => exact h.outer
    | sweep h =>
      obtain ⟨d, S, hd, -⟩ := chain_some.1 h.chain
      exact not_returns_of_error he _ (returns_sweepBegin hd)

theorem NodeInv.step (h : NodeInv m) (hc : NodeCond m label) (hs : step m label = some (.ok m')) :
    NodeInv m' ∧ OldLinks m.loop m'.loop := by
  have hsame : OldLinks m.loop m.loop := fun _ _ _ h => h
  cases step_cases hs with
  | call hf ho he =>
    cases h with
    | working h =>
      have hh := (returns_exec_kept h.kept hc.1 fun hq => (hc.2.1 hq).1).of_eq he
      obtain ⟨⟨L', hw⟩, hold⟩ := h.call hh fun hq => (hc.2.1 hq).2
      exact ⟨.working hw, hold⟩
    | sweep => cases hf
    | destroy h hd =>
      obtain ⟨htk, hw⟩ := hc.2.2 ⟨_, List.mem_cons_self, rfl⟩
      obtain ⟨rfl, hsw, hold, hmem⟩ := (h.returns_exec htk hw fun hq => (hc.2.1 hq).1).of_eq he
      exact ⟨.destroy hsw ((hmem _ List.mem_cons_self).trans hd), hold⟩
  | @close l f stack fd hf =>
    have hold : OldLinks l { l with
        timers := Function.update l.timers fd none, interest := Function.update l.interest fd none } :=
      .of_next (fun y d hd => ⟨d, hd, rfl⟩) rfl rfl
    cases h with
    | working h =>
      refine ⟨.working (h.grow (h.kept.of_eq rfl rfl rfl rfl) h.outer (.of_mem rfl rfl rfl) ?_ fun _ hev => hev), hold⟩
      intro f reg hreg
      by_cases hff : f = fd
      · simp [hff] at hreg
      · exact .inl (by simpa only [Function.update_of_ne hff] using hreg)
    | sweep => cases hf
    | destroy h hd => exact ⟨.destroy (h.of_eq rfl rfl rfl) hd, hold⟩
  | returned =>
    cases h with
    | working h => exact ⟨.working (h.grow h.kept h.outer (.of_mem rfl rfl rfl) (fun _ _ => .inl) fun _ hev => hev), hsame⟩
  | removed he =>
    cases h with
    | working h =>
      obtain ⟨F, x, L', hl, hx, hu⟩ := h.removes hc
      have hr := (returns_removeEnd hl hx hu).of_eq he
      obtain ⟨hg, hold, hi⟩ := hr.grows hl (hu.not_mem hl.live.nodup).1 hu.subset
      exact ⟨.working (h.grow (.inl ⟨_, hr.lists⟩) h.outer hg (fun fd reg hreg => .inl (hi ▸ hreg)) fun _ hev => hev), hold⟩
  | swept he =>
    cases h with
    | working h => exact absurd h.outer not_false
    | destroy h hd =>
      have hl' := (returns_mainloopFree hd).of_eq he
      subst hl'
      exact ⟨.sweep (h.free_node hd), .of_next (fun y d' hd' => ⟨d', alloc_of_free hd', rfl⟩) rfl rfl⟩
  | run =>
    cases h with
    | working h =>
      obtain rfl := h.outer.program
      exact ⟨.working (h.grow h.kept trivial (.of_mem rfl rfl rfl) (fun _ _ => .inl) fun _ hev => hev), hsame⟩
  | wait ht hr =>
    cases h with
    | working h =>
      obtain rfl := h.outer.dispatch
      refine ⟨.working ⟨h.kept, trivial, fun ev hev => ?_, h.whole⟩, hsame⟩
      obtain ⟨fd, reg, hreg, hdata, -⟩ := mem_batch (by simpa [pending] using hev)
      obtain ⟨p, hp, hptr⟩ := (h.whole ht).2 fd reg hreg
      obtain ⟨d, hd⟩ := (h.whole ht).1 p hp
      exact ⟨p, d, hdata.trans hptr, hd⟩
  | called he =>
    cases h with
    | working h =>
      obtain rfl := h.outer.dispatch
      obtain ⟨p, d, -, -, -, rfl⟩ := dispatchEvent_called h.kept.sound he
      exact ⟨.working (h.grow (h.kept.of_eq rfl rfl rfl rfl) trivial (.of_mem rfl rfl rfl) (fun _ _ => .inl)
        fun _ hev => pending_next hev), hsame⟩
  | passed he =>
    cases h with
    | working h =>
      obtain rfl := h.outer.dispatch
      obtain rfl := dispatchEvent_passed h.kept.sound he
      exact ⟨.working (h.grow h.kept trivial (.of_mem rfl rfl rfl) (fun _ _ => .inl) fun _ hev => pending_next hev), hsame⟩
  | finish ht =>
    cases h with
    | working h =>
      obtain rfl := h.outer.dispatch
      exact ⟨.sweep h.kept.sweeping, hsame⟩
  | done =>
    cases h with
    | working h => exact absurd h.outer not_false
    | sweep h => exact ⟨.done, hsame⟩
  | sweep he =>
    cases h with
    | working h => exact absurd h.outer not_false
    | sweep h =>
      obtain ⟨d, S, hd, rfl, hS⟩ := chain_some.1 h.chain
      obtain ⟨hr, interest, timers, rfl⟩ := (returns_sweepBegin hd).of_eq he
      cases hr
      exact ⟨.destroy (h.of_eq rfl rfl rfl) hd, .of_next (fun y d hd => ⟨d, hd, rfl⟩) rfl rfl⟩

theorem nodeInv_initial : NodeInv initial :=
  .working ⟨.inl ⟨[], lists_mainloopInit⟩, trivial, by simp [pending, initial], fun _ => ⟨by simp [initial, mainloopInit], nofun⟩⟩

/-- In every run of the main loop whose steps meet the condition, every next step that meets it frees no node a second
time, and neither reads, hands out nor links a node that was freed. -/
theorem mainloop_node_lifetime {ls : List Label} (h : Run step NodeCond initial ls m) (hc : NodeCond m label) :
    NodeSafe m label := by
  have hi : NodeInv m := h.inv NodeInv nodeInv_initial fun _ _ _ hi hc hs => (hi.step hc hs).1
  exact ⟨hi.no_fault hc, fun m' hs => (hi.step hc hs).2⟩

instance (l : Loop) : Decidable (Stale l) := inferInstanceAs (Decidable (∃ f ∈ l.mainloopFreeHead, l.mem f = none))

instance (l : Loop) (a : Nat) : Decidable (WasFreed l a) := inferInstanceAs (Decidable (_ ∧ _))

/-- A check of the condition, for calls when the batch is at its end, and for removals of the head of the live list. -/
def nodeCheck (m : Machine) : Label → Bool
  | .call _ _ => decide (¬ Stale m.loop) && (pending m.stack).isEmpty && m.stack.all fun f => !f.final
  | .ret => match m.stack with
    | .removal r :: _ => decide (¬ Stale m.loop) && r.data.isSome && m.loop.mainloopDataHead == r.data
    | _ => true
  | _ => true

theorem nodeCond_of_check (hi : NodeInv m) (h : nodeCheck m label = true) : NodeCond m label := by
  cases label with
  | call op out =>
    simp only [nodeCheck, Bool.and_eq_true, decide_eq_true_eq, List.isEmpty_iff, List.all_eq_true, Bool.not_eq_true'] at h
    obtain ⟨⟨hs, hbatch⟩, hstack⟩ := h
    refine ⟨fun _ => hs, fun _ => ⟨hs, fun F _ ev hev => ?_⟩, fun ⟨f, hf, hfin⟩ => ?_⟩
    · rw [hbatch] at hev
      cases hev
    · rw [hstack f hf] at hfin
      cases hfin
  | ret =>
    intro r stack hr
    simp only [nodeCheck, hr, Bool.and_eq_true, decide_eq_true_eq, beq_iff_eq] at h
    obtain ⟨⟨hs, hsome⟩, hhead⟩ := h
    obtain ⟨x, hx⟩ := Option.isSome_iff_exists.1 hsome
    refine ⟨hs, ?_⟩
    cases hi with
    | working hw =>
      -- the node to remove is the first of the live list, so the head of the list is unlinked
      have hlive := hw.kept.live
      have hfirst := hlive.head_eq
      rw [hhead, hx] at hfirst
      obtain ⟨Z, rfl⟩ := List.head?_eq_some_iff.1 hfirst.symm
      exact ⟨x, _, Z, hx, hlive, .head Z⟩
    | sweep => cases hr
    | destroy => cases hr
    | done => cases hr
  | _ => trivial

theorem run_of_nodeCheck {ls : List Label} (h : exec step nodeCheck initial ls = some m) : Run step NodeCond initial ls m := by
  have hrun : Run step (fun m label => nodeCheck m label = true) initial ls m := run_of_exec (fun _ _ hc => hc) h
  refine (hrun.mono_inv NodeInv nodeInv_initial ?_ ?_).1
  · exact fun _ _ hi hc => nodeCond_of_check hi hc
  · exact fun _ _ _ hi _ hc hs => (hi.step hc hs).1

/-- The node of descriptor 3 is taken again for 5, given back in a callback of 4 and freed by a quit there. The final loop
then frees the node of 4. -/
theorem mainloop_node_lifetime_reuse : ∃ m,
    Run step NodeCond initial [.call (.addFd 4 {} (some 0) none 0) {}, .call (.addFd 3 {} (some 0) none 0) {},
      .call (.removeFd 3) {}, .ret, .call (.addFd 5 {} (some 0) none 0) {}, .run, .wait [(4, { epollin := true })], .next false,
      .call (.removeFd 5) {}, .ret, .call .quit {}, .ret, .sweep, .sweep] m ∧
    WasFreed m.loop 1 ∧ m.stack = [.sweepDestroy (some 0) none none] ∧ NodeSafe m .ret := by
  have hexec : (exec step nodeCheck initial [.call (.addFd 4 {} (some 0) none 0) {}, .call (.addFd 3 {} (some 0) none 0) {},
      .call (.removeFd 3) {}, .ret, .call (.addFd 5 {} (some 0) none 0) {}, .run, .wait [(4, { epollin := true })], .next false,
      .call (.removeFd 5) {}, .ret, .call .quit {}, .ret, .sweep, .sweep]).map
        (fun m => (m.stack, decide (WasFreed m.loop 1))) = some ([.sweepDestroy (some 0) none none], true) := by decide +kernel
  obtain ⟨m, hm, heq⟩ := Option.map_eq_some_iff.1 hexec
  obtain ⟨hstack, hfreed⟩ := Prod.mk.inj heq
  have hrun := run_of_nodeCheck hm
  have hc : NodeCond m .ret := by
    intro r stack hr
    rw [hstack] at hr
    cases hr
  exact ⟨m, hrun, of_decide_eq_true hfreed, hstack, mainloop_node_lifetime hrun hc⟩

/-- One callback removes the only entry and quits twice: the second quit frees its node again. -/
theorem mainloop_quit_twice : ∃ m,
    Run step (fun _ _ => True) initial [.call (.addFd 3 { eventIn := true } (some 0) none 0) {}, .run,
      .wait [(3, { epollin := true })], .next false, .call (.removeFd 3) {}, .ret, .call .quit {}] m ∧
    step m (.call .quit {}) = some (.error .dangling) :=
  run_fault (by decide +kernel)

end MgStd.MainLoop
