import Mathlib.Algebra.GroupWithZero.Nat
import MgStd.Mglist.Cut
/-!
# Loops that are safe against removal

The body of a safe loop may take its element off the list, and the memory of
the element may then be used for something else. The loop has read where to go
on before. `Deed` is what a body does with its element; the rings afterwards are
those that the deeds make of the sequences.
-/

namespace MgStd.Mglist

open MgStd.Lib List

variable {A : Type} {m m' : Mem A} {L : Lists A} {head x : A} {ms todo kept : List A}

/-! ## Walks -/

/-- `link` leads from record to record as `f` does, which on a ring is in the order that `view` gives its elements. -/
structure Walk {P : Type} (link : P → Prog (Mem A) P) (node : P → Ptr A) (f : Mem A → A → Ptr A) (view : List A → List A) :
    Prop where
  link : ∀ p a m, node p = some a → m.alloc a = true → Returns (link p) m fun q m' => node q = f m a ∧ m' = m
  pass : ∀ m (L : Lists A) head ms, Rep m L → L head = some ms →
    IsChain (fun x y => f m x = some y) (head :: (view ms ++ [head]))
  filter : ∀ p ms, view (ms.filter p) = (view ms).filter p
  perm : ∀ ms, (view ms).Perm ms

theorem walk_next : Walk (A := A) nextOf id (fun m => m.next) id where
  link p a m hp ha := by
    obtain rfl : p = some a := hp
    exact (returns_nextOf _).2 ⟨ha, rfl, rfl⟩
  pass m L head ms hr hL := (hr.passes hL).1
  filter p ms := rfl
  perm ms := .refl ms

theorem walk_prev : Walk (A := A) prevOf id (fun m => m.prev) reverse where
  link p a m hp ha := by
    obtain rfl : p = some a := hp
    exact (returns_prevOf _).2 ⟨ha, rfl, rfl⟩
  pass m L head ms hr hL := (hr.passes hL).2
  filter p ms := (filter_reverse).symm
  perm ms := reverse_perm ms

section
variable {P : Type} (c : Container A P)

theorem walk_nextEntry : Walk (mglistNextEntry c) c.member (fun m => m.next) id where
  link p a m hp ha := by
    unfold mglistNextEntry
    rw [hp, returns_bind, returns_nextOf, returns_pure]
    exact ⟨ha, c.member_entry _, rfl⟩
  pass := walk_next.pass
  filter := walk_next.filter
  perm := walk_next.perm

theorem walk_prevEntry : Walk (mglistPrevEntry c) c.member (fun m => m.prev) reverse where
  link p a m hp ha := by
    unfold mglistPrevEntry
    rw [hp, returns_bind, returns_prevOf, returns_pure]
    exact ⟨ha, c.member_entry _, rfl⟩
  pass := walk_prev.pass
  filter := walk_prev.filter
  perm := walk_prev.perm

end

section
variable {P : Type} {link : P → Prog (Mem A) P} {node : P → Ptr A} {f : Mem A → A → Ptr A} {view : List A → List A}

/-- Behind an element comes what is left of the walk, and the head. -/
theorem Walk.next (w : Walk link node f view) (hr : Rep m L) (hL : L head = some ms) (hview : view ms = kept ++ x :: todo) :
    f m x = (todo ++ [head]).head? := by
  have hpass := w.pass m L head ms hr hL
  rw [hview, append_assoc, ← cons_append, isChain_append] at hpass
  exact passes_head hpass.2.1

theorem Walk.first (w : Walk link node f view) (hr : Rep m L) (hL : L head = some ms) :
    f m head = (view ms ++ [head]).head? := passes_head (w.pass m L head ms hr hL)

/-- From a cursor at the first of the elements that are still to come, a link leads to the second; from the head it only returns. -/
theorem Walk.returns_link (w : Walk link node f view) {n : P} (hr : Rep m L) (hL : L head = some ms)
    (hview : view ms = kept ++ todo) (hn : node n = (todo ++ [head]).head?) :
    Returns (link n) m fun n' m' => (todo ≠ [] → node n' = (todo.tail ++ [head]).head?) ∧ m' = m := by
  cases todo with
  | nil =>
    refine (w.link n head m hn (hr.alloc _ _ hL head mem_cons_self)).mono fun n' m' h => ?_
    exact ⟨fun hne => absurd rfl hne, h.2⟩
  | cons x todo =>
    have hx : x ∈ ms := (w.perm ms).mem_iff.1 (by rw [hview]; simp)
    refine (w.link n x m hn (hr.alloc _ _ hL x (mem_cons_of_mem head hx))).mono fun n' m' h => ?_
    exact ⟨fun _ => h.1.trans (w.next hr hL hview), h.2⟩

end

variable [DecidableEq A]

/-! ## Bodies -/

/-- What comes to be in the memory of an element that is not on a list any more. -/
structure Reuse (A : Type) where
  alloc : Bool
  prev : Ptr A
  next : Ptr A
  deriving DecidableEq

def reuse (p : Ptr A) (r : Reuse A) : Prog (Mem A) Unit := do
  let a ← record p
  modify fun m => ⟨Function.update m.alloc a r.alloc, Function.update m.prev a r.prev, Function.update m.next a r.next⟩

inductive Deed (A : Type)
  | leave
  | del (after : Option (Reuse A))
  | delInit (after : Option (Reuse A))
  | move (head : A)
  | moveTail (head : A)
  deriving DecidableEq

def Deed.exec (p : Ptr A) : Deed A → Prog (Mem A) Unit
  | .leave => pure ()
  | .del after => do
    mglistDel p
    if let some r := after then reuse p r
  | .delInit after => do
    mglistDelInit p
    if let some r := after then reuse p r
  | .move head => mglistMove p (some head)
  | .moveTail head => mglistMoveTail p (some head)

/-- A body that looks at the memory and its element, and decides. -/
def act (deed : Mem A → Ptr A → Deed A) (p : Ptr A) : Prog (Mem A) (Deed A) := do
  let d := deed (← get) p
  d.exec p
  pure d

/-- Elements go to lists other than that of `head`. -/
def Deed.Elsewhere (L : Lists A) (head : A) : Deed A → Prop
  | .leave | .del _ | .delInit _ => True
  | .move other | .moveTail other => other ≠ head ∧ IsHead L other

def Deed.apply (L : Lists A) (a : A) : Deed A → Lists A
  | .leave => L
  | .del _ | .delInit _ => remove L a
  | .move other => setList (remove L a) other (a :: ·)
  | .moveTail other => setList (remove L a) other (· ++ [a])

variable {d : Deed A} {deed : Mem A → Ptr A → Deed A} {other : A}

theorem Rep.reuse (hr : Rep m L) (hx : ∀ h, ¬ On L x h) (ha : m.alloc x = true) (after : Option (Reuse A)) :
    Returns (if let some r := after then Mglist.reuse (some x) r else pure ()) m fun _ m' => Rep m' L := by
  cases after with
  | none => exact (returns_pure _ _ _).2 hr
  | some r =>
    unfold Mglist.reuse
    simp only [returns_bind, returns_record, returns_modify]
    refine ⟨ha, hr.write_free hx fun a hne => ?_⟩
    exact ⟨Function.update_of_ne hne _ _, Function.update_of_ne hne _ _, Function.update_of_ne hne _ _⟩

theorem Rep.execDeed (hr : Rep m L) (hx : Member L x) (hd : d.Elsewhere L head) :
    Returns (d.exec (some x)) m fun _ m' => Rep m' (d.apply L x) := by
  have hout : ∀ h, ¬ On (remove L x) x h := fun h => hr.not_on_remove hx
  cases d with
  | leave => exact (returns_pure _ _ _).2 hr
  | del after =>
    refine (hr.del hx).bind fun _ m₁ h => ?_
    exact h.1.reuse hout (h.2 ▸ hr.alloc_member hx) after
  | delInit after =>
    refine (hr.delInit hx).bind fun _ m₁ h => ?_
    have hrep : Rep m₁ (remove L x) := by
      refine h.1.sub fun h' ks hks => ?_
      have hne : h' ≠ x := by
        rintro rfl
        rw [remove_none (hr.member_not_head hx)] at hks
        cases hks
      rwa [Function.update_of_ne hne]
    exact hrep.reuse hout (h.2 ▸ hr.alloc_member hx) after
  | move other =>
    obtain ⟨-, ks, hks⟩ := hd
    exact (hr.move hx hks).mono fun _ m₁ h => h.1
  | moveTail other =>
    obtain ⟨-, ks, hks⟩ := hd
    exact (hr.moveTail hx hks).mono fun _ m₁ h => h.1

theorem Deed.apply_head (hL : L head = some ms) (hd : d.Elsewhere L head) (x : A) :
    d.apply L x head = some (if d = .leave then ms else ms.erase x) := by
  have hremove : remove L x head = some (ms.erase x) := remove_some hL
  cases d with
  | leave => exact hL
  | del after => exact hremove
  | delInit after => exact hremove
  | move other =>
    have hset := Function.update_of_ne hd.1.symm ((remove L x other).map (x :: ·)) (remove L x)
    exact hset.trans hremove
  | moveTail other =>
    have hset := Function.update_of_ne hd.1.symm ((remove L x other).map (· ++ [x])) (remove L x)
    exact hset.trans hremove

theorem Deed.isHead_apply (h : IsHead L other) (d : Deed A) (x : A) : IsHead (d.apply L x) other := by
  have hremove : ∀ h, IsHead L h → IsHead (remove L x) h := fun h ⟨ks, hks⟩ => ⟨_, remove_some hks⟩
  have hset : ∀ (K : Lists A) (h : A) (f : List A → List A), IsHead K other → IsHead (setList K h f) other := by
    rintro K h f ⟨ks, hks⟩
    by_cases he : other = h
    · subst he
      exact ⟨f ks, by rw [setList_eq hks, Function.update_self]⟩
    · exact ⟨ks, by rw [setList, Function.update_of_ne he, hks]⟩
  cases d with
  | leave => exact h
  | del after => exact hremove _ h
  | delInit after => exact hremove _ h
  | move other' => exact hset _ _ _ (hremove _ h)
  | moveTail other' => exact hset _ _ _ (hremove _ h)

theorem Deed.Elsewhere.apply (h : d.Elsewhere L head) (d' : Deed A) (x : A) : d.Elsewhere (d'.apply L x) head := by
  cases d with
  | leave => trivial
  | del after => trivial
  | delInit after => trivial
  | move other => exact ⟨h.1, Deed.isHead_apply h.2 d' x⟩
  | moveTail other => exact ⟨h.1, Deed.isHead_apply h.2 d' x⟩

/-! ## Rounds -/

section
variable {P : Type} {link : P → Prog (Mem A) P} {node : P → Ptr A} {f : Mem A → A → Ptr A} {view : List A → List A}

/-- A deed on the element that is next leaves the others in order. -/
theorem Walk.view_apply (w : Walk link node f view) (hr : Rep m L) (hL : L head = some ms)
    (hview : view ms = kept ++ x :: todo) (hd : d.Elsewhere L head) :
    ∃ ms' kept', d.apply L x head = some ms' ∧ view ms' = kept' ++ todo := by
  refine ⟨_, if d = .leave then kept ++ [x] else kept, Deed.apply_head hL hd x, ?_⟩
  split
  · rw [hview, ← append_cons]
  · have hnd : ms.Nodup := (nodup_cons.1 (hr.nodup _ _ hL)).2
    have hndv : (kept ++ x :: todo).Nodup := hview ▸ (w.perm ms).nodup_iff.2 hnd
    have hx : x ∉ kept := fun hx => (nodup_append.1 hndv).2.2 x hx x mem_cons_self rfl
    rw [hnd.erase_eq_filter, w.filter, hview, ← hndv.erase_eq_filter, erase_append_right _ hx, erase_cons_head]

/-- The events from the first body on, of elements and what was done with them. -/
def safeEvents (head : A) : List (A × Deed A) → List (Event A (Deed A))
  | [] => []
  | (a, d) :: ds => .body (some a) d :: .read (ds.map Prod.fst ++ [head]).head? :: safeEvents head ds

/-- The lists after deeds. -/
def applyAll (L : Lists A) (ds : List (A × Deed A)) : Lists A := ds.foldl (fun L ad => ad.2.apply L ad.1) L

theorem returns_safeRound {β : Type} {body : P → Prog (Mem A) β} {head : Ptr A} {pos n : P} {events : List (Event A β)}
    (Q : (P × P × List (Event A β)) ⊕ List (Event A β) → Mem A → Prop) :
    Returns (safeRound link node head body (pos, n, events)) m Q ↔ (node pos = head → Q (.inr events) m) ∧
      (node pos ≠ head → Returns (body pos) m fun b m₁ => Returns (link n) m₁ fun q m₂ =>
        Q (.inl (n, q, events ++ [.body (node pos) b, .read (node n)])) m₂) := by
  unfold safeRound
  simp

/-- The rounds on the elements that are still to come, `todo`; `pos` is at the first of them, `n` at the second. -/
theorem Walk.returns_rounds (w : Walk link node f view) :
    ∀ {m : Mem A} {L : Lists A} {ms kept : List A} {pos n : P} {events : List (Event A (Deed A))} {fuel : Nat},
    Rep m L → L head = some ms → view ms = kept ++ todo → node pos = (todo ++ [head]).head? →
    (todo ≠ [] → node n = (todo.tail ++ [head]).head?) → (∀ m p, (deed m p).Elsewhere L head) → todo.length < fuel →
    Returns (loop (safeRound link node (some head) fun p => act deed (node p)) fuel (pos, n, events)) m fun log m' =>
      ∃ ds, ds.map Prod.fst = todo ∧ (∀ ad ∈ ds, ∃ m p, ad.2 = deed m p) ∧ log = events ++ safeEvents head ds ∧
        Rep m' (applyAll L ds) := by
  induction todo with
  | nil =>
    intro m L ms kept pos n events fuel hr hL hview hpos hn hdeed hf
    obtain ⟨fuel, rfl⟩ := Nat.exists_eq_add_of_lt hf
    rw [returns_loop_succ, returns_safeRound]
    exact ⟨fun _ => ⟨[], rfl, nofun, (append_nil events).symm, hr⟩, fun hne => absurd hpos hne⟩
  | cons x todo ih =>
    intro m L ms kept pos n events fuel hr hL hview hpos hn hdeed hf
    obtain ⟨fuel, rfl⟩ : ∃ k, fuel = k + 1 := ⟨fuel - 1, by omega⟩
    have hin : x ∈ ms := (w.perm ms).mem_iff.1 (by rw [hview]; simp)
    have hnode : node pos = some x := hpos
    have hsaved := hn (cons_ne_nil x todo)
    rw [tail_cons] at hsaved
    rw [returns_loop_succ, returns_safeRound, hnode]
    refine ⟨fun he => absurd (Option.some.inj he) fun e => head_notMem hr hL (e ▸ hin), fun _ => ?_⟩
    unfold act
    rw [returns_bind, returns_get, returns_bind]
    refine (hr.execDeed ⟨head, ms, hL, hin⟩ (hdeed m (some x))).mono fun _ m₁ hr₁ => ?_
    rw [returns_pure]
    obtain ⟨ms₁, kept₁, hL₁, hview₁⟩ := w.view_apply hr hL hview (hdeed m (some x))
    refine (w.returns_link hr₁ hL₁ hview₁ hsaved).mono fun n' m₂ h => ?_
    obtain ⟨hn', rfl⟩ := h
    refine (ih hr₁ hL₁ hview₁ hsaved hn' (fun m p => (hdeed m p).apply _ x) (by simpa using hf)).mono fun log m₃ h => ?_
    obtain ⟨ds, hds, hdeeds, hlog, hr₃⟩ := h
    refine ⟨(x, deed m (some x)) :: ds, by rw [map_cons, hds], forall_mem_cons.2 ⟨⟨m, some x, rfl⟩, hdeeds⟩, ?_, hr₃⟩
    rw [hlog, safeEvents, hds, hsaved, append_assoc]
    rfl

theorem Walk.returns_safeLoop (w : Walk link node f view) {first : Prog (Mem A) P} (hr : Rep m L) (hL : L head = some ms)
    (hfirst : Returns first m fun q m' => node q = f m head ∧ m' = m) (hdeed : ∀ m p, (deed m p).Elsewhere L head) :
    Finishes (safeLoop first link node (fun p => act deed (node p)) · (some head)) m fun log m' =>
      ∃ ds, ds.map Prod.fst = view ms ∧ (∀ ad ∈ ds, ∃ m p, ad.2 = deed m p) ∧
        log = .read (some head) :: .read (view ms ++ [head]).head? :: safeEvents head ds ∧ Rep m' (applyAll L ds) := by
  refine Finishes.of_lt (n := (view ms).length) fun fuel hfuel => ?_
  unfold safeLoop
  refine hfirst.bind fun pos m₁ h => ?_
  obtain ⟨hpos, rfl⟩ := h
  rw [w.first hr hL] at hpos
  have hview : view ms = [] ++ view ms := rfl
  refine (w.returns_link hr hL hview hpos).bind fun n m₂ h => ?_
  obtain ⟨hn', rfl⟩ := h
  rw [hpos]
  exact w.returns_rounds hr hL hview hpos hn' hdeed hfuel

end

/-! ## Events -/

def Event.bodyOn {β : Type} : Event A β → Option (Ptr A)
  | .read _ => none
  | .body p _ => some p

/-- No record is read once the body has run on it. -/
def ReadsFresh {β : Type} (log : List (Event A β)) : Prop := log.Pairwise fun e e' => ∀ p b, e = .body p b → e' ≠ .read p

/-- The lists after the deeds of a loop. -/
def after (L : Lists A) (log : List (Event A (Deed A))) : Lists A :=
  log.foldl (fun L e => match e with | .body (some a) d => d.apply L a | _ => L) L

variable {ds : List (A × Deed A)}

omit [DecidableEq A] in
theorem bodyOn_safeEvents : (safeEvents head ds).filterMap Event.bodyOn = (ds.map Prod.fst).map some := by
  induction ds with
  | nil => rfl
  | cons ad ds ih => exact congrArg (some ad.1 :: ·) ih

theorem after_safeEvents : after L (safeEvents head ds) = applyAll L ds := by
  induction ds generalizing L with
  | nil => rfl
  | cons ad ds ih => exact ih

omit [DecidableEq A] in
theorem mem_safeEvents {a : A} {d : Deed A} : Event.body (some a) d ∈ safeEvents head ds ↔ (a, d) ∈ ds := by
  induction ds with
  | nil => simp [safeEvents]
  | cons ad ds ih => simp [safeEvents, ih, Prod.ext_iff]

omit [DecidableEq A] in
/-- The loop reads the elements that are still to come, and the head. -/
theorem read_mem_safeEvents {p : Ptr A} (h : .read p ∈ .read (ds.map Prod.fst ++ [head]).head? :: safeEvents head ds) :
    ∃ a ∈ ds.map Prod.fst ++ [head], p = some a := by
  induction ds with
  | nil => exact ⟨head, mem_cons_self, by simpa [safeEvents] using h⟩
  | cons ad ds ih =>
    rw [mem_cons, safeEvents, mem_cons, Event.read.injEq] at h
    rcases h with h | h | h
    · exact ⟨ad.1, mem_cons_self, h⟩
    · cases h
    · obtain ⟨a, ha, hp⟩ := ih h
      exact ⟨a, mem_cons_of_mem ad.1 ha, hp⟩

omit [DecidableEq A] in
theorem readsFresh_safeEvents (hnd : (ds.map Prod.fst ++ [head]).Nodup) : ReadsFresh (safeEvents head ds) := by
  induction ds with
  | nil => exact Pairwise.nil
  | cons ad ds ih =>
    rw [map_cons, cons_append, nodup_cons] at hnd
    refine pairwise_cons.2 ⟨fun e he p b hbody hread => ?_, pairwise_cons.2 ⟨fun e he p b hbody => ?_, ih hnd.2⟩⟩
    · cases hbody
      subst hread
      obtain ⟨a, ha, hp⟩ := read_mem_safeEvents he
      cases hp
      exact hnd.1 ha
    · cases hbody

theorem applyAll_head (hL : L head = some ms) (hnd : ms.Nodup) (hds : (ds.map Prod.fst).Nodup)
    (hdeeds : ∀ ad ∈ ds, ad.2.Elsewhere L head) :
    applyAll L ds head = some (ms.filter fun a => a ∈ ds.map Prod.fst → (a, .leave) ∈ ds) := by
  induction ds generalizing L ms with
  | nil => 
    simp [applyAll, hL]
  | cons ad ds ih =>
    obtain ⟨a, d⟩ := ad
    rw [map_cons, nodup_cons] at hds
    obtain ⟨hd, hdeeds⟩ := forall_mem_cons.1 hdeeds
    have hout : (a, Deed.leave) ∉ ds := fun h => hds.1 (mem_map.2 ⟨_, h, rfl⟩)
    have hstep := ih (Deed.apply_head hL hd a) (by split; exacts [hnd, hnd.erase a]) hds.2 fun ad had => (hdeeds ad had).apply d a
    refine hstep.trans (congrArg some ?_)
    dsimp only
    split
    · next hleave =>
      subst hleave
      refine filter_congr fun b _ => ?_
      rw [decide_eq_decide, map_cons, mem_cons, mem_cons, Prod.mk.injEq]
      by_cases hb : b = a
      · subst hb
        simp [hds.1]
      · simp only [hb, false_or, false_and]
    · next hleave =>
      rw [hnd.erase_eq_filter, filter_filter]
      refine filter_congr fun b _ => ?_
      rw [map_cons]
      by_cases hb : b = a
      · subst hb
        simp [hout, Ne.symm hleave]
      · have hne : (b != a) = true := by simpa using hb
        rw [hne, Bool.and_true, decide_eq_decide, mem_cons, mem_cons, Prod.mk.injEq]
        simp only [hb, false_or, false_and]

/-- What a loop has done whose bodies run on `order`: once on each, and it reads none of them afterwards; of the list of `head` there
remains what the bodies left. -/
structure Iterated (L : Lists A) (head : A) (ms order : List A) (log : List (Event A (Deed A))) (m : Mem A) : Prop where
  bodies : log.filterMap Event.bodyOn = order.map some
  once : (log.filterMap Event.bodyOn).Nodup
  fresh : ReadsFresh log
  rep : Rep m (after L log)
  left : after L log head = some (ms.filter fun a => .body (some a) .leave ∈ log)

/-- What the rounds give, as a whole. -/
theorem iterated (hr : Rep m L) (hL : L head = some ms) {order : List A} {p q : Ptr A} (hperm : order.Perm ms)
    (hds : ds.map Prod.fst = order) (hdeeds : ∀ ad ∈ ds, ad.2.Elsewhere L head) (hrep : Rep m' (applyAll L ds)) :
    Iterated L head ms order (.read p :: .read q :: safeEvents head ds) m' := by
  have hnd : (head :: ms).Nodup := hr.nodup _ _ hL
  have hndo : (order ++ [head]).Nodup := by
    rw [perm_append_singleton head order |>.nodup_iff]
    exact (hperm.cons head).nodup_iff.2 hnd
  have hbodies : (Event.read p :: Event.read q :: safeEvents head ds).filterMap Event.bodyOn = order.map some :=
    bodyOn_safeEvents.trans (congrArg _ hds)
  have hafter : after L (.read p :: .read q :: safeEvents head ds) = applyAll L ds := after_safeEvents
  refine ⟨hbodies, ?_, ?_, hafter ▸ hrep, ?_⟩
  · rw [hbodies]
    exact (nodup_append.1 hndo).1.map (Option.some_injective A)
  · unfold ReadsFresh
    refine pairwise_cons.2 ⟨fun e _ p b hbody => (nomatch hbody), pairwise_cons.2 ⟨fun e _ p b hbody => (nomatch hbody), ?_⟩⟩
    exact readsFresh_safeEvents (hds ▸ hndo)
  · rw [hafter, applyAll_head hL (nodup_cons.1 hnd).2 (hds ▸ (nodup_append.1 hndo).1) hdeeds]
    refine congrArg some (filter_congr fun a ha => ?_)
    have hin : a ∈ ds.map Prod.fst := hds ▸ hperm.mem_iff.2 ha
    have hmem : Event.body (some a) .leave ∈ Event.read p :: Event.read q :: safeEvents head ds ↔ (a, .leave) ∈ ds := by
      simp [mem_safeEvents]
    rw [decide_eq_decide, hmem]
    exact ⟨fun h => h hin, fun h _ => h⟩

section
variable {P : Type} {link : P → Prog (Mem A) P} {node : P → Ptr A} {f : Mem A → A → Ptr A} {view : List A → List A}

theorem Walk.iterates (w : Walk link node f view) {first : Prog (Mem A) P} (hr : Rep m L) (hL : L head = some ms)
    (hfirst : Returns first m fun q m' => node q = f m head ∧ m' = m) (hdeed : ∀ m p, (deed m p).Elsewhere L head) :
    Finishes (safeLoop first link node (fun p => act deed (node p)) · (some head)) m (Iterated L head ms (view ms)) := by
  obtain ⟨fuel, hfin⟩ := w.returns_safeLoop hr hL hfirst hdeed
  refine ⟨fuel, fun n hn => (hfin n hn).mono fun log m' h => ?_⟩
  obtain ⟨ds, hds, hdeeds, rfl, hrep⟩ := h
  refine iterated hr hL (w.perm ms) hds (fun ad had => ?_) hrep
  obtain ⟨m, p, hd⟩ := hdeeds ad had
  exact hd ▸ hdeed m p

end

/-- On every ring, with bodies that leave their element, delete it, after which its memory may be used for anything, or move it to
another list: the four safe loops come back, have run on each element once, forwards or backwards, have not read an element after that,
and leave on the ring what the bodies left. -/
theorem mglist_safe_loops {P : Type} (c : Container A P) (hr : Rep m L) (hL : L head = some ms)
    (hdeed : ∀ m p, (deed m p).Elsewhere L head) :
    Finishes (mglistForEachSafe (act deed) · (some head)) m (Iterated L head ms ms) ∧
    Finishes (mglistForEachPrevSafe (act deed) · (some head)) m (Iterated L head ms ms.reverse) ∧
    Finishes (mglistForEachEntrySafe c (fun pos => act deed (c.member pos)) · (some head)) m (Iterated L head ms ms) ∧
    Finishes (mglistForEachEntrySafeReverse c (fun pos => act deed (c.member pos)) · (some head)) m
      (Iterated L head ms ms.reverse) := by
  have ha := hr.alloc _ _ hL head mem_cons_self
  refine ⟨walk_next.iterates hr hL ?_ hdeed, walk_prev.iterates hr hL ?_ hdeed, (walk_nextEntry c).iterates hr hL ?_ hdeed,
    (walk_prevEntry c).iterates hr hL ?_ hdeed⟩
  · exact (returns_nextOf _).2 ⟨ha, rfl, rfl⟩
  · exact (returns_prevOf _).2 ⟨ha, rfl, rfl⟩
  · unfold mglistFirstEntry
    rw [returns_bind, returns_nextOf, returns_pure]
    exact ⟨ha, c.member_entry _, rfl⟩
  · unfold mglistLastEntry
    rw [returns_bind, returns_prevOf, returns_pure]
    exact ⟨ha, c.member_entry _, rfl⟩

local instance neZero_eight : NeZero 8 := ⟨by decide⟩

/-- The body of a run: 2 is deleted and freed, 3 left, 4 moved to the list of 1, and 5 deleted. -/
def testDeed (_ : Mem (Fin 8)) (p : Ptr (Fin 8)) : Deed (Fin 8) :=
  if p = some 2 then .del (some ⟨false, none, some 7⟩) else if p = some 4 then .move 1 else if p = some 5 then .delInit none else .leave

/-- The entries are their list heads. -/
def testContainer : Container (Fin 8) (Ptr (Fin 8)) := ⟨id, id, fun _ => rfl⟩

theorem mglist_safe_loops_four : ∃ L : Lists (Fin 8), L 0 = some [2, 3, 4, 5] ∧
    ∃ m, Finishes (mglistForEachSafe (act testDeed) · (some 0)) m (Iterated L 0 [2, 3, 4, 5] [2, 3, 4, 5]) ∧
      Finishes (mglistForEachPrevSafe (act testDeed) · (some 0)) m (Iterated L 0 [2, 3, 4, 5] [5, 4, 3, 2]) ∧
      Finishes (mglistForEachEntrySafe testContainer (fun pos => act testDeed (testContainer.member pos)) · (some 0)) m
        (Iterated L 0 [2, 3, 4, 5] [2, 3, 4, 5]) ∧
      Finishes (mglistForEachEntrySafeReverse testContainer (fun pos => act testDeed (testContainer.member pos)) · (some 0)) m
        (Iterated L 0 [2, 3, 4, 5] [5, 4, 3, 2]) := by
  have hone : Rep (links (links blank [0, 2, 3, 4, 5, 0]) [1, 1]) (single 0 [2, 3, 4, 5]) :=
    rep_single (ring_cons.2 (by simp [Linked, links])) (by decide) (by decide)
  have htwo := hone.insert (ring_single.2 ⟨rfl, rfl⟩) (nodup_singleton (1 : Fin 8)) (by decide) (by decide)
  have hdeed : ∀ m p, (testDeed m p).Elsewhere (Function.update (single 0 [2, 3, 4, 5]) 1 (some [])) 0 := by
    intro m p
    unfold testDeed
    split_ifs
    · trivial
    · exact ⟨by decide, [], rfl⟩
    · trivial
    · trivial
  exact ⟨_, rfl, _, mglist_safe_loops testContainer htwo rfl hdeed⟩

end MgStd.Mglist
