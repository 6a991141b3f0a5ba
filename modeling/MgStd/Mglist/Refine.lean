import MgStd.Lib.Runs
import MgStd.Mglist.Rings
/-!
# mglist.c refines sequences

Each operation of `Op`, under the precondition that its documentation gives,
does to the rings what `apply` does to the sequences of the heads. With the
reads of one memory this gives the answers after every run of operations.
-/

namespace MgStd.Mglist

open MgStd.Lib List

variable {A : Type} [DecidableEq A] {m m' : Mem A} {L : Lists A} {a head list new old x : A} {ms xs : List A}

inductive Op (A : Type)
  | init (list : A)
  | add (new head : A)
  | addTail (new head : A)
  | del (entry : A)
  | delInit (entry : A)
  | replace (old new : A)
  | replaceInit (old new : A)
  | move (list head : A)
  | moveTail (list head : A)
  | rotateLeft (head : A)
  | spliceInit (list head : A)
  | spliceTailInit (list head : A)

def Op.exec : Op A → Prog (Mem A) Unit
  | .init list => initMgListHead (some list)
  | .add new head => mglistAdd (some new) (some head)
  | .addTail new head => mglistAddTail (some new) (some head)
  | .del entry => mglistDel (some entry)
  | .delInit entry => mglistDelInit (some entry)
  | .replace old new => mglistReplace (some old) (some new)
  | .replaceInit old new => mglistReplaceInit (some old) (some new)
  | .move list head => mglistMove (some list) (some head)
  | .moveTail list head => mglistMoveTail (some list) (some head)
  | .rotateLeft head => mglistRotateLeft (some head)
  | .spliceInit list head => mglistSpliceInit (some list) (some head)
  | .spliceTailInit list head => mglistSpliceTailInit (some list) (some head)

/-! ## The operations on sequences -/

def IsHead (L : Lists A) (a : A) : Prop := ∃ ms, L a = some ms

/-- The list of `head`, changed. -/
def setList (L : Lists A) (head : A) (f : List A → List A) : Lists A := Function.update L head ((L head).map f)

/-- `new` for `old` among the elements. -/
def subst (old new : A) (ms : List A) : List A := ms.map fun a => if a = old then new else a

/-- `new` in the place of `old`: as the head of its list, or as an element. -/
def replaced (L : Lists A) (old new : A) : Lists A :=
  match L old with
  | some ms => Function.update (forget (forget L new) old) new (some ms)
  | none => fun h => (forget L new h).map (subst old new)

def Op.apply (L : Lists A) : Op A → Lists A
  | .init list => Function.update L list (some [])
  | .add new head => setList (forget L new) head (new :: ·)
  | .addTail new head => setList (forget L new) head (· ++ [new])
  | .del entry => remove L entry
  | .delInit entry => Function.update (remove L entry) entry (some [])
  | .replace old new => replaced L old new
  | .replaceInit old new => Function.update (replaced L old new) old (some [])
  | .move list head => setList (remove L list) head (list :: ·)
  | .moveTail list head => setList (remove L list) head (· ++ [list])
  | .rotateLeft head => setList L head (·.rotate 1)
  | .spliceInit list head => Function.update (setList L head ((L list).getD [] ++ ·)) list (some [])
  | .spliceTailInit list head => Function.update (setList L head (· ++ (L list).getD [])) list (some [])

/-- What an operation asks for: added records are on no ring (but an empty one of their own), deleted and moved ones
are elements, a replaced one is on a ring, spliced rings are different. -/
def Op.Pre (m : Mem A) (L : Lists A) : Op A → Prop
  | .init list => Free m L list
  | .add new head | .addTail new head => Free m L new ∧ new ≠ head ∧ IsHead L head
  | .del entry | .delInit entry => Member L entry
  | .replace old new | .replaceInit old new => Free m L new ∧ (∃ h, On L old h) ∧ new ≠ old
  | .move list head | .moveTail list head => Member L list ∧ IsHead L head
  | .rotateLeft head => IsHead L head
  | .spliceInit list head | .spliceTailInit list head => list ≠ head ∧ IsHead L list ∧ IsHead L head

theorem forget_of_none (h : L a = none) : forget L a = L := by
  unfold forget
  rw [← h, Function.update_eq_self]

theorem setList_eq (h : L head = some ms) (f : List A → List A) : setList L head f = Function.update L head (some (f ms)) := by
  unfold setList
  rw [h]
  rfl

theorem forget_ne (h : new ≠ head) : forget L new head = L head := Function.update_of_ne h.symm _ _

/-! ## The operations on rings -/

theorem Rep.add (hr : Rep m L) (hL : L head = some ms) (hf : Free m L new) (hne : new ≠ head) :
    Returns (mglistAdd (some new) (some head)) m fun _ m' =>
      Rep m' (setList (forget L new) head (new :: ·)) ∧ m'.alloc = m.alloc := by
  unfold mglistAdd
  rw [returns_bind, returns_nextOf, (hr.ring _ _ hL).next_head, setList_eq ((forget_ne hne).trans hL)]
  exact ⟨hr.alloc _ _ hL head mem_cons_self, hr.addBetween hL hf hne (.refl _) rfl (.refl _)⟩

omit [DecidableEq A] in
/-- Cut behind the last record. -/
theorem exists_last (head : A) (ms : List A) : ∃ rest p, head :: ms = rest ++ [p] ∧
    (head :: ms).getLast (cons_ne_nil head ms) = p ∧ (head :: ms) ~r (p :: rest) ∧
    ∀ xs, (head :: (ms ++ xs)) ~r (p :: (xs ++ rest)) := by
  have hcut := dropLast_append_getLast (cons_ne_nil head ms)
  refine ⟨_, _, hcut.symm, rfl, ?_, fun xs => ?_⟩
  · conv_lhs => rw [← hcut]
    exact isRotated_append
  · rw [← cons_append]
    conv_lhs => rw [← hcut]
    rw [append_assoc]
    exact isRotated_append

theorem Rep.addTail (hr : Rep m L) (hL : L head = some ms) (hf : Free m L new) (hne : new ≠ head) :
    Returns (mglistAddTail (some new) (some head)) m fun _ m' =>
      Rep m' (setList (forget L new) head (· ++ [new])) ∧ m'.alloc = m.alloc := by
  obtain ⟨rest, p, hcut, hlast, hrot, hrot'⟩ := exists_last head ms
  unfold mglistAddTail
  rw [returns_bind, returns_prevOf, (hr.ring _ _ hL).prev_head, hlast, setList_eq ((forget_ne hne).trans hL)]
  refine ⟨hr.alloc _ _ hL head mem_cons_self, hr.addBetween hL hf hne hrot ?_ (hrot' [new])⟩
  simp only [← hcut, head_cons]

omit [DecidableEq A] in
theorem Rep.member_not_head (hr : Rep m L) (hx : Member L x) : L x = none := by
  obtain ⟨head, ms, hL, hmem⟩ := hx
  cases hh : L x with
  | none => rfl
  | some ks =>
    obtain rfl := hr.apart x x head (on_head hh) (on_mem hL hmem)
    exact absurd hmem (nodup_cons.1 (hr.nodup _ _ hL)).1

theorem remove_none (h : L a = none) : remove L x a = none := by
  unfold remove
  rw [h]
  rfl

theorem remove_some (h : L head = some ms) : remove L x head = some (ms.erase x) := by
  unfold remove
  rw [h]
  rfl

/-- What is deleted can be added. -/
theorem Rep.free_removed (hr : Rep m L) (hx : Member L x) (ha : m'.alloc = m.alloc) : Free m' (remove L x) x :=
  ⟨ha ▸ hr.alloc_member hx, fun _ ho => absurd ho (hr.not_on_remove hx)⟩

theorem Rep.delInit (hr : Rep m L) (hx : Member L x) : Returns (mglistDelInit (some x)) m fun _ m' =>
    Rep m' (Function.update (remove L x) x (some [])) ∧ m'.alloc = m.alloc := by
  unfold mglistDelInit
  refine (hr.delEntry hx).bind fun _ m₁ h => ?_
  refine (h.1.init (hr.free_removed hx h.2)).mono fun _ m₂ h' => ?_
  exact ⟨h'.1, h'.2.trans h.2⟩

omit [DecidableEq A] in
theorem Rep.member_ne_head (hr : Rep m L) (hx : Member L x) (hL : L head = some ms) : x ≠ head := by
  rintro rfl
  rw [hr.member_not_head hx] at hL
  cases hL

theorem Rep.move (hr : Rep m L) (hx : Member L x) (hL : L head = some ms) :
    Returns (mglistMove (some x) (some head)) m fun _ m' =>
      Rep m' (setList (remove L x) head (x :: ·)) ∧ m'.alloc = m.alloc := by
  unfold mglistMove
  refine (hr.delEntry hx).bind fun _ m₁ h => ?_
  refine (h.1.add (remove_some hL) (hr.free_removed hx h.2) (hr.member_ne_head hx hL)).mono fun _ m₂ h' => ?_
  rw [forget_of_none (remove_none (hr.member_not_head hx))] at h'
  exact ⟨h'.1, h'.2.trans h.2⟩

theorem Rep.moveTail (hr : Rep m L) (hx : Member L x) (hL : L head = some ms) :
    Returns (mglistMoveTail (some x) (some head)) m fun _ m' =>
      Rep m' (setList (remove L x) head (· ++ [x])) ∧ m'.alloc = m.alloc := by
  unfold mglistMoveTail
  refine (hr.delEntry hx).bind fun _ m₁ h => ?_
  refine (h.1.addTail (remove_some hL) (hr.free_removed hx h.2) (hr.member_ne_head hx hL)).mono fun _ m₂ h' => ?_
  rw [forget_of_none (remove_none (hr.member_not_head hx))] at h'
  exact ⟨h'.1, h'.2.trans h.2⟩

/-! ## Answers -/

omit [DecidableEq A] in
theorem Rep.next_eq_head (hr : Rep m L) (hL : L head = some ms) : m.next head = some head ↔ ms = [] := by
  rw [(hr.ring _ _ hL).next_head]
  cases ms with
  | nil => simp
  | cons y ms =>
    have hne : y ≠ head := fun e => (nodup_cons.1 (hr.nodup _ _ hL)).1 (e ▸ mem_cons_self)
    simp [hne]

theorem Rep.empty (hr : Rep m L) (hL : L head = some ms) :
    Returns (mglistEmpty (some head)) m fun b m' => b = decide (ms = []) ∧ m' = m := by
  unfold mglistEmpty
  simp only [returns_bind, returns_nextOf, returns_pure, hr.next_eq_head hL]
  exact ⟨hr.alloc _ _ hL head mem_cons_self, trivial, trivial⟩

omit [DecidableEq A] in
theorem Rep.prev_eq_head (hr : Rep m L) (hL : L head = some ms) : m.prev head = some head ↔ ms = [] := by
  rw [(hr.ring _ _ hL).prev_head]
  cases ms with
  | nil => simp
  | cons y ms =>
    have hmem : (y :: ms).getLast (cons_ne_nil y ms) ∈ y :: ms := getLast_mem _
    have hne : (y :: ms).getLast (cons_ne_nil y ms) ≠ head := fun e => (nodup_cons.1 (hr.nodup _ _ hL)).1 (e ▸ hmem)
    rw [getLast_cons (cons_ne_nil y ms)]
    simp [hne]

theorem Rep.emptyCareful (hr : Rep m L) (hL : L head = some ms) :
    Returns (mglistEmptyCareful (some head)) m fun b m' => b = decide (ms = []) ∧ m' = m := by
  have ha := hr.alloc _ _ hL head mem_cons_self
  unfold mglistEmptyCareful
  simp only [returns_bind, returns_nextOf, returns_ite, returns_prevOf, returns_pure, hr.next_eq_head hL]
  refine ⟨ha, fun he => ⟨ha, ?_, trivial⟩, fun hne => ⟨by simp [hne], trivial⟩⟩
  rw [(hr.next_eq_head hL).2 he, (hr.prev_eq_head hL).2 he]
  simp [he]

theorem Rep.singular (hr : Rep m L) (hL : L head = some ms) :
    Returns (mglistIsSingular (some head)) m fun b m' => b = decide (ms.length = 1) ∧ m' = m := by
  have ha := hr.alloc _ _ hL head mem_cons_self
  have hring := hr.ring _ _ hL
  have hnd := hr.nodup _ _ hL
  unfold mglistIsSingular
  refine (hr.empty hL).bind fun b m' h => ?_
  obtain ⟨rfl, rfl⟩ := h
  cases ms with
  | nil => simp
  | cons y ms =>
    have hnext : m'.next head = some y := hring.next_head
    have hprev := hring.prev_head
    simp only [reduceCtorEq, decide_false, Bool.false_eq_true, not_false_eq_true, if_true, returns_bind, returns_nextOf,
      returns_prevOf, returns_pure]
    refine ⟨ha, ha, ?_, trivial⟩
    rw [hnext, hprev, getLast_cons (cons_ne_nil y ms)]
    cases ms with
    | nil => simp
    | cons z ms =>
      -- the last is not the first
      have hmem : (z :: ms).getLast (cons_ne_nil z ms) ∈ z :: ms := getLast_mem _
      have hne : y ≠ (z :: ms).getLast (cons_ne_nil z ms) := fun e =>
        (nodup_cons.1 (nodup_cons.1 hnd).2).1 (e ▸ hmem)
      rw [getLast_cons (cons_ne_nil z ms)]
      simp [hne]

theorem Rep.isLast (hr : Rep m L) (hL : L head = some ms) (hx : x ∈ head :: ms) :
    Returns (mglistIsLast (some x) (some head)) m fun b m' =>
      b = decide ((head :: ms).getLast (cons_ne_nil head ms) = x) ∧ m' = m := by
  unfold mglistIsLast
  simp only [returns_bind, returns_nextOf, returns_pure]
  refine ⟨hr.alloc _ _ hL x hx, ?_, trivial⟩
  obtain ⟨as, bs, hab⟩ := append_of_mem hx
  have hring := hr.ring _ _ hL
  have hnd := hr.nodup _ _ hL
  rw [hab, ring_open] at hring
  rw [hab] at hnd
  simp only [hring.next_head, hab, decide_eq_decide, Option.some.injEq]
  cases bs with
  | nil =>
    -- behind the last record comes the first
    have hfirst : (as ++ [x]).head (by simp) = head := by simp only [← hab, head_cons]
    simp [hfirst]
  | cons y bs =>
    have hxy : x ∉ y :: bs := (nodup_cons.1 (nodup_append.1 hnd).2.1).1
    have hlast : (y :: bs).getLast (cons_ne_nil y bs) ∈ y :: bs := getLast_mem _
    have hne : (y :: bs).getLast (cons_ne_nil y bs) ≠ x := fun e => hxy (e ▸ hlast)
    have hhead : y ≠ head := by
      rintro rfl
      have hnd' := hr.nodup _ _ hL
      cases as with
      | nil => simp only [nil_append, cons.injEq] at hab; exact hxy (hab.1 ▸ mem_cons_self)
      | cons b as =>
        simp only [cons_append, cons.injEq] at hab
        obtain ⟨rfl, rfl⟩ := hab
        exact (nodup_cons.1 hnd').1 (by simp)
    simp [hne, hhead]

theorem Rep.rotateLeft (hr : Rep m L) (hL : L head = some ms) : Returns (mglistRotateLeft (some head)) m fun _ m' =>
    Rep m' (setList L head (·.rotate 1)) ∧ m'.alloc = m.alloc := by
  unfold mglistRotateLeft
  rw [setList_eq hL]
  refine (hr.empty hL).bind fun b m' h => ?_
  obtain ⟨rfl, rfl⟩ := h
  cases ms with
  | nil =>
    have hsame : Function.update L head (some ([] : List A)) = L := by rw [← hL, Function.update_eq_self]
    simp [hsame, hr]
  | cons y ms =>
    have hnext : m'.next head = some y := (hr.ring _ _ hL).next_head
    have hy : Member L y := ⟨head, y :: ms, hL, mem_cons_self⟩
    simp only [reduceCtorEq, decide_false, Bool.false_eq_true, not_false_eq_true, if_true, returns_bind, returns_nextOf, hnext]
    refine ⟨hr.alloc _ _ hL head mem_cons_self, (hr.moveTail hy hL).mono fun _ m₁ h => ⟨?_, h.2⟩⟩
    have hlists := h.1
    rw [setList_eq (remove_some hL), hr.remove_eq hL mem_cons_self, Function.update_idem, erase_cons_head] at hlists
    rwa [rotate_cons_succ, rotate_zero]

/-- The list that was spliced becomes empty. -/
theorem Rep.spliceBetween_init {p n : A} {rest ms' : List A} (hr : Rep m L) (hL : L head = some ms)
    (hlist : L list = some xs) (hxs : xs ≠ []) (hne : list ≠ head) (hrot : (head :: ms) ~r (p :: rest))
    (hn : (rest ++ [p]).head (by simp) = n) (hrot' : (head :: ms') ~r (p :: (xs ++ rest))) :
    Returns (do mglistSpliceBetween (some list) (some p) (some n); initMgListHead (some list)) m fun _ m' =>
      Rep m' (Function.update (Function.update L head (some ms')) list (some [])) ∧ m'.alloc = m.alloc := by
  refine (hr.spliceBetween hL hlist hxs hne hrot hn hrot').bind fun _ m₁ h => ?_
  have hfree : Free m₁ (Function.update (forget L list) head (some ms')) list := by
    refine ⟨h.2 ▸ hr.alloc _ _ hlist list mem_cons_self, fun h' ho => absurd ho ?_⟩
    rintro ⟨ks, hks, hmem⟩
    by_cases hh : h' = head
    · -- `list` is not among the elements that `head` has now
      rw [hh, Function.update_self] at hks
      cases hks
      rw [hh, hrot'.mem_iff, mem_cons, mem_append, or_left_comm, ← mem_cons, ← hrot.mem_iff] at hmem
      rcases hmem with hmem | hmem
      · exact (nodup_cons.1 (hr.nodup _ _ hlist)).1 hmem
      · exact hne (hr.apart list head list ⟨ms, hL, hmem⟩ (on_head hlist)).symm
    · rw [Function.update_of_ne hh] at hks
      obtain ⟨hne', hks⟩ := forget_some hks
      exact hne' (hr.apart list h' list ⟨ks, hks, hmem⟩ (on_head hlist))
  refine (h.1.init hfree).mono fun _ m₂ h' => ⟨?_, h'.2.trans h.2⟩
  have hlists := h'.1
  unfold forget at hlists
  rwa [Function.update_comm hne, Function.update_idem] at hlists

/-- Splicing an empty list changes nothing. -/
theorem setList_empty (hL : L head = some ms) (hlist : L list = some []) :
    Function.update (Function.update L head (some ms)) list (some []) = L := by
  rw [← hL, Function.update_eq_self, ← hlist, Function.update_eq_self]

theorem Rep.spliceInit (hr : Rep m L) (hL : L head = some ms) (hlist : L list = some xs) (hne : list ≠ head) :
    Returns (mglistSpliceInit (some list) (some head)) m fun _ m' =>
      Rep m' (Function.update (setList L head ((L list).getD [] ++ ·)) list (some [])) ∧ m'.alloc = m.alloc := by
  unfold mglistSpliceInit
  rw [setList_eq hL, hlist, Option.getD_some]
  refine (hr.empty hlist).bind fun b m' h => ?_
  obtain ⟨rfl, rfl⟩ := h
  by_cases hxs : xs = []
  · subst hxs
    simp [setList_empty hL hlist, hr]
  · simp only [hxs, decide_false, Bool.false_eq_true, not_false_eq_true, if_true, returns_bind, returns_nextOf,
      (hr.ring _ _ hL).next_head]
    have hspl := hr.spliceBetween_init hL hlist hxs hne (.refl _) rfl (.refl (head :: (xs ++ ms)))
    rw [returns_bind] at hspl
    exact ⟨hr.alloc _ _ hL head mem_cons_self, hspl⟩

theorem Rep.spliceTailInit (hr : Rep m L) (hL : L head = some ms) (hlist : L list = some xs) (hne : list ≠ head) :
    Returns (mglistSpliceTailInit (some list) (some head)) m fun _ m' =>
      Rep m' (Function.update (setList L head (· ++ (L list).getD [])) list (some [])) ∧ m'.alloc = m.alloc := by
  unfold mglistSpliceTailInit
  rw [setList_eq hL, hlist, Option.getD_some]
  refine (hr.empty hlist).bind fun b m' h => ?_
  obtain ⟨rfl, rfl⟩ := h
  by_cases hxs : xs = []
  · subst hxs
    simp [setList_empty hL hlist, hr]
  · obtain ⟨rest, p, hcut, hlast, hrot, hrot'⟩ := exists_last head ms
    simp only [hxs, decide_false, Bool.false_eq_true, not_false_eq_true, if_true, returns_bind, returns_prevOf,
      (hr.ring _ _ hL).prev_head, hlast]
    have hfirst : (rest ++ [p]).head (by simp) = head := by simp only [← hcut, head_cons]
    have hspl := hr.spliceBetween_init hL hlist hxs hne hrot hfirst (hrot' xs)
    rw [returns_bind] at hspl
    exact ⟨hr.alloc _ _ hL head mem_cons_self, hspl⟩

/-! ## Replacing -/

theorem Rep.not_on_forget2 (hr : Rep m L) (hf : Free m L new) {h : A} : ¬ On (forget (forget L new) old) new h := by
  intro ho
  exact hf.not_on hr (on_forget ho).2

theorem subst_of_notMem (h : old ∉ ms) : subst old new ms = ms := by
  have hsame : ∀ a ∈ ms, (if a = old then new else a) = id a := fun a ha => if_neg (fun (e : a = old) => h (e ▸ ha))
  unfold subst
  rw [map_congr_left hsame, map_id]

theorem subst_split (hnd : (xs ++ old :: ms).Nodup) : subst old new (xs ++ old :: ms) = xs ++ new :: ms := by
  have hxs : old ∉ xs := fun h => (nodup_append.1 hnd).2.2 old h old mem_cons_self rfl
  have hms : old ∉ ms := (nodup_cons.1 (nodup_append.1 hnd).2.1).1
  have happ : subst old new (xs ++ old :: ms) = subst old new xs ++ new :: subst old new ms := by
    simp [subst]
  rw [happ, subst_of_notMem hxs, subst_of_notMem hms]

theorem notMem_subst (hne : new ≠ old) : old ∉ subst old new ms := by
  intro h
  obtain ⟨a, -, ha⟩ := mem_map.1 h
  split at ha
  · exact hne ha
  · next hao => exact hao ha

theorem replaced_of_head (hL : L old = some ms) :
    replaced L old new = Function.update (forget (forget L new) old) new (some ms) := by
  unfold replaced
  rw [hL]

theorem replaced_of_none (hL : L old = none) : replaced L old new = fun h => (forget L new h).map (subst old new) := by
  unfold replaced
  rw [hL]

/-- Substitution in the list that has `old`; the others do not. -/
theorem Rep.replaced_of_mem (hr : Rep m L) (hL : L head = some ms) (hx : old ∈ ms) (hnh : new ≠ head) :
    replaced L old new = Function.update (forget L new) head (some (subst old new ms)) := by
  rw [replaced_of_none (hr.member_not_head ⟨head, ms, hL, hx⟩)]
  funext h
  by_cases he : h = head
  · rw [he, Function.update_self, forget_ne hnh, hL, Option.map_some]
  · rw [Function.update_of_ne he]
    cases hh : forget L new h with
    | none => rfl
    | some ks =>
      have hnot : old ∉ ks := fun hk => he (hr.apart old h head (on_mem (forget_some hh).2 hk) (on_mem hL hx))
      rw [Option.map_some, subst_of_notMem hnot]

theorem Rep.replace (hr : Rep m L) (hf : Free m L new) (hon : On L old head) (hne : new ≠ old) :
    Returns (mglistReplace (some old) (some new)) m fun _ m' => Rep m' (replaced L old new) ∧ m'.alloc = m.alloc := by
  obtain ⟨ms, hL, hmem⟩ := hon
  have hnewmem : new ∉ head :: ms := by
    intro h
    -- a free record on the ring of `head` would be `head` itself, and alone
    have hself := hf.2 head ⟨ms, hL, h⟩
    obtain rfl := hr.apart new head new ⟨ms, hL, h⟩ (on_head hself)
    rw [hL] at hself
    cases hself
    exact hne (mem_singleton.1 hmem).symm
  rcases mem_cons.1 hmem with rfl | hmem
  · rw [replaced_of_head hL]
    exact hr.replaceAt hL hf (fun h => hr.not_on_forget2 hf) (.refl _) (.refl _)
      (fun h ks hk => (forget_some (forget_some hk).2).2) (fun h ks hk he => absurd he (forget_some hk).1) hnewmem
  · have hnh : new ≠ head := fun e => hnewmem (e ▸ mem_cons_self)
    rw [hr.replaced_of_mem hL hmem hnh]
    obtain ⟨as, bs, rfl⟩ := append_of_mem hmem
    have hrot : ∀ b : A, (head :: (as ++ b :: bs)) ~r (b :: (bs ++ head :: as)) := by
      intro b
      rw [← cons_append, ← cons_append]
      exact isRotated_append
    rw [subst_split (nodup_cons.1 (hr.nodup _ _ hL)).2]
    exact hr.replaceAt hL hf (fun h => hf.not_on hr) (hrot old) (hrot new) (fun h ks hk => (forget_some hk).2)
      (fun _ _ _ he => he) hnewmem

/-- A record that was replaced is on no ring. -/
theorem Rep.not_on_replaced (hr : Rep m L) (hon : On L old head) (hf : Free m L new) (hne : new ≠ old) {h : A} :
    ¬ On (replaced L old new) old h := by
  obtain ⟨ms, hL, hmem⟩ := hon
  rintro ⟨ks, hks, hold⟩
  rcases mem_cons.1 hmem with rfl | hin
  · rw [replaced_of_head hL] at hks
    by_cases he : h = new
    · rw [he, Function.update_self] at hks
      cases hks
      rcases mem_cons.1 hold with he' | hin
      · exact hne (he'.trans he).symm
      · exact (nodup_cons.1 (hr.nodup _ _ hL)).1 hin
    · rw [Function.update_of_ne he] at hks
      obtain ⟨hho, hks⟩ := forget_some hks
      exact hho (hr.apart old h old ⟨ks, (forget_some hks).2, hold⟩ (on_head hL))
  · have hoh : old ≠ head := hr.member_ne_head ⟨head, ms, hL, hin⟩ hL
    have hnh : new ≠ head := by
      rintro rfl
      have hself := hf.2 new (on_head hL)
      rw [hL] at hself
      cases hself
      exact not_mem_nil hin
    rw [hr.replaced_of_mem hL hin hnh] at hks
    by_cases he : h = head
    · rw [he, Function.update_self] at hks
      cases hks
      rcases mem_cons.1 hold with he' | hin'
      · exact hoh (he'.trans he)
      · exact notMem_subst hne hin'
    · rw [Function.update_of_ne he] at hks
      exact he (hr.apart old h head ⟨ks, (forget_some hks).2, hold⟩ (on_mem hL hin))

theorem Rep.replaceInit (hr : Rep m L) (hf : Free m L new) (hon : On L old head) (hne : new ≠ old) :
    Returns (mglistReplaceInit (some old) (some new)) m fun _ m' =>
      Rep m' (Function.update (replaced L old new) old (some [])) ∧ m'.alloc = m.alloc := by
  unfold mglistReplaceInit
  refine (hr.replace hf hon hne).bind fun _ m₁ h => ?_
  obtain ⟨ms, hL, hmem⟩ := hon
  have hfree : Free m₁ (replaced L old new) old := by
    exact ⟨h.2 ▸ hr.alloc _ _ hL old hmem, fun h' ho => absurd ho (hr.not_on_replaced ⟨ms, hL, hmem⟩ hf hne)⟩
  exact (h.1.init hfree).mono fun _ m₂ h' => ⟨h'.1, h'.2.trans h.2⟩

/-! ## Traversals -/

omit [DecidableEq A] in
/-- Either link of a ring leads past the elements, back to the head. -/
theorem Rep.passes (hr : Rep m L) (hL : L head = some ms) :
    IsChain (fun x y => m.next x = some y) (head :: (ms ++ [head])) ∧
    IsChain (fun x y => m.prev x = some y) (head :: (ms.reverse ++ [head])) := by
  have hring := ring_cons.1 (hr.ring _ _ hL)
  refine ⟨hring.imp fun x y h => h.1, ?_⟩
  have hrev : head :: (ms.reverse ++ [head]) = (head :: (ms ++ [head])).reverse := by simp
  rw [hrev, isChain_reverse]
  exact hring.imp fun x y h => h.2

theorem returns_forEachRound {link : Ptr A → Prog (Mem A) (Ptr A)} {head pos : Ptr A} {visited : List (Ptr A)}
    (Q : (Ptr A × List (Ptr A)) ⊕ List (Ptr A) → Mem A → Prop) :
    Returns (forEachRound link head (pos, visited)) m Q ↔ (pos = head → Q (.inr visited) m) ∧
      (pos ≠ head → Returns (link pos) m fun q m' => Q (.inl (q, visited ++ [pos])) m') := by
  unfold forEachRound
  simp

/-- The visits of a traversal that still has `ms` before it. -/
theorem returns_forEach {link : Ptr A → Prog (Mem A) (Ptr A)} {f : A → Ptr A}
    (hlink : ∀ a ∈ ms, ∀ Q, Q (f a) m → Returns (link (some a)) m Q) (hhead : head ∉ ms)
    (hpass : IsChain (fun x y => f x = some y) (ms ++ [head])) :
    ∀ n visited, ms.length < n → Returns (loop (forEachRound link (some head)) n ((ms ++ [head]).head?, visited)) m
      fun v m' => v = visited ++ ms.map some ∧ m' = m := by
  induction ms with
  | nil =>
    intro n visited hn
    obtain ⟨n, rfl⟩ := Nat.exists_eq_add_of_lt hn
    rw [returns_loop_succ, nil_append, head?_cons, returns_forEachRound]
    simp
  | cons y ms ih =>
    intro n visited hn
    obtain ⟨n, rfl⟩ : ∃ k, n = k + 1 := ⟨n - 1, by omega⟩
    rw [mem_cons, not_or] at hhead
    rw [cons_append, isChain_cons] at hpass
    -- from `y` the link leads to the head of what is left
    have hnext : f y = (ms ++ [head]).head? := by
      cases ms with
      | nil => exact hpass.1 head rfl
      | cons z ms => exact hpass.1 z rfl
    have hne : (some y : Ptr A) ≠ some head := fun e => hhead.1 (Option.some.inj e).symm
    rw [returns_loop_succ, cons_append, head?_cons, returns_forEachRound]
    refine ⟨fun he => absurd he hne, fun _ => hlink y mem_cons_self _ ?_⟩
    simp only [hnext]
    refine (ih (fun a ha => hlink a (mem_cons_of_mem y ha)) hhead.2 hpass.2 n _ ?_).mono fun v m' h => ?_
    · rw [length_cons] at hn
      omega
    · rw [h.1, map_cons, append_assoc]
      exact ⟨rfl, h.2⟩

omit [DecidableEq A] in
theorem head_notMem (hr : Rep m L) (hL : L head = some ms) : head ∉ ms := (nodup_cons.1 (hr.nodup _ _ hL)).1

omit [DecidableEq A] in
/-- A chain that starts at `x`. -/
theorem passes_head {f : A → Ptr A} (h : IsChain (fun x y => f x = some y) (x :: (ms ++ [head]))) :
    f x = (ms ++ [head]).head? := by
  rw [isChain_cons] at h
  cases ms with
  | nil => exact h.1 head rfl
  | cons y ms => exact h.1 y rfl

theorem Rep.forEach (hr : Rep m L) (hL : L head = some ms) : Finishes (mglistForEach · (some head)) m fun v m' =>
    v = ms.map some ∧ m' = m := by
  have hpass := (hr.passes hL).1
  have halloc := hr.alloc _ _ hL
  refine Finishes.of_lt (n := ms.length) fun fuel hfuel => ?_
  unfold mglistForEach
  rw [returns_bind, returns_nextOf, passes_head hpass]
  refine ⟨halloc head mem_cons_self, returns_forEach (fun a ha Q hq => ?_) (head_notMem hr hL) hpass.tail fuel [] hfuel⟩
  exact (returns_nextOf Q).2 ⟨halloc a (mem_cons_of_mem head ha), hq⟩

theorem Rep.forEachPrev (hr : Rep m L) (hL : L head = some ms) : Finishes (mglistForEachPrev · (some head)) m fun v m' =>
    v = ms.reverse.map some ∧ m' = m := by
  have hpass := (hr.passes hL).2
  have halloc := hr.alloc _ _ hL
  refine Finishes.of_lt (n := ms.length) fun fuel hfuel => ?_
  unfold mglistForEachPrev
  rw [returns_bind, returns_prevOf, passes_head hpass]
  rw [← length_reverse] at hfuel
  refine ⟨halloc head mem_cons_self, returns_forEach (fun a ha Q hq => ?_) ?_ hpass.tail fuel [] hfuel⟩
  · exact (returns_prevOf Q).2 ⟨halloc a (mem_cons_of_mem head (mem_reverse.1 ha)), hq⟩
  · rw [mem_reverse]
    exact head_notMem hr hL

/-- What the rings answer: both traversals, and the tests on every head. -/
structure Reads (m : Mem A) (L : Lists A) : Prop where
  forEach : ∀ head ms, L head = some ms → Finishes (mglistForEach · (some head)) m fun v m' => v = ms.map some ∧ m' = m
  forEachPrev : ∀ head ms, L head = some ms →
    Finishes (mglistForEachPrev · (some head)) m fun v m' => v = ms.reverse.map some ∧ m' = m
  empty : ∀ head ms, L head = some ms → Returns (mglistEmpty (some head)) m fun b m' => b = decide (ms = []) ∧ m' = m
  emptyCareful : ∀ head ms, L head = some ms →
    Returns (mglistEmptyCareful (some head)) m fun b m' => b = decide (ms = []) ∧ m' = m
  singular : ∀ head ms, L head = some ms →
    Returns (mglistIsSingular (some head)) m fun b m' => b = decide (ms.length = 1) ∧ m' = m
  isLast : ∀ head ms, L head = some ms → ∀ x ∈ head :: ms, Returns (mglistIsLast (some x) (some head)) m fun b m' =>
    b = decide ((head :: ms).getLast (cons_ne_nil head ms) = x) ∧ m' = m

theorem Rep.reads (hr : Rep m L) : Reads m L where
  forEach _ _ hL := hr.forEach hL
  forEachPrev _ _ hL := hr.forEachPrev hL
  empty _ _ hL := hr.empty hL
  emptyCareful _ _ hL := hr.emptyCareful hL
  singular _ _ hL := hr.singular hL
  isLast _ _ hL _ hx := hr.isLast hL hx

/-! ## Runs -/

/-- One call keeps the rings well formed and apart, and does to them what it does to the sequences. -/
theorem Rep.exec (hr : Rep m L) {op : Op A} (hpre : op.Pre m L) : Returns op.exec m fun _ m' =>
    Rep m' (op.apply L) ∧ m'.alloc = m.alloc := by
  cases op with
  | init list => exact hr.init hpre
  | add new head =>
    obtain ⟨hf, hne, ms, hL⟩ := hpre
    exact hr.add hL hf hne
  | addTail new head =>
    obtain ⟨hf, hne, ms, hL⟩ := hpre
    exact hr.addTail hL hf hne
  | del entry => exact hr.del hpre
  | delInit entry => exact hr.delInit hpre
  | replace old new =>
    obtain ⟨hf, ⟨head, hon⟩, hne⟩ := hpre
    exact hr.replace hf hon hne
  | replaceInit old new =>
    obtain ⟨hf, ⟨head, hon⟩, hne⟩ := hpre
    exact hr.replaceInit hf hon hne
  | move list head =>
    obtain ⟨hx, ms, hL⟩ := hpre
    exact hr.move hx hL
  | moveTail list head =>
    obtain ⟨hx, ms, hL⟩ := hpre
    exact hr.moveTail hx hL
  | rotateLeft head =>
    obtain ⟨ms, hL⟩ := hpre
    exact hr.rotateLeft hL
  | spliceInit list head =>
    obtain ⟨hne, ⟨xs, hlist⟩, ms, hL⟩ := hpre
    exact hr.spliceInit hL hlist hne
  | spliceTailInit list head =>
    obtain ⟨hne, ⟨xs, hlist⟩, ms, hL⟩ := hpre
    exact hr.spliceTailInit hL hlist hne

/-- A call on the memory, and the operation on the sequences beside it. -/
def step : Mem A × Lists A → Op A → Option (Except Fault (Mem A × Lists A))
  | (m, L), op =>
    match op.exec m with
    | .ok (_, m') => some (.ok (m', op.apply L))
    | .error e => some (.error e)

/-- From any memory that holds `L₀` as rings, after any run of calls under their preconditions: the rings are those of the
sequences that the operations give, they answer as the sequences do, and each call that is allowed returns. -/
theorem mglist_refines {m₀ : Mem A} {L₀ : Lists A} (hr : Rep m₀ L₀) {ops : List (Op A)}
    (hrun : Run step (fun s op => op.Pre s.1 s.2) (m₀, L₀) ops (m, L)) :
    L = ops.foldl Op.apply L₀ ∧ Rep m L ∧ Reads m L ∧
    ∀ op : Op A, op.Pre m L → Returns op.exec m fun _ m' =>
      Rep m' (op.apply L) ∧ step (m, L) op = some (.ok (m', op.apply L)) := by
  have hrep : Rep m L := by
    apply hrun.inv_total (fun s => Rep s.1 s.2) hr
    intro s op hs hpre
    obtain ⟨_, m', hexec, hrep, -⟩ := hs.exec hpre
    exact ⟨(m', op.apply s.2), by rw [step, hexec], hrep⟩
  refine ⟨hrun.foldl Prod.snd Op.apply fun s op u _ hu => ?_, hrep, hrep.reads, fun op hpre => ?_⟩
  · obtain ⟨m, L⟩ := s
    rw [step] at hu
    split at hu <;> cases hu
    rfl
  · obtain ⟨a, m', hexec, hrep', -⟩ := hrep.exec hpre
    exact ⟨a, m', hexec, hrep', by rw [step, hexec]⟩

/-! ## A run -/

instance (L : Lists A) (a head : A) : Decidable (On L a head) :=
  match h : L head with
  | none => isFalse fun ⟨_, hms, _⟩ => by simp [h] at hms
  | some ms => decidable_of_iff (a ∈ head :: ms) ⟨fun ha => ⟨ms, h, ha⟩, fun ⟨_, hks, ha⟩ => by
      rw [h, Option.some.injEq] at hks
      exact hks ▸ ha⟩

instance (L : Lists A) (a : A) : Decidable (IsHead L a) :=
  decidable_of_iff ((L a).isSome = true) Option.isSome_iff_exists

section
variable {n : Nat} (m : Mem (Fin n)) (L : Lists (Fin n))

instance (a : Fin n) : Decidable (Free m L a) :=
  inferInstanceAs (Decidable (m.alloc a = true ∧ ∀ h, On L a h → L a = some []))

instance (a : Fin n) : Decidable (Member L a) :=
  decidable_of_iff (∃ head, On L a head ∧ a ∈ (L head).getD []) (by
    unfold Member On
    constructor
    · rintro ⟨head, ⟨ms, hL, -⟩, ha⟩
      rw [hL, Option.getD_some] at ha
      exact ⟨head, ms, hL, ha⟩
    · rintro ⟨head, ms, hL, ha⟩
      refine ⟨head, ⟨ms, hL, mem_cons_of_mem head ha⟩, ?_⟩
      rwa [hL, Option.getD_some])

instance (op : Op (Fin n)) : Decidable (op.Pre m L) := by
  cases op <;> unfold Op.Pre <;> infer_instance

end

/-- Two heads, 0 and 1; elements go to either end, one is replaced and one deleted, as in the test of the source. -/
def testOps : List (Op (Fin 8)) :=
  [.init 0, .init 1, .add 2 0, .add 3 1, .add 4 0, .add 5 1, .addTail 6 0, .replace 5 7, .del 3, .moveTail 4 0]

def blank : Mem (Fin 8) := ⟨fun _ => true, fun _ => none, fun _ => none⟩

omit [DecidableEq A] in
theorem rep_none (m : Mem A) : Rep m fun _ => none :=
  ⟨nofun, nofun, fun _ _ _ ⟨_, h, _⟩ => (nomatch h), nofun⟩

theorem mglist_refines_test : ∃ m L, Run step (fun s op => op.Pre s.1 s.2) (blank, fun _ => none) testOps (m, L) ∧
    Finishes (mglistForEach · (some (0 : Fin 8))) m (fun v m' => v = [some 2, some 6, some 4] ∧ m' = m) ∧
    Finishes (mglistForEachPrev · (some (0 : Fin 8))) m (fun v m' => v = [some 4, some 6, some 2] ∧ m' = m) ∧
    Returns (mglistIsSingular (some (1 : Fin 8))) m (fun b m' => b = true ∧ m' = m) := by
  obtain ⟨⟨m, L⟩, hs, hL⟩ : ∃ s, exec step (fun s op => decide (op.Pre s.1 s.2)) (blank, fun _ => none) testOps = some s ∧
      s.2 0 = some [2, 6, 4] ∧ s.2 1 = some [7] := ⟨_, rfl, rfl, rfl⟩
  have hrun := run_of_exec (fun _ _ h => of_decide_eq_true h) hs
  obtain ⟨-, -, hreads, -⟩ := mglist_refines (rep_none blank) hrun
  exact ⟨m, L, hrun, hreads.forEach 0 _ hL.1, hreads.forEachPrev 0 _ hL.1, hreads.singular 1 _ hL.2⟩

end MgStd.Mglist
