import MgStd.Mglist.Refine
/-!
# Cutting a list

`mglist_cut_position` moves the elements up to an entry to another head, and
`mglist_splice` puts them back. An empty list is not cut, and then the other
head stays as it was, whatever it points to.
-/

namespace MgStd.Mglist

open MgStd.Lib List

variable {A : Type} [DecidableEq A] {m m' : Mem A} {L K : Lists A} {a head list entry n : A} {ms xs ys : List A}

/-- A record that was no head is given a ring. -/
theorem Rep.insert (hr : Rep m L) (hring : Ring m.next m.prev (head :: ms)) (hnd : (head :: ms).Nodup)
    (halloc : ∀ a ∈ head :: ms, m.alloc a = true) (hout : ∀ a ∈ head :: ms, ∀ h, ¬ On L a h) :
    Rep m (Function.update L head (some ms)) :=
  hr.edit (fun _ _ h => h) rfl (fun _ _ _ _ => ⟨rfl, rfl⟩) hring hnd halloc fun a ha h ho => absurd ho (hout a ha h)

omit [DecidableEq A] in
/-- Some of the rings. -/
theorem Rep.sub (hr : Rep m L) (hK : ∀ h ms, K h = some ms → L h = some ms) : Rep m K := by
  have hon : ∀ a h, On K a h → On L a h := fun a h ⟨ms, hms, ha⟩ => ⟨ms, hK h ms hms, ha⟩
  exact ⟨fun h ms hms => hr.ring h ms (hK h ms hms), fun h ms hms => hr.nodup h ms (hK h ms hms),
    fun a h₁ h₂ ho₁ ho₂ => hr.apart a h₁ h₂ (hon a h₁ ho₁) (hon a h₂ ho₂), fun h ms hms => hr.alloc h ms (hK h ms hms)⟩

/-- How many elements there are up to `entry`; none if it is the head. -/
def cutNum (L : Lists A) (head entry : A) : Nat := (head :: (L head).getD []).idxOf entry

/-- The elements up to `entry` go to `list`. -/
def cut (L : Lists A) (list head entry : A) : Lists A :=
  Function.update (setList L head (·.drop (cutNum L head entry))) list (some (((L head).getD []).take (cutNum L head entry)))

theorem cut_head (hL : L head = some ms) :
    cut L list head head = Function.update (Function.update L head (some ms)) list (some []) := by
  unfold cut cutNum
  rw [setList_eq hL, hL, Option.getD_some, idxOf_cons_self, drop_zero, take_zero]

theorem cut_at (hL : L head = some (xs ++ entry :: ys)) (hnd : (head :: (xs ++ entry :: ys)).Nodup) :
    cut L list head entry = Function.update (Function.update L head (some ys)) list (some (xs ++ [entry])) := by
  have hnum : cutNum L head entry = (xs ++ [entry]).length := by
    have hnot : entry ∉ head :: xs := by
      rw [← cons_append, nodup_append] at hnd
      exact fun h => hnd.2.2 entry h entry mem_cons_self rfl
    unfold cutNum
    rw [hL, Option.getD_some, ← cons_append, idxOf_append_of_notMem hnot, idxOf_cons_self, length_cons, length_append,
      length_singleton]
  unfold cut
  rw [setList_eq hL, hL, Option.getD_some, hnum, append_cons xs entry ys, drop_left, take_left]

/-- The ring of `head` is cut in two, one of them that of `list`. -/
theorem Rep.split (hr : Rep m L) (hL : L head = some (xs ++ ys)) (halloc : m.alloc list = true) (hlist : ∀ h, ¬ On L list h)
    (ha : m'.alloc = m.alloc)
    (hframe : ∀ a, a ≠ list → a ∉ head :: (xs ++ ys) → m'.next a = m.next a ∧ m'.prev a = m.prev a)
    (hcut : Ring m'.next m'.prev (list :: xs)) (hrest : Ring m'.next m'.prev (head :: ys)) :
    Rep m' (Function.update (Function.update L head (some ys)) list (some xs)) := by
  have hall := hr.alloc _ _ hL
  have hlistmem : list ∉ head :: (xs ++ ys) := fun h => hlist head ⟨_, hL, h⟩
  have hnd : (head :: ys).Nodup ∧ (list :: xs).Nodup ∧ ∀ a ∈ head :: ys, a ∉ list :: xs := by
    have hnd := nodup_cons.2 ⟨hlistmem, hr.nodup _ _ hL⟩
    have hperm : (list :: head :: (xs ++ ys)).Perm ((head :: ys) ++ (list :: xs)) := by
      have hparts : ((list :: xs) ++ ys).Perm (ys ++ (list :: xs)) := perm_append_comm
      exact (Perm.swap head list (xs ++ ys)).trans (hparts.cons head)
    obtain ⟨hys, hxs, hdisj⟩ := nodup_append.1 (hperm.nodup_iff.1 hnd)
    exact ⟨hys, hxs, fun a ha ha' => hdisj a ha a ha' rfl⟩
  obtain ⟨hndys, hndxs, hdisj⟩ := hnd
  have hkeep : ∀ a ∈ head :: ys, a ∈ head :: (xs ++ ys) := fun a ha => by
    rw [mem_cons, mem_append]
    exact (mem_cons.1 ha).imp_right .inr
  have hmoved : ∀ a ∈ list :: xs, a = list ∨ a ∈ head :: (xs ++ ys) := fun a ha => by
    rw [mem_cons, mem_append]
    exact (mem_cons.1 ha).imp_right fun h => .inr (.inl h)
  have hother : ∀ a h, On (forget L head) a h → a ≠ list ∧ a ∉ head :: (xs ++ ys) := by
    intro a h ho
    obtain ⟨hne, ho⟩ := on_forget ho
    exact ⟨fun e => hlist h (e ▸ ho), fun hmem => hne (hr.apart a h head ho ⟨_, hL, hmem⟩)⟩
  -- first the ring of `head` beside the others, then that of `list`
  have hhead : Rep m' (Function.update (forget L head) head (some ys)) := by
    refine hr.edit (fun h ms h' => (forget_some h').2) ha (fun a h ho _ => ?_) hrest hndys (fun a ha => hall a (hkeep a ha)) ?_
    · exact hframe a (hother a h ho).1 (hother a h ho).2
    · exact fun a ha h ho => absurd (hkeep a ha) (hother a h ho).2
  unfold forget at hhead
  rw [Function.update_idem] at hhead
  refine hhead.insert hcut hndxs (fun a hin => ?_) ?_
  · rw [ha]
    rcases hmoved a hin with rfl | hmem
    · exact halloc
    · exact hall a hmem
  · rintro a hin h ⟨ks, hks, hak⟩
    by_cases he : h = head
    · rw [he, Function.update_self] at hks
      cases hks
      exact hdisj a (he ▸ hak) hin
    · rw [Function.update_of_ne he] at hks
      rcases hmoved a hin with rfl | hmem
      · exact hlist h ⟨ks, hks, hak⟩
      · exact he (hr.apart a h head ⟨ks, hks, hak⟩ ⟨_, hL, hmem⟩)

/-- `__mglist_cut_position` behind an element. -/
theorem Rep.cutPositionAt (hr : Rep m L) (hL : L head = some (xs ++ entry :: ys)) (halloc : m.alloc list = true)
    (hlist : ∀ h, ¬ On L list h) : Returns (mglistCutPositionAt (some list) (some head) (some entry)) m fun _ m' =>
      Rep m' (Function.update (Function.update L head (some ys)) list (some (xs ++ [entry]))) := by
  have hring := hr.ring _ _ hL
  have hnd := hr.nodup _ _ hL
  have hall := hr.alloc _ _ hL
  have hlistmem : list ∉ head :: (xs ++ entry :: ys) := fun h => hlist head ⟨_, hL, h⟩
  have hnext := hring.next_mem
  have hfirst := hring.next_head
  rw [append_cons] at hring hnd hall hlistmem hL
  have hxs : xs ++ [entry] ≠ [] := by simp
  have hlast : (xs ++ [entry]).getLast hxs = entry := getLast_append_singleton xs
  obtain ⟨first, hfst⟩ : ∃ first, (xs ++ [entry]).head hxs = first := ⟨_, rfl⟩
  obtain ⟨n, hn⟩ : ∃ n, (ys ++ [head]).head (by simp) = n := ⟨_, rfl⟩
  rw [hn] at hnext
  have hnext' : m.next head = some first := by
    rw [hfirst, ← hfst]
    cases xs <;> rfl
  have hfirstmem : first ∈ head :: (xs ++ [entry] ++ ys) :=
    mem_cons_of_mem head (mem_append_left ys (hfst ▸ head_mem hxs))
  have hentrymem : entry ∈ head :: (xs ++ [entry] ++ ys) := by simp
  have hnmem : n ∈ head :: (xs ++ [entry] ++ ys) := by
    rcases mem_cons.1 (head_concat_mem hn) with rfl | hin
    · exact mem_cons_self
    · exact mem_cons_of_mem head (mem_append_right _ hin)
  obtain ⟨hcut, hrest⟩ := hring.cut hn hxs hfst hlast (nodup_cons.2 ⟨hlistmem, hnd⟩) rfl rfl
  unfold mglistCutPositionAt
  simp only [returns_bind, returns_nextOf, returns_setNext, returns_setPrev, hnext, hnext', Function.update_self]
  refine ⟨hall _ hentrymem, hall _ mem_cons_self, halloc, halloc, hall _ hfirstmem, halloc, hall _ hentrymem,
    hall _ mem_cons_self, hall _ hnmem, hr.split hL halloc hlist rfl (fun a hal hout => ?_) hcut hrest⟩
  have hah : a ≠ head := fun e => hout (e ▸ mem_cons_self)
  have hae : a ≠ entry := fun e => hout (e ▸ hentrymem)
  have haf : a ≠ first := fun e => hout (e ▸ hfirstmem)
  have han : a ≠ n := fun e => hout (e ▸ hnmem)
  exact ⟨by simp only [Function.update_of_ne hal, Function.update_of_ne hah, Function.update_of_ne hae],
    by simp only [Function.update_of_ne hal, Function.update_of_ne haf, Function.update_of_ne han]⟩

theorem Rep.cutPosition (hr : Rep m L) (hL : L head = some ms) (hms : ms ≠ []) (halloc : m.alloc list = true)
    (hlist : ∀ h, ¬ On L list h) (hentry : entry ∈ head :: ms) :
    Returns (mglistCutPosition (some list) (some head) (some entry)) m fun _ m' => Rep m' (cut L list head entry) := by
  unfold mglistCutPosition
  refine (hr.empty hL).bind fun b m₁ h => ?_
  obtain ⟨rfl, rfl⟩ := h
  simp only [hms, decide_false, Bool.false_eq_true, not_false_eq_true, if_true]
  refine (hr.singular hL).bind fun b m₂ h => ?_
  obtain ⟨rfl, rfl⟩ := h
  have hinside : ¬ (decide (ms.length = 1) = true ∧ m₂.next head ≠ some entry ∧ some head ≠ some entry) := by
    rintro ⟨hone, hnext, hhead⟩
    obtain ⟨y, rfl⟩ := length_eq_one_iff.1 (of_decide_eq_true hone)
    rw [(hr.ring _ _ hL).next_head] at hnext
    rcases mem_cons.1 hentry with rfl | hentry
    · exact hhead rfl
    · exact hnext (congrArg some (mem_singleton.1 hentry).symm)
  rw [returns_bind, returns_nextOf, if_pos hinside, returns_ite, Option.some.injEq]
  refine ⟨hr.alloc _ _ hL head mem_cons_self, ?_, ?_⟩
  · rintro rfl
    rw [cut_head hL, ← hL, Function.update_eq_self]
    exact (hr.init ⟨halloc, fun h ho => absurd ho (hlist h)⟩).mono fun _ m' h => h.1
  · intro hne
    obtain ⟨xs, ys, rfl⟩ := append_of_mem ((mem_cons.1 hentry).resolve_left hne)
    rw [cut_at hL (hr.nodup _ _ hL)]
    exact hr.cutPositionAt hL halloc hlist

/-- An empty list is left alone, and so is the other head. -/
theorem Rep.cutPosition_empty (hr : Rep m L) (hL : L head = some []) :
    Returns (mglistCutPosition (some list) (some head) (some entry)) m fun _ m' => m' = m := by
  unfold mglistCutPosition
  refine (hr.empty hL).bind fun b m₁ h => ?_
  obtain ⟨rfl, rfl⟩ := h
  simp

theorem Rep.splice (hr : Rep m L) (hL : L head = some ms) (hlist : L list = some xs) (hne : list ≠ head) :
    Returns (mglistSplice (some list) (some head)) m fun _ m' =>
      Rep m' (Function.update (forget L list) head (some (xs ++ ms))) := by
  unfold mglistSplice
  refine (hr.empty hlist).bind fun b m' h => ?_
  obtain ⟨rfl, rfl⟩ := h
  by_cases hxs : xs = []
  · subst hxs
    have hsame : Function.update (forget L list) head (some ms) = forget L list := by
      rw [← hL, ← forget_ne (L := L) hne, Function.update_eq_self]
    simp only [decide_true, not_true_eq_false, if_false, returns_pure, nil_append, hsame]
    exact hr.sub fun h ks hks => (forget_some hks).2
  · simp only [hxs, decide_false, Bool.false_eq_true, not_false_eq_true, if_true, returns_bind, returns_nextOf,
      (hr.ring _ _ hL).next_head]
    exact ⟨hr.alloc _ _ hL head mem_cons_self,
      (hr.spliceBetween hL hlist hxs hne (.refl _) rfl (.refl (head :: (xs ++ ms)))).mono fun _ m₁ h => h.1⟩

/-- What was cut off is put back. -/
theorem Rep.spliceCut (hr : Rep m (cut L list head entry)) (hL : L head = some ms) (hlist : ∀ h, ¬ On L list h) :
    Returns (mglistSplice (some list) (some head)) m fun _ m' => Rep m' L := by
  have hne : list ≠ head := fun e => hlist head ⟨ms, hL, e ▸ mem_cons_self⟩
  have hnone : L list = none := Option.eq_none_iff_forall_ne_some.2 fun ks hks => hlist list (on_head hks)
  unfold cut at hr
  rw [setList_eq hL, hL, Option.getD_some] at hr
  refine (hr.splice (by rw [Function.update_of_ne hne.symm, Function.update_self]) (Function.update_self ..) hne).mono ?_
  intro _ m' h
  rw [take_append_drop] at h
  unfold forget at h
  rwa [Function.update_idem, Function.update_comm hne.symm, Function.update_idem, ← hL, ← hnone, Function.update_eq_self,
    Function.update_eq_self] at h

/-- For every list, entry of it or its head, and other head, wherever that points to: both are well formed after the cut, hold the
two parts, and splicing restores the list, exactly when the list is not empty, or the other head was already that of an empty one. -/
theorem mglist_cut_position_iff (hr : Rep m L) (hL : L head = some ms) (halloc : m.alloc list = true)
    (hlist : ∀ h, ¬ On L list h) (hentry : entry ∈ head :: ms) :
    Returns (mglistCutPosition (some list) (some head) (some entry)) m (fun _ m' => Rep m' (cut L list head entry) ∧
      Returns (mglistSplice (some list) (some head)) m' fun _ m'' => Rep m'' L) ↔
    ms ≠ [] ∨ m.next list = some list ∧ m.prev list = some list := by
  by_cases hms : ms = []
  · subst hms
    obtain rfl := mem_singleton.1 hentry
    rw [or_iff_right (not_not_intro rfl), ← ring_single]
    refine Returns.iff_of ((hr.cutPosition_empty hL).mono fun _ m' h => ?_)
    subst h
    have hcut : cut L list entry entry = Function.update L list (some []) := by
      conv_rhs => rw [← Function.update_eq_self entry L, hL]
      exact cut_head hL
    constructor
    · exact fun h => h.1.ring list [] (by rw [hcut, Function.update_self])
    · intro hring
      have hrep : Rep m' (cut L list entry entry) := by
        rw [hcut]
        refine hr.insert hring (nodup_singleton list) (fun a ha => ?_) fun a ha => ?_
        · rw [mem_singleton.1 ha]
          exact halloc
        · rw [mem_singleton.1 ha]
          exact hlist
      exact ⟨hrep, hrep.spliceCut hL hlist⟩
  · refine iff_of_true ((hr.cutPosition hL hms halloc hlist hentry).mono fun _ m' h => ?_) (.inl hms)
    exact ⟨h, h.spliceCut hL hlist⟩

/-- Each record linked to the next. -/
def links (m : Mem A) : List A → Mem A
  | x :: y :: l => links { m with next := Function.update m.next x (some y), prev := Function.update m.prev y (some x) } (y :: l)
  | _ => m

/-- One list. -/
def single (head : A) (ms : List A) : Lists A := Function.update (fun _ => none) head (some ms)

theorem rep_single (hring : Ring m.next m.prev (head :: ms)) (hnd : (head :: ms).Nodup)
    (halloc : ∀ a ∈ head :: ms, m.alloc a = true) : Rep m (single head ms) :=
  (rep_none m).insert hring hnd halloc fun _ _ _ ⟨_, h, _⟩ => nomatch h

/-- Two elements, cut behind the first; the other head was never initialised. -/
theorem mglist_cut_position_iff_two :
    Returns (mglistCutPosition (some 1) (some 0) (some 2)) (links blank [0, 2, 3, 0]) fun _ m =>
      Rep m (cut (single 0 [2, 3]) 1 0 2) ∧
      Returns (mglistSplice (some 1) (some 0)) m fun _ m' => Rep m' (single 0 [2, 3]) := by
  have hrep : Rep (links blank [0, 2, 3, 0]) (single 0 [2, 3]) := rep_single (ring_cons.2 (by simp [Linked, links])) (by decide) (by decide)
  exact (mglist_cut_position_iff hrep rfl rfl (by decide) (by decide)).2 (.inl (by decide))

/-- A cut of an empty list leaves an element on the other head, and splicing that moves the element over. -/
theorem mglist_cut_position_empty : Rep (links (links blank [0, 0]) [1, 2, 1]) (single 0 []) ∧
    (∀ h, ¬ On (single (0 : Fin 8) []) 1 h) ∧
    Returns (mglistCutPosition (some 1) (some 0) (some 0)) (links (links blank [0, 0]) [1, 2, 1]) fun _ m =>
      m.next 1 = some 2 ∧ ¬ Rep m (cut (single 0 []) 1 0 0) ∧
      Returns (mglistSplice (some 1) (some 0)) m fun _ m' => m'.next 0 = some 2 ∧ ¬ Rep m' (single 0 []) := by
  refine ⟨rep_single (ring_single.2 ⟨rfl, rfl⟩) (by decide) (by decide), by decide, _, _, rfl, rfl, ?_, _, _, rfl, rfl, ?_⟩
  · intro hr
    have hnext := (hr.next_eq_head (show cut (single 0 []) 1 0 0 1 = some [] from rfl)).2 rfl
    exact absurd hnext (by decide)
  · intro hr
    have hnext := (hr.next_eq_head (show single (0 : Fin 8) [] 0 = some [] from rfl)).2 rfl
    exact absurd hnext (by decide)

end MgStd.Mglist
