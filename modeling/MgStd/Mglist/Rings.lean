import MgStd.Lib.Ring
import MgStd.Mglist.Code
/-!
# Lists as rings of records

`Lists` gives each head the sequence of its elements. `Rep` says that a memory
holds these sequences as rings that have no record in common. The writes of
mglist.c edit one ring each; `Rep.edit` carries the others through.
-/

namespace MgStd.Mglist

open MgStd.Lib List

variable {A : Type}

/-! ## Reads and writes -/

section
variable {m : Mem A} {a : A} {q : Ptr A}

@[simp] theorem returns_record (Q : A → Mem A → Prop) :
    Returns (record (some a)) m Q ↔ m.alloc a = true ∧ Q a m := by
  unfold record
  by_cases h : m.alloc a = true <;> simp [h]

@[simp] theorem returns_nextOf (Q : Ptr A → Mem A → Prop) :
    Returns (nextOf (some a)) m Q ↔ m.alloc a = true ∧ Q (m.next a) m := by
  unfold nextOf
  simp

@[simp] theorem returns_prevOf (Q : Ptr A → Mem A → Prop) :
    Returns (prevOf (some a)) m Q ↔ m.alloc a = true ∧ Q (m.prev a) m := by
  unfold prevOf
  simp

variable [DecidableEq A]

@[simp] theorem returns_setNext (Q : Unit → Mem A → Prop) : Returns (setNext (some a) q) m Q ↔
    m.alloc a = true ∧ Q () { m with next := Function.update m.next a q } := by
  unfold setNext
  simp

@[simp] theorem returns_setPrev (Q : Unit → Mem A → Prop) : Returns (setPrev (some a) q) m Q ↔
    m.alloc a = true ∧ Q () { m with prev := Function.update m.prev a q } := by
  unfold setPrev
  simp

end

/-! ## What a memory represents -/

/-- The elements of each head, in order; `none` for a record that is not a head. -/
abbrev Lists (A : Type) := A → Option (List A)

/-- `a` is on the ring of `head`. -/
def On (L : Lists A) (a head : A) : Prop := ∃ ms, L head = some ms ∧ a ∈ head :: ms

/-- The memory holds each list as a ring of allocated records; a record is on one ring at most, and once. -/
structure Rep (m : Mem A) (L : Lists A) : Prop where
  ring : ∀ head ms, L head = some ms → Ring m.next m.prev (head :: ms)
  nodup : ∀ head ms, L head = some ms → (head :: ms).Nodup
  apart : ∀ a h₁ h₂, On L a h₁ → On L a h₂ → h₁ = h₂
  alloc : ∀ head ms, L head = some ms → ∀ a ∈ head :: ms, m.alloc a = true

/-- The record is allocated and on no ring but, perhaps, its own. -/
def Free (m : Mem A) (L : Lists A) (a : A) : Prop := m.alloc a = true ∧ ∀ h, On L a h → L a = some []

variable {m m' : Mem A} {L K : Lists A} {a head list new old x p n first last : A} {ms ms' xs rest : List A}

theorem on_head (h : L head = some ms) : On L head head := ⟨ms, h, mem_cons_self⟩

theorem on_mem (h : L head = some ms) (ha : a ∈ ms) : On L a head := ⟨ms, h, mem_cons_of_mem head ha⟩

variable [DecidableEq A]

/-- One ring is edited, others may be given up; the rest is as it was. -/
theorem Rep.edit (hr : Rep m L) (hK : ∀ h ms, K h = some ms → L h = some ms) (halloc : m'.alloc = m.alloc)
    (hframe : ∀ a h, On K a h → h ≠ head → m'.next a = m.next a ∧ m'.prev a = m.prev a)
    (hring : Ring m'.next m'.prev (head :: ms')) (hnd : (head :: ms').Nodup)
    (hall : ∀ a ∈ head :: ms', m.alloc a = true) (hnew : ∀ a ∈ head :: ms', ∀ h, On K a h → h = head) :
    Rep m' (Function.update K head (some ms')) := by
  have hat : ∀ h ms, Function.update K head (some ms') h = some ms → h = head ∧ ms = ms' ∨ h ≠ head ∧ K h = some ms := by
    intro h ms hms
    by_cases he : h = head
    · rw [he, Function.update_self] at hms
      exact .inl ⟨he, (Option.some.inj hms).symm⟩
    · rw [Function.update_of_ne he] at hms
      exact .inr ⟨he, hms⟩
  have hon : ∀ a h, On (Function.update K head (some ms')) a h → h = head ∧ a ∈ head :: ms' ∨ h ≠ head ∧ On K a h := by
    rintro a h ⟨ms, hms, ha⟩
    rcases hat h ms hms with ⟨rfl, rfl⟩ | ⟨hne, hK'⟩
    · exact .inl ⟨rfl, ha⟩
    · exact .inr ⟨hne, ms, hK', ha⟩
  have honL : ∀ a h, On K a h → On L a h := fun a h ⟨ms, hms, ha⟩ => ⟨ms, hK h ms hms, ha⟩
  refine ⟨fun h ms hms => ?_, fun h ms hms => ?_, fun a h₁ h₂ ho₁ ho₂ => ?_, fun h ms hms a ha => ?_⟩
  · rcases hat h ms hms with ⟨rfl, rfl⟩ | ⟨hne, hK'⟩
    · exact hring
    · exact (hr.ring h ms (hK h ms hK')).congr fun a ha => hframe a h ⟨ms, hK', ha⟩ hne
  · rcases hat h ms hms with ⟨rfl, rfl⟩ | ⟨-, hK'⟩
    · exact hnd
    · exact hr.nodup h ms (hK h ms hK')
  · rcases hon a h₁ ho₁ with ⟨rfl, ha⟩ | ⟨hne₁, hk₁⟩ <;> rcases hon a h₂ ho₂ with ⟨rfl, ha'⟩ | ⟨hne₂, hk₂⟩
    · rfl
    · exact (hnew a ha h₂ hk₂).symm
    · exact hnew a ha' h₁ hk₁
    · exact hr.apart a h₁ h₂ (honL a h₁ hk₁) (honL a h₂ hk₂)
  · rw [halloc]
    rcases hat h ms hms with ⟨rfl, rfl⟩ | ⟨-, hK'⟩
    · exact hall a ha
    · exact hr.alloc h ms (hK h ms hK') a ha

/-- Giving up a head. -/
def forget (L : Lists A) (a : A) : Lists A := Function.update L a none

theorem forget_some (h : forget L a head = some ms) : head ≠ a ∧ L head = some ms := by
  unfold forget at h
  by_cases he : head = a
  · rw [he, Function.update_self] at h
    cases h
  · rw [Function.update_of_ne he] at h
    exact ⟨he, h⟩

theorem Free.not_on (hf : Free m L a) (hr : Rep m L) {h : A} : ¬ On (forget L a) a h := by
  rintro ⟨ms, hms, ha⟩
  obtain ⟨hne, hms⟩ := forget_some hms
  have hself := hf.2 h ⟨ms, hms, ha⟩
  exact hne (hr.apart a h a ⟨ms, hms, ha⟩ (on_head hself))

theorem on_forget (h : On (forget L x) a head) : head ≠ x ∧ On L a head := by
  obtain ⟨ms, hms, ha⟩ := h
  obtain ⟨hne, hms⟩ := forget_some hms
  exact ⟨hne, ms, hms, ha⟩

/-! ## The edits -/

theorem Rep.init (hr : Rep m L) (hf : Free m L a) : Returns (initMgListHead (some a)) m fun _ m' =>
    Rep m' (Function.update L a (some [])) ∧ m'.alloc = m.alloc := by
  unfold initMgListHead
  simp only [returns_bind, returns_setNext, returns_setPrev]
  refine ⟨hf.1, hf.1, ?_, trivial⟩
  have hown : ∀ b, b = a → ∀ h, On L b h → h = a := by
    rintro b rfl h ho
    exact hr.apart b h b ho (on_head (hf.2 h ho))
  refine hr.edit (fun _ _ h => h) rfl (fun b h ho hne => ?_) ?_ (nodup_singleton a) ?_ ?_
  · have hba : b ≠ a := fun e => hne (hown b e h ho)
    exact ⟨Function.update_of_ne hba _ _, Function.update_of_ne hba _ _⟩
  · exact ring_single.2 ⟨Function.update_self .., Function.update_self ..⟩
  · intro b hb
    rw [mem_singleton.1 hb]
    exact hf.1
  · exact fun b hb => hown b (mem_singleton.1 hb)

/-- `__mglist_add` between `p` and the record that follows it on the ring of `head`. -/
theorem Rep.addBetween (hr : Rep m L) (hL : L head = some ms) (hf : Free m L new) (hne : new ≠ head)
    (hrot : (head :: ms) ~r (p :: rest)) (hn : (rest ++ [p]).head (by simp) = n)
    (hrot' : (head :: ms') ~r (p :: new :: rest)) :
    Returns (mglistAddBetween (some new) (some p) (some n)) m fun _ m' =>
      Rep m' (Function.update (forget L new) head (some ms')) ∧ m'.alloc = m.alloc := by
  have hmem : ∀ b, b ∈ head :: ms ↔ b ∈ p :: rest := fun b => hrot.mem_iff
  have hnmem : n ∈ head :: ms := (hmem n).2 (head_concat_mem hn)
  have hpmem : p ∈ head :: ms := (hmem p).2 mem_cons_self
  have hnewmem : new ∉ head :: ms := fun h => hne (hr.apart new head new ⟨ms, hL, h⟩ (on_head (hf.2 head ⟨ms, hL, h⟩))).symm
  have hnd : ([new] ++ p :: rest).Nodup := nodup_cons.2 ⟨fun h => hnewmem ((hmem new).2 h), hrot.nodup_iff.1 (hr.nodup _ _ hL)⟩
  have hpn : p ≠ new := fun e => hnewmem (e ▸ hpmem)
  have hnn : n ≠ new := fun e => hnewmem (e ▸ hnmem)
  have halloc := hr.alloc head ms hL
  unfold mglistAddBetween
  simp only [returns_bind, returns_setNext, returns_setPrev]
  refine ⟨halloc n hnmem, hf.1, hf.1, halloc p hpmem, ?_, trivial⟩
  have hring : Ring (Function.update (Function.update m.next p (some new)) new (some n))
      (Function.update (Function.update m.prev new (some p)) n (some new)) (p :: ([new] ++ rest)) :=
    ((ring_isRotated hrot).1 (hr.ring _ _ hL)).splice hn (cons_ne_nil new []) (isChain_singleton new) rfl rfl hnd
  rw [Function.update_comm hpn, Function.update_comm hnn.symm] at hring
  refine hr.edit (fun h ms h' => (forget_some h').2) rfl (fun b h ho hh => ?_) ((ring_isRotated hrot').2 hring) ?_ ?_ ?_
  · have hb := (on_forget ho).2
    have hout : b ∉ head :: ms := fun hmem => hh (hr.apart b h head hb ⟨ms, hL, hmem⟩)
    have hbn : b ≠ new := fun e => hf.not_on hr (e ▸ ho)
    have hbp : b ≠ p := fun e => hout (e ▸ hpmem)
    have hbn' : b ≠ n := fun e => hout (e ▸ hnmem)
    exact ⟨by simp only [Function.update_of_ne hbp, Function.update_of_ne hbn],
      by simp only [Function.update_of_ne hbn, Function.update_of_ne hbn']⟩
  · rw [hrot'.nodup_iff]
    exact (@perm_middle A new [p] rest).nodup_iff.2 hnd
  · intro b hb
    rw [hrot'.mem_iff, mem_cons, mem_cons, or_left_comm, ← mem_cons, ← hmem] at hb
    rcases hb with rfl | hb
    · exact hf.1
    · exact halloc b hb
  · intro b hb h ho
    rw [hrot'.mem_iff, mem_cons, mem_cons, or_left_comm, ← mem_cons, ← hmem] at hb
    rcases hb with rfl | hb
    · exact absurd ho (hf.not_on hr)
    · exact hr.apart b h head (on_forget ho).2 ⟨ms, hL, hb⟩

/-- The record is an element of some list. -/
def Member (L : Lists A) (a : A) : Prop := ∃ head ms, L head = some ms ∧ a ∈ ms

/-- The lists without the element. -/
def remove (L : Lists A) (a : A) : Lists A := fun h => (L h).map (·.erase a)

theorem Rep.remove_eq (hr : Rep m L) (hL : L head = some ms) (hx : x ∈ ms) :
    remove L x = Function.update L head (some (ms.erase x)) := by
  funext h
  unfold remove
  by_cases he : h = head
  · rw [he, hL, Function.update_self]
    rfl
  · rw [Function.update_of_ne he]
    cases hh : L h with
    | none => rfl
    | some ks =>
      have hnot : x ∉ ks := fun hk => he (hr.apart x h head (on_mem hh hk) (on_mem hL hx))
      rw [Option.map_some, erase_of_not_mem hnot]

/-- What is needed to know of an element on its ring: its neighbours. -/
theorem Rep.neighbours (hr : Rep m L) (hL : L head = some ms) (hx : x ∈ ms) : ∃ rest, ∃ hne : rest ≠ [],
    (head :: ms) ~r (x :: rest) ∧ (head :: ms.erase x) ~r rest ∧ m.prev x = some (rest.getLast hne) ∧
      m.next x = some (rest.head hne) := by
  obtain ⟨as, bs, rfl⟩ := append_of_mem hx
  have hnd := hr.nodup _ _ hL
  have herase : (as ++ x :: bs).erase x = as ++ bs := by
    have hnot : x ∉ as := by
      rw [nodup_cons, nodup_append] at hnd
      exact fun h => hnd.2.2.2 x h x mem_cons_self rfl
    rw [erase_append_right _ hnot, erase_cons_head]
  have hrot : (head :: (as ++ x :: bs)) ~r (x :: (bs ++ head :: as)) := by
    rw [← cons_append, ← cons_append]
    exact isRotated_append
  have hring := (ring_isRotated hrot).1 (hr.ring _ _ hL)
  refine ⟨bs ++ head :: as, by simp, hrot, ?_, ?_, ?_⟩
  · rw [herase, ← cons_append]
    exact isRotated_append
  · rw [hring.prev_head, getLast_cons (by simp)]
  · rw [hring.next_head]
    cases bs <;> rfl

/-- `__mglist_del` of the neighbours of an element. -/
theorem Rep.delBetween (hr : Rep m L) (hL : L head = some ms) (hx : x ∈ ms) {p n : A} (hp : m.prev x = some p)
    (hn : m.next x = some n) : Returns (mglistDelBetween (some p) (some n)) m fun _ m' =>
      Rep m' (remove L x) ∧ m'.alloc = m.alloc := by
  obtain ⟨rest, hne, hrot, hrot', hprev, hnext⟩ := hr.neighbours hL hx
  rw [hp, Option.some.injEq] at hprev
  rw [hn, Option.some.injEq] at hnext
  have halloc := hr.alloc head ms hL
  have hmem : ∀ b ∈ rest, b ∈ head :: ms := fun b hb => hrot.mem_iff.2 (mem_cons_of_mem x hb)
  have hpmem : p ∈ head :: ms := hmem p (hprev ▸ getLast_mem hne)
  have hnmem : n ∈ head :: ms := hmem n (hnext ▸ head_mem hne)
  have hnd : (x :: rest).Nodup := hrot.nodup_iff.1 (hr.nodup _ _ hL)
  have hring := ((ring_isRotated hrot).1 (hr.ring _ _ hL)).unlink hne hprev.symm hnext.symm (nodup_cons.1 hnd).2
  unfold mglistDelBetween
  simp only [returns_bind, returns_setNext, returns_setPrev]
  refine ⟨halloc n hnmem, halloc p hpmem, ?_, trivial⟩
  rw [hr.remove_eq hL hx]
  refine hr.edit (fun _ _ h => h) rfl (fun b h ho hh => ?_) ((ring_isRotated hrot').2 hring) ?_ ?_ ?_
  · have hout : b ∉ head :: ms := fun hmem => hh (hr.apart b h head ho ⟨ms, hL, hmem⟩)
    have hbp : b ≠ p := fun e => hout (e ▸ hpmem)
    have hbn : b ≠ n := fun e => hout (e ▸ hnmem)
    exact ⟨Function.update_of_ne hbp _ _, Function.update_of_ne hbn _ _⟩
  · exact hrot'.nodup_iff.2 (nodup_cons.1 hnd).2
  · exact fun b hb => halloc b (hmem b (hrot'.mem_iff.1 hb))
  · exact fun b hb h ho => hr.apart b h head ho ⟨ms, hL, hmem b (hrot'.mem_iff.1 hb)⟩

/-- A removed element is free. -/
theorem Rep.not_on_remove (hr : Rep m L) (hx : Member L x) {h : A} : ¬ On (remove L x) x h := by
  obtain ⟨head, ms, hL, hmem⟩ := hx
  rw [hr.remove_eq hL hmem]
  have hnd := hr.nodup _ _ hL
  rintro ⟨ks, hks, hx⟩
  by_cases he : h = head
  · rw [he, Function.update_self] at hks
    cases hks
    rcases mem_cons.1 hx with rfl | hx
    · exact (nodup_cons.1 hnd).1 (he ▸ hmem)
    · exact ((nodup_cons.1 hnd).2.mem_erase_iff.1 hx).1 rfl
  · rw [Function.update_of_ne he] at hks
    exact he (hr.apart x h head ⟨ks, hks, hx⟩ (on_mem hL hmem))

omit [DecidableEq A] in
theorem Rep.alloc_member (hr : Rep m L) (hx : Member L x) : m.alloc x = true := by
  obtain ⟨head, ms, hL, hmem⟩ := hx
  exact hr.alloc head ms hL x (mem_cons_of_mem head hmem)

theorem Rep.delEntry (hr : Rep m L) (hx : Member L x) : Returns (mglistDelEntry (some x)) m fun _ m' =>
    Rep m' (remove L x) ∧ m'.alloc = m.alloc := by
  obtain ⟨head, ms, hL, hmem⟩ := hx
  obtain ⟨rest, hne, -, -, hprev, hnext⟩ := hr.neighbours hL hmem
  unfold mglistDelEntry
  simp only [returns_bind, returns_prevOf, returns_nextOf, hprev, hnext]
  have halloc := hr.alloc head ms hL x (mem_cons_of_mem head hmem)
  exact ⟨halloc, halloc, hr.delBetween hL hmem hprev hnext⟩

omit [DecidableEq A] in
/-- Writing a record that is on no ring, or giving it up. -/
theorem Rep.write_free (hr : Rep m L) (hx : ∀ h, ¬ On L x h) {m' : Mem A}
    (hframe : ∀ a, a ≠ x → m'.alloc a = m.alloc a ∧ m'.next a = m.next a ∧ m'.prev a = m.prev a) : Rep m' L := by
  have hne : ∀ h ms, L h = some ms → ∀ a ∈ h :: ms, a ≠ x := fun h ms hL a ha e => hx h ⟨ms, hL, e ▸ ha⟩
  exact ⟨fun h ms hL => (hr.ring h ms hL).congr fun a ha => (hframe a (hne h ms hL a ha)).2, hr.nodup, hr.apart,
    fun h ms hL a ha => (hframe a (hne h ms hL a ha)).1.trans (hr.alloc h ms hL a ha)⟩

theorem Rep.del (hr : Rep m L) (hx : Member L x) : Returns (mglistDel (some x)) m fun _ m' =>
    Rep m' (remove L x) ∧ m'.alloc = m.alloc := by
  have hxa := hr.alloc_member hx
  have hdel := hr.delEntry hx
  unfold mglistDelEntry at hdel
  unfold mglistDel
  simp only [returns_bind, returns_prevOf, returns_nextOf, hxa, true_and, returns_setNext, returns_setPrev] at hdel ⊢
  refine hdel.mono fun _ m' h => ?_
  obtain ⟨hrep, ha⟩ := h
  rw [ha]
  refine ⟨hxa, hxa, hrep.write_free (fun h => hr.not_on_remove hx) fun a hne => ?_, rfl⟩
  exact ⟨congrFun ha.symm a, Function.update_of_ne hne _ _, Function.update_of_ne hne _ _⟩

/-- `mglist_replace` of a record of the ring of `head`; the new ring is that of `head'`, others may be given up. -/
theorem Rep.replaceAt {head' : A} (hr : Rep m L) (hL : L head = some ms) (hf : Free m L new)
    (hnew : ∀ h, On K new h → False) (hrot : (head :: ms) ~r (old :: rest)) (hrot' : (head' :: ms') ~r (new :: rest))
    (hK : ∀ h ks, K h = some ks → L h = some ks) (hhead : ∀ h ks, K h = some ks → h = head → h = head')
    (hne : new ∉ head :: ms) : Returns (mglistReplace (some old) (some new)) m fun _ m' =>
      Rep m' (Function.update K head' (some ms')) ∧ m'.alloc = m.alloc := by
  have hmem : ∀ b, b ∈ head :: ms ↔ b ∈ old :: rest := fun b => hrot.mem_iff
  have holdmem : old ∈ head :: ms := (hmem old).2 mem_cons_self
  have halloc := hr.alloc head ms hL
  have hring := (ring_isRotated hrot).1 (hr.ring _ _ hL)
  have hnd := hrot.nodup_iff.1 (hr.nodup _ _ hL)
  have hno : old ≠ new := fun e => hne (e ▸ holdmem)
  have hnewrest : new ∉ rest := fun h => hne ((hmem new).2 (mem_cons_of_mem old h))
  have honL : ∀ b h, On K b h → On L b h := fun b h ⟨ks, hks, hb⟩ => ⟨ks, hK h ks hks, hb⟩
  have hown : ∀ b ∈ head :: ms, ∀ h, On K b h → h = head' := by
    rintro b hb h ⟨ks, hks, hbk⟩
    exact hhead h ks hks (hr.apart b h head ⟨ks, hK h ks hks, hbk⟩ ⟨ms, hL, hb⟩)
  have hout : ∀ b h, On K b h → h ≠ head' → b ∉ new :: head :: ms := by
    intro b h ho hh hb
    rcases mem_cons.1 hb with rfl | hb
    · exact hnew h ho
    · exact hh (hown b hb h ho)
  have hcollect : ∀ {m' : Mem A}, m'.alloc = m.alloc → (∀ b, b ∉ new :: head :: ms → m'.next b = m.next b ∧ m'.prev b = m.prev b) →
      Ring m'.next m'.prev (new :: rest) → Rep m' (Function.update K head' (some ms')) := by
    intro m' ha hframe hring'
    refine hr.edit hK ha (fun b h ho hh => hframe b (hout b h ho hh)) ((ring_isRotated hrot').2 hring') ?_ ?_ ?_
    · exact hrot'.nodup_iff.2 (nodup_cons.2 ⟨hnewrest, (nodup_cons.1 hnd).2⟩)
    · intro b hb
      rw [hrot'.mem_iff] at hb
      rcases mem_cons.1 hb with rfl | hb
      · exact hf.1
      · exact halloc b ((hmem b).2 (mem_cons_of_mem old hb))
    · intro b hb h ho
      rw [hrot'.mem_iff] at hb
      rcases mem_cons.1 hb with rfl | hb
      · exact absurd ho (hnew h)
      · exact hown b ((hmem b).2 (mem_cons_of_mem old hb)) h ho
  unfold mglistReplace
  cases rest with
  | nil =>
    -- `old` is linked to itself, and the writes to it are read again
    obtain ⟨hnext, hprev⟩ := ring_single.1 hring
    simp only [returns_bind, returns_nextOf, returns_prevOf, returns_setNext, returns_setPrev, hnext,
      Function.update_self]
    have ho := halloc old holdmem
    refine ⟨ho, hf.1, hf.1, ho, ho, hf.1, hf.1, hf.1, ?_, trivial⟩
    refine hcollect rfl (fun b hb => ?_) (ring_single.2 ⟨Function.update_self .., Function.update_self ..⟩)
    have hbn : b ≠ new := fun e => hb (e ▸ mem_cons_self)
    have hbo : b ≠ old := fun e => hb (e ▸ mem_cons_of_mem new holdmem)
    exact ⟨by simp only [Function.update_of_ne hbn], by simp only [Function.update_of_ne hbn, Function.update_of_ne hbo]⟩
  | cons n tl =>
    have hnext : m.next old = some n := hring.next_head
    have hprev := hring.prev_head
    rw [getLast_cons (cons_ne_nil n tl)] at hprev
    generalize hp : (n :: tl).getLast (cons_ne_nil n tl) = p at hprev
    have hpmem : p ∈ n :: tl := hp ▸ getLast_mem _
    have hpm : p ∈ head :: ms := (hmem p).2 (mem_cons_of_mem old hpmem)
    have hnm : n ∈ head :: ms := (hmem n).2 (mem_cons_of_mem old mem_cons_self)
    have hon : old ≠ n := fun e => (nodup_cons.1 hnd).1 (e ▸ mem_cons_self)
    simp only [returns_bind, returns_nextOf, returns_prevOf, returns_setNext, returns_setPrev, hnext, hprev,
      Function.update_self, Function.update_of_ne hon]
    have ho := halloc old holdmem
    refine ⟨ho, hf.1, hf.1, halloc n hnm, ho, hf.1, hf.1, halloc p hpm, ?_, trivial⟩
    refine hcollect rfl (fun b hb => ?_) (hring.replace (cons_ne_nil n tl) hp rfl
      (nodup_cons.2 ⟨hnewrest, (nodup_cons.1 hnd).2⟩))
    have hbn : b ≠ new := fun e => hb (e ▸ mem_cons_self)
    have hbp : b ≠ p := fun e => hb (e ▸ mem_cons_of_mem new hpm)
    have hbn' : b ≠ n := fun e => hb (e ▸ mem_cons_of_mem new hnm)
    exact ⟨by simp only [Function.update_of_ne hbn, Function.update_of_ne hbp],
      by simp only [Function.update_of_ne hbn, Function.update_of_ne hbn']⟩

/-- `__mglist_splice` of the elements of `list` between `p` and the record that follows it on the ring of `head`. -/
theorem Rep.spliceBetween (hr : Rep m L) (hL : L head = some ms) (hlist : L list = some xs) (hxs : xs ≠ [])
    (hne : list ≠ head) (hrot : (head :: ms) ~r (p :: rest)) (hn : (rest ++ [p]).head (by simp) = n)
    (hrot' : (head :: ms') ~r (p :: (xs ++ rest))) :
    Returns (mglistSpliceBetween (some list) (some p) (some n)) m fun _ m' =>
      Rep m' (Function.update (forget L list) head (some ms')) ∧ m'.alloc = m.alloc := by
  have hmem : ∀ b, b ∈ head :: ms ↔ b ∈ p :: rest := fun b => hrot.mem_iff
  have hpmem : p ∈ head :: ms := (hmem p).2 mem_cons_self
  have hnmem : n ∈ head :: ms := (hmem n).2 (head_concat_mem hn)
  have hring := hr.ring list xs hlist
  have hnext : m.next list = some (xs.head hxs) := by
    rw [hring.next_head, head_append_of_ne_nil]
  have hprev : m.prev list = some (xs.getLast hxs) := by rw [hring.prev_head, getLast_cons hxs]
  have hlinks : IsChain (Linked m.next m.prev) xs := by
    rw [ring_cons, isChain_cons, isChain_append] at hring
    exact hring.2.1
  have hnd : (xs ++ p :: rest).Nodup := by
    refine nodup_append.2 ⟨(nodup_cons.1 (hr.nodup _ _ hlist)).2, hrot.nodup_iff.1 (hr.nodup _ _ hL), ?_⟩
    rintro b hb c hc rfl
    exact hne (hr.apart b list head (on_mem hlist hb) ⟨ms, hL, (hmem b).2 hc⟩)
  have hfirst : xs.head hxs ∈ xs := head_mem hxs
  have hlast : xs.getLast hxs ∈ xs := getLast_mem hxs
  have halloc := hr.alloc head ms hL
  have hallocx : ∀ b ∈ xs, m.alloc b = true := fun b hb => hr.alloc list xs hlist b (mem_cons_of_mem list hb)
  have hla := hr.alloc list xs hlist list mem_cons_self
  have hout : ∀ b h, On (forget L list) b h → h ≠ head → b ∉ xs ∧ b ∉ head :: ms := by
    intro b h ho hh
    obtain ⟨hhl, ho⟩ := on_forget ho
    exact ⟨fun hb => hhl (hr.apart b h list ho (on_mem hlist hb)), fun hb => hh (hr.apart b h head ho ⟨ms, hL, hb⟩)⟩
  have hring' := ((ring_isRotated hrot).1 (hr.ring _ _ hL)).splice hn hxs hlinks rfl rfl hnd
  unfold mglistSpliceBetween
  simp only [returns_bind, returns_nextOf, returns_prevOf, returns_setNext, returns_setPrev, hnext, hprev]
  refine ⟨hla, hla, hallocx _ hfirst, halloc p hpmem, hallocx _ hlast, halloc n hnmem, ?_, trivial⟩
  refine hr.edit (fun h ms h' => (forget_some h').2) rfl (fun b h ho hh => ?_) ((ring_isRotated hrot').2 hring') ?_ ?_ ?_
  · obtain ⟨hbx, hbm⟩ := hout b h ho hh
    have hbp : b ≠ p := fun e => hbm (e ▸ hpmem)
    have hbn : b ≠ n := fun e => hbm (e ▸ hnmem)
    have hbf : b ≠ xs.head hxs := fun e => hbx (e ▸ hfirst)
    have hbl : b ≠ xs.getLast hxs := fun e => hbx (e ▸ hlast)
    exact ⟨by simp only [Function.update_of_ne hbl, Function.update_of_ne hbp],
      by simp only [Function.update_of_ne hbn, Function.update_of_ne hbf]⟩
  · rw [hrot'.nodup_iff]
    exact (@perm_middle A p xs rest).nodup_iff.1 hnd
  · intro b hb
    rw [hrot'.mem_iff, mem_cons, mem_append, or_left_comm, ← mem_cons, ← hmem] at hb
    exact hb.elim (hallocx b) (halloc b)
  · intro b hb h ho
    by_contra hh
    obtain ⟨hbx, hbm⟩ := hout b h ho hh
    rw [hrot'.mem_iff, mem_cons, mem_append, or_left_comm, ← mem_cons, ← hmem] at hb
    exact hb.elim hbx hbm

end MgStd.Mglist
