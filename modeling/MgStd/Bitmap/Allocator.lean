import MgStd.Lib.Runs
import MgStd.Bitmap.Scan
import Mathlib.Data.List.Nodup
/-!
# Runs of the allocator

A run allocates and frees numbers, beginning with what `mgbitmap_init` returns;
the numbers handed out are noted beside the bitmap. `mgbitmap_in_map_iff` and
`mgbitmap_alloc_iff` say for which `min`, `max` and contents of the fresh map no
access leaves the map and each allocation hands out what it should.
-/

namespace MgStd.Bitmap

open MgStd.Lib

variable {len : Nat} {bm bm' bm₀ : Mgbitmap len} {n k offset count fuel min max : Nat} {map : Fin len → BitVec 16}

inductive Call
  | alloc
  | free (offset : Nat)

/-- More rounds than the loop can make, its counter being a `uint16_t`. -/
def rounds : Nat := 2 ^ 16 + 1

/-- The bitmap, and the numbers handed out. -/
abbrev State (len : Nat) := Mgbitmap len × List Nat

def step (s : State len) : Call → Option (Except Fault (State len))
  | .alloc => some ((mgbitmapAlloc rounds s.1).map fun r => (r.2, if r.1 = s.1.max then s.2 else r.1 :: s.2))
  | .free offset => some ((mgbitmapFree offset s.1).map fun r => (r.2, s.2.filter (· ≠ offset)))

/-- Only numbers that are handed out are freed. -/
def FreesHeld (s : State len) : Call → Prop
  | .alloc => True
  | .free offset => offset ∈ s.2

/-- Only numbers from `min` to `max` are freed. -/
def FreesInRange (s : State len) : Call → Prop
  | .alloc => True
  | .free offset => s.1.min ≤ offset ∧ offset ≤ s.1.max

/-- After every run, an allocation returns a number between `min` and `max` that is not handed out, or `max` when
all of them are. -/
def AllocSafe (bm₀ : Mgbitmap len) : Prop :=
  ∀ calls s, Run step FreesHeld (bm₀, []) calls s → Returns (mgbitmapAlloc rounds) s.1 fun r _ =>
    (bm₀.Between r ∧ r ∉ s.2) ∨ (r = bm₀.max ∧ ∀ n, bm₀.Between n → n ∈ s.2)

/-- In every run, no call goes beyond the map. -/
def InMap (bm₀ : Mgbitmap len) : Prop :=
  ∀ calls s, Run step FreesInRange (bm₀, []) calls s → ∀ call, FreesInRange s call → ∃ s', step s call = some (.ok s')

/-! ## What an allocation does -/

/-- In range, whatever the bits are, the loop ends; it returns 0 only if `min` is 0. -/
theorem returns_alloc_bounded (hle : bm.min ≤ bm.max) (hsmall : bm.min < bm.max → bm.max + 1 < 2 ^ 16)
    (hroom : ∀ n, bm.min < n → n ≤ bm.max → wordOf n < len) (hlow : bm.min ≤ bm.last) (hhigh : bm.last ≤ bm.max)
    (hfuel : bm.max - bm.min < fuel) :
    Returns (mgbitmapAlloc fuel) bm fun r bm' => bm'.min = bm.min ∧ bm'.max = bm.max ∧
      bm.min ≤ bm'.last ∧ bm'.last ≤ bm.max ∧ ((r = 0 ∧ bm.min = 0) ∨ (bm.min < r ∧ r ≤ bm.max) ∨ r = bm.max) := by
  unfold mgbitmapAlloc
  rw [returns_bind, returns_get]
  refine returns_loop (fun k (x : Nat × Nat) bm' => bm' = bm ∧ bm.min ≤ x.1 ∧ x.1 ≤ bm.max ∧ x.2 ≤ bm.max - bm.min ∧
    k = bm.max - bm.min - x.2) ?_ fuel (bm.max - bm.min) _ _ ⟨rfl, hlow, hhigh, Nat.zero_le _, rfl⟩ hfuel
  rintro k ⟨offset, count⟩ bm' ⟨rfl, hlo, hhi, hc, rfl⟩
  unfold allocRound
  simp only [returns_bind, returns_get, returns_ite, returns_modify, returns_pure]
  simp only at hlo hhi hc
  refine ⟨fun h0 => ⟨trivial, trivial, by omega, by omega, .inl ⟨h0, by omega⟩⟩, fun h0 => ?_⟩
  refine ⟨fun hend => ⟨trivial, trivial, hlow, hhigh, .inr (.inr trivial)⟩, fun hgo => ?_⟩
  have hlt : bm'.min < bm'.max := by omega
  have hmax := hsmall hlt
  have hnext : u16 (offset + 1) = offset + 1 := Nat.mod_eq_of_lt (by omega)
  have hmin : u16 (bm'.min + 1) = bm'.min + 1 := Nat.mod_eq_of_lt (by omega)
  rw [hnext, hmin]
  generalize hoff : (if offset + 1 ≥ bm'.max then bm'.min + 1 else offset + 1) = next
  have hbounds : bm'.min < next ∧ next ≤ bm'.max := by
    rw [← hoff]
    split <;> omega
  refine (returns_testAndSetBit (hroom _ hbounds.1 hbounds.2)).mono fun r bm₁ hr => ?_
  rcases hr with ⟨-, rfl, rfl⟩ | ⟨-, rfl, hm⟩
  · have hcount : u16 (count + 1) = count + 1 := Nat.mod_eq_of_lt (by omega)
    rw [hcount]
    exact ⟨fun h => absurd h Bool.false_ne_true, fun _ => ⟨_, by omega, rfl, by omega, hbounds.2, by omega, rfl⟩⟩
  · refine ⟨fun _ => ?_, fun hf => absurd rfl hf⟩
    exact ⟨hm.min, hm.max, by omega, by omega, .inr (.inl hbounds)⟩

/-- An allocation that returns has found the end of the numbers, or a bit inside the map that was clear. -/
theorem ensures_mgbitmapAlloc : Ensures (mgbitmapAlloc fuel) bm fun r bm' =>
    r = 0 ∨ (r = bm.max ∧ bm' = bm) ∨
      (wordOf r < len ∧ bm.bit r = false ∧ ∃ bm₁, Marked bm r true bm₁ ∧ bm' = { bm₁ with last := r }) := by
  unfold mgbitmapAlloc
  rw [ensures_bind, ensures_get]
  refine ensures_loop (fun _ bm' => bm' = bm) ?_ fuel _ _ rfl
  rintro ⟨offset, count⟩ bm' rfl
  unfold allocRound
  simp only [ensures_bind, ensures_get, ensures_ite, ensures_modify, ensures_pure]
  refine ⟨fun h0 => .inl h0, fun _ => ⟨fun _ => .inr (.inl ⟨trivial, trivial⟩), fun _ => ?_⟩⟩
  refine ensures_testAndSetBit.mono fun r bm₁ hr => ?_
  obtain ⟨hn, ⟨-, rfl, rfl⟩ | ⟨hbit, rfl, hm⟩⟩ := hr
  · exact ⟨fun h => absurd h Bool.false_ne_true, fun _ => rfl⟩
  · exact ⟨fun _ => .inr (.inr ⟨hn, hbit, bm₁, hm, rfl⟩), fun hf => absurd rfl hf⟩

theorem ensures_alloc_zero (h : bm.last = 0) : Ensures (mgbitmapAlloc fuel) bm fun r _ => r = 0 := by
  unfold mgbitmapAlloc
  rw [ensures_bind, ensures_get, h]
  cases fuel with
  | zero => exact ensures_fault _ _ _
  | succ fuel => simp [loop, allocRound]

/-- With nothing between `min` and `max`, the first allocation goes for the bit of `max`. -/
theorem ensures_alloc_adjacent (hpos : 0 < bm.min) (hmax : bm.max = bm.min + 1) (hsmall : bm.max < 2 ^ 16)
    (hlast : bm.last = bm.min) : Ensures (mgbitmapAlloc fuel) bm fun _ _ => wordOf bm.max < len := by
  unfold mgbitmapAlloc
  rw [ensures_bind, ensures_get, hlast]
  cases fuel with
  | zero => exact ensures_fault _ _ _
  | succ fuel =>
    have hu : u16 (bm.min + 1) = bm.max := by rw [hmax]; exact Nat.mod_eq_of_lt (by omega)
    have h0 : bm.min ≠ 0 := by omega
    have h1 : ¬ 0 = bm.max - bm.min := by omega
    rw [loop, ensures_bind]
    unfold allocRound
    simp only [ensures_bind, ensures_get, h0, if_false, h1, hu, ge_iff_le, Nat.le_refl, if_true]
    refine ensures_testAndSetBit.mono fun r bm₁ hr => ?_
    split <;> simp only [ensures_bind, ensures_modify, ensures_pure]
    · exact hr.1
    · exact fun _ _ _ => hr.1

/-! ## Accesses -/

theorem init_fields (h : mgbitmapInit (some map) min max = some bm₀) :
    min ≤ max ∧ bm₀.last = min ∧ bm₀.min = min ∧ bm₀.max = max ∧ bm₀.map = map := by
  unfold mgbitmapInit at h
  split at h
  · cases h
  · next hle => cases h; exact ⟨by omega, rfl, rfl, rfl, rfl⟩

theorem wordOf_lt {len : Nat} : wordOf n < len ↔ n < 4 * len := by
  rw [wordOf_eq]
  omega

/-- What a run keeps in a map with room for `max`. -/
def Within (bm₀ : Mgbitmap len) (s : State len) : Prop :=
  s.1.min = bm₀.min ∧ s.1.max = bm₀.max ∧ bm₀.min ≤ s.1.last ∧ s.1.last ≤ bm₀.max

theorem within_init (hle : bm₀.min ≤ bm₀.max) (hlast : bm₀.last = bm₀.min) : Within bm₀ (bm₀, []) := by
  refine ⟨rfl, rfl, ?_, ?_⟩ <;> dsimp only <;> omega

theorem Within.alloc {s : State len} (h : Within bm₀ s) (hle : bm₀.min ≤ bm₀.max) (hsmall : bm₀.max + 1 < 2 ^ 16)
    (hroom : bm₀.max < 4 * len) : Returns (mgbitmapAlloc rounds) s.1 fun _ bm' => ∀ held, Within bm₀ (bm', held) := by
  obtain ⟨hmin, hmax, hlo, hhi⟩ := h
  refine (returns_alloc_bounded (by omega) (by omega) (fun n _ hn => wordOf_lt.2 (by omega)) (by omega) (by omega)
    (by unfold rounds; omega)).mono fun r bm' h => ?_
  obtain ⟨hmin', hmax', hlo', hhi', -⟩ := h
  exact fun _ => ⟨hmin'.trans hmin, hmax'.trans hmax, hmin ▸ hlo', hmax ▸ hhi'⟩

theorem Within.step {s : State len} {call : Call} (h : Within bm₀ s) (hle : bm₀.min ≤ bm₀.max)
    (hsmall : bm₀.max + 1 < 2 ^ 16) (hroom : bm₀.max < 4 * len) (hcall : FreesInRange s call) :
    ∃ s', step s call = some (.ok s') ∧ Within bm₀ s' := by
  cases call with
  | alloc =>
    obtain ⟨r, bm', hexec, hw⟩ := h.alloc hle hsmall hroom
    exact ⟨_, by rw [Bitmap.step, hexec]; rfl, hw _⟩
  | free offset =>
    have hn : wordOf offset < len := wordOf_lt.2 (by have := h.2.1; have := hcall.2; omega)
    obtain ⟨r, bm', hexec, hm⟩ := show Returns (mgbitmapFree offset) s.1 _ from returns_mgbitmapFree hn
    refine ⟨_, by rw [Bitmap.step, hexec]; rfl, hm.min.trans h.1, hm.max.trans h.2.1, ?_⟩
    rw [hm.last]
    exact h.2.2

/-- No access of a run is beyond the 4096 words, and different numbers have different bits, exactly when `max` is
below 16384. -/
theorem mgbitmap_in_map_iff {map : Fin MAP_LEN → BitVec 16} {bm₀ : Mgbitmap MAP_LEN}
    (hinit : mgbitmapInit (some map) min max = some bm₀) : (InMap bm₀ ∧
      ∀ m n, m ≠ n → ¬ (wordOf m = wordOf n ∧ m &&& 0x0F = n &&& 0x0F)) ↔ max < 16384 := by
  obtain ⟨hle, hlast, hmin, hmax, -⟩ := init_fields hinit
  constructor
  · rintro ⟨hin, -⟩
    by_contra hbig
    -- a free of `max` goes beyond the map
    obtain ⟨s', hs'⟩ := hin [] (bm₀, []) .nil (.free max) ⟨by rw [hmin]; exact hle, Nat.le_of_eq hmax.symm⟩
    have hout : ¬ wordOf max < MAP_LEN := fun h => hbig (wordOf_lt.1 h)
    rw [step, mgbitmapFree_bounds hout] at hs'
    cases hs'
  · intro hsmall
    refine ⟨fun calls s hrun call hcall => ?_, fun m n hne h => hne (address_inj h.1 h.2)⟩
    have hroom : bm₀.max < 4 * MAP_LEN := by rw [hmax]; exact hsmall
    have hw : Within bm₀ s := by
      apply hrun.inv_total (Within bm₀) (within_init (by omega) (by omega))
      intro t call ht hc
      exact ht.step (by omega) (by omega) hroom hc
    obtain ⟨s', hs', -⟩ := hw.step (by omega) (by omega) hroom hcall
    exact ⟨s', hs'⟩

/-- The numbers of the file's `main`: `min` 1, `max` 100. -/
theorem mgbitmap_in_map_iff_main : ∃ bm₀ : Mgbitmap MAP_LEN, mgbitmapInit (some fun _ => 0) 1 100 = some bm₀ ∧ InMap bm₀ :=
  ⟨_, rfl, ((@mgbitmap_in_map_iff 1 100 (fun _ => 0) _ rfl).2 (by decide)).1⟩

/-- With `max` 65535, a number that `mgbitmap_alloc` may hand out is beyond the map. -/
theorem mgbitmap_free_beyond : ∃ bm₀ : Mgbitmap MAP_LEN, mgbitmapInit (some fun _ => 0) 1 65535 = some bm₀ ∧
    FreesInRange (bm₀, []) (.free 16384) ∧ mgbitmapFree 16384 bm₀ = .error .bounds ∧ ¬ InMap bm₀ := by
  refine ⟨_, rfl, ⟨by decide, by decide⟩, mgbitmapFree_bounds (by decide), fun h => ?_⟩
  obtain ⟨s', hs'⟩ := h [] _ .nil (.free 16384) ⟨by decide, by decide⟩
  rw [step, mgbitmapFree_bounds (by decide)] at hs'
  cases hs'

/-! ## Allocations -/

/-- The bits are those of the numbers handed out. -/
structure Tracks (bm₀ : Mgbitmap len) (s : State len) : Prop where
  min : s.1.min = bm₀.min
  max : s.1.max = bm₀.max
  low : bm₀.min ≤ s.1.last
  high : s.1.last < bm₀.max
  bits : ∀ n, bm₀.Between n → (s.1.bit n = true ↔ n ∈ s.2)
  between : ∀ n ∈ s.2, bm₀.Between n

theorem Tracks.scanning {s : State len} (h : Tracks bm₀ s) (hs : Scanning bm₀) : Scanning s.1 where
  pos := by rw [h.min]; exact hs.pos
  wide := by rw [h.min, h.max]; exact hs.wide
  small := by rw [h.max]; exact hs.small
  low := by rw [h.min]; exact h.low
  high := by rw [h.max]; exact h.high
  room n hn := hs.room n ⟨by rw [← h.min]; exact hn.1, by rw [← h.max]; exact hn.2⟩

theorem Tracks.alloc {s : State len} (h : Tracks bm₀ s) (hs : Scanning bm₀) :
    Returns (mgbitmapAlloc rounds) s.1 fun r bm' =>
      ((bm₀.Between r ∧ r ∉ s.2) ∨ (r = bm₀.max ∧ ∀ n, bm₀.Between n → n ∈ s.2)) ∧
        Tracks bm₀ (bm', if r = s.1.max then s.2 else r :: s.2) := by
  have hbetween : ∀ n, s.1.Between n ↔ bm₀.Between n := by
    intro n
    unfold Mgbitmap.Between
    rw [h.min, h.max]
  have hscan := h.scanning hs
  refine (returns_mgbitmapAlloc hscan (by have := hscan.small; unfold rounds; omega)).mono fun r bm' hr => ?_
  cases hr with
  | full hall =>
    refine ⟨.inr ⟨h.max, fun n hn => (h.bits n hn).1 (hall n ((hbetween n).2 hn))⟩, ?_⟩
    rw [if_pos rfl]
    exact h
  | @found k _ bm₁ hk _ hclear hm hbm =>
    have hb := (hbetween _).1 (hscan.tried_between k)
    have hnot : s.1.tried k ∉ s.2 := fun hmem => by
      rw [(h.bits _ hb).2 hmem] at hclear
      cases hclear
    have hne : s.1.tried k ≠ s.1.max := Nat.ne_of_lt (hscan.tried_between k).2
    refine ⟨.inl ⟨hb, hnot⟩, ?_⟩
    rw [if_neg hne, hbm]
    refine ⟨hm.min.trans h.min, hm.max.trans h.max, Nat.le_of_lt hb.1, hb.2, fun n hn => ?_, ?_⟩
    · change bm₁.bit n = true ↔ _
      rw [hm.bit n (hs.room n hn), List.mem_cons]
      by_cases he : n = s.1.tried k
      · simp [he]
      · simp only [he, if_false, false_or]
        exact h.bits n hn
    · exact List.forall_mem_cons.2 ⟨hb, h.between⟩

theorem Tracks.free {s : State len} (h : Tracks bm₀ s) (hs : Scanning bm₀) (hn : n ∈ s.2) :
    Returns (mgbitmapFree n) s.1 fun _ bm' => Tracks bm₀ (bm', s.2.filter (· ≠ n)) := by
  refine (returns_mgbitmapFree (hs.room n (h.between n hn))).mono fun _ bm' hm => ?_
  refine ⟨hm.min.trans h.min, hm.max.trans h.max, by rw [hm.last]; exact h.low, by rw [hm.last]; exact h.high,
    fun m hb => ?_, fun m hb => h.between m (List.mem_filter.1 hb).1⟩
  rw [hm.bit m (hs.room m hb), List.mem_filter]
  by_cases he : m = n
  · simp [he]
  · simp only [he, if_false, ne_eq, not_false_eq_true, decide_true, and_true]
    exact h.bits m hb

theorem Tracks.step {s : State len} {call : Call} (h : Tracks bm₀ s) (hs : Scanning bm₀) (hcall : FreesHeld s call) :
    ∃ s', step s call = some (.ok s') ∧ Tracks bm₀ s' := by
  cases call with
  | alloc =>
    obtain ⟨r, bm', hexec, -, ht⟩ := h.alloc hs
    exact ⟨_, by rw [Bitmap.step, hexec]; rfl, ht⟩
  | free offset =>
    obtain ⟨r, bm', hexec, ht⟩ := h.free hs hcall
    exact ⟨_, by rw [Bitmap.step, hexec]; rfl, ht⟩

/-- Where the bits between `min` and `max` are clear and inside the map, all runs are right. -/
theorem allocSafe_of_tracks (hs : Scanning bm₀) (h : Tracks bm₀ (bm₀, [])) : AllocSafe bm₀ := by
  intro calls s hrun
  have ht : Tracks bm₀ s := hrun.inv_total (Tracks bm₀) h fun t call ht hc => ht.step hs hc
  exact (ht.alloc hs).mono fun r bm' hr => hr.1

/-- With no number between `min` and `max`, all allocations return `max`. -/
theorem allocSafe_of_empty (hle : bm₀.min ≤ bm₀.max) (hempty : bm₀.max ≤ bm₀.min + 1) (hlast : bm₀.last = bm₀.min)
    (hsmall : bm₀.min < bm₀.max → 0 < bm₀.min ∧ bm₀.max + 1 < 2 ^ 16 ∧ bm₀.max < 4 * len) (hmax : bm₀.max < 2 ^ 16) :
    AllocSafe bm₀ := by
  have halloc : ∀ s : State len, Within bm₀ s → Returns (mgbitmapAlloc rounds) s.1 fun r bm' =>
      r = bm₀.max ∧ ∀ held, Within bm₀ (bm', held) := by
    rintro s ⟨hmin, hmax', hlo, hhi⟩
    refine (returns_alloc_bounded (by omega) (by omega) (fun n _ hn => wordOf_lt.2 (by omega)) (by omega) (by omega)
      (by unfold rounds; omega)).mono fun r bm' h => ?_
    obtain ⟨hmin', hmax'', hlo', hhi', hr⟩ := h
    exact ⟨by omega, fun _ => ⟨hmin'.trans hmin, hmax''.trans hmax', hmin ▸ hlo', hmax' ▸ hhi'⟩⟩
  intro calls s hrun
  have hw : Within bm₀ s := by
    refine hrun.inv (Within bm₀) (within_init (by omega) (by omega)) ?_
    intro t c u ht _ hstep
    cases c with
    | alloc =>
      obtain ⟨r, bm', hexec, -, ht'⟩ := halloc t ht
      rw [step, hexec] at hstep
      cases hstep
      exact ht' _
    | free offset =>
      cases hexec : mgbitmapFree offset t.1 with
      | error e => rw [step, hexec] at hstep; cases hstep
      | ok r =>
        rw [step, hexec] at hstep
        cases hstep
        have hm := ensures_mgbitmapFree _ _ hexec
        exact ⟨hm.min.trans ht.1, hm.max.trans ht.2.1, by rw [hm.last]; exact ht.2.2.1, by rw [hm.last]; exact ht.2.2.2⟩
  refine (halloc s hw).mono fun r bm' hr => .inr ⟨hr.1, fun n hn => ?_⟩
  have := hn.1
  have := hn.2
  omega

/-- A number is blocked if its bit is outside the map, or set from the start. -/
def Blocked (bm₀ : Mgbitmap len) (n : Nat) : Prop := wordOf n < len → bm₀.bit n = true

/-- A blocked number is never handed out, so that safe allocations go on without end. -/
theorem alloc_forever (hsafe : AllocSafe bm₀) (hn : bm₀.Between n) (hb : Blocked bm₀ n) (m : Nat) :
    ∃ s, Run step FreesHeld (bm₀, []) (List.replicate m .alloc) s ∧ s.1.max = bm₀.max ∧ Blocked s.1 n ∧
      s.2.length = m ∧ s.2.Nodup ∧ n ∉ s.2 ∧ ∀ x ∈ s.2, bm₀.Between x := by
  induction m with
  | zero => exact ⟨_, .nil, rfl, hb, rfl, List.nodup_nil, List.not_mem_nil, nofun⟩
  | succ m ih =>
    obtain ⟨s, hrun, hmax, hbs, hlen, hnd, hnot, hbetween⟩ := ih
    obtain ⟨r, bm', hexec, hr, heff⟩ := (hsafe _ s hrun).of_ensures ensures_mgbitmapAlloc
    have hr' : bm₀.Between r ∧ r ∉ s.2 := by
      rcases hr with h | ⟨-, hall⟩
      · exact h
      · exact absurd (hall n hn) hnot
    have hne : r ≠ s.1.max := by
      rw [hmax]
      exact Nat.ne_of_lt hr'.1.2
    obtain ⟨hword, hclear, bm₁, hm, hbm⟩ : wordOf r < len ∧ s.1.bit r = false ∧
        ∃ bm₁, Marked s.1 r true bm₁ ∧ bm' = { bm₁ with last := r } := by
      rcases heff with h0 | ⟨h, -⟩ | h
      · exact absurd hr'.1.1 (by omega)
      · exact absurd h hne
      · exact h
    have hrn : r ≠ n := by
      rintro rfl
      rw [hbs hword] at hclear
      cases hclear
    refine ⟨(bm', r :: s.2), ?_, ?_, ?_, ?_, ?_, ?_, ?_⟩
    · rw [List.replicate_succ']
      exact .snoc hrun trivial (by simp [step, hexec, Except.map, hne])
    · rw [hbm]
      exact hm.max.trans hmax
    · intro hw
      rw [hbm]
      change bm₁.bit n = true
      rw [hm.bit n hw, if_neg hrn.symm, hbs hw]
    · rw [List.length_cons, hlen]
    · exact List.nodup_cons.2 ⟨hr'.2, hnd⟩
    · simp [hrn.symm, hnot]
    · exact List.forall_mem_cons.2 ⟨hr'.1, hbetween⟩

theorem not_blocked (hsafe : AllocSafe bm₀) (hn : bm₀.Between n) : ¬ Blocked bm₀ n := by
  intro hb
  obtain ⟨s, -, -, -, hlen, hnd, hnot, hbetween⟩ := alloc_forever hsafe hn hb bm₀.max
  -- `max` numbers and `n` itself are more than there are below `max`
  have hsub : n :: s.2 ⊆ List.range bm₀.max := by
    intro x hx
    rw [List.mem_range]
    rcases List.mem_cons.1 hx with rfl | hx
    · exact hn.2
    · exact (hbetween x hx).2
  have hle := List.Nodup.length_le_of_subset (List.nodup_cons.2 ⟨hnot, hnd⟩) hsub
  rw [List.length_cons, hlen, List.length_range] at hle
  omega

/-- Allocations are right in every run exactly when there is no number between `min` and `max` (then `max` is `min`,
or it is in the map and `min` is not 0), or `min` is not 0, the numbers between are in the map, and `malloc` gave a map
where their bits are clear. -/
theorem mgbitmap_alloc_iff {map : Fin MAP_LEN → BitVec 16} {bm₀ : Mgbitmap MAP_LEN} (hmax : max < 2 ^ 16)
    (hinit : mgbitmapInit (some map) min max = some bm₀) : AllocSafe bm₀ ↔
      max = min ∨ (0 < min ∧ max = min + 1 ∧ max < 16384) ∨
        (0 < min ∧ min + 1 < max ∧ max ≤ 16384 ∧ ∀ n, min < n → n < max → bm₀.bit n = false) := by
  obtain ⟨hle, hlast, hmin, hmax', -⟩ := init_fields hinit
  have hroom : ∀ n, wordOf n < MAP_LEN ↔ n < 16384 := fun n => wordOf_lt
  constructor
  · intro hsafe
    by_cases heq : max = min
    · exact .inl heq
    have hpos : 0 < min := by
      by_contra h0
      -- the loop is not entered and 0 is returned
      obtain ⟨r, bm', hexec, hr, rfl⟩ := (hsafe [] _ .nil).of_ensures
        (show Ensures (mgbitmapAlloc _) bm₀ _ from ensures_alloc_zero (by omega))
      rcases hr with ⟨hb, -⟩ | ⟨h, -⟩
      · exact absurd hb.1 (by omega)
      · omega
    by_cases hadj : max = min + 1
    · obtain ⟨r, bm', hexec, -, hw⟩ := (hsafe [] _ .nil).of_ensures
        (show Ensures (mgbitmapAlloc _) bm₀ _ from
          ensures_alloc_adjacent (by omega) (by omega) (by omega) (by omega))
      exact .inr (.inl ⟨hpos, hadj, by rw [hmax'] at hw; exact (hroom _).1 hw⟩)
    · have hfree : ∀ n, min < n → n < max → wordOf n < MAP_LEN ∧ bm₀.bit n = false := by
        intro n hlo hhi
        have hnb := not_blocked hsafe (n := n) ⟨by omega, by omega⟩
        unfold Blocked at hnb
        rw [Classical.not_imp, Bool.not_eq_true] at hnb
        exact hnb
      have hlastbit := (hroom _).1 (hfree (max - 1) (by omega) (by omega)).1
      exact .inr (.inr ⟨hpos, by omega, by omega, fun n hlo hhi => (hfree n hlo hhi).2⟩)
  · rintro (heq | ⟨hpos, hadj, hsmall⟩ | ⟨hpos, hwide, hsmall, hclear⟩)
    · exact allocSafe_of_empty (by omega) (by omega) (by omega) (by omega) (by omega)
    · exact allocSafe_of_empty (by omega) (by omega) (by omega) (by unfold MAP_LEN; omega) (by omega)
    · have hs : Scanning bm₀ := by
        refine ⟨by omega, by omega, by omega, by omega, by omega, fun n hn => (hroom n).2 ?_⟩
        have := hn.2
        omega
      refine allocSafe_of_tracks hs ⟨rfl, rfl, Nat.le_of_eq (by rw [hlast, hmin]), hs.high, fun n hn => ?_, nofun⟩
      have hlo := hn.1
      have hhi := hn.2
      simp [hclear n (by omega) (by omega)]

/-- The numbers of the file's `main` over a map that happens to be zero. -/
theorem mgbitmap_alloc_iff_main : ∃ bm₀ : Mgbitmap MAP_LEN, mgbitmapInit (some fun _ => 0) 1 100 = some bm₀ ∧
    AllocSafe bm₀ := by
  refine ⟨_, rfl, (@mgbitmap_alloc_iff 1 100 (fun _ => 0) _ (by decide) rfl).2 ?_⟩
  refine .inr (.inr ⟨by decide, by decide, by decide, fun n _ _ => ?_⟩)
  simp [Mgbitmap.bit]

/-- `malloc` leaves old contents in the map: with all bits set, the first allocation says that no number is free. -/
theorem mgbitmap_alloc_dirty : ∃ bm₀ : Mgbitmap MAP_LEN, mgbitmapInit (some fun _ => 0xFFFF) 1 3 = some bm₀ ∧
    Returns (mgbitmapAlloc rounds) bm₀ (fun r _ => r = 3) ∧ bm₀.Between 2 ∧ ¬ AllocSafe bm₀ := by
  have hfull : Returns (mgbitmapAlloc rounds) (⟨1, 1, 3, fun _ => 0xFFFF⟩ : Mgbitmap MAP_LEN) fun r _ => r = 3 :=
    ⟨_, _, rfl, rfl⟩
  refine ⟨_, rfl, hfull, ⟨by decide, by decide⟩, fun h => ?_⟩
  obtain ⟨r, bm', hexec, hr⟩ := h [] _ .nil
  obtain rfl := hfull.of_eq hexec
  rcases hr with ⟨hb, -⟩ | ⟨-, hall⟩
  · exact absurd hb.2 (by decide)
  · exact absurd (hall 2 ⟨by decide, by decide⟩) List.not_mem_nil

end MgStd.Bitmap
