import MgStd.FrameShare.Code
import Mathlib.Tactic.Linarith
/-!
# The life of a shared frame

`frame_destroy` unlinks another name than the one that `frame_create` has opened, and
`frame_create` takes the failure of `mmap` for an address. What is left is a call
whose `shm_open` fails, or one that finds the object of an earlier call.
-/

namespace MgStd.FrameShare

open MgStd.Lib

variable {k k' : Kernel} {f : Frame} {index flags size fd : Int} {data : List UInt8} {out : Outcome} {a o : Nat} {name : String}

/-- The mapping of the frame has room for `size` bytes, and they are those of `data`. -/
structure Holds (k : Kernel) (f : Frame) (size : Int) (data : List UInt8) (a : Nat) (m : Mapping) : Prop where
  addr : f.addr = .page a
  mapped : k.maps a = some m
  room : size.toNat ≤ m.length ∧ size.toNat ≤ (k.bytes m.object).length
  bytes : (k.bytes m.object).take size.toNat = data.take size.toNat

/-- `name` has an object in `k'` and none in `k`. -/
def Created (k k' : Kernel) (name : String) : Prop := k.objects name = none ∧ k'.objects name ≠ none

/-- What a call of `frame_create` and, after a success, one of `frame_destroy` are to come to. -/
def Lifecycle (k : Kernel) (f : Frame) (index flags size : Int) (data : List UInt8) (out : Outcome) : Prop :=
  Returns (frameCreate f index flags size data out) k fun r k' =>
    (r.1 = 0 ∧ (∃ a m, Holds k' r.2 size data a m) ∧
      Returns (frameDestroy r.2) k' fun _ k'' => ∀ name, Created k k' name → k''.objects name = none) ∨
    (r.1 = -1 ∧ k'.fds = k.fds ∧ k'.maps = k.maps ∧ ∀ name, ¬ Created k k' name)

/-! ## System calls -/

theorem alignTo4K_pos (h0 : 0 < size) (h31 : size < 2 ^ 31) : 0 < alignTo4K size ↔ size + 0xfff < 2 ^ 31 := by
  unfold alignTo4K
  simp only [Int.bmod_def]
  split <;> omega

theorem le_alignTo4K (h0 : 0 < size) (h : size + 0xfff < 2 ^ 31) : size ≤ alignTo4K size := by
  unfold alignTo4K
  simp only [Int.bmod_def]
  split <;> omega

/-- The object that is opened has its name from before, or is a new one. -/
theorem returns_shmOpen {fd : Nat} (h : out.shmOpen = some fd) : Returns (shmOpen name out) k fun ret k' =>
    ret = fd ∧ k'.maps = k.maps ∧ k'.objects name ≠ none ∧ ∃ o, k'.fds fd = some o ∧
      ((k.objects name = some o ∧ k'.objects = k.objects ∧ k'.bytes = k.bytes) ∨ k.objects name = none) := by
  unfold shmOpen
  rw [h]
  simp only [returns_bind, returns_get]
  cases hobj : k.objects name with
  | none => simp
  | some o => simp [hobj]

/-- What `ftruncate` leaves of the bytes. -/
def truncated (length : Int) (out : Outcome) (bs : List UInt8) : List UInt8 :=
  if out.ftruncate ∧ 0 ≤ length then resize length.toNat bs else bs

theorem returns_ftruncate (h : k.fds fd = some o) {length : Int} : Returns (ftruncate fd length out) k fun _ k' =>
    k' = { k with bytes := Function.update k.bytes o (truncated length out (k.bytes o)) } := by
  simp only [ftruncate, returns_bind, returns_get, h, returns_ite, returns_modify, returns_pure]
  refine ⟨fun hok => ?_, fun hfail => ?_⟩
  · rw [truncated, if_pos hok]
  · rw [truncated, if_neg hfail, Function.update_eq_self]

theorem length_resize (n : Nat) (bs : List UInt8) : (resize n bs).length = n := by
  rw [resize, List.length_append, List.length_take, List.length_replicate]
  omega

/-- The bytes are there after a success, and otherwise if they were before. -/
theorem le_length_truncated (h0 : 0 < size) (h : size + 0xfff < 2 ^ 31) (bs : List UInt8) :
    size.toNat ≤ (truncated (alignTo4K size) out bs).length ↔ out.ftruncate = true ∨ size.toNat ≤ bs.length := by
  have hle := le_alignTo4K h0 h
  unfold truncated
  by_cases hok : out.ftruncate = true
  · rw [if_pos ⟨hok, by omega⟩, length_resize]
    exact iff_of_true (by omega) (.inl hok)
  · rw [if_neg fun h => hok h.1]
    simp [hok]

/-! ## Creating -/

/-- Without a descriptor nothing happens. -/
theorem returns_frameCreate_none (haddr : f.addr = .null) (h : out.shmOpen = none) :
    Returns (frameCreate f index flags size data out) k fun r k' => r.1 = -1 ∧ k' = k := by
  simp [frameCreate, shmOpen, h, frameDestroy, haddr]

/-- `mmap` tells its failure by `MAP_FAILED`. -/
theorem returns_mmap_ne_null {length : Int} : Returns (mmap length fd out) k fun addr _ => addr ≠ .null := by
  rw [mmap, returns_bind, returns_get]
  split
  · simp only [returns_ite, returns_bind, returns_modify, returns_pure]
    exact ⟨fun _ h => (by cases h), fun _ h => by cases h⟩
  · rw [returns_pure]
    exact fun h => by cases h

/-- The part after `ftruncate` returns if and only if the memory is there. -/
theorem returns_mmap_memcpy (h0 : 0 < size) (h31 : size < 2 ^ 31) (hdata : size.toNat ≤ data.length) (hfd : k.fds fd = some o)
    (Q : Addr → Kernel → Prop) :
    Returns (mmap (alignTo4K size) fd out) k (fun addr k' =>
        addr ≠ .null ∧ Returns (memcpyTo addr data size.toNat) k' fun _ k'' => Q addr k'') ↔
      ∃ a, out.mmap = some a ∧ size + 0xfff < 2 ^ 31 ∧ size.toNat ≤ (k.bytes o).length ∧
        Q (.page a) { k with
          bytes := Function.update k.bytes o (memcpy (k.bytes o) 0 (data.take size.toNat))
          maps := Function.update k.maps a (some ⟨o, (alignTo4K size).toNat⟩) } := by
  simp only [← alignTo4K_pos h0 h31]
  rw [mmap, returns_bind, returns_get, hfd]
  cases hmap : out.mmap with
  | none => simp [memcpyTo]
  | some a =>
    simp only [returns_ite, returns_bind, returns_modify, returns_pure, memcpyTo, returns_get, Function.update_self]
    by_cases hpos : 0 < alignTo4K size
    · have hle := le_alignTo4K h0 ((alignTo4K_pos h0 h31).1 hpos)
      have hroom : size.toNat ≤ (alignTo4K size).toNat := by omega
      by_cases hbytes : size.toNat ≤ (k.bytes o).length
      · simp only [hpos, hroom, hbytes, hdata]
        simp
      · simp only [hpos, hbytes]
        simp
    · simp only [hpos]
      simp

/-- The kernel with the memory of the new frame. -/
def mapped (k : Kernel) (o a : Nat) (size : Int) (data : List UInt8) (out : Outcome) : Kernel :=
  { k with
    bytes := Function.update k.bytes o (memcpy (truncated (alignTo4K size) out (k.bytes o)) 0 (data.take size.toNat))
    maps := Function.update k.maps a (some ⟨o, (alignTo4K size).toNat⟩) }

/-- With a descriptor, `frame_create` returns if and only if the memory is there. -/
theorem returns_frameCreate_some {fd : Nat} (h0 : 0 < size) (h31 : size < 2 ^ 31) (hdata : size.toNat ≤ data.length)
    (h : out.shmOpen = some fd) (Q : Int × Frame → Kernel → Prop) :
    Returns (frameCreate f index flags size data out) k Q ↔
      Returns (shmOpen ("frame_" ++ toString index) out) k fun _ k' => ∃ o a, k'.fds fd = some o ∧ out.mmap = some a ∧
        size + 0xfff < 2 ^ 31 ∧ (out.ftruncate = true ∨ size.toNat ≤ (k'.bytes o).length) ∧
        Q (0, { fd, index, size, flags, addr := .page a }) (mapped k' o a size data out) := by
  simp only [frameCreate]
  rw [returns_bind]
  refine (returns_shmOpen h).congr ?_
  rintro _ k' ⟨rfl, -, -, o, hfd, -⟩
  have hneg : ¬ (fd : Int) < 0 := by omega
  rw [if_neg hneg, returns_bind]
  apply Returns.iff_of
  refine (returns_ftruncate hfd).mono ?_
  rintro _ k₂ hk₂
  have hfd₂ : k₂.fds fd = some o := by
    rw [hk₂]
    exact hfd
  have hbytes₂ : k₂.bytes o = truncated (alignTo4K size) out (k'.bytes o) := by
    rw [hk₂]
    exact Function.update_self ..
  have hmapped : ∀ a, { k₂ with
      bytes := Function.update k₂.bytes o (memcpy (truncated (alignTo4K size) out (k'.bytes o)) 0 (data.take size.toNat))
      maps := Function.update k₂.maps a (some ⟨o, (alignTo4K size).toNat⟩) } = mapped k' o a size data out := by
    intro a
    rw [hk₂, mapped, Function.update_idem]
  rw [returns_bind]
  refine (returns_mmap_ne_null.congr fun addr k₃ hne => ?_).trans ((returns_mmap_memcpy h0 h31 hdata hfd₂
    fun addr => Q (0, { fd, index, size, flags, addr })).trans ?_)
  · rw [if_neg hne, returns_bind]
    simp only [returns_pure, hne, ne_eq, not_false_eq_true, true_and]
  · simp only [hbytes₂, hmapped]
    constructor
    · rintro ⟨a, hmap, hfit, hlen, hq⟩
      exact ⟨o, a, hfd, hmap, hfit, (le_length_truncated h0 hfit _).1 hlen, hq⟩
    · rintro ⟨o', a, hfd', hmap, hfit, hlen, hq⟩
      cases hfd.symm.trans hfd'
      exact ⟨a, hmap, hfit, (le_length_truncated h0 hfit _).2 hlen, hq⟩

/-! ## Creating and destroying -/

theorem holds_mapped {o a : Nat} (h0 : 0 < size) (hfit : size + 0xfff < 2 ^ 31) (hdata : size.toNat ≤ data.length)
    (hlen : out.ftruncate = true ∨ size.toNat ≤ (k.bytes o).length) :
    Holds (mapped k o a size data out) { fd, index, size, flags, addr := .page a } size data a ⟨o, (alignTo4K size).toNat⟩ := by
  have hle := le_alignTo4K h0 hfit
  have hroom := (le_length_truncated h0 hfit (k.bytes o)).2 hlen
  have htake : (data.take size.toNat).length = size.toNat := by
    rw [List.length_take, Nat.min_eq_left hdata]
  have hcopied : (mapped k o a size data out).bytes o = memcpy (truncated (alignTo4K size) out (k.bytes o)) 0 (data.take size.toNat) :=
    Function.update_self ..
  have hsrc : 0 + (data.take size.toNat).length ≤ (truncated (alignTo4K size) out (k.bytes o)).length := by
    rw [htake, Nat.zero_add]
    exact hroom
  refine ⟨rfl, Function.update_self .., ⟨Int.toNat_le_toNat hle, ?_⟩, ?_⟩
  · rw [hcopied, length_memcpy hsrc]
    exact hroom
  · have hread : (memcpy (truncated (alignTo4K size) out (k.bytes o)) 0 (data.take size.toNat)).take
        (0 + (data.take size.toNat).length) = [] ++ data.take size.toNat := take_memcpy (Nat.zero_le _)
    rw [htake, Nat.zero_add, List.nil_append] at hread
    rw [hcopied, hread]

/-- `frame_destroy` closes, unmaps and unlinks; it is another name that it unlinks. -/
theorem returns_frameDestroy {fd : Nat} {a : Nat} :
    Returns (frameDestroy { fd, index, size, flags, addr := .page a }) k fun _ k' =>
      k'.objects = Function.update k.objects ("/tmp/frame_" ++ toString index) none := by
  have hopen : (0 : Int) ≤ fd := by omega
  simp [frameDestroy, shmUnlink, close, munmap, hopen]

theorem tmp_ne (index : Int) : "frame_" ++ toString index ≠ "/tmp/frame_" ++ toString index := by
  intro h
  have hlen := congrArg String.length h
  rw [String.length_append, String.length_append] at hlen
  have hname : "frame_".length = 6 := rfl
  have htmp : "/tmp/frame_".length = 11 := rfl
  omega

theorem lifecycle_none (haddr : f.addr = .null) (hopen : out.shmOpen = none) : Lifecycle k f index flags size data out := by
  refine (returns_frameCreate_none haddr hopen).mono ?_
  rintro r _ ⟨hret, rfl⟩
  exact .inr ⟨hret, rfl, rfl, fun name h => h.2 h.1⟩

/-- An object that was there before is nobody's to remove. -/
theorem lifecycle_iff_of_object {fd : Nat} (h0 : 0 < size) (h31 : size < 2 ^ 31) (hdata : size.toNat ≤ data.length)
    (hopen : out.shmOpen = some fd) (hobj : k.objects ("frame_" ++ toString index) = some o) :
    Lifecycle k f index flags size data out ↔ out.mmap ≠ none ∧ size + 0xfff < 2 ^ 31 ∧
      (out.ftruncate = true ∨ size.toNat ≤ (k.bytes o).length) := by
  rw [Lifecycle, returns_frameCreate_some h0 h31 hdata hopen]
  apply Returns.iff_of
  refine (returns_shmOpen hopen).mono ?_
  rintro _ k' ⟨rfl, -, -, o', hfd, ⟨hobj', hobjects, hbytes⟩ | hnew⟩
  · cases hobj.symm.trans hobj'
    rw [← hbytes]
    constructor
    · rintro ⟨o', a, hfd', hmap, hfit, hlen, -⟩
      cases hfd.symm.trans hfd'
      exact ⟨fun h => Option.some_ne_none a (hmap.symm.trans h), hfit, hlen⟩
    · rintro ⟨hmap, hfit, hlen⟩
      obtain ⟨a, hmap⟩ := Option.ne_none_iff_exists'.1 hmap
      refine ⟨o, a, hfd, hmap, hfit, hlen, .inl ⟨rfl, ⟨a, _, holds_mapped h0 hfit hdata hlen⟩, ?_⟩⟩
      refine returns_frameDestroy.mono fun _ k'' _ name hcreated => ?_
      have hsame : (mapped k' o a size data out).objects = k.objects := hobjects
      rw [Created, hsame] at hcreated
      exact absurd hcreated.1 hcreated.2
  · cases hobj.symm.trans hnew

/-- An object that was not there stays, if the call gets so far. -/
theorem not_lifecycle_new {fd : Nat} (h0 : 0 < size) (h31 : size < 2 ^ 31) (hdata : size.toNat ≤ data.length)
    (hopen : out.shmOpen = some fd) (hnew : k.objects ("frame_" ++ toString index) = none) :
    ¬ Lifecycle k f index flags size data out := by
  rw [Lifecycle, returns_frameCreate_some h0 h31 hdata hopen]
  intro h
  obtain ⟨ret, k', -, ⟨rfl, -, hname, -⟩, o, a, -, -, -, -, ⟨-, -, hdestroy⟩ | ⟨hret, -⟩⟩ := (returns_shmOpen hopen).and h
  · obtain ⟨f', k'', -, hobjects, hgone⟩ := returns_frameDestroy.and hdestroy
    have hleft := hgone ("frame_" ++ toString index) ⟨hnew, hname⟩
    rw [hobjects, Function.update_of_ne (tmp_ne index)] at hleft
    exact hname hleft
  · exact absurd hret (show (0 : Int) ≠ -1 by decide)

/-- A frame is as it should be if and only if `shm_open` fails, or the object was there
before and all of its memory can be had. -/
theorem frame_lifecycle_iff (haddr : f.addr = .null) (h0 : 0 < size) (h31 : size < 2 ^ 31) (hdata : size.toNat ≤ data.length) :
    Lifecycle k f index flags size data out ↔ out.shmOpen = none ∨
      ∃ o, k.objects ("frame_" ++ toString index) = some o ∧ out.mmap ≠ none ∧ size + 0xfff < 2 ^ 31 ∧
        (out.ftruncate = true ∨ size.toNat ≤ (k.bytes o).length) := by
  cases hopen : out.shmOpen with
  | none => exact iff_of_true (lifecycle_none haddr hopen) (.inl rfl)
  | some fd =>
    cases hobj : k.objects ("frame_" ++ toString index) with
    | none => exact iff_of_false (not_lifecycle_new h0 h31 hdata hopen hobj) (by rintro (h | ⟨o, h, -⟩) <;> cases h)
    | some o =>
      rw [lifecycle_iff_of_object h0 h31 hdata hopen hobj]
      constructor
      · exact fun h => .inr ⟨o, rfl, h⟩
      · rintro (h | ⟨o', h, hmem⟩)
        · cases h
        · cases h
          exact hmem

/-- The object of index 3 is there, and has a page. -/
def shared : Kernel :=
  { objects := Function.update (fun _ => none) "frame_3" (some 0), bytes := fun _ => List.replicate 4096 0, brk := 1 }

def newFrame : Frame := { fd := -1, index := 0, size := 0, flags := 0, addr := .null }

theorem shared_objects : shared.objects ("frame_" ++ toString (3 : Int)) = some 0 := by
  have hname : "frame_" ++ toString (3 : Int) = "frame_3" := by decide
  rw [hname]
  simp only [shared, Function.update_self]

theorem frame_lifecycle_iff_shared : Lifecycle shared newFrame 3 0 4 [1, 2, 3, 4] ⟨some 5, false, some 7⟩ := by
  have hlen : (4 : Int).toNat ≤ (shared.bytes 0).length := by
    have hbytes : (shared.bytes 0).length = 4096 := List.length_replicate
    rw [hbytes]
    decide
  apply (frame_lifecycle_iff rfl (by decide) (by decide) (by decide)).2
  exact .inr ⟨0, shared_objects, nofun, by decide, .inr hlen⟩

/-- All calls succeed, and the object stays; or `mmap` fails, and its failure is written to. -/
theorem frame_lifecycle_left : ¬ Lifecycle {} newFrame 3 0 4 [1, 2, 3, 4] ⟨some 5, true, some 7⟩ ∧
    ¬ Lifecycle shared newFrame 3 0 4 [1, 2, 3, 4] ⟨some 5, true, none⟩ := by
  constructor
  · exact not_lifecycle_new (by decide) (by decide) (by decide) rfl rfl
  · rw [lifecycle_iff_of_object (by decide) (by decide) (by decide) rfl shared_objects]
    exact fun h => h.1 rfl

end MgStd.FrameShare
