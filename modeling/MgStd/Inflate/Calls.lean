import MgStd.Inflate.Blocks
/-!
# Calls of `inflate`

Between two calls of `inflate` some of the stream is left, whatever the sizes of the
buffers were. A call comes to the end of the stream, fills the output buffer, or uses
all of its input; without progress nothing is left to do.
-/

namespace MgStd.Inflate

open MgStd.Lib

variable {s s' : Inflater} {future out chunk : List UInt8} {bits : List Bool} {done n fuel : Nat}

/-- What a stream comes to, and the bits behind it. -/
structure Job where
  tight : Prop
  rest : List Bool
  final : List UInt8

variable {J : Job}

/-- What a call from `s` has to do. -/
def Job.work (J : Job) (future : List UInt8) (done : Nat) (s : Inflater) : Work := ⟨J.tight, J.rest, J.final, future, done, s⟩

/-- Between two calls: `out` has been unpacked, `done` bytes of it were copied to the output by the calls before the last one. -/
structure Job.Paused (J : Job) (future : List UInt8) (done : Nat) (bits : List Bool) (out : List UInt8) (s : Inflater) : Prop where
  blocks : s.streamMode = .blocks
  left : (J.work future done s).Left s.last s.hufts out bits s.mode
  ahead : s.Ahead future bits
  holds : s.Holds done out
  read_lt : s.read < s.size
  fits : s.Fits J.tight
  running : s.mode ≠ .done

/-- `Left` looks at the start of the work only for the size of the window. -/
theorem Work.Left.start {W W' : Work} {last : Bool} {hufts : List Huft} {mode : BlocksMode} (h : W.Left last hufts out bits mode)
    (htight : W'.tight = W.tight) (hrest : W'.rest = W.rest) (hfinal : W'.final = W.final) (hsize : W'.start.size = W.start.size) :
    W'.Left last hufts out bits mode := by
  have hstream : W'.Stream = W.Stream := by
    funext last hufts out bits
    unfold Work.Stream
    rw [htight, hrest, hfinal, hsize]
  have hopens : W'.Opens = W.Opens := by
    funext last out trees bits
    unfold Work.Opens
    rw [hstream, htight, hsize]
  unfold Work.Left at h ⊢
  rw [hstream, hopens, htight, hrest, hfinal, hsize]
  exact h

/-- How many bits are in the buffer at most. -/
theorem Inflater.Fits.le {tight : Prop} (h : s.Fits tight) : s.bitk ≤ 32 := by
  unfold Inflater.Fits at h
  cases hmode : s.mode <;> rw [hmode] at h <;> have h₁ := h.1 <;> omega

theorem Job.Paused.length_le (hp : J.Paused future done bits out s) : bits.length ≤ 32 + 8 * (s.input ++ future).length := by
  obtain ⟨buffered, hlen, hbits⟩ := hp.ahead.split
  have hk := hp.fits.le
  rw [hbits, List.length_append, length_bytesBits, hlen, List.length_append, List.length_append, List.length_drop]
  omega

/-! ## From one call to the next -/

/-- The output buffer is empty again, with room for `n` bytes. -/
def Inflater.emptied (s : Inflater) (n : Nat) : Inflater := { s with nextOut := [], availOut := n }

theorem Inflater.Holds.emptied (h : s.Holds done out) (n : Nat) : (s.emptied n).Holds (done + s.nextOut.length) out := by
  obtain ⟨h₁, h₂, h₃, h₄, h₅, h₆, h₇⟩ := h
  refine ⟨h₁, h₂, h₃, h₄, h₅, h₆, ?_⟩
  change out.drop (done + s.nextOut.length) = [] ++ out.drop (out.length - s.waiting)
  rw [← List.drop_drop, h₇, List.drop_left, List.nil_append]

theorem Job.Paused.emptied (hp : J.Paused future done bits out s) (n : Nat) :
    J.Paused future (done + s.nextOut.length) bits out (s.emptied n) :=
  ⟨hp.blocks, hp.left.start rfl rfl rfl rfl, hp.ahead.moves rfl rfl rfl rfl, hp.holds.emptied n, hp.read_lt, hp.fits, hp.running⟩

/-- The next buffer of input, when all of the last one has been read. Without tight codes there is only one. -/
theorem Job.Paused.refill (hp : J.Paused (chunk ++ future) done bits out s) (hempty : s.p = s.input.length)
    (htight : J.tight ∨ s.bitk = 0) : J.Paused future done bits out { s with input := chunk, p := 0 } := by
  obtain ⟨h₁, h₂, h₃, h₄, h₅, h₆, h₇⟩ := hp.holds
  refine ⟨hp.blocks, hp.left.start rfl rfl rfl rfl, hp.ahead.refill hempty, ⟨h₁, h₂, h₃, h₄, h₅, h₆, h₇⟩, hp.read_lt, ?_, hp.running⟩
  have hfits := hp.fits
  unfold Inflater.Fits at hfits ⊢
  change s.mode.Fits J.tight 0 s.bitk s.bitb
  have hslack : ∀ {k : Nat}, s.bitk ≤ 22 ∧ (¬ J.tight ∧ s.bitk ≤ 8 * s.p ∨ J.tight ∧ s.bitk ≤ k) →
      s.bitk ≤ 22 ∧ (¬ J.tight ∧ s.bitk ≤ 8 * 0 ∨ J.tight ∧ s.bitk ≤ k) := by
    intro k h
    refine ⟨h.1, ?_⟩
    rcases h.2 with ⟨hfree, -⟩ | hkept
    · exact .inl ⟨hfree, Nat.le_of_eq (htight.resolve_left hfree)⟩
    · exact .inr hkept
  cases hmode : s.mode <;> rw [hmode] at hfits
  case lens => exact hfits
  case stored => exact hfits
  all_goals exact hslack hfits

/-! ## A call -/

/-- The call has come to the end, and all has come out. -/
structure Job.Ends (J : Job) (done : Nat) (s s' : Inflater) : Prop where
  output : J.final.drop done = s'.nextOut
  finished : s'.streamMode = .done
  input : s'.input = s.input
  count : s'.nextOut.length + s'.availOut = s.nextOut.length + s.availOut

/-- The call has left in the middle. -/
structure Job.Stays (J : Job) (future : List UInt8) (done : Nat) (r : Int) (s s' : Inflater) : Prop where
  paused : ∃ bits out, J.Paused future done bits out s'
  input : s'.input = s.input
  size : s'.size = s.size
  count : s'.nextOut.length + s'.availOut = s.nextOut.length + s.availOut
  result : r = Z_OK ∨ r = Z_BUF_ERROR ∧ s'.p ≤ s.p ∧ s'.nextOut = s.nextOut
  stuck : s'.availOut = 0 ∨ s'.read = s'.write ∧ s'.p = s'.input.length ∧ s'.bitk < s'.mode.need

/-- `inflate`, wherever the stream stands. -/
theorem returns_inflate (hp : J.Paused future done bits out s) (hfuel : 64 * (s.input ++ future).length + 261 < fuel) :
    Returns (inflate fuel) s fun r s' => r = Z_STREAM_END ∧ J.Ends done s s' ∨ J.Stays future done r s s' := by
  have hlen := hp.length_le
  obtain ⟨h₁, h₂, h₃, h₄, h₅, h₆, h₇⟩ := hp.holds
  have hhead : (J.work future done s).Head bits out { s with r := Z_BUF_ERROR, m := s.wavail } :=
    ⟨⟨hp.left, hp.ahead.moves rfl rfl rfl rfl, ⟨h₁, h₂, h₃, h₄, h₅, h₆, h₇⟩, hp.read_lt, hp.fits, ⟨rfl, rfl, rfl, rfl⟩,
      .inr ⟨rfl, Nat.le_refl _, rfl⟩⟩, rfl, fun hmode => absurd hmode hp.running⟩
  have hweight : s.mode.weight ≤ 5 := by
    cases s.mode <;> simp [BlocksMode.weight]
  unfold inflate
  rw [returns_bind, returns_get, hp.blocks]
  simp only [returns_bind, returns_modify]
  refine (returns_inflateBlocks hhead (show 8 * bits.length + s.mode.weight < fuel by omega)).mono ?_
  rintro r s' (⟨rfl, hends⟩ | ⟨hr, bits', out', hstays⟩)
  · simp only [if_neg (show ¬ Z_STREAM_END = Z_DATA_ERROR by decide), ne_eq, not_true_eq_false, if_false, returns_bind, returns_modify,
      returns_pure]
    refine .inl ⟨trivial, ?_, rfl, hends.within.input, hends.within.count⟩
    have hout := hends.holds.output
    rw [hends.empty, Nat.sub_zero, List.drop_length, List.append_nil] at hout
    exact hout
  · have hprogress : r = Z_OK ∨ r = Z_BUF_ERROR ∧ s'.p ≤ s.p ∧ s'.nextOut = s.nextOut := by
      rw [hr]
      exact hstays.progress
    have hne : r ≠ Z_DATA_ERROR ∧ r ≠ Z_STREAM_END := by
      rcases hprogress with hok | ⟨hbuf, -⟩
      · rw [hok]
        decide
      · rw [hbuf]
        decide
    rw [if_neg hne.1, if_pos hne.2, returns_pure]
    have hwithin := hstays.within
    exact .inr ⟨⟨bits', out', hwithin.streamMode.trans hp.blocks, hstays.left.start rfl rfl rfl hwithin.size, hstays.ahead, hstays.holds,
      hstays.read_lt, hstays.fits, hstays.running⟩, hwithin.input, hwithin.size, hwithin.count, hprogress, hstays.stuck⟩

/-! ## What has been unpacked is what the stream begins with -/

theorem Stream.starts {tight : Prop} {size : Nat} {rest : List Bool} {final : List UInt8} {last : Bool} {hufts : List Huft}
    (h : Stream tight size rest final last hufts out bits) : out <+: final := by
  induction h with
  | done => exact List.prefix_rfl
  | stored hpad halign hbytes hnext ih => exact (List.prefix_append _ _).trans ih
  | fixed hspells hvalid hnext ih => exact (prefix_expand _ _).trans ih
  | dynamic hfree htable herr hspells hvalid hnext ih => exact (prefix_expand _ _).trans ih

theorem Work.Left.starts {W : Work} {last : Bool} {hufts : List Huft} {mode : BlocksMode} (h : W.Left last hufts out bits mode) :
    out <+: W.final := by
  have hopens : ∀ {trees : BuiltTrees} {bits : List Bool}, W.Opens last out trees bits → out <+: W.final := by
    rintro trees bits ⟨-, -, ts, tail, -, -, hnext⟩
    exact (prefix_expand out ts).trans hnext.starts
  cases mode with
  | type => exact Stream.starts h
  | lens =>
    obtain ⟨bytes, bits', -, -, hnext⟩ := h
    exact (List.prefix_append _ _).trans hnext.starts
  | stored left =>
    obtain ⟨-, bytes, bits', -, -, hnext⟩ := h
    exact (List.prefix_append _ _).trans hnext.starts
  | table =>
    obtain ⟨trees, bits', -, hnext⟩ := h
    exact hopens hnext
  | btree table index blens =>
    obtain ⟨trees, bits', -, -, hnext⟩ := h
    exact hopens hnext
  | dtree table index blens bb tb =>
    obtain ⟨trees, bits', -, -, hnext⟩ := h
    exact hopens hnext
  | codes c =>
    obtain ⟨ts, tail, -, -, hnext⟩ := h
    exact (prefix_expand out ts).trans hnext.starts
  | dry => exact h.1 ▸ List.prefix_rfl
  | done => exact h.1 ▸ List.prefix_rfl
  | bad => exact h.elim

/-! ## When the input ends

With tight codes no mode asks for more bits than are left, but for the code at the end
of the last block: by then all has been unpacked. -/

theorem LenextLeft.two_le {K : Coding} {S : List Bool → Prop} {len get : Nat} {t : Token} (h : LenextLeft K True S len get t bits) :
    get + 2 ≤ bits.length := by
  obtain ⟨extra, rest, rfl, hextra, _, _, code, rest', rfl, -, htight, -⟩ := h
  obtain ⟨hlen, htwo⟩ := htight trivial
  rw [List.length_append, List.length_append]
  omega

theorem LenLeft.need_le {K : Coding} {S : List Bool → Prop} {n need : Nat} {tree : Option HuftPtr} {t : Token}
    (h : LenLeft K True S n need tree t bits) (hS : ∀ bits, S bits → 0 < bits.length) : need ≤ bits.length := by
  obtain ⟨_, code, rest, rfl, -, -, hcase⟩ := h
  rw [List.length_append]
  rcases hcase with ⟨-, hshort, -, hrest⟩ | ⟨e, -, hshort, -, -, -, hrest⟩
  · have hpos := hS rest hrest
    have hcode := hshort trivial
    omega
  · have hmore := hrest.two_le
    have hcode := hshort trivial
    omega

theorem Coding.Spells.pos {K : Coding} {tight : Prop} {tail : List Bool} {ts : List Token} (h : K.Spells tight tail ts bits) :
    0 < bits.length := by
  cases ts with
  | nil =>
    obtain ⟨_, code, rfl, hlead, -⟩ := h
    have hpos := hlead.pos
    rw [List.length_append]
    omega
  | cons t ts =>
    obtain ⟨_, code, rest, rfl, hlead, -⟩ := h
    have hpos := hlead.pos
    rw [List.length_append]
    omega

theorem Coding.Left.short {K : Coding} {tail : List Bool} {len : Nat} {ts : List Token} {mode : CodesMode}
    (h : K.Left True tail len ts bits mode) (hlt : bits.length < mode.need) : ts = [] ∧ tail.length < 2 := by
  cases mode with
  | len need tree =>
    change bits.length < need at hlt
    obtain ⟨n, -, h⟩ := h
    cases ts with
    | nil =>
      obtain ⟨_, code, rfl, -, -, -, hshort⟩ := h
      have hcode := hshort trivial
      rw [List.length_append] at hlt
      exact ⟨rfl, by omega⟩
    | cons t ts =>
      have hle := LenLeft.need_le h fun _ hrest => hrest.pos
      omega
  | lenext get =>
    change bits.length < get at hlt
    obtain ⟨-, t, ts', -, h⟩ := h
    have hle := h.two_le
    omega
  | dist need tree =>
    change bits.length < need at hlt
    obtain ⟨n, -, t, ts', -, _, _, code, rest, rfl, -, htight, -⟩ := h
    have hcode := (htight trivial).1
    rw [List.length_append] at hlt
    omega
  | distext get dist =>
    change bits.length < get at hlt
    obtain ⟨-, t, ts', -, extra, rest, rfl, hextra, -⟩ := h
    rw [List.length_append] at hlt
    omega
  | _ => exact absurd hlt (Nat.not_lt_zero _)

theorem Stream.short {tight : Prop} {size : Nat} {rest : List Bool} {final : List UInt8} {last : Bool} {hufts : List Huft}
    (h : Stream tight size rest final last hufts out bits) (hlt : bits.length < 3) : last = true ∧ out = final := by
  cases h with
  | done => exact ⟨rfl, rfl⟩
  | stored => simp only [List.length_cons] at hlt; omega
  | fixed => simp only [List.length_cons] at hlt; omega
  | dynamic => simp only [List.length_cons] at hlt; omega

theorem Work.Left.short {W : Work} {last : Bool} {hufts : List Huft} {mode : BlocksMode} (h : W.Left last hufts out bits mode)
    (htight : W.tight) (hlt : bits.length < mode.need) : out = W.final := by
  cases mode with
  | type => exact absurd (Stream.short h hlt).1 Bool.false_ne_true
  | lens =>
    obtain ⟨bytes, bits', rfl, -⟩ := h
    change _ < 32 at hlt
    rw [List.length_append, length_lensBits] at hlt
    omega
  | stored left =>
    obtain ⟨hpos, bytes, bits', rfl, hlen, -⟩ := h
    change _ < 1 at hlt
    rw [List.length_append, length_bytesBits] at hlt
    omega
  | table =>
    obtain ⟨trees, bits', -, hfree, -⟩ := h
    exact absurd htight hfree
  | btree table index blens =>
    obtain ⟨trees, bits', -, -, hfree, -⟩ := h
    exact absurd htight hfree
  | dtree table index blens bb tb =>
    obtain ⟨trees, bits', -, -, hfree, -⟩ := h
    exact absurd htight hfree
  | codes c =>
    obtain ⟨ts, tail, hleft, -, hnext⟩ := h
    rw [eq_true htight] at hleft
    obtain ⟨rfl, hshort⟩ := hleft.short hlt
    exact (hnext.short (by omega)).2
  | _ => exact absurd hlt (Nat.not_lt_zero _)

/-- When all of the input has been read and the mode asks for more, all has been delivered. -/
theorem Job.Paused.finished (hp : J.Paused [] done bits out s) (htight : J.tight)
    (hstuck : s.read = s.write ∧ s.p = s.input.length ∧ s.bitk < s.mode.need) : done + s.nextOut.length = J.final.length := by
  obtain ⟨hread, hempty, hneed⟩ := hstuck
  obtain ⟨buffered, hlen, hbits⟩ := hp.ahead.split
  rw [hempty, List.drop_length, List.nil_append, bytesBits_nil, List.append_nil] at hbits
  have hout : out = J.final := hp.left.short htight (by rw [hbits, hlen]; exact hneed)
  have hcount := hp.holds.count
  rw [Inflater.waiting_eq_zero hread, hout] at hcount
  omega

end MgStd.Inflate
