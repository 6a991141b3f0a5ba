import Mathlib.Logic.Basic
/-!
# Programs that may fault

A C function is a state transformer that returns a value, or faults: it
dereferences NULL, touches memory that is not allocated, goes beyond the bounds of
an object, or uses up the rounds its loops are allowed. `Returns m s Q` is total correctness: `m` run from `s`
comes back, and `Q` holds of its value and of the state it leaves.
-/

namespace MgStd.Lib

inductive Fault
  /-- `NULL` is dereferenced -/
  | null
  /-- memory that is not (or no longer) allocated is accessed -/
  | dangling
  /-- an object is accessed beyond its bounds -/
  | bounds
  /-- a loop goes round more often than it is allowed to -/
  | fuel
  deriving DecidableEq, Repr

abbrev Prog (σ α : Type) := StateT σ (Except Fault) α

/-- What a call gives back of a function whose end may be reached without a `return`: then there is no value. -/
abbrev Returned (α : Type) := Option α

variable {σ α β : Type}

def fault (e : Fault) : Prog σ α := fun _ => .error e

theorem ok_of_bind {m : Except Fault α} {f : α → Except Fault β} {b : β} (h : m >>= f = .ok b) :
    ∃ a, m = .ok a ∧ f a = .ok b := by
  cases m with
  | error e => cases h
  | ok a => exact ⟨a, rfl, h⟩

/-- `m` started in `s` returns, with a value and a final state that satisfy `Q`. -/
def Returns (m : Prog σ α) (s : σ) (Q : α → σ → Prop) : Prop := ∃ a s', m s = .ok (a, s') ∧ Q a s'

/-! ## Straight-line code -/

@[simp] theorem returns_pure (a : α) (s : σ) (Q : α → σ → Prop) : Returns (pure a) s Q ↔ Q a s := by
  constructor
  · rintro ⟨b, s', h, hq⟩; cases h; exact hq
  · intro h; exact ⟨a, s, rfl, h⟩

@[simp] theorem returns_fault (e : Fault) (s : σ) (Q : α → σ → Prop) : ¬ Returns (fault e) s Q := by
  rintro ⟨a, s', h, -⟩; cases h

@[simp] theorem returns_bind (m : Prog σ α) (f : α → Prog σ β) (s : σ) (Q : β → σ → Prop) :
    Returns (m >>= f) s Q ↔ Returns m s fun a s' => Returns (f a) s' Q := by
  constructor
  · rintro ⟨b, s', h, hq⟩
    simp only [bind, StateT.bind] at h
    cases hm : m s with
    | error e => simp [hm, Except.bind] at h
    | ok p => exact ⟨p.1, p.2, hm, b, s', by simpa [hm, Except.bind] using h, hq⟩
  · rintro ⟨a, s₁, hm, b, s₂, hf, hq⟩
    refine ⟨b, s₂, ?_, hq⟩
    simp only [bind, StateT.bind, hm, Except.bind]
    exact hf

@[simp] theorem returns_map (m : Prog σ α) (f : α → β) (s : σ) (Q : β → σ → Prop) :
    Returns (f <$> m) s Q ↔ Returns m s fun a s' => Q (f a) s' := by
  rw [← bind_pure_comp, returns_bind]
  simp

@[simp] theorem returns_ite (c : Prop) [Decidable c] (m₁ m₂ : Prog σ α) (s : σ) (Q : α → σ → Prop) :
    Returns (if c then m₁ else m₂) s Q ↔ (c → Returns m₁ s Q) ∧ (¬ c → Returns m₂ s Q) := by
  by_cases h : c <;> simp [h]

@[simp] theorem returns_get (s : σ) (Q : σ → σ → Prop) : Returns (get : Prog σ σ) s Q ↔ Q s s := by
  constructor
  · rintro ⟨b, s', h, hq⟩; cases h; exact hq
  · intro h; exact ⟨s, s, rfl, h⟩

@[simp] theorem returns_modify (f : σ → σ) (s : σ) (Q : PUnit → σ → Prop) :
    Returns (modify f : Prog σ PUnit) s Q ↔ Q ⟨⟩ (f s) := by
  constructor
  · rintro ⟨b, s', h, hq⟩; cases h; exact hq
  · intro h; exact ⟨⟨⟩, f s, rfl, h⟩

@[simp] theorem returns_set (t : σ) (s : σ) (Q : PUnit → σ → Prop) : Returns (set t : Prog σ PUnit) s Q ↔ Q ⟨⟩ t := by
  constructor
  · rintro ⟨b, s', h, hq⟩; cases h; exact hq
  · intro h; exact ⟨⟨⟩, t, rfl, h⟩

theorem Returns.mono {m : Prog σ α} {s : σ} {Q R : α → σ → Prop} (h : Returns m s Q)
    (hqr : ∀ a s', Q a s' → R a s') : Returns m s R := by
  obtain ⟨a, s', hm, hq⟩ := h
  exact ⟨a, s', hm, hqr a s' hq⟩

/-- A call by its specification. -/
theorem Returns.bind {m : Prog σ α} {f : α → Prog σ β} {s : σ} {Q : α → σ → Prop} {R : β → σ → Prop}
    (h : Returns m s Q) (hf : ∀ a s', Q a s' → Returns (f a) s' R) : Returns (m >>= f) s R := by
  rw [returns_bind]
  exact h.mono hf

/-- A program has one outcome. -/
theorem Returns.of_eq {m : Prog σ α} {s s' : σ} {a : α} {Q : α → σ → Prop} (h : Returns m s Q)
    (hm : m s = .ok (a, s')) : Q a s' := by
  obtain ⟨b, s₁, hb, hq⟩ := h
  rw [hm] at hb
  cases hb
  exact hq

/-- Two specifications of one run hold together. -/
theorem Returns.and {m : Prog σ α} {s : σ} {P Q : α → σ → Prop} (hp : Returns m s P) (hq : Returns m s Q) :
    Returns m s fun a s' => P a s' ∧ Q a s' := by
  obtain ⟨a, s', hm, hpa⟩ := hp
  exact ⟨a, s', hm, hpa, hq.of_eq hm⟩

/-- What is known of the outcome may be used in its specification. -/
theorem Returns.congr {m : Prog σ α} {s : σ} {P Q R : α → σ → Prop} (h : Returns m s P) (hqr : ∀ a s', P a s' → (Q a s' ↔ R a s')) :
    Returns m s Q ↔ Returns m s R := by
  obtain ⟨a, s', hm, hp⟩ := h
  constructor
  · intro hq
    exact ⟨a, s', hm, (hqr a s' hp).1 (hq.of_eq hm)⟩
  · intro hr
    exact ⟨a, s', hm, (hqr a s' hp).2 (hr.of_eq hm)⟩

theorem Returns.iff_of {m : Prog σ α} {s : σ} {Q : α → σ → Prop} {C : Prop} (h : Returns m s fun a s' => Q a s' ↔ C) :
    Returns m s Q ↔ C := by
  obtain ⟨a, s', hm, hq⟩ := h
  exact ⟨fun hret => hq.1 (hret.of_eq hm), fun hc => ⟨a, s', hm, hq.2 hc⟩⟩

theorem not_returns_of_error {m : Prog σ α} {s : σ} {e : Fault} (hm : m s = .error e) (Q : α → σ → Prop) :
    ¬ Returns m s Q := by
  rintro ⟨a, s', h, -⟩
  simp [hm] at h

/-- With enough rounds for its loops, `m` returns. -/
def Finishes (m : Nat → Prog σ α) (s : σ) (Q : α → σ → Prop) : Prop := ∃ n, ∀ fuel, n ≤ fuel → Returns (m fuel) s Q

theorem Finishes.of_lt {m : Nat → Prog σ α} {s : σ} {Q : α → σ → Prop} {n : Nat}
    (h : ∀ fuel, n < fuel → Returns (m fuel) s Q) : Finishes m s Q := ⟨n + 1, h⟩

theorem Finishes.returns {m : Nat → Prog σ α} {s : σ} {Q : α → σ → Prop} (h : Finishes m s Q) :
    ∃ fuel, Returns (m fuel) s Q := h.imp fun n hn => hn n (Nat.le_refl n)

/-! ## Loops that may go round more often -/

/-- Where `m` returns, `m'` returns the same. -/
def ExtendedBy (m m' : Prog σ α) : Prop := ∀ s Q, Returns m s Q → Returns m' s Q

theorem ExtendedBy.refl (m : Prog σ α) : ExtendedBy m m := fun _ _ h => h

theorem fault_extendedBy (e : Fault) (m : Prog σ α) : ExtendedBy (fault e) m := fun s Q h => absurd h (returns_fault e s Q)

theorem ExtendedBy.bind {m m' : Prog σ α} {f f' : α → Prog σ β} (hm : ExtendedBy m m') (hf : ∀ a, ExtendedBy (f a) (f' a)) :
    ExtendedBy (m >>= f) (m' >>= f') := by
  intro s Q h
  rw [returns_bind] at h ⊢
  exact (hm _ _ h).mono fun a s' => hf a s' Q

theorem ExtendedBy.ite {c : Prop} [Decidable c] {m₁ m₁' m₂ m₂' : Prog σ α} (h₁ : ExtendedBy m₁ m₁') (h₂ : ExtendedBy m₂ m₂') :
    ExtendedBy (if c then m₁ else m₂) (if c then m₁' else m₂') := by
  split
  · exact h₁
  · exact h₂

/-- With each round more that is allowed, `m` returns what it did. -/
theorem extendedBy_of_le {m : Nat → Prog σ α} (h : ∀ fuel, ExtendedBy (m fuel) (m (fuel + 1))) {n k : Nat} (hle : n ≤ k) :
    ExtendedBy (m n) (m k) := by
  induction hle with
  | refl => exact .refl _
  | step _ ih => exact fun s Q hret => h _ s Q (ih s Q hret)

/-! ## Partial correctness -/

/-- If `m` started in `s` returns, its value and the final state satisfy `Q`. -/
def Ensures (m : Prog σ α) (s : σ) (Q : α → σ → Prop) : Prop := ∀ a s', m s = .ok (a, s') → Q a s'

theorem Returns.ensures {m : Prog σ α} {s : σ} {Q : α → σ → Prop} (h : Returns m s Q) : Ensures m s Q :=
  fun _ _ hm => h.of_eq hm

theorem Returns.of_ensures {m : Prog σ α} {s : σ} {P Q : α → σ → Prop} (h : Returns m s P) (hq : Ensures m s Q) :
    Returns m s fun a s' => P a s' ∧ Q a s' := by
  obtain ⟨a, s', hm, hp⟩ := h
  exact ⟨a, s', hm, hp, hq a s' hm⟩

theorem Ensures.not_returns {m : Prog σ α} {s : σ} (h : Ensures m s fun _ _ => False) (Q : α → σ → Prop) :
    ¬ Returns m s Q := by
  rintro ⟨a, s', hm, -⟩
  exact h a s' hm

theorem Ensures.mono {m : Prog σ α} {s : σ} {Q R : α → σ → Prop} (h : Ensures m s Q)
    (hqr : ∀ a s', Q a s' → R a s') : Ensures m s R :=
  fun a s' hm => hqr a s' (h a s' hm)

theorem Ensures.and {m : Prog σ α} {s : σ} {P Q : α → σ → Prop} (hp : Ensures m s P) (hq : Ensures m s Q) :
    Ensures m s fun a s' => P a s' ∧ Q a s' := fun a s' hm => ⟨hp a s' hm, hq a s' hm⟩

@[simp] theorem ensures_pure (a : α) (s : σ) (Q : α → σ → Prop) : Ensures (pure a) s Q ↔ Q a s := by
  constructor
  · intro h
    exact h a s rfl
  · intro h b s' hm
    cases hm
    exact h

@[simp] theorem ensures_fault (e : Fault) (s : σ) (Q : α → σ → Prop) : Ensures (fault e) s Q := by
  intro a s' hm
  cases hm

@[simp] theorem ensures_bind (m : Prog σ α) (f : α → Prog σ β) (s : σ) (Q : β → σ → Prop) :
    Ensures (m >>= f) s Q ↔ Ensures m s fun a s' => Ensures (f a) s' Q := by
  constructor
  · intro h a s₁ hm b s₂ hf
    apply h b s₂
    simpa only [bind, StateT.bind, hm, Except.bind] using hf
  · intro h b s₂ hmf
    simp only [bind, StateT.bind] at hmf
    cases hm : m s with
    | error e => simp [hm, Except.bind] at hmf
    | ok p => exact h p.1 p.2 hm b s₂ (by simpa [hm, Except.bind] using hmf)

@[simp] theorem ensures_map (m : Prog σ α) (f : α → β) (s : σ) (Q : β → σ → Prop) :
    Ensures (f <$> m) s Q ↔ Ensures m s fun a s' => Q (f a) s' := by
  rw [← bind_pure_comp, ensures_bind]
  simp

@[simp] theorem ensures_ite (c : Prop) [Decidable c] (m₁ m₂ : Prog σ α) (s : σ) (Q : α → σ → Prop) :
    Ensures (if c then m₁ else m₂) s Q ↔ (c → Ensures m₁ s Q) ∧ (¬ c → Ensures m₂ s Q) := by
  by_cases h : c <;> simp [h]

@[simp] theorem ensures_get (s : σ) (Q : σ → σ → Prop) : Ensures (get : Prog σ σ) s Q ↔ Q s s := by
  constructor
  · intro h
    exact h s s rfl
  · intro h b s' hm
    cases hm
    exact h

@[simp] theorem ensures_modify (f : σ → σ) (s : σ) (Q : PUnit → σ → Prop) :
    Ensures (modify f : Prog σ PUnit) s Q ↔ Q ⟨⟩ (f s) := by
  constructor
  · intro h
    exact h ⟨⟩ (f s) rfl
  · intro h b s' hm
    cases hm
    exact h

/-! ## Loops -/

/-- A C loop that may go round `n` times: `body` goes round again with a new
value of the loop's variables, or leaves with a result. -/
def loop (body : α → Prog σ (α ⊕ β)) : Nat → α → Prog σ β
  | 0, _ => fault .fuel
  | n + 1, x => do
    match ← body x with
    | .inl y => loop body n y
    | .inr b => pure b

theorem returns_loop_succ (body : α → Prog σ (α ⊕ β)) (n : Nat) (x : α) (s : σ) (Q : β → σ → Prop) :
    Returns (loop body (n + 1) x) s Q ↔ Returns (body x) s fun r s' =>
      match r with
      | .inl y => Returns (loop body n y) s' Q
      | .inr b => Q b s' := by
  rw [loop, returns_bind]
  constructor <;> intro h <;> refine h.mono fun r s' hr => ?_ <;> cases r <;> simpa using hr

/-- A loop by its invariant: `I k x s` holds at the loop's head with at most `k`
rounds to go. -/
theorem returns_loop {body : α → Prog σ (α ⊕ β)} {Q : β → σ → Prop} (I : Nat → α → σ → Prop)
    (hbody : ∀ k x s, I k x s → Returns (body x) s fun r s' =>
      match r with
      | .inl y => ∃ j < k, I j y s'
      | .inr b => Q b s') :
    ∀ n k x s, I k x s → k < n → Returns (loop body n x) s Q := by
  intro n
  induction n with
  | zero => intro k x s _ hk; exact absurd hk (Nat.not_lt_zero k)
  | succ n ih =>
    intro k x s hi hk
    rw [returns_loop_succ]
    refine (hbody k x s hi).mono fun r s' hr => ?_
    cases r with
    | inl y =>
      obtain ⟨j, hj, hij⟩ := hr
      exact ih j y s' hij (by omega)
    | inr b => exact hr

/-- What holds at the loop's head in every round holds of its outcome, if it has one. -/
theorem ensures_loop {body : α → Prog σ (α ⊕ β)} {Q : β → σ → Prop} (I : α → σ → Prop)
    (hbody : ∀ x s, I x s → Ensures (body x) s fun r s' =>
      match r with
      | .inl y => I y s'
      | .inr b => Q b s') :
    ∀ n x s, I x s → Ensures (loop body n x) s Q := by
  intro n
  induction n with
  | zero => intro x s _; exact ensures_fault _ _ _
  | succ n ih =>
    intro x s hi
    rw [loop, ensures_bind]
    refine (hbody x s hi).mono fun r s' hr => ?_
    cases r with
    | inl y => exact ih y s' hr
    | inr b => exact (ensures_pure b s' Q).2 hr

/-- A loop that comes back to where it was never leaves. -/
theorem loop_diverges {body : α → Prog σ (α ⊕ β)} {x : α} {s : σ} (h : body x s = .ok (.inl x, s)) (n : Nat) :
    loop body n x s = .error .fuel := by
  induction n with
  | zero => rfl
  | succ n ih => simpa only [loop, bind, StateT.bind, h, Except.bind] using ih

/-- The loop comes from `x` and `s` to the head of a round with `y` and `s'`. -/
inductive Comes (body : α → Prog σ (α ⊕ β)) (y : α) (s' : σ) : α → σ → Prop
  | here : Comes body y s' y s'
  | round {x z : α} {s s₁ : σ} (h : body x s = .ok (.inl z, s₁)) (hrest : Comes body y s' z s₁) : Comes body y s' x s

section Comes
variable {body : α → Prog σ (α ⊕ β)} {x y : α} {s s' s'' : σ} {b : β}

theorem Comes.loop_eq (h : Comes body y s' x s) : ∃ n, ∀ fuel, loop body (n + fuel) x s = loop body fuel y s' := by
  induction h with
  | here => exact ⟨0, fun fuel => by rw [Nat.zero_add]⟩
  | round hbody _ ih =>
    obtain ⟨n, hn⟩ := ih
    refine ⟨n + 1, fun fuel => ?_⟩
    rw [Nat.add_right_comm, ← hn fuel]
    simp only [loop, bind, StateT.bind, hbody, Except.bind]

/-- Where the loop leaves, its result is known. -/
theorem Comes.finishes_iff (h : Comes body y s' x s) (hb : body y s' = .ok (.inr b, s'')) (Q : β → σ → Prop) :
    Finishes (fun fuel => loop body fuel x) s Q ↔ Q b s'' := by
  obtain ⟨n, hn⟩ := h.loop_eq
  have hleave : ∀ fuel, n + 1 ≤ fuel → loop body fuel x s = .ok (b, s'') := by
    intro fuel hfuel
    obtain ⟨k, rfl⟩ := Nat.exists_eq_add_of_le hfuel
    rw [Nat.add_assoc, hn, Nat.add_comm]
    simp only [loop, bind, StateT.bind, hb, Except.bind]
    rfl
  constructor
  · rintro ⟨m, hm⟩
    exact (hm (m + (n + 1)) (Nat.le_add_right m _)).of_eq (hleave _ (Nat.le_add_left _ m))
  · exact fun hq => ⟨n + 1, fun fuel hfuel => ⟨b, s'', hleave fuel hfuel, hq⟩⟩

/-- Where it stays, it has none. -/
theorem Comes.not_finishes (h : Comes body y s' x s) (hb : body y s' = .ok (.inl y, s')) (Q : β → σ → Prop) :
    ¬ Finishes (fun fuel => loop body fuel x) s Q := by
  rintro ⟨m, hm⟩
  obtain ⟨n, hn⟩ := h.loop_eq
  exact not_returns_of_error ((hn m).trans (loop_diverges hb m)) Q (hm (n + m) (Nat.le_add_left m n))

end Comes

/-! ## The rounds of a loop -/

/-- The loop, with the values of its variables at the head of each round. -/
def traced (body : α → Prog σ (α ⊕ β)) : Nat → α → Prog σ (List α × β)
  | 0, _ => fault .fuel
  | n + 1, x => do
    match ← body x with
    | .inl y => do
      let r ← traced body n y
      pure (x :: r.1, r.2)
    | .inr b => pure ([x], b)

theorem loop_eq_traced (body : α → Prog σ (α ⊕ β)) (n : Nat) (x : α) : loop body n x = Prod.snd <$> traced body n x := by
  induction n generalizing x with
  | zero => rfl
  | succ n ih =>
    rw [loop, traced, map_bind]
    congr 1
    funext r
    cases r with
    | inl y => simp [ih]
    | inr b => simp

theorem returns_traced_succ (body : α → Prog σ (α ⊕ β)) (n : Nat) (x : α) (s : σ) (Q : List α × β → σ → Prop) :
    Returns (traced body (n + 1) x) s Q ↔ Returns (body x) s fun r s' =>
      match r with
      | .inl y => Returns (traced body n y) s' fun v s'' => Q (x :: v.1, v.2) s''
      | .inr b => Q ([x], b) s' := by
  rw [traced, returns_bind]
  constructor <;> intro h <;> refine h.mono fun r s' hr => ?_ <;> cases r <;> simpa using hr

/-! ## A component of the state -/

/-- Run `m` on one component of the state. -/
def zoom {τ : Type} (get : τ → σ) (set : σ → τ → τ) (m : Prog σ α) : Prog τ α := fun t =>
  match m (get t) with
  | .ok (a, s) => .ok (a, set s t)
  | .error e => .error e

@[simp] theorem returns_zoom {τ : Type} (get : τ → σ) (set : σ → τ → τ) (m : Prog σ α) (t : τ) (Q : α → τ → Prop) :
    Returns (zoom get set m) t Q ↔ Returns m (get t) fun a s => Q a (set s t) := by
  constructor
  · rintro ⟨a, t', h, hq⟩
    unfold zoom at h
    split at h
    · next a' s' hm => cases h; exact ⟨a, s', hm, hq⟩
    · cases h
  · rintro ⟨a, s', hm, hq⟩
    exact ⟨a, set s' t, by simp [zoom, hm], hq⟩

@[simp] theorem ensures_zoom {τ : Type} (get : τ → σ) (set : σ → τ → τ) (m : Prog σ α) (t : τ) (Q : α → τ → Prop) :
    Ensures (zoom get set m) t Q ↔ Ensures m (get t) fun a s => Q a (set s t) := by
  constructor
  · intro h a s' hm
    exact h a _ (by simp [zoom, hm])
  · intro h a t' hm
    unfold zoom at hm
    split at hm
    · next a' s' hm' => cases hm; exact h a s' hm'
    · cases hm

end MgStd.Lib
