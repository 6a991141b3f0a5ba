import MgStd.Lib.Lz
import MgStd.Inflate.Window
/-!
# What the tables of a block say

A code leads through the tables to the entry for it. From this, the tokens that the
bits of a block spell, from each mode in the middle of it on.
-/

namespace MgStd.Inflate

open MgStd.Lib

variable {s s' : Inflater} {h : Huft} {n need : Nat} {tree : Option HuftPtr} {bits code rest : List Bool}

/-- `Exop` of a length or a distance with `e` extra bits. -/
def extraOp (e : Nat) : Nat := 80 + e

/-- `Exop` of the end of the block. -/
def endOp : Nat := 96

theorem extraOp_bits : ∀ e < 16, extraOp e ≠ 0 ∧ extraOp e &&& 16 ≠ 0 ∧ extraOp e &&& 15 = e := by decide

theorem tableOp_bits : ∀ e < 16, e &&& 16 = 0 ∧ e &&& 64 = 0 := by decide

/-- The bits of a code lead to `h`, through tables for `n` bits together: the first one is for `need` bits. -/
inductive Leads (h : Huft) : Nat → Option HuftPtr → Nat → List Bool → Prop
  | here {n need : Nat} {t : HuftPtr} {code : List Bool} (hneed : need ≤ n) (hpos : 0 < code.length) (hle : code.length ≤ need)
      (hbits : h.Bits = code.length)
      (hentry : ∀ rest : List Bool, code.length + rest.length = need → t.space[t.at_ + bitsNat (code ++ rest)]? = some h) :
      Leads h n (some t) need code
  | next {n need e base : Nat} {t : HuftPtr} {code code' : List Bool} (hneed : need ≤ n) (hpos : 0 < need) (hlen : code.length = need)
      (he : 0 < e ∧ e < 16) (hentry : t.space[t.at_ + bitsNat code]? = some ⟨e, need, base⟩)
      (hrest : Leads h (n - need) (some ⟨t.space, t.at_ + bitsNat code + base⟩) e code') :
      Leads h n (some t) need (code ++ code')

theorem Leads.need_le (hlead : Leads h n tree need code) : need ≤ n := by
  cases hlead <;> assumption

theorem Leads.pos (hlead : Leads h n tree need code) : 0 < code.length := by
  cases hlead with
  | here hneed hpos => exact hpos
  | next hneed hpos hlen =>
    rw [List.length_append]
    omega

theorem Leads.length_le (hlead : Leads h n tree need code) : code.length ≤ n := by
  induction hlead with
  | here hneed hpos hle => exact Nat.le_trans hle hneed
  | next hneed hpos hlen he hentry hrest ih =>
    rw [List.length_append]
    omega

theorem Leads.bits_le (hlead : Leads h n tree need code) : h.Bits ≤ code.length := by
  induction hlead with
  | here hneed hpos hle hbits => exact Nat.le_of_eq hbits
  | next hneed hpos hlen he hentry hrest ih =>
    rw [List.length_append]
    exact Nat.le_add_left_of_le ih

/-- An entry for all of the code is in the first table. -/
theorem Leads.here_le (hlead : Leads h n tree need code) (hbits : h.Bits = code.length) : code.length ≤ need := by
  cases hlead with
  | here hneed hpos hle hbits => exact hle
  | next hneed hpos hlen he hentry hrest =>
    have hbound := hrest.bits_le
    rw [List.length_append] at hbits
    omega

/-- What the index of a code finds: its entry, or the next table. -/
inductive Found (h : Huft) (n need : Nat) (code : List Bool) : Huft → HuftPtr → Prop
  | here {at_ : HuftPtr} (hbits : h.Bits = code.length) : Found h n need code h at_
  | next {at_ : HuftPtr} {e base : Nat} {code₁ code₂ : List Bool} (hcode : code = code₁ ++ code₂) (hlen : code₁.length = need)
      (hpos : 0 < code₁.length) (he : 0 < e ∧ e < 16)
      (hrest : Leads h (n - code₁.length) (some ⟨at_.space, at_.at_ + base⟩) e code₂) :
      Found h n need code ⟨e, code₁.length, base⟩ at_

theorem returns_entryAt_of {t : HuftPtr} {j : Nat} {x : Huft} (hx : t.space[t.at_ + j]? = some x) (Q : Huft × HuftPtr → Inflater → Prop) :
    Returns (entryAt (some t) j) s Q ↔ Q (x, ⟨t.space, t.at_ + j⟩) s := by
  obtain ⟨hlt, hget⟩ := List.getElem?_eq_some_iff.1 hx
  unfold entryAt
  simp only [dif_pos hlt, returns_pure, List.get_eq_getElem, hget]

/-- `tree[index]` -/
theorem Leads.returns_entryAt (hlead : Leads h n tree need code) (hbits : bits = code ++ rest) (hneed : need ≤ bits.length) :
    Returns (entryAt tree (bitsNat (bits.take need))) s fun x s' => Found h n need code x.1 x.2 ∧ s' = s := by
  cases hlead with
  | @here _ _ t _ hle hpos hlen hcode hentry =>
    have htake : bits.take need = code ++ rest.take (need - code.length) := by
      rw [hbits, List.take_append, List.take_of_length_le hlen]
    have hrest : code.length + (rest.take (need - code.length)).length = need := by
      rw [hbits, List.length_append] at hneed
      rw [List.length_take]
      omega
    rw [htake, returns_entryAt_of (hentry _ hrest)]
    exact ⟨.here hcode, rfl⟩
  | @next _ _ e base t code code' hle hpos hlen he hentry hrest =>
    have htake : bits.take need = code := by
      rw [hbits, List.append_assoc, ← hlen, List.take_left]
    rw [htake, returns_entryAt_of hentry, ← hlen]
    exact ⟨.next rfl rfl (hlen ▸ hpos) he (hlen ▸ hrest), rfl⟩

/-- The tables of a block. -/
structure Coding where
  lbits : Nat
  dbits : Nat
  ltree : Option HuftPtr
  dtree : Option HuftPtr

def Codes.coding (c : Codes) : Coding := ⟨c.lbits, c.dbits, c.ltree, c.dtree⟩

/-! ## What is left of a token

`S` is what holds of the bits behind it. With `tight` codes have almost all of the
bits that are needed to look for them, so that little is in the buffer behind them. -/

section Token

variable (K : Coding) (tight : Prop) (S : List Bool → Prop)

def CopyLeft (len dist : Nat) (t : Token) (bits : List Bool) : Prop := t = .copy len dist ∧ S bits

def DistextLeft (len get dist : Nat) (t : Token) (bits : List Bool) : Prop :=
  ∃ extra rest, bits = extra ++ rest ∧ extra.length = get ∧ CopyLeft S len (dist + bitsNat extra) t rest

def DistLeft (n len need : Nat) (tree : Option HuftPtr) (t : Token) (bits : List Bool) : Prop :=
  ∃ h e code rest, bits = code ++ rest ∧ Leads h n tree need code ∧ (tight → code.length = need ∧ 2 ≤ need) ∧ h.Exop = extraOp e ∧ e ≤ 13 ∧
    DistextLeft S len e h.base t rest

def LenextLeft (len get : Nat) (t : Token) (bits : List Bool) : Prop :=
  ∃ extra rest, bits = extra ++ rest ∧ extra.length = get ∧ DistLeft tight S 15 (len + bitsNat extra) K.dbits K.dtree t rest

/-- A literal or the length of a copy. -/
def LenLeft (n need : Nat) (tree : Option HuftPtr) (t : Token) (bits : List Bool) : Prop :=
  ∃ h code rest, bits = code ++ rest ∧ Leads h n tree need code ∧ (tight → code.length ≤ need) ∧
    ((h.Exop = 0 ∧ (tight → need ≤ code.length + 1) ∧ t = .lit (UInt8.ofNat h.base) ∧ S rest) ∨
      ∃ e, h.Exop = extraOp e ∧ (tight → need ≤ code.length + 2) ∧ e ≤ 5 ∧ 3 ≤ t.size ∧ t.size ≤ 258 ∧
        LenextLeft K tight S h.base e t rest)

end Token

/-- The end of the block, with `tail` behind it. -/
def EndLeft (tight : Prop) (tail : List Bool) (n need : Nat) (tree : Option HuftPtr) (bits : List Bool) : Prop :=
  ∃ h code, bits = code ++ tail ∧ Leads h n tree need code ∧ (tight → code.length ≤ need) ∧ h.Exop = endOp ∧
    (tight → need ≤ code.length + 2)

/-- The bits are the codes of the tokens and of the end of the block. -/
def Coding.Spells (K : Coding) (tight : Prop) (tail : List Bool) : List Token → List Bool → Prop
  | [], bits => EndLeft tight tail 15 K.lbits K.ltree bits
  | t :: ts, bits => LenLeft K tight (K.Spells tight tail ts) 15 K.lbits K.ltree t bits

/-- What a mode in the middle of a block says: these tokens are left, the first of them perhaps in part. -/
def Coding.Left (K : Coding) (tight : Prop) (tail : List Bool) (len : Nat) (ts : List Token) (bits : List Bool) : CodesMode → Prop
  | .start => K.Spells tight tail ts bits
  | .len need tree =>
    ∃ n ≤ 15, match ts with
      | [] => EndLeft tight tail n need tree bits
      | t :: ts => LenLeft K tight (K.Spells tight tail ts) n need tree t bits
  | .lenext get => get ≤ 5 ∧ ∃ t ts', ts = t :: ts' ∧ LenextLeft K tight (K.Spells tight tail ts') len get t bits
  | .dist need tree => ∃ n ≤ 15, ∃ t ts', ts = t :: ts' ∧ DistLeft tight (K.Spells tight tail ts') n len need tree t bits
  | .distext get dist => get ≤ 13 ∧ ∃ t ts', ts = t :: ts' ∧ DistextLeft (K.Spells tight tail ts') len get dist t bits
  | .copy dist => ∃ t ts', ts = t :: ts' ∧ CopyLeft (K.Spells tight tail ts') len dist t bits
  | .lit lit => ∃ ts', ts = .lit (UInt8.ofNat lit) :: ts' ∧ K.Spells tight tail ts' bits
  | .wash => ts = [] ∧ bits = tail
  | .end_ => ts = [] ∧ bits = tail
  | .badcode => False

/-! ## The bits behind the block -/

section Tail
variable {K : Coding} {tight : Prop} {S : List Bool → Prop} {tail : List Bool} {len dist get : Nat} {t : Token} {ts : List Token}

theorem DistextLeft.tail_le (h : DistextLeft S len get dist t bits) (hS : ∀ bits, S bits → tail.length ≤ bits.length) :
    tail.length ≤ bits.length := by
  obtain ⟨extra, rest, rfl, -, -, hrest⟩ := h
  rw [List.length_append]
  exact Nat.le_add_left_of_le (hS rest hrest)

theorem DistLeft.tail_le (h : DistLeft tight S n len need tree t bits) (hS : ∀ bits, S bits → tail.length ≤ bits.length) :
    tail.length ≤ bits.length := by
  obtain ⟨_, _, code, rest, rfl, -, -, -, -, hrest⟩ := h
  rw [List.length_append]
  exact Nat.le_add_left_of_le (hrest.tail_le hS)

theorem LenextLeft.tail_le (h : LenextLeft K tight S len get t bits) (hS : ∀ bits, S bits → tail.length ≤ bits.length) :
    tail.length ≤ bits.length := by
  obtain ⟨extra, rest, rfl, -, hrest⟩ := h
  rw [List.length_append]
  exact Nat.le_add_left_of_le (hrest.tail_le hS)

theorem LenLeft.tail_le (h : LenLeft K tight S n need tree t bits) (hS : ∀ bits, S bits → tail.length ≤ bits.length) :
    tail.length ≤ bits.length := by
  obtain ⟨_, code, rest, rfl, -, -, hcase⟩ := h
  rw [List.length_append]
  rcases hcase with ⟨-, -, -, hrest⟩ | ⟨_, -, -, -, -, -, hrest⟩
  · exact Nat.le_add_left_of_le (hS rest hrest)
  · exact Nat.le_add_left_of_le (hrest.tail_le hS)

theorem EndLeft.tail_le (h : EndLeft tight tail n need tree bits) : tail.length ≤ bits.length := by
  obtain ⟨_, code, rfl, -⟩ := h
  rw [List.length_append]
  exact Nat.le_add_left _ _

theorem Coding.Spells.tail_le (h : K.Spells tight tail ts bits) : tail.length ≤ bits.length := by
  induction ts generalizing bits with
  | nil => exact EndLeft.tail_le h
  | cons t ts ih => exact LenLeft.tail_le h fun _ hrest => ih hrest

theorem Coding.Left.tail_le {mode : CodesMode} (h : K.Left tight tail len ts bits mode) : tail.length ≤ bits.length := by
  have hS : ∀ {ts : List Token} (bits : List Bool), K.Spells tight tail ts bits → tail.length ≤ bits.length := fun _ h => h.tail_le
  cases mode with
  | start => exact Coding.Spells.tail_le h
  | len need tree =>
    obtain ⟨n, -, h⟩ := h
    cases ts with
    | nil => exact EndLeft.tail_le h
    | cons t ts => exact LenLeft.tail_le h hS
  | lenext get =>
    obtain ⟨-, t, ts', -, h⟩ := h
    exact h.tail_le hS
  | dist need tree =>
    obtain ⟨n, -, t, ts', -, h⟩ := h
    exact h.tail_le hS
  | distext get dist =>
    obtain ⟨-, t, ts', -, h⟩ := h
    exact h.tail_le hS
  | copy dist =>
    obtain ⟨t, ts', -, -, h⟩ := h
    exact hS bits h
  | lit lit =>
    obtain ⟨ts', -, h⟩ := h
    exact hS bits h
  | wash => exact Nat.le_of_eq (congrArg List.length h.2.symm)
  | end_ => exact Nat.le_of_eq (congrArg List.length h.2.symm)
  | badcode => exact h.elim

end Tail

end MgStd.Inflate
