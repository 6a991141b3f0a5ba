import Mathlib.Data.List.Basic
import MgStd.Sha.Rounds
import MgStd.Sha.Stream
/-!
# The digests

What `final` prints is the message digest of the standard, for every message
and however it came in.
-/

namespace MgStd.Sha

open MgStd.Lib Standard

variable {σ : Type} {w k : Nat} {output : List UInt8} {pieces : List (List UInt8)}

/-! ## Printing -/

theorem ascii_append (s t : List Char) : ascii (s ++ t) = ascii s ++ ascii t := List.map_append

/-- A word is printed as the digits of its bytes, the high one first, where there is room for them and the NUL. -/
theorem printWord_eq (hk : 0 < k) (hw : w = 8 * k) {pre : List UInt8} (suf : List UInt8) {i : Nat} (hi : pre.length = i * (2 * k))
    (x : BitVec w) :
    printWord (2 * k) (pre ++ suf) i x =
      if 2 * k + 1 ≤ suf.length then .ok (pre ++ ascii (hex (beBytes k x.toNat)) ++ 0 :: suf.drop (2 * k + 1))
      else .error .bounds := by
  have hpow : 2 ^ w = 16 ^ (2 * k) := by rw [hw, show 8 * k = 4 * (2 * k) by omega, Nat.pow_mul]
  have hx : x.toNat < 16 ^ (2 * k) := Nat.lt_of_lt_of_eq x.isLt hpow
  have htext : (Nat.toDigits 16 x.toNat).leftpad (2 * k) '0' = hex (beBytes k x.toNat) := by
    rw [leftpad_toDigits (by omega) hx, hexDigits_eq]
  have hlen : (ascii (hex (beBytes k x.toNat)) ++ [0]).length = 2 * k + 1 := by
    unfold ascii
    rw [List.length_append, List.length_map, length_hex, length_beBytes, List.length_singleton]
  unfold printWord
  rw [htext, storeBytes_behind pre suf hi, hlen]
  simp only [List.append_assoc, List.singleton_append]

/-- The words one behind the other; each print but the last has its NUL overwritten. The first one for which
there is no room ends it. -/
theorem foldlM_printWord (hk : 0 < k) (hw : w = 8 * k) (x : BitVec w) (xs : List (BitVec w)) (pre suf : List UInt8) {i : Nat}
    (hi : pre.length = i * (2 * k)) :
    ((x :: xs).zipIdx i).foldlM (fun output word => printWord (2 * k) output word.2 word.1) (pre ++ suf) =
      if 2 * k * (xs.length + 1) + 1 ≤ suf.length then
        .ok (pre ++ ascii (hex (digest (x :: xs))) ++ 0 :: suf.drop (2 * k * (xs.length + 1) + 1))
      else .error .bounds := by
  have hbytes : w / 8 = k := by omega
  induction xs generalizing x pre suf i with
  | nil =>
    unfold digest
    rw [List.zipIdx_singleton, List.foldlM_cons, printWord_eq hk hw suf hi, List.flatMap_singleton, hbytes, List.length_nil,
      Nat.zero_add, Nat.mul_one]
    split
    · rfl
    · rfl
  | cons y ys ih =>
    have hlen : (pre ++ ascii (hex (beBytes k x.toNat))).length = (i + 1) * (2 * k) := by
      unfold ascii
      rw [List.length_append, List.length_map, length_hex, length_beBytes, hi]
      exact (Nat.succ_mul i (2 * k)).symm
    have hdigest : digest (x :: y :: ys) = beBytes k x.toNat ++ digest (y :: ys) := by
      unfold digest
      rw [List.flatMap_cons, hbytes]
    have hmul : 2 * k + 1 + 2 * k * (ys.length + 1) = 2 * k * (ys.length + 1 + 1) + 1 := by
      rw [Nat.mul_succ (2 * k) (ys.length + 1)]
      omega
    rw [List.zipIdx_cons, List.foldlM_cons, printWord_eq hk hw suf hi, List.length_cons]
    by_cases hroom : 2 * k + 1 ≤ suf.length
    · have hrest : 2 * k * (ys.length + 1) + 1 ≤ (0 :: suf.drop (2 * k + 1)).length ↔
          2 * k * (ys.length + 1 + 1) + 1 ≤ suf.length := by
        rw [List.length_cons, List.length_drop]
        omega
      rw [if_pos hroom]
      change ((y :: ys).zipIdx (i + 1)).foldlM (fun output word => printWord (2 * k) output word.2 word.1) _ = _
      rw [ih y _ _ hlen, hdigest, hex_append, ascii_append, List.drop_succ_cons, List.drop_drop, hmul]
      simp only [hrest, List.append_assoc]
    · rw [if_neg hroom, if_neg (by omega)]
      rfl

/-- There is room for the words or there is not. -/
theorem printWords_eq (output : List UInt8) (hk : 0 < k) (hw : w = 8 * k) {words : List (BitVec w)} (hne : words ≠ []) :
    printWords (2 * k) output words =
      if 2 * k * words.length + 1 ≤ output.length then
        .ok (ascii (hex (digest words)) ++ 0 :: output.drop (2 * k * words.length + 1))
      else .error .bounds := by
  obtain ⟨x, xs, rfl⟩ := List.exists_cons_of_ne_nil hne
  have hall := foldlM_printWord (i := 0) hk hw x xs [] output (Nat.zero_mul _).symm
  rwa [List.nil_append, List.nil_append] at hall

/-! ## The calls -/

/-- The hash value of a run, when the code processes a block as the standard does. -/
theorem finish_run {n : Nat} {process : List (BitVec w) → σ → List UInt8 → σ} {compress : σ → List UInt8 → σ} (l : Nat) (ctx₀ : Ctx σ w)
    (hnew : ctx₀ = Ctx.new n ctx₀.h ctx₀.k) (hprocess : ∀ H (M : List UInt8), M.length = n → process ctx₀.k H M = compress H M)
    (hl : 8 ≤ l) (hln : l + 1 ≤ n) (hn : n ≤ 128) (hp : ∀ p ∈ pieces, p.length ≤ INT_MAX) (hm : pieces.flatten.length < 2 ^ 61) :
    (finish n process (n - 1 - l) (pieces.foldl (update n process) ctx₀)).h =
      (blocks n (pad n l pieces.flatten)).foldl compress ctx₀.h := by
  have hpos : 0 < n := by omega
  have hnewfed : Fed n process ctx₀.h ctx₀.k ctx₀ [] := by
    rw [hnew]
    exact fed_new hpos
  have hfed := hnewfed.foldl hn hp
  rw [List.nil_append] at hfed
  rw [finish_h hfed hl hln hm]
  apply List.foldl_ext
  intro H M hM
  exact hprocess H M (length_of_mem_blocks hpos hM)

variable (output : List UInt8)

/-- What a run prints: the words of the hash value that make the digest. -/
theorem print_run {n c : Nat} {process : List (BitVec w) → σ → List UInt8 → σ} {compress : σ → List UInt8 → σ} {H₀ : σ}
    (words : σ → List (BitVec w)) (hc : ∀ H, (words H).length = c + 1) (hk : 0 < k) (hw : w = 8 * k) (l : Nat) (ctx₀ : Ctx σ w)
    (hnew : ctx₀ = Ctx.new n ctx₀.h ctx₀.k) (hH : ctx₀.h = H₀)
    (hprocess : ∀ H (M : List UInt8), M.length = n → process ctx₀.k H M = compress H M)
    (hl : 8 ≤ l) (hln : l + 1 ≤ n) (hn : n ≤ 128) (hp : ∀ p ∈ pieces, p.length ≤ INT_MAX) (hm : pieces.flatten.length < 2 ^ 61) :
    printWords (2 * k) output (words (finish n process (n - 1 - l) (pieces.foldl (update n process) ctx₀)).h) =
      if 2 * k * (c + 1) + 1 ≤ output.length then
        .ok (ascii (hex (digest (words ((blocks n (pad n l pieces.flatten)).foldl compress H₀)))) ++
          0 :: output.drop (2 * k * (c + 1) + 1))
      else .error .bounds := by
  have hlen := hc ((blocks n (pad n l pieces.flatten)).foldl compress H₀)
  rw [finish_run l ctx₀ hnew hprocess hl hln hn hp hm, hH, printWords_eq output hk hw (List.ne_nil_of_length_eq_add_one hlen), hlen]

/-- Leaving the context out. -/
theorem do_fst {σ' : Type} (r : Except Fault (List UInt8 × σ')) :
    (do
      let (output, _) ← r
      return output) = r.map Prod.fst := by
  cases r with
  | error e => rfl
  | ok r => rfl

/-- What is printed, without the context. -/
theorem map_fst_print {σ' : Type} (printed : Except Fault (List UInt8)) (ctx : σ') :
    (printed >>= fun output => pure (output, ctx)).map Prod.fst = printed := by
  cases printed with
  | error e => rfl
  | ok output => rfl

theorem mgSha1Final_eq (hp : ∀ p ∈ pieces, p.length ≤ INT_MAX) (hm : pieces.flatten.length < 2 ^ 61) :
    (mgSha1Final output (pieces.foldl mgSha1Update mgSha1Init)).map Prod.fst =
      if 41 ≤ output.length then .ok (ascii (hex (sha1 pieces.flatten)) ++ 0 :: output.drop 41) else .error .bounds := by
  have hprint := print_run (k := 4) (c := 4) output Five.words (fun _ => rfl) (by decide) rfl 8 mgSha1Init rfl rfl
    (fun _ _ => mgSha1Process_eq) (by decide) (by decide) (by decide) hp hm
  unfold mgSha1Final
  rw [map_fst_print]
  exact hprint

/-- The function for a buffer is one update. -/
theorem mgSha1Calc_eq {buf : List UInt8} :
    mgSha1Calc output buf = (mgSha1Final output (mgSha1Update mgSha1Init buf)).map Prod.fst := do_fst _

theorem mgSha256Final_eq (hp : ∀ p ∈ pieces, p.length ≤ INT_MAX) (hm : pieces.flatten.length < 2 ^ 61) :
    (mgSha256Final output (pieces.foldl mgSha256Update mgSha256Init)).map Prod.fst =
      if 65 ≤ output.length then .ok (ascii (hex (sha256 pieces.flatten)) ++ 0 :: output.drop 65) else .error .bounds := by
  have hprint := print_run (k := 4) (c := 7) output Eight.words (fun _ => rfl) (by decide) rfl 8 mgSha256Init rfl mgSha256Init_h
    (fun _ _ => mgSha256Process_eq) (by decide) (by decide) (by decide) hp hm
  unfold mgSha256Final
  rw [map_fst_print]
  exact hprint

theorem mgSha256Calc_eq {buf : List UInt8} :
    mgSha256Calc output buf = (mgSha256Final output (mgSha256Update mgSha256Init buf)).map Prod.fst := do_fst _

theorem mgSha384Final_eq (hp : ∀ p ∈ pieces, p.length ≤ INT_MAX) (hm : pieces.flatten.length < 2 ^ 61) :
    (mgSha384Final output (pieces.foldl mgSha384Update mgSha384Init)).map Prod.fst =
      if 97 ≤ output.length then .ok (ascii (hex (sha384 pieces.flatten)) ++ 0 :: output.drop 97) else .error .bounds := by
  have hprint := print_run (k := 8) (c := 5) output (fun H => H.words.take 6) (fun _ => rfl) (by decide) rfl 16 mgSha384Init rfl
    mgSha384Init_h (fun _ _ => mgSha384Process_eq) (by decide) (by decide) (by decide) hp hm
  unfold mgSha384Final
  rw [map_fst_print]
  exact hprint

theorem mgSha384Calc_eq {buf : List UInt8} :
    mgSha384Calc output buf = (mgSha384Final output (mgSha384Update mgSha384Init buf)).map Prod.fst := do_fst _

theorem mgSha512Final_eq (hp : ∀ p ∈ pieces, p.length ≤ INT_MAX) (hm : pieces.flatten.length < 2 ^ 61) :
    (mgSha512Final output (pieces.foldl mgSha512Update mgSha512Init)).map Prod.fst =
      if 129 ≤ output.length then .ok (ascii (hex (sha512 pieces.flatten)) ++ 0 :: output.drop 129) else .error .bounds := by
  have hprint := print_run (k := 8) (c := 7) output Eight.words (fun _ => rfl) (by decide) rfl 16 mgSha512Init rfl mgSha512Init_h
    (fun _ _ => mgSha512Process_eq) (by decide) (by decide) (by decide) hp hm
  unfold mgSha512Final
  rw [map_fst_print]
  exact hprint

theorem mgSha512Calc_eq {buf : List UInt8} :
    mgSha512Calc output buf = (mgSha512Final output (mgSha512Update mgSha512Init buf)).map Prod.fst := do_fst _

/-! ## The digests of the standard -/

theorem length_flatten_single {buf : List UInt8} (hb : buf.length ≤ INT_MAX) : [buf].flatten.length < 2 ^ 61 := by
  unfold INT_MAX at hb
  rw [List.flatten_singleton]
  omega

/-- A message in any pieces, or in one: what is written is the digest, a NUL, and nothing behind it, which takes
an object of 41 or 65 bytes. -/
theorem mg_sha1_sha256_digest (pieces : List (List UInt8)) (hp : ∀ p ∈ pieces, p.length ≤ INT_MAX)
    (hm : pieces.flatten.length < 2 ^ 61) :
    ((mgSha1Final output (pieces.foldl mgSha1Update mgSha1Init)).map Prod.fst =
        if 41 ≤ output.length then .ok (ascii (hex (sha1 pieces.flatten)) ++ 0 :: output.drop 41) else .error .bounds) ∧
      ((mgSha256Final output (pieces.foldl mgSha256Update mgSha256Init)).map Prod.fst =
        if 65 ≤ output.length then .ok (ascii (hex (sha256 pieces.flatten)) ++ 0 :: output.drop 65) else .error .bounds) ∧
      ∀ buf : List UInt8, buf.length ≤ INT_MAX →
        (mgSha1Calc output buf =
          if 41 ≤ output.length then .ok (ascii (hex (sha1 buf)) ++ 0 :: output.drop 41) else .error .bounds) ∧
        mgSha256Calc output buf =
          if 65 ≤ output.length then .ok (ascii (hex (sha256 buf)) ++ 0 :: output.drop 65) else .error .bounds := by
  refine ⟨mgSha1Final_eq output hp hm, mgSha256Final_eq output hp hm, fun buf hb => ?_⟩
  have hsingle : ∀ p ∈ [buf], p.length ≤ INT_MAX := List.forall_mem_singleton.2 hb
  have h1 := mgSha1Final_eq output hsingle (length_flatten_single hb)
  have h256 := mgSha256Final_eq output hsingle (length_flatten_single hb)
  rw [List.flatten_singleton] at h1 h256
  exact ⟨(mgSha1Calc_eq output).trans h1, (mgSha256Calc_eq output).trans h256⟩

/-- Two pieces of a short message, and the same message in one. -/
theorem mg_sha1_sha256_digest_abc :
    (mgSha1Final (List.replicate 64 0xff) ([[0x61], [0x62, 0x63]].foldl mgSha1Update mgSha1Init)).map Prod.fst =
        .ok (ascii (hex (sha1 [0x61, 0x62, 0x63])) ++ 0 :: List.replicate 23 0xff) ∧
      (mgSha256Final (List.replicate 65 0xff) ([[0x61], [0x62, 0x63]].foldl mgSha256Update mgSha256Init)).map Prod.fst =
        .ok (ascii (hex (sha256 [0x61, 0x62, 0x63])) ++ [0]) ∧
      mgSha1Calc (List.replicate 64 0xff) [0x61, 0x62, 0x63] =
        .ok (ascii (hex (sha1 [0x61, 0x62, 0x63])) ++ 0 :: List.replicate 23 0xff) ∧
      mgSha256Calc (List.replicate 65 0xff) [0x61, 0x62, 0x63] = .ok (ascii (hex (sha256 [0x61, 0x62, 0x63])) ++ [0]) := by
  have h := mg_sha1_sha256_digest (List.replicate 64 0xff) [[0x61], [0x62, 0x63]] (by decide) (by decide)
  have h' := mg_sha1_sha256_digest (List.replicate 65 0xff) [[0x61], [0x62, 0x63]] (by decide) (by decide)
  simp only [List.length_replicate, List.drop_replicate, Nat.reduceLeDiff, ↓reduceIte, Nat.reduceSub] at h h'
  exact ⟨h.1, h'.2.1, (h.2.2 [0x61, 0x62, 0x63] (by decide)).1, (h'.2.2 [0x61, 0x62, 0x63] (by decide)).2⟩

/-- "abc", and the one byte that an object of 64 bytes lacks for a digest of SHA-256. -/
example :
    mgSha1Calc (List.replicate 41 0) [0x61, 0x62, 0x63] =
        .ok (ascii "a9993e364706816aba3e25717850c26c9cd0d89d".toList ++ [0]) ∧
      mgSha256Calc (List.replicate 64 0) [0x61, 0x62, 0x63] = .error .bounds := by
  decide +kernel

/-- The files for SHA-384 and SHA-512: the digests, which take an object of 97 or 129 bytes, and what they share. -/
theorem mg_sha384_sha512_digest (pieces : List (List UInt8)) (hp : ∀ p ∈ pieces, p.length ≤ INT_MAX)
    (hm : pieces.flatten.length < 2 ^ 61) :
    ((mgSha384Final output (pieces.foldl mgSha384Update mgSha384Init)).map Prod.fst =
        if 97 ≤ output.length then .ok (ascii (hex (sha384 pieces.flatten)) ++ 0 :: output.drop 97) else .error .bounds) ∧
      ((mgSha512Final output (pieces.foldl mgSha512Update mgSha512Init)).map Prod.fst =
        if 129 ≤ output.length then .ok (ascii (hex (sha512 pieces.flatten)) ++ 0 :: output.drop 129) else .error .bounds) ∧
      (∀ buf : List UInt8, buf.length ≤ INT_MAX →
        (mgSha384Calc output buf =
          if 97 ≤ output.length then .ok (ascii (hex (sha384 buf)) ++ 0 :: output.drop 97) else .error .bounds) ∧
        mgSha512Calc output buf =
          if 129 ≤ output.length then .ok (ascii (hex (sha512 buf)) ++ 0 :: output.drop 129) else .error .bounds) ∧
      (∀ K H M, mgSha384Process K H M = mgSha512Process K H M) ∧
      (∀ ctx p, mgSha384Update ctx p = mgSha512Update ctx p) ∧
      mgSha384Init = { mgSha512Init with h := mgSha384Init.h } ∧
      ∀ ctx, ∃ ctx' : Ctx (Eight 64) 64, ∀ output,
        mgSha384Final output ctx = (printWords 16 output (ctx'.h.words.take 6)).map (·, ctx') ∧
          mgSha512Final output ctx = (printWords 16 output ctx'.h.words).map (·, ctx') := by
  refine ⟨mgSha384Final_eq output hp hm, mgSha512Final_eq output hp hm, fun buf hb => ?_, fun _ _ _ => rfl, fun _ _ => rfl,
    rfl, fun ctx => ⟨_, fun output => ⟨bind_pure_comp _ _, bind_pure_comp _ _⟩⟩⟩
  have hsingle : ∀ p ∈ [buf], p.length ≤ INT_MAX := List.forall_mem_singleton.2 hb
  have h384 := mgSha384Final_eq output hsingle (length_flatten_single hb)
  have h512 := mgSha512Final_eq output hsingle (length_flatten_single hb)
  rw [List.flatten_singleton] at h384 h512
  exact ⟨(mgSha384Calc_eq output).trans h384, (mgSha512Calc_eq output).trans h512⟩

theorem mg_sha384_sha512_digest_abc :
    (mgSha384Final (List.replicate 128 0xff) ([[0x61], [0x62, 0x63]].foldl mgSha384Update mgSha384Init)).map Prod.fst =
        .ok (ascii (hex (sha384 [0x61, 0x62, 0x63])) ++ 0 :: List.replicate 31 0xff) ∧
      (mgSha512Final (List.replicate 129 0xff) ([[0x61], [0x62, 0x63]].foldl mgSha512Update mgSha512Init)).map Prod.fst =
        .ok (ascii (hex (sha512 [0x61, 0x62, 0x63])) ++ [0]) ∧
      mgSha384Calc (List.replicate 128 0xff) [0x61, 0x62, 0x63] =
        .ok (ascii (hex (sha384 [0x61, 0x62, 0x63])) ++ 0 :: List.replicate 31 0xff) ∧
      mgSha512Calc (List.replicate 129 0xff) [0x61, 0x62, 0x63] = .ok (ascii (hex (sha512 [0x61, 0x62, 0x63])) ++ [0]) := by
  have h := mg_sha384_sha512_digest (List.replicate 128 0xff) [[0x61], [0x62, 0x63]] (by decide) (by decide)
  have h' := mg_sha384_sha512_digest (List.replicate 129 0xff) [[0x61], [0x62, 0x63]] (by decide) (by decide)
  simp only [List.length_replicate, List.drop_replicate, Nat.reduceLeDiff, ↓reduceIte, Nat.reduceSub] at h h'
  exact ⟨h.1, h'.2.1, (h.2.2.1 [0x61, 0x62, 0x63] (by decide)).1, (h'.2.2.1 [0x61, 0x62, 0x63] (by decide)).2⟩

end MgStd.Sha
