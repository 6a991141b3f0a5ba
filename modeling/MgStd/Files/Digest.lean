import MgStd.Files.Code
import MgStd.Md5.Stream
import MgStd.Sha.Digest
/-!
# File digests and buffer digests

The loop hands on the lines of a file, each up to its first NUL. These are the
bytes of the file exactly if the file has no NUL. The digests are those of the
buffer then, as long as MD5 comes to the same count: from 2 ^ 29 bytes on,
where `mg_MD5Update` may lose a carry, the count of the lines may be another one
than that of the buffer.
-/

namespace MgStd.Files

open MgStd.Lib MgStd.Md5 MgStd.Sha MgStd.Crc32

variable {σ : Type} {w : Nat} {content output : List UInt8} {filename : String} {fopen : String → Option (List UInt8)}

/-! ## What the loop hands on -/

/-- The pieces that `update` is called with, in their order. -/
def passed (content : List UInt8) : List (List UInt8) := feedFile (fun pieces piece => pieces ++ [piece]) [] content

theorem fgetsLoop_eq (update : σ → List UInt8 → σ) (buf : List UInt8) (ctx : σ) (content : List UInt8) :
    fgetsLoop update buf ctx content = ((lines 1024 content).map cString).foldl update ctx := by
  induction hlen : content.length using Nat.strongRecOn generalizing buf ctx content with
  | _ len ih =>
    subst hlen
    by_cases hc : content = []
    · rw [fgetsLoop, fgets, hc, if_pos rfl, lines_nil]
      rfl
    · have hrest := ih _ (length_drop_lineOf (show 0 < 1024 - 1 by decide) hc)
      rw [fgetsLoop, fgets, if_neg hc, lines_of_ne_nil (by decide) hc, List.map_cons, List.foldl_cons, ← cString_line buf]
      exact hrest _ _ _ rfl

theorem passed_eq : passed content = (lines 1024 content).map cString := by
  unfold passed feedFile
  rw [fgetsLoop_eq, List.foldl_append_eq_append, List.nil_append, ← List.flatMap_def, List.flatMap_singleton']

theorem feedFile_eq (update : σ → List UInt8 → σ) (ctx : σ) (content : List UInt8) :
    feedFile update ctx content = (passed content).foldl update ctx := by
  rw [passed_eq]
  exact fgetsLoop_eq update _ ctx content

/-- What is handed on is the file exactly if there is no NUL in it. -/
theorem flatten_passed_iff : (passed content).flatten = content ↔ 0 ∉ content := by
  have h : ((lines 1024 content).map cString).flatten = (lines 1024 content).flatten ↔ 0 ∉ (lines 1024 content).flatten :=
    flatten_cString_iff
  rwa [flatten_lines (by decide), ← passed_eq] at h

theorem passed_of_notMem (h : 0 ∉ content) : passed content = lines 1024 content := by
  rw [passed_eq, map_cString_eq_self (by rwa [flatten_lines (by decide)])]

/-! ## SHA -/

/-- A function of the SHA family whose digest does not depend on how the message is cut. -/
theorem shaFile_eq {init : Sha.Ctx σ w} {update : Sha.Ctx σ w → List UInt8 → Sha.Ctx σ w}
    {final : List UInt8 → Sha.Ctx σ w → Except Fault (List UInt8 × Sha.Ctx σ w)} (digest : List UInt8 → Except Fault (List UInt8))
    (hopen : fopen filename = some content) (hzero : 0 ∉ content) (hlen : content.length ≤ INT_MAX)
    (hdigest : ∀ pieces : List (List UInt8), (∀ p ∈ pieces, p.length ≤ INT_MAX) → pieces.flatten.length < 2 ^ 61 →
      (final output (pieces.foldl update init)).map Prod.fst = digest pieces.flatten) :
    shaFile fopen init update final output (some filename) = (final output (update init content)).map Prod.fst := by
  have hfile : shaFile fopen init update final output (some filename) =
      (final output ((passed content).foldl update init)).map Prod.fst := by
    unfold shaFile
    simp only [hopen, feedFile_eq]
    exact do_fst _
  have hpassed := flatten_passed_iff.2 hzero
  have hsmall : content.length < 2 ^ 61 := Nat.lt_of_le_of_lt hlen (by decide)
  have hlines : ∀ p ∈ passed content, p.length ≤ INT_MAX := by
    intro p hp
    rw [passed_of_notMem hzero] at hp
    exact Nat.le_trans (Nat.le_of_lt (length_of_mem_lines (by decide) hp)) (by decide)
  have hwhole := hdigest [content] (List.forall_mem_singleton.2 hlen) (by rwa [List.flatten_singleton])
  rw [List.flatten_singleton] at hwhole
  rw [hfile, hdigest (passed content) hlines (by rwa [hpassed]), hpassed]
  exact hwhole.symm

/-! ## MD5 -/

/-- The count after the lines of a file. -/
def lineCount (content : List UInt8) : Md5.Word × Md5.Word := ((lines 1024 content).map List.length).foldl addCount (0, 0)

/-- The lines are counted like the buffer. -/
def SameCount (content : List UInt8) : Prop := lineCount content = addCount (0, 0) content.length

/-- The last block of a message: what is left of it with its padding, and the count. -/
def endState (content : List UInt8) (count : Md5.Word × Md5.Word) : State :=
  let s := BlockStream.of MD5_BLOCK_LENGTH mgMD5Transform (mgMD5Init ⟨⟨0, 0, 0, 0⟩, (0, 0), []⟩).state
    (content ++ 0x80 :: List.replicate (zeros content.length) 0)
  mgMD5Transform s.state (s.pending ++ put64bitLE count)

theorem mgMD5Final_pieces {context : Md5.Ctx} (hb : context.buffer.length = MD5_BLOCK_LENGTH) (pieces : List (List UInt8)) :
    (mgMD5Final true (pieces.foldl mgMD5Update (mgMD5Init context))).1 =
      some (leState (endState pieces.flatten ((pieces.map List.length).foldl addCount (0, 0)))) := by
  have hmod : (pieces.flatten.length + 1 + zeros pieces.flatten.length) % 64 = 56 := (isLeast_zeros pieces.flatten.length).1
  rw [mgMD5Final_stream (stream_foldl (mgMD5Init context) hb pieces).1 (stream_run hb pieces), count_foldl,
    BlockStream.feed_block (by decide)]
  · rfl
  · rw [List.length_append]
    unfold BlockStream.of
    simp only [length_rest, List.length_append, List.length_cons, List.length_replicate]
    unfold MD5_BLOCK_LENGTH
    rw [Nat.add_comm (zeros _) 1, ← Nat.add_assoc, hmod]
    rfl

theorem md5_agrees {context context' : Md5.Ctx} (hopen : fopen filename = some content)
    (hb : context.buffer.length = MD5_BLOCK_LENGTH) (hb' : context'.buffer.length = MD5_BLOCK_LENGTH) (hzero : 0 ∉ content)
    (hsame : SameCount content) : mgMd5File fopen context filename = mgMd5Calc context' content := by
  have hfile : mgMd5File fopen context filename = some (leState (endState content (lineCount content))) := by
    unfold mgMd5File lineCount
    have hpieces := mgMD5Final_pieces hb (passed content)
    rw [flatten_passed_iff.2 hzero] at hpieces
    simp only [hopen, feedFile_eq]
    rw [hpieces, passed_of_notMem hzero]
  have hcalc : mgMd5Calc context' content = some (leState (endState content (addCount (0, 0) content.length))) := by
    have hpieces := mgMD5Final_pieces hb' [content]
    rw [List.flatten_singleton] at hpieces
    exact hpieces
  rw [hfile, hcalc, hsame]

/-- Below 2 ^ 29 bytes both counts are right. -/
theorem sameCount_small (hsmall : content.length < 2 ^ 29) : SameCount content := by
  have hlines := counts_small ⟨⟨0, 0, 0, 0⟩, (0, 0), []⟩ (lines 1024 content) (by rwa [flatten_lines (by decide)])
  have hwhole := counts_small ⟨⟨0, 0, 0, 0⟩, (0, 0), []⟩ [content] (by rwa [List.flatten_singleton])
  rw [count_foldl, flatten_lines (by decide)] at hlines
  rw [count_foldl, List.flatten_singleton] at hwhole
  exact counts_unique hlines hwhole

/-! ## All of them -/

/-- The bytes that are handed on are those of the file, and each digest is that of the buffer, as long as the
buffer's length fits into the `unsigned int` or `int` that the function for buffers has for it. -/
structure Agrees (fopen : String → Option (List UInt8)) (filename : String) (context context' : Md5.Ctx)
    (output content : List UInt8) : Prop where
  passed : (passed content).flatten = content
  md5 : content.length < 2 ^ 32 → mgMd5File fopen context filename = mgMd5Calc context' content
  sha1 : content.length ≤ INT_MAX → mgSha1File fopen output (some filename) = mgSha1Calc output content
  sha256 : content.length ≤ INT_MAX → mgSha256File fopen output (some filename) = mgSha256Calc output content
  sha384 : content.length ≤ INT_MAX → mgSha384File fopen output (some filename) = mgSha384Calc output content
  sha512 : content.length ≤ INT_MAX → mgSha512File fopen output (some filename) = mgSha512Calc output content
  crc32 : content.length < 2 ^ 32 → mgChecksumCrc32File fopen output filename = mgChecksumCrc32 output content

theorem crc32_agrees (hopen : fopen filename = some content) (hzero : 0 ∉ content) :
    mgChecksumCrc32File fopen output filename = mgChecksumCrc32 output content := by
  unfold mgChecksumCrc32File mgChecksumCrc32
  simp only [hopen, feedFile_eq, foldl_mgCrc32Update, flatten_passed_iff.2 hzero]

theorem agrees_of (hopen : fopen filename = some content) {context context' : Md5.Ctx}
    (hb : context.buffer.length = MD5_BLOCK_LENGTH) (hb' : context'.buffer.length = MD5_BLOCK_LENGTH) (hzero : 0 ∉ content)
    (hsame : content.length < 2 ^ 32 → SameCount content) : Agrees fopen filename context context' output content where
  passed := flatten_passed_iff.2 hzero
  md5 := fun hlen => md5_agrees hopen hb hb' hzero (hsame hlen)
  sha1 := fun hlen =>
    let digest := fun m =>
      if 41 ≤ output.length then .ok (ascii (hex (Standard.sha1 m)) ++ 0 :: output.drop 41) else .error .bounds
    (shaFile_eq digest hopen hzero hlen fun _ hp hm => mgSha1Final_eq output hp hm).trans (mgSha1Calc_eq output).symm
  sha256 := fun hlen =>
    let digest := fun m =>
      if 65 ≤ output.length then .ok (ascii (hex (Standard.sha256 m)) ++ 0 :: output.drop 65) else .error .bounds
    (shaFile_eq digest hopen hzero hlen fun _ hp hm => mgSha256Final_eq output hp hm).trans (mgSha256Calc_eq output).symm
  sha384 := fun hlen =>
    let digest := fun m =>
      if 97 ≤ output.length then .ok (ascii (hex (Standard.sha384 m)) ++ 0 :: output.drop 97) else .error .bounds
    (shaFile_eq digest hopen hzero hlen fun _ hp hm => mgSha384Final_eq output hp hm).trans (mgSha384Calc_eq output).symm
  sha512 := fun hlen =>
    let digest := fun m =>
      if 129 ≤ output.length then .ok (ascii (hex (Standard.sha512 m)) ++ 0 :: output.drop 129) else .error .bounds
    (shaFile_eq digest hopen hzero hlen fun _ hp hm => mgSha512Final_eq output hp hm).trans (mgSha512Calc_eq output).symm
  crc32 := fun _ => crc32_agrees hopen hzero

/-- For the digests of a file to be those of its content it is enough that there is no NUL in the content and
that MD5 counts the lines like the buffer. The first is always needed, and nothing else is for less than 2 ^ 29
bytes, or for more than an `unsigned int` has. -/
theorem mg_file_digests_iff (fopen : String → Option (List UInt8)) (filename : String) (context context' : Md5.Ctx)
    (output content : List UInt8) (hopen : fopen filename = some content)
    (hb : context.buffer.length = MD5_BLOCK_LENGTH) (hb' : context'.buffer.length = MD5_BLOCK_LENGTH) :
    (0 ∉ content ∧ (content.length < 2 ^ 32 → SameCount content) → Agrees fopen filename context context' output content) ∧
      (Agrees fopen filename context context' output content → 0 ∉ content) ∧
      (content.length < 2 ^ 29 ∨ 2 ^ 32 ≤ content.length →
        (Agrees fopen filename context context' output content ↔ 0 ∉ content)) := by
  have hneeded : Agrees fopen filename context context' output content → 0 ∉ content :=
    fun h => flatten_passed_iff.1 h.passed
  refine ⟨fun ⟨hzero, hsame⟩ => agrees_of hopen hb hb' hzero hsame, hneeded, fun hsize => ⟨hneeded, fun hzero => ?_⟩⟩
  apply agrees_of hopen hb hb' hzero
  intro hlen
  rcases hsize with hsmall | hlarge
  · exact sameCount_small hsmall
  · exact absurd hlen (Nat.not_lt.2 hlarge)

/-- Two lines, the second without a newline. -/
theorem mg_file_digests_iff_lines :
    Agrees (fun _ => some [0x61, 0x0a, 0x62]) "file" ⟨⟨0, 0, 0, 0⟩, (0, 0), List.replicate 64 0⟩
      ⟨⟨0, 0, 0, 0⟩, (0, 0), List.replicate 64 0⟩ (List.replicate 129 0) [0x61, 0x0a, 0x62] :=
  have h := mg_file_digests_iff (fun _ => some [0x61, 0x0a, 0x62]) "file" ⟨⟨0, 0, 0, 0⟩, (0, 0), List.replicate 64 0⟩
    ⟨⟨0, 0, 0, 0⟩, (0, 0), List.replicate 64 0⟩ (List.replicate 129 0) [0x61, 0x0a, 0x62] rfl List.length_replicate
    List.length_replicate
  (h.2.2 (.inl (by decide))).2 (by decide)

/-- A NUL between two letters: the second letter is not handed on. -/
theorem mg_file_digests_nul :
    ¬ ∀ (fopen : String → Option (List UInt8)) (filename : String) (context context' : Md5.Ctx) (output content : List UInt8),
      fopen filename = some content → context.buffer.length = MD5_BLOCK_LENGTH → context'.buffer.length = MD5_BLOCK_LENGTH →
        129 ≤ output.length → Agrees fopen filename context context' output content := by
  intro h
  have hagrees := h (fun _ => some [0x61, 0, 0x62]) "file" ⟨⟨0, 0, 0, 0⟩, (0, 0), List.replicate 64 0⟩
    ⟨⟨0, 0, 0, 0⟩, (0, 0), List.replicate 64 0⟩ (List.replicate 129 0) [0x61, 0, 0x62] rfl List.length_replicate
    List.length_replicate (by rw [List.length_replicate])
  exact absurd (flatten_passed_iff.1 hagrees.passed) (by decide)

end MgStd.Files
