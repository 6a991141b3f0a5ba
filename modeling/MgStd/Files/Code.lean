import MgStd.Crc32.Code
import MgStd.Lib.Stdio
import MgStd.Md5.Code
/-!
# The files of mgmd5.c, mgsha1.c, mgsha256.c, mgsha384.c, mgsha512.c and mgcrc32.c

`fopen` tells what the file of a name holds, or that it cannot be opened.
Reading does not fail. All the functions have one loop, and those of the SHA
family differ in the calls on the context only.
-/

namespace MgStd.Files

open MgStd.Lib MgStd.Md5 MgStd.Sha MgStd.Crc32

variable {σ : Type} {w : Nat}

/-- `while (fgets(buf, 1024, fp) != NULL)`: `update` is called with `buf` and its length as a string, and
`buf` is cleared. -/
def fgetsLoop (update : σ → List UInt8 → σ) (buf : List UInt8) (ctx : σ) (content : List UInt8) : σ :=
  match _h : fgets buf 1024 content with
  | none => ctx
  | some (buf, rest) => fgetsLoop update (List.replicate 1024 0) (update ctx (cString buf)) rest
termination_by content.length
decreasing_by exact length_fgets (show 1 < 1024 by decide) ‹_›

/-- The loop with a new buffer. -/
def feedFile (update : σ → List UInt8 → σ) (ctx : σ) (content : List UInt8) : σ :=
  fgetsLoop update (List.replicate 1024 0) ctx content

section

variable (fopen : String → Option (List UInt8))

/-- `context` is what the local variable happens to hold. Nothing is written if there is no file. -/
def mgMd5File (context : Md5.Ctx) (filename : String) : Option (List UInt8) :=
  match fopen filename with
  | none => none
  | some content => (mgMD5Final true (feedFile mgMD5Update (mgMD5Init context) content)).1

/-- `mg_sha1_file` and the others. Nothing is written without a name or a file. -/
def shaFile (init : Sha.Ctx σ w) (update : Sha.Ctx σ w → List UInt8 → Sha.Ctx σ w)
    (final : List UInt8 → Sha.Ctx σ w → Except Fault (List UInt8 × Sha.Ctx σ w)) (output : List UInt8) (filename : Option String) :
    Except Fault (List UInt8) :=
  match filename with
  | none => return output
  | some filename =>
    match fopen filename with
    | none => return output
    | some content => do
      let (output, _) ← final output (feedFile update init content)
      return output

def mgSha1File : List UInt8 → Option String → Except Fault (List UInt8) :=
  shaFile fopen mgSha1Init mgSha1Update mgSha1Final

def mgSha256File : List UInt8 → Option String → Except Fault (List UInt8) :=
  shaFile fopen mgSha256Init mgSha256Update mgSha256Final

def mgSha384File : List UInt8 → Option String → Except Fault (List UInt8) :=
  shaFile fopen mgSha384Init mgSha384Update mgSha384Final

def mgSha512File : List UInt8 → Option String → Except Fault (List UInt8) :=
  shaFile fopen mgSha512Init mgSha512Update mgSha512Final

def mgChecksumCrc32File (output : List UInt8) (filename : String) : Except Fault (List UInt8) × BitVec 32 :=
  match fopen filename with
  | none => (.ok output, 0)
  | some content =>
    let result := mgCrc32Final (feedFile mgCrc32Update mgCrc32Init content)
    (printWord 8 output 0 result, result)

end

end MgStd.Files
