import NearDup.Digest.Tree
import NearDup.Text.Utf8

/-!
# Digests

A digest names a text by its BLAKE3 hash, written as 64 lowercase hexadecimal digits. Digests are
compared as texts, so a shortened one is still a text of the same kind.
-/

namespace NearDup

/-- The name of a text by its hash. -/
structure Digest where
  text : String
  deriving DecidableEq, Repr

namespace Digest

def hexDigit (n : Nat) : Char := if n < 10 then Char.ofNat (0x30 + n) else Char.ofNat (0x57 + n)

def hexOfByte (n : Nat) : List Char := [hexDigit (n / 16), hexDigit (n % 16)]

/-- The four bytes of a word, the lowest first. -/
def hexOfWord (w : UInt32) : List Char :=
  let n := w.toNat
  hexOfByte (n % 256) ++ hexOfByte (n / 256 % 256) ++ hexOfByte (n / 65536 % 256) ++
    hexOfByte (n / 16777216)

/-- The digest of a text. -/
def of (s : String) : Digest :=
  ⟨String.ofList ((hash (Text.Utf8.encode s)).toList.flatMap hexOfWord)⟩

example : of "" = ⟨"af1349b9f5f9a1a6a0404dea36dcc9499bcb25c9adc112b7cc9a93cae41f3262"⟩ := by
  decide +kernel

/-- Every digest of a text has 64 digits. -/
theorem length_of (s : String) : (of s).text.length = 64 := by
  simp [of, Chain.toList, Quad.toList, hexOfWord, hexOfByte]

/-- The longest beginning of a text that takes at most `limit` bytes. -/
def bytesUpTo : Nat → List Char → List Char
  | _, [] => []
  | limit, c :: rest =>
    let n := (Text.Utf8.encodeChar c).length
    if n ≤ limit then c :: bytesUpTo (limit - n) rest else []

/-- The first `length` digits. -/
def short (d : Digest) (length : Nat) : String := String.ofList (bytesUpTo length d.text.toList)

example : (of "").short 8 = "af1349b9" := by decide +kernel

end Digest

end NearDup
