import NearDup.Similarity
import NearDup.Text.Blank
import NearDup.Text.Lines

/-!
# Documents

A document is a text with a name. Its digest names the text as a whole; its line digests name its
lines one by one, trimmed, leaving blank lines out.
-/

namespace NearDup

/-! ## Fingerprints -/

/-- The digest of each line that is not blank, taken of the trimmed line. -/
def lineDigests (lines : List String) : List Digest :=
  ((lines.map Text.trim).filter (· ≠ "")).map Digest.of

/-! ## Documents -/

/-- A text under its name in the inbox, with its place and its size in bytes on disk. -/
structure Document where
  id : String
  path : String
  size : Nat
  digest : Digest
  content : String
  lines : List String
  lineDigests : List Digest
  deriving DecidableEq, Repr

namespace Document

/-- A document made from its text. -/
def make (id path : String) (size : Nat) (content : String) : Document :=
  let lines := Text.lines content
  { id, path, size, digest := .of content, content, lines
    lineDigests := NearDup.lineDigests lines }

/-- A document that is only a text: its place is its name, its size the length of the text. -/
def ofText (id content : String) : Document := make id id (Text.Utf8.size content) content

end Document

end NearDup
