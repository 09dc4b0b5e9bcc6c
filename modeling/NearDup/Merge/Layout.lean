import NearDup.Align.Partition
import NearDup.Number.Digits
import NearDup.Text.Lines

/-!
# The text of merged documents

Two documents become one text with a title and up to three regions: the lines both share, the own
lines of the first and the own lines of the second. Each further document is merged with the text so
far, which stands as the left side. A region without lines is left out.
-/

namespace NearDup.Merge

open Align

/-! ## One round -/

/-- A heading and the lines below it. -/
structure Region where
  heading : String
  lines : List String

/-- A region: its heading, an empty line, and its lines. -/
def Region.text (r : Region) : String :=
  "## " ++ r.heading ++ "\n\n" ++ String.join (r.lines.map (· ++ "\n"))

/-- Regions with a rule between them. -/
def regionsText : List Region → String
  | [] => ""
  | [last] => last.text ++ "\n"
  | r :: next :: rest => r.text ++ "\n---\n\n" ++ regionsText (next :: rest)

/-- A title, a line below it, a rule, and the regions that have lines. -/
def pageText (title subtitle : String) (regions : List Region) : String :=
  "# Merged Document: " ++ title ++ "\n*" ++ subtitle ++ "*\n\n---\n\n" ++
    regionsText (regions.filter (·.lines ≠ []))

/-- The regions of a division, the own lines under the given headings. -/
def regionsOf (d : Division String) (left right : String) : List Region :=
  [⟨"Common Content", d.shared⟩, ⟨"Additional Content from " ++ left, d.left⟩,
   ⟨"Additional Content from " ++ right, d.right⟩]

/-! ## Any number of documents -/

/-- A name and the lines under it. -/
structure Source where
  name : String
  lines : List String

/-- The page of two documents. -/
def mergeTwo (first second : Source) : String :=
  pageText (first.name ++ " + " ++ second.name)
    "This document combines content from multiple sources"
    (regionsOf (divide first.lines second.lines) first.name second.name)

/-- Merges one more document into the page so far; `names` are those of all documents with it. -/
def mergeNext (page : String) (names : List String) (next : Source) : String :=
  pageText (Text.join ", " names)
    ("Combined from " ++ Number.decimal names.length ++ " sources")
    (regionsOf (divide (Text.lines page) next.lines) "Previous Merge" next.name)

/-- Merges further documents into the page so far, which holds those of `names`. -/
def mergeRest (page : String) (names : List String) : List Source → String
  | [] => page
  | next :: rest =>
    let names := names ++ [next.name]
    mergeRest (mergeNext page names next) names rest

/-- The text of any number of documents. A single one keeps its lines, each ended by a line feed. -/
def mergeSources : List Source → String
  | [] => ""
  | [only] => String.join (only.lines.map (· ++ "\n"))
  | first :: second :: rest => mergeRest (mergeTwo first second) [first.name, second.name] rest

example : mergeTwo ⟨"a", ["x"]⟩ ⟨"b", ["y"]⟩ =
    "# Merged Document: a + b\n*This document combines content from multiple sources*\n\n---\n\n" ++
    "## Additional Content from a\n\nx\n\n---\n\n## Additional Content from b\n\ny\n\n" := by
  decide +kernel

end NearDup.Merge
