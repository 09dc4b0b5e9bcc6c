import NearDup.Analysis
import NearDup.Failure
import NearDup.Path

/-!
# The inbox

An inbox is a directory of documents: the files below it, through links too, whose extension is one
of those asked for. What the program itself writes stands in a directory `_analysis`, and no
directory of that name is entered.

## How it works

The walk goes depth first, the names of a directory in the order of their bytes. A link is taken for
what it leads to; one that leads nowhere is left out, and so is one that leads to a directory on the
way from the inbox to it. Hence the directories entered through links on one way are all different,
and between two of them the way goes down, so the square of the number of entries bounds its length.
-/

namespace NearDup.Inbox

/-- The name of the directory for reports. -/
def analysisName : String := "_analysis"

/-- Where things stand in an inbox. -/
structure Paths where
  dir : String
  json : String
  markdown : String
  journal : String
  deriving DecidableEq, Repr

def paths (inbox : String) : Paths :=
  let dir := Path.join inbox analysisName
  { dir
    json := Path.join dir "duplicates.json"
    markdown := Path.join dir "duplicates-report.md"
    journal := Path.join dir "history.jsonl" }

/-! ## Documents -/

/-- Reads the document at a path; bytes that are no UTF-8 are replaced, the size is that on disk. -/
def readDocument (t : Tree) (root path : String) : Except Failure Document := do
  let bytes ← Tree.withPath path (t.read path)
  return .make (Path.relativeTo root path) path bytes.length (Text.Utf8.decodeLenient bytes)

/-- Is the extension of a path among those allowed? Case does not matter in ASCII letters. -/
def hasExtension (extensions : List String) (path : String) : Bool :=
  match Path.extension? path with
  | some e =>
    extensions.any fun allowed => allowed.toList.map Char.toLower = e.toList.map Char.toLower
  | none => false

/-! ## The walk -/

/-- The paths of the files below a directory, which stands at the end of `path`. On the way to it
lie the directories of `above`. -/
def filesBelow (t : Tree) : Nat → List Location → String → List String
  | 0, _, _ => []
  | fuel + 1, above, path =>
    match t.resolve .followed path with
    | .ok (.entry here .dir) =>
      ((t.names here).filter (· ≠ analysisName)).flatMap fun name =>
        let isLink := match t.get? (here ++ [name]) with
          | some (.link _) => true
          | _ => false
        let path := Path.join path name
        match t.resolve .followed path with
        | .ok (.entry _ (.file _)) => [path]
        | .ok (.entry loc .dir) =>
          if isLink && (loc = here || loc ∈ above) then []
          else filesBelow t fuel (here :: above) path
        | _ => []
    | _ => []

/-- Enough fuel for the walk through a tree. -/
def walkFuel (t : Tree) : Nat := (t.entries.length + 2) * (t.entries.length + 2)

/-- The documents of an inbox, in the order of the walk. -/
def load (t : Tree) (root : String) (extensions : List String) : Except Failure (List Document) :=
  if t.isDir root then
    let paths := (filesBelow t (walkFuel t) [] root).filter (hasExtension extensions)
    return paths.filterMap fun path => (readDocument t root path).toOption
  else throw (.inboxMissing root)

end NearDup.Inbox
