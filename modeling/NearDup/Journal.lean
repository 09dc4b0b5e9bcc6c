import NearDup.Failure
import NearDup.Json.Record
import NearDup.Json.Writer
import NearDup.Text.Blank

/-!
# The journal

What merges have changed is written to a journal, one record a line, each at the end. The reader
takes the lines that are records and passes over all others.
-/

namespace NearDup

open Json

/-! ## Records -/

/-- The kinds of change. -/
inductive Change
  | deduplicated
  | merged
  | folded
  deriving DecidableEq, Repr

namespace Change

/-- The word in the journal. -/
def word : Change → String
  | deduplicated => "deduplicated"
  | merged => "merged"
  | folded => "folded"

/-- The name for people. -/
def title : Change → String
  | deduplicated => "Deduplicated"
  | merged => "Merged"
  | folded => "Folded"

def all : List Change := [deduplicated, merged, folded]

def reader : Reader Change := .oneOf (all.map fun c => (c.word, c))

end Change

/-- One change: when it was made, which file remains, and which were removed. -/
structure Record where
  timestamp : String
  change : Change
  retained : String
  removed : List String
  deriving DecidableEq, Repr

namespace Record

def writer (r : Record) : Writer :=
  .object
    [("timestamp", .text r.timestamp), ("action", .text r.change.word),
     ("retained", .text r.retained), ("removed", .array (r.removed.map .text))]

/-- The line of a record, without its end. -/
def line (r : Record) : String := r.writer.render .compact

end Record

/-- What has been read of a record. -/
structure PartialRecord where
  timestamp : Option String
  change : Option Change
  retained : Option String
  removed : Option (List String)

namespace PartialRecord

def empty : PartialRecord := ⟨none, none, none, none⟩

def fields : List (Member PartialRecord) :=
  [.make "timestamp" timestamp (fun p s => { p with timestamp := some s }) .text,
   .make "action" change (fun p c => { p with change := some c }) Change.reader,
   .make "retained" retained (fun p s => { p with retained := some s }) .text,
   .make "removed" removed (fun p ss => { p with removed := some ss }) (.array .text)]

def finish (p : PartialRecord) : Option Record :=
  match p with
  | ⟨some timestamp, some change, some retained, some removed⟩ =>
    some ⟨timestamp, change, retained, removed⟩
  | _ => none

end PartialRecord

def Record.reader : Reader Record := .record PartialRecord.fields .empty PartialRecord.finish

/-- The record on a line, if it is one. -/
def Record.ofLine? (line : String) : Option Record := (readWhole Record.reader line).toOption

/-! ## The file -/

namespace Journal

/-- Writes a record at the end of the journal, which is made if it is not there. -/
def append (path : String) (r : Record) : OnTree Unit := do
  Tree.ensureParent path
  Tree.changeAt path (Tree.append path (Text.Utf8.encode (r.line ++ "\n")))

/-- Is a line empty but for blank characters? -/
def isBlankLine (line : String) : Bool := Text.trim line = ""

/-- The records among the lines of a text. -/
def recordsOf (s : String) : List Record :=
  ((Text.lines s).filter fun line => !isBlankLine line).filterMap Record.ofLine?

/-- The records of a journal, the oldest first; none if it is missing. -/
def records (t : Tree) (path : String) : Except Failure (List Record) :=
  match t.readText path with
  | .error .noEntry => .ok []
  | .error f => .error (.io path f)
  | .ok s => .ok (recordsOf s)

end Journal

end NearDup
