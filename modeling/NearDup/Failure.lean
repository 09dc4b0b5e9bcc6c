import NearDup.Json.Text
import NearDup.Tree.Change

/-!
# Failures

What can go wrong in an operation of the library, each with the path concerned, and the messages.
-/

namespace NearDup

inductive Failure
  | inboxMissing (path : String)
  | reportMissing (path : String)
  | reportInvalid (path : String) (defect : Json.Defect)
  | io (path : String) (fault : Fault)
  deriving DecidableEq, Repr

namespace Failure

def message : Failure → String
  | inboxMissing path => "Inbox path does not exist: " ++ path
  | reportMissing path =>
    "Analysis file not found: " ++ path ++ " (run \x60doccull analyze\x60 first)"
  | reportInvalid path _ => "Analysis file " ++ path ++ " is not a valid report"
  | io path fault => "IO error on " ++ path ++ ": " ++ fault.message

/-- The message of what lies behind a failure, if something does. -/
def cause? : Failure → Option String
  | io _ fault => some fault.message
  | _ => none

end Failure

/-! ## Failing changes of a tree -/

/-- A computation on a tree that can fail. -/
abbrev OnTree := Effect Failure Tree

namespace Tree

/-- Names the path of a fault. -/
def withPath {α : Type} (path : String) (result : Except Fault α) : Except Failure α :=
  result.mapError (.io path)

/-- Changes the tree at a path. -/
def changeAt (path : String) (op : Tree → Except Fault Tree) : OnTree Unit :=
  .change fun t => withPath path (op t)

/-- Makes the directory that a path stands in, and those above it. -/
def ensureParent (path : String) : OnTree Unit :=
  match Path.parent? path with
  | none => pure ()
  | some parent => (ensureDirAll parent).mapError (.io parent)

/-- The path of the temporary file beside a path. -/
def temporary (path : String) : String := path ++ ".tmp"

/-- Writes a text in one step as far as a reader can see: into a temporary file beside the path,
which is then moved over it. Missing directories are made first. -/
def replace (path contents : String) : OnTree Unit := do
  ensureParent path
  changeAt (temporary path) (write (temporary path) (Text.Utf8.encode contents))
  changeAt path (move (temporary path) path)

end Tree

end NearDup
