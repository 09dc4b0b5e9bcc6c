import NearDup.Inbox
import NearDup.Journal
import NearDup.Merge.Action
import NearDup.Merge.Layout
import NearDup.Merge.Name
import NearDup.Report.Basic

/-!
# Merge sessions

A session carries out the findings of a report in an inbox: of each exact group the first file
stays and the others are removed; of each similar pair with enough overlap the two files are
replaced by a new one. On request any number of files is folded into one. A file that was used up
is not used again in the session, and no output is written twice or over something that is there.

A trial session takes the same decisions and changes nothing on disk.

## Main definitions

* `Session` — what is fixed: the inbox, the least overlap, trial or live, the journal, the time
* `Progress` — what changes: the names used up, the names of outputs, and the tree
* `Session.removeCopies`, `Session.mergePairs`, `Session.fold`, `Session.run` — the operations. A
  failure leaves the progress made until then
-/

namespace NearDup.Merge

/-- The settings of a session. `now` is the time that records in the journal get. -/
structure Session where
  inbox : String
  leastOverlap : Binary64
  trial : Bool
  journal : Option String
  now : String
  deriving DecidableEq, Repr

/-- Pairs with less overlap than this are left alone unless asked for. -/
def defaultLeastOverlap : Binary64 := .ofRatio 40 100

/-- How far a session is: the names of files used up, the names of outputs, and the tree. -/
structure Progress where
  consumed : List String
  planned : List String
  tree : Tree
  deriving DecidableEq, Repr

/-- The beginning of a session. -/
def Progress.start (t : Tree) : Progress := ⟨[], [], t⟩

/-- A computation of a session. A failure leaves the progress made until then. -/
abbrev Step := Effect Failure Progress

/-- A change of the tree as a step. -/
def Step.onTree {α : Type} (x : OnTree α) : Step α :=
  x.within Progress.tree fun p t => { p with tree := t }

/-- Performs a step for each element until one fails, and collects the actions. -/
def forEach {α : Type} (step : α → Step (Option Action)) : List α → Step (List Action)
  | [] => return []
  | x :: xs => do
    let action ← step x
    let actions ← forEach step xs
    return action.toList ++ actions

namespace Session

/-! ## Files -/

/-- The path of a file of the inbox. -/
def pathOf (s : Session) (name : String) : String := Path.join s.inbox name

/-- Removes a file of the inbox; false, and nothing is changed, if it is not there or cannot be
removed. -/
def removeFile (s : Session) (name : String) (t : Tree) : Bool × Tree :=
  if t.has (s.pathOf name) then
    match t.remove (s.pathOf name) with
    | .ok t => (true, t)
    | .error _ => (false, t)
  else (false, t)

/-- Removes files one after the other; gives the names of those that were removed. -/
def removeFiles (s : Session) : List String → Tree → List String × Tree
  | [], t => ([], t)
  | name :: rest, t =>
    let (gone, t) := s.removeFile name t
    let (removed, t) := s.removeFiles rest t
    (if gone then name :: removed else removed, t)

/-- Writes a record of a change, if the session is live and keeps a journal. -/
def record (s : Session) (change : Change) (retained : String) (removed : List String) :
    Step Unit :=
  match s.trial, s.journal with
  | false, some path => .onTree (Journal.append path ⟨s.now, change, retained, removed⟩)
  | _, _ => return

/-! ## Exact groups -/

/-- Uses up a copy and removes it, if it is there; in a trial the file stays. Tells whether it was
removed. A copy that was used up before is left alone. -/
def useCopy (s : Session) (name : String) (p : Progress) : Bool × Progress :=
  if name ∈ p.consumed then (false, p)
  else
    let p := { p with consumed := name :: p.consumed }
    if s.trial then (p.tree.has (s.pathOf name), p)
    else
      let (gone, t) := s.removeFile name p.tree
      (gone, { p with tree := t })

/-- Uses up copies one after the other; gives the names of those removed. -/
def useCopies (s : Session) : List String → Progress → List String × Progress
  | [], p => ([], p)
  | name :: rest, p =>
    let (gone, p) := s.useCopy name p
    let (removed, p) := s.useCopies rest p
    (if gone then name :: removed else removed, p)

/-- Keeps the first file of a group and removes the others. -/
def removeCopiesOf (s : Session) (g : GroupEntry) : Step (Option Action) := do
  match g.files with
  | [] => return none
  | kept :: copies =>
    let removed ← modifyGet (s.useCopies copies)
    if removed = [] then return none
    s.record .deduplicated kept removed
    return some (.deduplicate kept removed)

/-- Removes the copies of each group. -/
def removeCopies (s : Session) (groups : List GroupEntry) : Step (List Action) :=
  forEach s.removeCopiesOf groups

/-! ## New documents -/

/-- The first input that was used up before. -/
def consumedInput? (p : Progress) (inputs : List String) : Option String :=
  inputs.find? (· ∈ p.consumed)

/-- Is the name of an output taken, on disk or by an output of this session? -/
def isTaken (s : Session) (p : Progress) (output : String) : Bool :=
  output ∈ p.planned || p.tree.has (s.pathOf output)

/-- Reads the inputs; fails with the name of the first that cannot be read. -/
def readInputs (s : Session) (t : Tree) (inputs : List String) :
    Except (String × Failure) (List Document) :=
  inputs.mapM fun name => (Inbox.readDocument t s.inbox (s.pathOf name)).mapError fun f => (name, f)

/-- The text made of documents under the names they were asked for. A single document stays as it
is. -/
def mergedText (inputs : List String) (docs : List Document) : String :=
  match docs with
  | [only] => only.content
  | _ => mergeSources ((inputs.zip docs).map fun (name, d) => ⟨name, d.lines⟩)

/-- The action of a new document. -/
def madeAction (change : Change) (inputs : List String) (output : String) : Action :=
  match change, inputs with
  | .merged, [file1, file2] => .merge file1 file2 output
  | _, _ => .fold inputs output

/-- The output name of a request: the one asked for, or the one that the first input leads. -/
def outputFor (inputs : List String) (output : Option String) : String :=
  match output, inputs with
  | some name, _ => name
  | none, first :: _ => outputName first
  | none, [] => ""

/-- Writes a new document, removes its inputs, and records it. -/
def writeMerged (s : Session) (change : Change) (inputs : List String) (output text : String) :
    Step Unit := do
  let path := s.pathOf output
  Step.onTree (Tree.changeAt path (Tree.write path (Text.Utf8.encode text)))
  let removed ← Step.onTree (modifyGet (s.removeFiles inputs))
  s.record change output removed

/-- Makes one document of the inputs, unless one of them was used up or cannot be read, or the name
of the output is taken. -/
def combine (s : Session) (change : Change) (inputs : List String) (output : Option String) :
    Step Action := do
  let p ← get
  if let some name := consumedInput? p inputs then return .skipConsumed inputs name
  let output := outputFor inputs output
  if s.isTaken p output then return .skipCollision inputs output
  match s.readInputs p.tree inputs with
  | .error (name, f) => return .skipUnreadable name f.message
  | .ok docs =>
    set { p with consumed := inputs ++ p.consumed, planned := output :: p.planned }
    unless s.trial do s.writeMerged change inputs output (mergedText inputs docs)
    return madeAction change inputs output

/-! ## Requests -/

/-- Merges a pair, if its overlap is enough. -/
def mergePair (s : Session) (pair : PairEntry) : Step (Option Action) :=
  if s.leastOverlap.le pair.overlap then some <$> s.combine .merged [pair.file1, pair.file2] none
  else return none

/-- Merges the pairs in order. -/
def mergePairs (s : Session) (pairs : List PairEntry) : Step (List Action) :=
  forEach s.mergePair pairs

/-- Folds files into one. -/
def fold (s : Session) (files : List String) (output : Option String) : Step Action :=
  s.combine .folded files output

/-- Carries out a report: the exact groups first, then the similar pairs. -/
def run (s : Session) (r : Report) : Step Outcome := do
  unless (← get).tree.isDir s.inbox do throw (.inboxMissing s.inbox)
  let copies ← s.removeCopies r.exact
  let merges ← s.mergePairs r.similar
  return ⟨copies ++ merges⟩

end Session

end NearDup.Merge
