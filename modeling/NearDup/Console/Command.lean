import NearDup.Console.Arguments
import NearDup.Console.Output
import NearDup.Merge.Session
import NearDup.Report.Markdown
import NearDup.Report.Store

/-!
# Running commands

A command reads and changes the tree and answers with an exit code, what it printed, and the text
of its failure. A command line that is rejected has code 2, a command that fails code 1. What was
printed before a failure stays printed, and what was changed stays changed.
-/

namespace NearDup.Console

/-- The time as the journal writes it, and as the report for reading does. -/
structure Clock where
  stamp : String
  date : String

/-! ## Failures -/

/-- Why a command fails. -/
inductive Trouble
  /-- An operation failed. -/
  | failed (f : Failure)
  /-- A report could not be written. -/
  | unwritten (path : String) (f : Failure)
  /-- A change of files was not confirmed, and nobody can be asked. -/
  | unconfirmed
  deriving DecidableEq, Repr

namespace Trouble

def message : Trouble → String
  | failed f => f.message
  | unwritten path _ => "Failed to write report " ++ Text.quoted path
  | unconfirmed => "IO error: not a terminal"

/-- The messages of what lies behind it, the nearest first. -/
def causes : Trouble → List String
  | failed f => f.cause?.toList
  | unwritten _ f => f.message :: f.cause?.toList
  | unconfirmed => ["not a terminal"]

/-- A cause below a label; its further lines stand as far in as the first one. -/
def causeText (label cause : String) : String :=
  let margin := String.ofList (List.replicate label.length ' ')
  "\n" ++ label ++
    Text.join ("\n" ++ margin) ((Text.pieces '\n' cause.toList).map String.ofList)

/-- Causes with their numbers, from `n` on. -/
def numbered : Nat → List String → String
  | _, [] => ""
  | n, c :: rest => causeText ("    " ++ Number.decimal n ++ ": ") c ++ numbered (n + 1) rest

/-- The whole text: the message, and below it the causes, numbered if there are several. -/
def text (e : Trouble) : String :=
  let below := match e.causes with
    | [] => ""
    | [only] => "\n\nCaused by:" ++ causeText "    " only
    | many => "\n\nCaused by:" ++ numbered 0 many
  "Error: " ++ e.message ++ below ++ "\n"

end Trouble

/-! ## Running -/

/-- How far a command is: the tree, and the lines printed. -/
structure Progress where
  tree : Tree
  printed : List String

/-- A computation of a command. A failure leaves what was changed and printed until then. -/
abbrev Running := Effect Trouble Progress

/-- Prints lines. -/
def say (lines : List String) : Running Unit :=
  modify fun p => { p with printed := p.printed ++ lines }

/-- A computation on the tree; `trouble` tells what its failure means. -/
def onTree {α : Type} (trouble : Failure → Trouble) (x : OnTree α) : Running α :=
  (x.within Progress.tree fun p t => { p with tree := t }).mapError trouble

/-- Looks at the tree. -/
def look {α : Type} (f : Tree → Except Failure α) : Running α :=
  onTree .failed (.inspect f)

/-- What a command leaves behind besides the tree. -/
structure Answer where
  code : Nat
  printed : String
  error : Option String
  deriving DecidableEq, Repr

/-- Lines as printed text. -/
def printLines (lines : List String) : String := String.join (lines.map (· ++ "\n"))

/-- The answer of a command, and the tree it leaves. -/
def answerOf (x : Running Unit) (t : Tree) : Answer × Tree :=
  match x.perform ⟨t, []⟩ with
  | (.ok (), p) => (⟨0, printLines p.printed, none⟩, p.tree)
  | (.error e, p) => (⟨1, printLines p.printed, some e.text⟩, p.tree)

/-! ## Commands -/

/-- Analyzes an inbox and writes both reports. -/
def runAnalyze (clock : Clock) (path : String) (threshold : Binary64) (leastSection : Nat) :
    Running Unit := do
  let settings := { AnalysisSettings.default with threshold, leastSection }
  say ["▶ Analyzing documents in: " ++ path]
  let docs ← look fun t => Inbox.load t path settings.extensions
  say ["▶ Loaded " ++ Number.decimal docs.length ++ " documents"]
  let analysis := analyze settings docs
  say (findingLines analysis)
  let report := Report.ofAnalysis analysis
  let paths := Inbox.paths path
  onTree (.unwritten paths.json) (report.save paths.json)
  onTree (.unwritten paths.markdown) (Tree.replace paths.markdown (report.markdown clock.date))
  say (analyzedLines analysis paths)

/-- A session for a command, which keeps the journal of the inbox. -/
def sessionFor (clock : Clock) (path : String) (leastOverlap : Binary64) (trial : Bool) :
    Merge.Session :=
  { inbox := path, leastOverlap, trial
    journal := some (Inbox.paths path).journal
    now := clock.stamp }

/-- A computation of a new session. -/
def inSession {α : Type} (x : Merge.Step α) : Running α :=
  onTree .failed (x.within .start fun _ p => p.tree)

/-- Fails if the inbox is no directory. -/
def checkInbox (path : String) : Running Unit :=
  look fun t => if t.isDir path then .ok () else .error (.inboxMissing path)

/-- Fails if files would change without a word of consent on the command line. -/
def checkConsent (trial confirmed : Bool) : Running Unit :=
  if trial || confirmed then return else throw .unconfirmed

/-- Carries out the stored report of an inbox. -/
def runMerge (clock : Clock) (path : String) (leastOverlap : Binary64) (trial confirmed : Bool) :
    Running Unit := do
  checkInbox path
  let paths := Inbox.paths path
  let report ← look fun t => Report.load t paths.json
  let mode := if trial then "DRY RUN" else "LIVE"
  say ["▶ Merging duplicates in: " ++ path ++ " (" ++ mode ++ ", minimum overlap " ++
      leastOverlap.percent 0 ++ ")",
    "▶ Loaded analysis: " ++ Number.decimal report.summary.totalFiles ++ " files"]
  checkConsent trial confirmed
  let outcome ← inSession ((sessionFor clock path leastOverlap trial).run report)
  if outcome.actions = [] then say ["Nothing to merge."]
  say (outcome.actions.flatMap (actionLines trial))
  say (closingLines trial outcome.changed paths)

/-- Folds files of an inbox into one. -/
def runFold (clock : Clock) (path : String) (files : List String) (output : Option String)
    (trial confirmed : Bool) : Running Unit := do
  checkInbox path
  say ["▶ Folding " ++ Number.decimal files.length ++ " documents in: " ++ path]
  checkConsent trial confirmed
  let action ← inSession ((sessionFor clock path Merge.defaultLeastOverlap trial).fold files output)
  say (actionLines trial action)
  say (closingLines trial action.changesFiles (Inbox.paths path))

/-- Shows the journal of an inbox. -/
def runJournal (path : String) : Running Unit := do
  let paths := Inbox.paths path
  let records ← look fun t => Journal.records t paths.journal
  say (journalLines records paths)

def helpLines : List String :=
  ["Find and merge duplicate documentation", "", "Usage: doccull <COMMAND>", "", "Commands:",
   "  analyze  Analyze an inbox for exact duplicates and similar documents",
   "  merge    Merge duplicates listed in the last analysis report",
   "  fold     Fold several documents into one",
   "  history  List changes recorded by previous merges"]

/-- The computation of a request. -/
def Request.running (clock : Clock) : Request → Running Unit
  | analyze path threshold leastSection => runAnalyze clock path threshold leastSection
  | merge path leastOverlap trial confirmed => runMerge clock path leastOverlap trial confirmed
  | fold path files output trial confirmed => runFold clock path files output trial confirmed
  | journal path => runJournal path
  | version => say ["doccull 0.1.0"]
  | help => say helpLines

/-- Runs a request. -/
def Request.run (clock : Clock) (request : Request) (t : Tree) : Answer × Tree :=
  answerOf (request.running clock) t

/-- Runs a command line. -/
def runLine (clock : Clock) (args : List String) (t : Tree) : Answer × Tree :=
  match Request.parse args with
  | some request => request.run clock t
  | none => (⟨2, "", none⟩, t)

end NearDup.Console
