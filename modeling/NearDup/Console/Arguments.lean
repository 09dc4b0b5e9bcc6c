import NearDup.Analysis
import NearDup.Merge.Session
import NearDup.Number.Decimal

/-!
# The command line

A command line names a command, then its options and files in any order. An option is written in
full behind two dashes or as one letter behind one; its value follows behind an equals sign, behind
the letter, or as the next argument, which then must not begin with a dash. Letters without a value
can stand together. Two dashes alone end the options.

The arguments are taken from left to right, and the first defect or call for help ends that. Whether
a value that stands alone, or a run of files, is in order is seen only where the next option begins
or the line ends: until then a run could still grow.

## Main definitions

* `Request` — what can be asked for
* `Request.parse` — the request of a command line, or why there is none
-/

namespace NearDup.Console

/-- What can be asked for. -/
inductive Request
  | analyze (path : String) (threshold : Binary64) (leastSection : Nat)
  | merge (path : String) (leastOverlap : Binary64) (trial confirmed : Bool)
  | fold (path : String) (files : List String) (output : Option String) (trial confirmed : Bool)
  | journal (path : String)
  | version
  | help
  deriving DecidableEq, Repr

/-! ## Values -/

/-- A path; it is not empty. -/
def readPath (s : String) : Option String := if s = "" then none else some s

/-- A ratio from 0 to 1. -/
def readRatio (s : String) : Option Binary64 :=
  match Binary64.ofDecimal? s with
  | some x => if (Binary64.ofNat 0).le x && x.le (.ofNat 1) then some x else none
  | none => none

/-- A whole number that fits 64 bits, maybe with a plus in front. -/
def readCount (s : String) : Option Nat :=
  let ds := match s.toList with
    | '+' :: rest => rest
    | other => other
  if ds = [] || !ds.all Number.isDigit then none
  else
    let n := Number.ofDigits 0 ds
    if n < UInt64.size then some n else none

/-! ## Options -/

/-- The kinds of options: those without a value, and those with a value that has to be in order. -/
inductive OptionKind
  | flag
  | valued (accepts : String → Bool)

/-- An option of a command: its name, its letter, and its kind. -/
structure OptionShape where
  name : String
  letter : Option Char
  kind : OptionKind

namespace OptionShape

def hasValue (shape : OptionShape) : Bool :=
  match shape.kind with
  | .flag => false
  | .valued _ => true

/-- Is a value in order? -/
def accepts (shape : OptionShape) (value : String) : Bool :=
  match shape.kind with
  | .flag => true
  | .valued accepts => accepts value

end OptionShape

/-- What was found on a command line: the options with their values (none has the empty one), and
the files. -/
structure Found where
  options : List (String × String)
  files : List String

namespace Found

def value? (f : Found) (name : String) : Option String := f.options.lookup name

def isSet (f : Found) (name : String) : Bool := (f.value? name).isSome

/-- The value of an option as `read` takes it, or the usual one if it is not given. -/
def valueOr {α : Type} (f : Found) (name : String) (usual : α)
    (read : String → Option α) : Option α :=
  match f.value? name with
  | none => some usual
  | some s => read s

end Found

/-- The command of a name: its options, the least number of files in a run if it takes files, and
the request it makes of what was found. -/
structure Command where
  name : String
  options : List OptionShape
  leastFiles : Option Nat
  request : Found → Option Request

/-! ## Arguments -/

/-- Why arguments are not taken to the end: help is called for, or there is a defect. -/
inductive Stop
  | help
  | rejected

/-- What the next arguments may still belong to: nothing, an option that waits for its value, an
option that has got it, or a run of files (the last one first). -/
inductive Pending
  | nothing
  | waiting (shape : OptionShape)
  | valued (shape : OptionShape) (value : String)
  | run (files : List String)

/-- The text before the first equals sign and, if there is one, the text behind it. -/
def splitEquals : List Char → List Char × Option (List Char)
  | [] => ([], none)
  | c :: rest =>
    if c = '=' then ([], some rest)
    else
      let (name, value) := splitEquals rest
      (c :: name, value)

/-- The value behind a letter; an equals sign between them does not belong to it. -/
def letterValue : List Char → List Char
  | '=' :: rest => rest
  | other => other

/-- Is an argument one or more options? A single dash is not. -/
def isDashed (arg : String) : Bool :=
  match arg.toList with
  | '-' :: _ :: _ => true
  | _ => false

/-- Adds an option; it must not be there already, and its value has to be in order. -/
def Found.add (f : Found) (shape : OptionShape) (value : String) : Except Stop Found :=
  if f.isSet shape.name || !shape.accepts value then throw .rejected
  else return { f with options := f.options ++ [(shape.name, value)] }

namespace Command

/-- Adds what is pending. -/
def settle (c : Command) (f : Found) : Pending → Except Stop Found
  | .nothing => return f
  | .waiting _ => throw .rejected
  | .valued shape value => f.add shape value
  | .run files =>
    match c.leastFiles with
    | some least =>
      if least ≤ files.length then return { f with files := f.files ++ files.reverse }
      else throw .rejected
    | none => throw .rejected

/-- Takes letters that stand together. -/
def takeLetters (c : Command) (f : Found) : List Char → Except Stop (Found × Pending)
  | [] => return (f, .nothing)
  | letter :: rest => do
    match c.options.find? (·.letter = some letter) with
    | none => throw (if letter = 'h' then .help else .rejected)
    | some shape =>
      if !shape.hasValue then takeLetters c (← f.add shape "") rest
      else if rest = [] then return (f, .waiting shape)
      else return (← f.add shape (String.ofList (letterValue rest)), .nothing)

/-- Takes an option by its name, maybe with a value behind an equals sign. -/
def takeNamed (c : Command) (f : Found) (cs : List Char) : Except Stop (Found × Pending) := do
  let (name, value) := splitEquals cs
  match c.options.find? (·.name.toList = name) with
  | none => throw (if name = "help".toList && value = none then .help else .rejected)
  | some shape =>
    match shape.hasValue, value with
    | true, some v => return (← f.add shape (String.ofList v), .nothing)
    | true, none => return (f, .waiting shape)
    | false, none => return (← f.add shape "", .nothing)
    | false, some _ => throw .rejected

/-- Takes an argument that begins with a dash. -/
def takeDashed (c : Command) (f : Found) (arg : String) : Except Stop (Found × Pending) :=
  match arg.toList with
  | '-' :: '-' :: name => takeNamed c f name
  | '-' :: letters => takeLetters c f letters
  | _ => throw .rejected

/-- Takes a file: into the run that is open, or as the first of a run. -/
def takeFile (c : Command) (f : Found) (pending : Pending) (file : String) :
    Except Stop (Found × Pending) := do
  match pending with
  | .run files => return (f, .run (file :: files))
  | other =>
    let f ← c.settle f other
    if c.leastFiles = none then throw .rejected
    return (f, .run [file])

/-- Takes files only. -/
def takeFiles (c : Command) (f : Found) (pending : Pending) : List String → Except Stop Found
  | [] => c.settle f pending
  | file :: rest => do
    let (f, pending) ← c.takeFile f pending file
    takeFiles c f pending rest

/-- Takes arguments one after the other. -/
def takeArguments (c : Command) (f : Found) (pending : Pending) : List String → Except Stop Found
  | [] => c.settle f pending
  | arg :: rest => do
    if arg = "--" then c.takeFiles f pending rest
    else if isDashed arg then
      let (f, pending) ← c.takeDashed (← c.settle f pending) arg
      takeArguments c f pending rest
    else match pending with
      | .waiting shape => takeArguments c f (.valued shape arg) rest
      | _ =>
        let (f, pending) ← c.takeFile f pending arg
        takeArguments c f pending rest

/-- The request of a command with its arguments. -/
def parse (c : Command) (args : List String) : Option Request :=
  match c.takeArguments ⟨[], []⟩ .nothing args with
  | .ok f => c.request f
  | .error .help => some .help
  | .error .rejected => none

end Command

/-! ## Commands -/

def usualPath : String := "docs/_inbox"

def pathOption : OptionShape := ⟨"path", some 'p', .valued fun s => (readPath s).isSome⟩

/-- An option whose value is a ratio. -/
def ratioOption (name : String) : OptionShape := ⟨name, none, .valued fun s => (readRatio s).isSome⟩

/-- An option whose value is a whole number. -/
def countOption (name : String) : OptionShape := ⟨name, none, .valued fun s => (readCount s).isSome⟩

def outputOption : OptionShape := ⟨"output", some 'o', .valued fun _ => true⟩

def trialOption : OptionShape := ⟨"dry-run", none, .flag⟩

def confirmOption : OptionShape := ⟨"yes", some 'y', .flag⟩

def analyzeCommand : Command where
  name := "analyze"
  options := [pathOption, ratioOption "threshold", countOption "min-section-lines"]
  leastFiles := none
  request f := do
    let path ← f.valueOr "path" usualPath readPath
    let threshold ← f.valueOr "threshold" AnalysisSettings.default.threshold readRatio
    let least ← f.valueOr "min-section-lines" AnalysisSettings.default.leastSection readCount
    some (.analyze path threshold least)

def mergeCommand : Command where
  name := "merge"
  options := [pathOption, ratioOption "min-overlap", trialOption, confirmOption]
  leastFiles := none
  request f := do
    let path ← f.valueOr "path" usualPath readPath
    let least ← f.valueOr "min-overlap" Merge.defaultLeastOverlap readRatio
    some (.merge path least (f.isSet "dry-run") (f.isSet "yes"))

/-- Folding needs two files at least in each run, and one run at least. -/
def foldCommand : Command where
  name := "fold"
  options := [pathOption, outputOption, trialOption, confirmOption]
  leastFiles := some 2
  request f := do
    if f.files = [] then none
    let path ← f.valueOr "path" usualPath readPath
    some (.fold path f.files (f.value? "output") (f.isSet "dry-run") (f.isSet "yes"))

def journalCommand : Command where
  name := "history"
  options := [pathOption]
  leastFiles := none
  request f := do
    let path ← f.valueOr "path" usualPath readPath
    some (.journal path)

def commands : List Command := [analyzeCommand, mergeCommand, foldCommand, journalCommand]

/-! ## Requests -/

/-- Is an argument, given instead of a command, a call for the version? Letters may follow. -/
def asksVersion (arg : String) : Bool :=
  arg = "--version" || match arg.toList with
    | '-' :: 'V' :: _ => true
    | _ => false

def asksHelp (arg : String) : Bool :=
  arg = "--help" || match arg.toList with
    | '-' :: 'h' :: _ => true
    | _ => false

/-- Help is there for the program as a whole and for each command, that of help included. -/
def hasHelp : List String → Bool
  | [] => true
  | [name] => name = "help" || commands.any (·.name = name)
  | _ => false

/-- The request of a command line; none if it is rejected. -/
def Request.parse : List String → Option Request
  | [] => none
  | first :: args =>
    if asksVersion first then some .version
    else if asksHelp first then some .help
    else if first = "help" then if hasHelp args then some .help else none
    else match commands.find? (·.name = first) with
      | some c => c.parse args
      | none => none

example : Request.parse ["fold", "a", "-y", "b"] = none := by decide +kernel
example : Request.parse ["fold", "a", "b", "-yp=in", "c", "--", "-d"] =
    some (.fold "in" ["a", "b", "c", "-d"] none false true) := by decide +kernel
example : Request.parse ["merge", "--min-overlap", "-0.5"] = none := by decide +kernel
example : Request.parse ["fold", "a", "b", "-yh", "-x"] = some .help ∧
    Request.parse ["fold", "a", "-yh"] = none := by decide +kernel

end NearDup.Console
