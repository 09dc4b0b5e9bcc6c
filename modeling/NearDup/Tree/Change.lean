import NearDup.Effect
import NearDup.Path
import NearDup.Text.Utf8
import NearDup.Tree.Resolve

/-!
# Reading and changing a tree

The operations on files and directories, by path. An operation gives the changed tree or a fault;
only the making of several directories in turn can leave some of them behind when it fails.
-/

namespace NearDup.Tree

/-! ## Reading -/

/-- The bytes of a file. -/
def read (t : Tree) (path : String) : Except Fault (List UInt8) := do
  match ← t.find path with
  | (_, .file bytes) => return bytes
  | _ => throw .isDirectory

/-- The text of a file, which has to be UTF-8. -/
def readText (t : Tree) (path : String) : Except Fault String := do
  match Text.Utf8.decode? (← t.read path) with
  | some s => return s
  | none => throw .invalidText

/-! ## Files -/

/-- Where a file can be written: an existing file with its bytes, or a free name. -/
def openFile (t : Tree) (path : String) : Except Fault (Location × List UInt8) := do
  match ← t.resolve .opened path with
  | .entry loc (.file bytes) => return (loc, bytes)
  | .entry _ _ => throw .isDirectory
  | .vacant loc => return (loc, [])

/-- Makes a file with these bytes, in place of one that is there. -/
def write (path : String) (bytes : List UInt8) (t : Tree) : Except Fault Tree := do
  let (loc, _) ← t.openFile path
  return t.put loc (.file bytes)

/-- Adds bytes at the end of a file, which is made if it is not there. -/
def append (path : String) (bytes : List UInt8) (t : Tree) : Except Fault Tree := do
  let (loc, before) ← t.openFile path
  return t.put loc (.file (before ++ bytes))

/-- Removes a file or a link, not what the link leads to. -/
def remove (path : String) (t : Tree) : Except Fault Tree := do
  match ← t.resolve .kept path with
  | .entry _ .dir => throw .isDirectory
  | .entry loc _ => return t.erase loc
  | .vacant _ => throw .noEntry

/-- Makes a link. Its target has to be a path, but need not lead anywhere. -/
def makeLink (path target : String) (t : Tree) : Except Fault Tree := do
  checkPath target
  match ← t.resolve .kept path with
  | .entry _ _ => throw .alreadyThere
  | .vacant loc => return t.put loc (.link target)

/-! ## Directories -/

/-- A path without the slashes at its end; one of slashes alone leads to the root. -/
def withoutSlashes (path : String) : String :=
  let kept := (path.toList.reverse.dropWhile (· = '/')).reverse
  if kept = [] then path else String.ofList kept

/-- Makes one directory. -/
def makeDir (path : String) (t : Tree) : Except Fault Tree := do
  checkPath path
  match ← t.resolve .kept (withoutSlashes path) with
  | .entry _ _ => throw .alreadyThere
  | .vacant loc => return t.put loc .dir

/-- Makes one directory, unless it is there. -/
def ensureDir (path : String) (t : Tree) : Except Fault Tree :=
  match t.makeDir path with
  | .ok t => .ok t
  | .error f => if t.isDir path then .ok t else .error f

/-- A path and the paths above it, the nearest first, at most `fuel` of them. -/
def upward : Nat → String → List String
  | 0, _ => []
  | fuel + 1, path =>
    path :: match Path.parent? path with
      | some parent => upward fuel parent
      | none => []

/-- Makes the first of some directories, if something on the way to it is missing after the others.
-/
def ensureDirs : List String → Effect Fault Tree Unit
  | [] => pure ()
  | path :: above => do
    if path = "" then return
    if (← get).makeDir path matches .error .noEntry then ensureDirs above
    Effect.change (ensureDir path)

/-- Makes a directory and those above it that are missing. -/
def ensureDirAll (path : String) : Effect Fault Tree Unit :=
  ensureDirs (upward (path.length + 1) path)

/-! ## Moving -/

/-- Does a path end, whatever slashes follow, without a name for an entry of a directory: with dots,
or at the root? -/
def endsNameless (path : String) : Bool :=
  match (pathNames (withoutSlashes path)).getLast? with
  | some name => name = "" || name = "." || name = ".."
  | none => true

example : endsNameless "a/..//" ∧ endsNameless "./" ∧ endsNameless "/" ∧
    ¬ endsNameless "a/../b/" := by decide

/-- Moves a file or a link to another name, in place of a file or a link that is there. The names
themselves are judged first: only the name of an entry can be given anew. -/
def move (source destination : String) (t : Tree) : Except Fault Tree := do
  checkPath destination
  let place ← t.resolve .kept source
  let target ← t.resolve .kept (withoutSlashes destination)
  if endsNameless destination then throw .busy
  match place with
  | .vacant _ => throw .noEntry
  | .entry _ .dir => throw .isDirectory
  | .entry loc e =>
    if destination.toList.getLast? = some '/' then throw .notDirectory
    match target with
    | .entry _ .dir => throw .isDirectory
    | .entry other _ => return (t.erase loc).put other e
    | .vacant other => return (t.erase loc).put other e

/-! ## Listing -/

/-- The directory that a location is counted from: the top, one above it, or the root. -/
def anchor (loc : Location) : Location :=
  if loc.head? = some "/" then root else loc.takeWhile (· = "..")

/-- The path of a location. -/
def pathOf : Location → String
  | "/" :: names => "/" ++ Text.join "/" names
  | names => Text.join "/" names

example : pathOf ["/", "a", "b"] = "/a/b" ∧ pathOf ["..", "a"] = "../a" := by decide

/-- Every entry with its location, in the order of the bytes of the paths. -/
def located (t : Tree) : List (Location × Entry) :=
  let locs := sortBy (fun a b => decide (pathOf a ≤ pathOf b)) (distinct (t.entries.map (·.1)))
  locs.filterMap fun loc => (t.get? loc).map fun e => (loc, e)

/-- Every entry below the top with its path, in the order of the bytes of the paths. -/
def listing (t : Tree) : List (String × Entry) :=
  (t.located.filter fun e => anchor e.1 = []).map fun e => (pathOf e.1, e.2)

end NearDup.Tree
