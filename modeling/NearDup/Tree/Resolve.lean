import NearDup.Text.Lines
import NearDup.Text.Utf8
import NearDup.Tree.Basic

/-!
# Where a path leads

A path is walked name by name from the top of the tree, or from the root if it begins with a slash.
A symbolic link on the way is replaced by its target, which is walked from the directory of the
link; at most 40 links are followed. The last name may be a link too, which some operations follow
and others take as it stands. A slash at the end of a path asks for a directory, so nothing can be
opened for writing there.

A name has at most 255 bytes. A longer one is noticed where it would be looked up, so what is wrong
on the way to it comes first. A path has at most 4095 bytes and no zero byte, whatever it leads to.

The tree does not know where in a file system its top is: a way that leaves the top upwards, or that
begins at the root, finds there what has been put there, and nothing else.
-/

namespace NearDup

/-- Why an operation on a tree fails. -/
inductive Fault
  | noEntry
  | notDirectory
  | isDirectory
  | alreadyThere
  | busy
  | tooManyLinks
  | nameTooLong
  | zeroByte
  | invalidText
  deriving DecidableEq, Repr

/-- The text of a fault, as the system words it. -/
def Fault.message : Fault → String
  | noEntry => "No such file or directory (os error 2)"
  | notDirectory => "Not a directory (os error 20)"
  | isDirectory => "Is a directory (os error 21)"
  | alreadyThere => "File exists (os error 17)"
  | busy => "Device or resource busy (os error 16)"
  | tooManyLinks => "Too many levels of symbolic links (os error 40)"
  | nameTooLong => "File name too long (os error 36)"
  | zeroByte => "file name contained an unexpected NUL byte"
  | invalidText => "stream did not contain valid UTF-8"

/-- Where a path leads: to an entry, or to a free name in a directory. -/
inductive Place
  | entry (loc : Location) (e : Entry)
  | vacant (loc : Location)
  deriving DecidableEq, Repr

/-- What an operation does at the last name of a path: it takes a link as it stands, or it follows
links, or it follows them to open a file for writing. -/
inductive Ending
  | kept
  | followed
  | opened
  deriving DecidableEq, Repr

namespace Tree

/-- The names of a path. One that ends in a slash has an empty last name. -/
def pathNames (path : String) : List String := (Text.pieces '/' path.toList).map String.ofList

/-- Where the names of a path begin: at the root, or at the directory from where it is walked. -/
def origin (here : Location) (path : String) : Location :=
  if path.toList.head? = some '/' then root else here

/-- Is nothing left of a path but slashes, and at least one of them? -/
def endsInSlash (rest : List String) : Bool := rest ≠ [] && rest.all (· = "")

/-- The most bytes of a name. -/
def nameLimit : Nat := 255

/-- The most bytes of a path. -/
def pathLimit : Nat := 4095

/-- Refuses a text that cannot be the path of anything, before any name in it is looked up. -/
def checkPath (path : String) : Except Fault Unit := do
  if '\x00' ∈ path.toList then throw .zeroByte
  if path = "" then throw .noEntry
  if pathLimit < Text.Utf8.size path then throw .nameTooLong

/-- Walks names from a directory. `onLink` says how to go on at a link: from the directory where its
target begins, with the names of the target in front of those that are left. -/
def walkNames (t : Tree) (ending : Ending)
    (onLink : Location → List String → Except Fault Place) :
    Location → List String → Except Fault Place
  | here, [] => .ok (.entry here .dir)
  | here, name :: rest =>
    if name = "" ∨ name = "." then walkNames t ending onLink here rest
    else if name = ".." then
      walkNames t ending onLink (up here) rest
    else if ending = .opened ∧ endsInSlash rest then .error .isDirectory
    else if nameLimit < Text.Utf8.size name then .error .nameTooLong
    else
      let loc := here ++ [name]
      match t.get? loc with
      | none => if rest = [] then .ok (.vacant loc) else .error .noEntry
      | some .dir => walkNames t ending onLink loc rest
      | some (.file bytes) =>
        if rest = [] then .ok (.entry loc (.file bytes)) else .error .notDirectory
      | some (.link target) =>
        if rest = [] ∧ ending = .kept then .ok (.entry loc (.link target))
        else onLink (origin here target) (pathNames target ++ rest)

/-- Walks names from a directory and follows at most so many links. -/
def walk (t : Tree) (ending : Ending) : Nat → Location → List String → Except Fault Place
  | 0 => walkNames t ending fun _ _ => .error .tooManyLinks
  | links + 1 => walkNames t ending (walk t ending links)

/-- The most links that are followed on one path. -/
def linkLimit : Nat := 40

/-- Where a path leads; to a link only if that is kept. -/
def resolve (t : Tree) (ending : Ending) (path : String) : Except Fault Place := do
  checkPath path
  walk t ending linkLimit (origin [] path) (pathNames path)

/-- The entry that a path leads to, links followed, with its location. -/
def find (t : Tree) (path : String) : Except Fault (Location × Entry) := do
  match ← t.resolve .followed path with
  | .entry loc e => return (loc, e)
  | .vacant _ => throw .noEntry

/-- Does a path lead to something? -/
def has (t : Tree) (path : String) : Bool :=
  match t.find path with
  | .ok _ => true
  | .error _ => false

def isDir (t : Tree) (path : String) : Bool :=
  match t.find path with
  | .ok (_, .dir) => true
  | _ => false

end Tree

end NearDup
