import NearDup.Calendar
import NearDup.Console.Command
import Std.Time.DateTime.Timestamp

/-!
# The program

Commands are carried out on a tree that is read from disk: what a request names, and whatever links
lead to on the way. Afterwards the changes are made on disk. All decisions are taken on the tree;
here is only reading, writing and the clock.
-/

namespace NearDup.Main

open Console

/-! ## Reading -/

/-- The directory entry of a location on disk. -/
def diskEntry (loc : Location) : IO.FS.DirEntry := ⟨".", if loc = [] then "." else Tree.pathOf loc⟩

/-- What stands at a location on disk, if something does; links are not followed. -/
def kindAt (loc : Location) : IO (Option IO.FS.FileType) := do
  try
    let found ← (diskEntry loc).path.symlinkMetadata
    return some found.type
  catch _ => return none

/-- The names from the root to where a location on disk really leads, if it leads to something. -/
def realNames? (loc : Location) : IO (Option (List String)) := do
  try
    let real ← IO.FS.realPath (diskEntry loc).path
    return some ((Path.components real.toString).filterMap fun c => match c with
      | .name cs => some (String.ofList cs)
      | _ => none)
  catch _ => return none

/-- A target that leads nowhere: no name on disk has a zero byte. -/
def nowhere : String := "\x00/\x00"

/-- The target of a link, as a way on from the directory that the link is counted from if it leads
below that, and from the root otherwise. -/
def targetOf (loc : Location) : IO String := do
  let anchor := Tree.anchor loc
  let some names ← realNames? loc | return nowhere
  match (← realNames? anchor).bind fun way => Path.after? way names with
  | some below =>
    let back := List.replicate (loc.length - anchor.length - 1) ".."
    return Tree.pathOf (back ++ "." :: below)
  | none => return Tree.pathOf (Tree.root ++ names)

/-- What has been read from disk: a tree, and the locations that are read with everything below. -/
structure Reading where
  tree : Tree
  whole : List Location

/-- Adds an entry, unless something is there. -/
def add (loc : Location) (e : Entry) : StateT Reading IO Unit :=
  modify fun r => if (r.tree.get? loc).isSome then r else { r with tree := r.tree.put loc e }

mutual

/-- Reads what stands at a location; if `whole`, with everything below it. -/
partial def readEntry (whole : Bool) (loc : Location) : StateT Reading IO Unit := do
  if loc ∈ (← get).whole then return
  match ← kindAt loc with
  | some .dir =>
    add loc .dir
    if whole then
      modify fun r => { r with whole := loc :: r.whole }
      for entry in ← (diskEntry loc).path.readDir do
        readEntry whole (loc ++ [entry.fileName])
  | some .file => add loc (.file (← IO.FS.readBinFile (diskEntry loc).path).toList)
  | some .symlink =>
    let target ← targetOf loc
    add loc (.link target)
    readWay whole (Tree.origin loc.dropLast target) (Tree.pathNames target)
  | _ => return

/-- Reads the way from a directory along names, and what stands at its end. -/
partial def readWay (whole : Bool) (here : Location) : List String → StateT Reading IO Unit
  | [] => readEntry whole here
  | name :: rest => do
    if name = "" || name = "." then readWay whole here rest
    else if name = ".." then readWay whole (Tree.up here) rest
    else
      let loc := here ++ [name]
      match ← kindAt loc with
      | some .dir =>
        add loc .dir
        readWay whole loc rest
      | some .symlink =>
        let target ← targetOf loc
        add loc (.link target)
        readWay whole (Tree.origin here target) (Tree.pathNames target ++ rest)
      | _ => readEntry whole loc

end

/-- Reads from disk what a path leads to; if `whole`, with everything below it. -/
def readDisk (whole : Bool) (path : String) : StateT Reading IO Unit :=
  readWay whole (Tree.origin [] path) (Tree.pathNames path)

/-- Reads what stands under names in an inbox. -/
def readNames (inbox : String) (names : List String) : StateT Reading IO Unit :=
  names.forM fun name => readDisk false (Path.join inbox name)

/-- Reads what the program has written to an inbox. -/
def readWritten (inbox : String) : StateT Reading IO Unit :=
  readDisk true (Inbox.paths inbox).dir

/-- The names that a report is about, with those of the documents it can lead to. -/
def namesOf (r : Report) : List String :=
  r.exact.flatMap (·.files) ++
    r.similar.flatMap fun p => [p.file1, p.file2, Merge.outputName p.file1]

/-- Reads what a request is about. -/
def readFor (request : Request) : StateT Reading IO Unit := do
  match request with
  | .analyze path _ _ => readDisk true path
  | .merge path _ _ _ =>
    readWritten path
    if let .ok report := Report.load (← get).tree (Inbox.paths path).json then
      readNames path (namesOf report)
  | .fold path files output _ _ =>
    readWritten path
    readNames path (Merge.Session.outputFor files output :: files)
  | .journal path => readWritten path
  | .version | .help => return

/-! ## Writing -/

/-- Makes the changes between two trees on disk. -/
def writeChanges (before after : Tree) : IO Unit := do
  for (loc, entry) in after.located do
    if before.get? loc ≠ some entry then
      let path := Tree.pathOf loc
      if before.get? loc matches some (.link _) then IO.FS.removeFile path
      match entry with
      | .dir => IO.FS.createDirAll path
      | .file bytes => IO.FS.writeBinFile path ⟨bytes.toArray⟩
      | .link _ => pure ()
  for (loc, entry) in before.located do
    if entry ≠ .dir && (after.get? loc).isNone then IO.FS.removeFile (Tree.pathOf loc)

/-- The time on the clock. -/
def readClock : IO Clock := do
  let now ← Std.Time.Timestamp.now
  let seconds := now.toSecondsSinceUnixEpoch.val
  let billionths := (now.toNanosecondsSinceUnixEpoch.val - seconds * 1000000000).toNat
  return ⟨Calendar.stampText seconds billionths, Calendar.momentText seconds⟩

/-! ## Running -/

/-- Carries out a command line in the working directory. -/
def run (args : List String) : IO UInt32 := do
  match Request.parse args with
  | none => return 2
  | some request =>
    let (_, ⟨before, _⟩) ← (readFor request).run ⟨.empty, []⟩
    let (answer, after) := request.run (← readClock) before
    writeChanges before after
    IO.print answer.printed
    if let some error := answer.error then IO.eprint error
    return answer.code.toUInt32

end NearDup.Main

def main (args : List String) : IO UInt32 := NearDup.Main.run args
