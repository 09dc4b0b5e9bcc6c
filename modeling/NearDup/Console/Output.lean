import NearDup.Merge.Action
import NearDup.Number.Fixed
import NearDup.Analysis
import NearDup.Inbox
import NearDup.Journal
import NearDup.Text.Quoted

/-!
# What the commands print

The lines that tell a person what was found and done.
-/

namespace NearDup.Console

open Number

/-! ## Findings -/

/-- Pairs shown after an analysis. -/
def shownPairs : Nat := 10

/-- Digits of a digest shown. -/
def shownDigits : Nat := 8

/-- The lines of the exact groups, numbered from `n`. -/
def groupLines : Nat → List ExactGroup → List String
  | _, [] => []
  | n, g :: rest =>
    (" Group " ++ decimal n ++ " (hash: " ++ g.digest.short shownDigits ++ "...):") ::
      g.files.map ("   ▶ " ++ ·) ++ groupLines (n + 1) rest

def pairLines (m : Match) : List String :=
  ["", "  " ++ m.file1, "  ↔ " ++ m.file2,
   "  Content similarity: " ++ m.similarity.percent 1,
   "  Line overlap: " ++ m.overlap.percent 1 ++ " (" ++ decimal m.sharedLines ++
     " unique shared lines)"]

/-- The lines of an analysis. -/
def findingLines (a : Analysis) : List String :=
  (if a.exact = [] then ["No exact duplicates found."]
   else ("Found " ++ decimal a.exact.length ++ " group(s) of exact duplicates:") ::
     groupLines 1 a.exact) ++
  (if a.similar = [] then ["No similar files found."]
   else ("Found " ++ decimal a.similar.length ++ " similar pair(s) (threshold: " ++
       a.threshold.percent 0 ++ "):") :: (a.similar.take shownPairs).flatMap pairLines)

/-- The lines after the reports were written. -/
def analyzedLines (a : Analysis) (paths : Inbox.Paths) : List String :=
  ["", "✅ Analysis complete", "   Total files: " ++ decimal a.totalFiles,
   "   Exact duplicate groups: " ++ decimal a.exact.length,
   "   Similar pairs: " ++ decimal a.similar.length, "   Reports written to " ++ paths.dir]

/-! ## Actions -/

/-- The lines of an action, marked in a trial run. -/
def actionLines (trial : Bool) : Merge.Action → List String
  | .deduplicate kept removed =>
    ["", "✨ Exact duplicates", "   🏆 Keeping → " ++ kept] ++
      removed.map ("   🗑️  " ++ mark ++ "Deleted " ++ ·)
  | .merge file1 file2 output =>
    ["", "✨ " ++ file1 ++ " ↔ " ++ file2, "   📄 " ++ mark ++ "Created " ++ output,
     "   🗑️  " ++ mark ++ "Deleted " ++ file1 ++ ", " ++ file2]
  | .fold inputs output =>
    ["", "✨ " ++ Text.join " + " inputs, "   📄 " ++ mark ++ "Created " ++ output,
     "   🗑️  " ++ mark ++ "Deleted " ++ Text.join ", " inputs]
  | .skipConsumed inputs consumed =>
    ["", "⏭  Skipped " ++ Text.join " ↔ " inputs ++ " (" ++ consumed ++ " already merged)"]
  | .skipCollision inputs output =>
    ["", "⚠️  Skipped " ++ Text.join " ↔ " inputs ++ ": " ++ output ++ " already exists"]
  | .skipUnreadable file reason => ["", "⚠️  Skipped " ++ file ++ ": " ++ reason]
where
  mark : String := if trial then "[dry-run] " else ""

/-- The last lines of a merge or fold. -/
def closingLines (trial changed : Bool) (paths : Inbox.Paths) : List String :=
  if trial then ["", "⚠️  Dry-run only; no files were changed."]
  else if changed then ["", "✅ Recorded merge history in " ++ paths.journal]
  else ["", "No files were changed."]

/-! ## The journal -/

/-- The lines of the records of a journal, numbered from `n`. -/
def recordLines : Nat → List Record → List String
  | _, [] => []
  | n, r :: rest =>
    ["[" ++ decimal n ++ "] " ++ r.timestamp, "     kept: " ++ r.retained,
     "     removed: " ++ Text.quotedList r.removed, "     action: " ++ r.change.title, ""] ++
      recordLines (n + 1) rest

/-- The lines of a journal. -/
def journalLines (records : List Record) (paths : Inbox.Paths) : List String :=
  if records = [] then ["No merge history in " ++ paths.journal]
  else "🗂️  Merge History:" :: recordLines 0 records

end NearDup.Console
