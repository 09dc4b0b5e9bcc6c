import NearDup.Number.Fixed
import NearDup.Report.Basic

/-!
# Reports for reading

A report as a page for people: a head with the counts, the exact groups, the similar pairs with an
advice for each, and what to do next.
-/

namespace NearDup

open Number

/-! ## Advice -/

/-- What to do about two documents, by their overlap. -/
def recommendation (overlap : Binary64) : String :=
  if (Binary64.ofRatio 7 10).lt overlap then "High line overlap - strong candidate for merging"
  else if (Binary64.ofRatio 4 10).lt overlap then "Moderate line overlap - review for consolidation"
  else "Low line overlap - may share common topics or boilerplate"

/-! ## Parts of the page -/

namespace Report

/-- Digits of a digest that the page shows. -/
def shownHashLength : Nat := 8

/-- The elements of a list with their numbers, from `n` on. -/
def numberedFrom {α : Type} : Nat → List α → List (Nat × α)
  | _, [] => []
  | n, x :: xs => (n, x) :: numberedFrom (n + 1) xs

def headText (s : Summary) (date : String) : String :=
  "# Inbox Duplicate Analysis Report\n\n**Analysis Date**: " ++ date ++
    "\n**Total Files**: " ++ decimal s.totalFiles ++
    "\n**Similarity Threshold**: " ++ s.threshold.percent 0 ++ "\n\n---\n\n"

def groupText (number : Nat) (g : GroupEntry) : String :=
  "### Group " ++ decimal number ++ " (Hash: \x60" ++
    String.ofList (g.hash.toList.take shownHashLength) ++ "...\x60)\n\n**Size**: " ++
    grouped g.size ++ " bytes\n\n**Files**:\n" ++
    String.join (g.files.map fun f => "- \x60" ++ f ++ "\x60\n") ++
    "\n**Recommendation**: Keep one, delete others\n\n"

def pairText (number : Nat) (p : PairEntry) : String :=
  "### Pair " ++ decimal number ++
    "\n\n**Files**:\n- \x60" ++ p.file1 ++ "\x60\n- \x60" ++ p.file2 ++
    "\x60\n\n**Metrics**:\n- Content similarity: " ++ p.similarity.percent 1 ++
    "\n- Line overlap: " ++ p.overlap.percent 1 ++ " (" ++ decimal p.sharedLines ++
    " unique shared lines)\n- Common sections: " ++ decimal p.sections ++
    " blocks\n- Total lines: " ++ decimal p.totalLines ++
    "\n\n**Recommendation**: " ++ recommendation p.overlap ++ "\n\n"

def nextSteps : String :=
  "---\n\n## Next Steps\n\n1. Review exact duplicates and delete redundant copies\n" ++
    "2. Examine similar pairs for merge opportunities\n" ++
    "3. Run \x60doccull merge --dry-run\x60 to preview merges\n"

/-- The page of a report made on a date. -/
def markdown (r : Report) (date : String) : String :=
  headText r.summary date ++ "## Exact Duplicates\n\n" ++
    (if r.exact = [] then "*No exact duplicates found*\n\n" else "") ++
    String.join ((numberedFrom 1 r.exact).map fun g => groupText g.1 g.2) ++
    "---\n\n## Similar Files (Partial Duplicates)\n\n" ++
    "*Sorted by line overlap (percentage of unique shared lines)*\n\n" ++
    (if r.similar = [] then "*No similar files found*\n\n" else "") ++
    String.join ((numberedFrom 1 r.similar).map fun p => pairText p.1 p.2) ++ nextSteps

end Report

end NearDup
