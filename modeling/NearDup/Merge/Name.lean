import NearDup.Path

/-!
# Names of merged documents

A merged document is named after the first document that goes into it: it stands in the same
directory, and its name is the stem of the first one with `-merged.md` behind it.
-/

namespace NearDup.Merge

def mergedSuffix : String := "-merged"

/-- The name of the document that `first` leads. A path without a last name gives its whole text in
place of a stem. -/
def outputName (first : String) : String :=
  let name := (Path.stem? first).getD first ++ mergedSuffix ++ ".md"
  match Path.parent? first with
  | some parent => if parent.toList = [] then name else parent ++ "/" ++ name
  | none => name

example : outputName "nested/plan.txt" = "nested/plan-merged.md" ∧
    outputName ".md" = ".md-merged.md" ∧ outputName "a/b/.." = "a/b/a/b/..-merged.md" := by decide

end NearDup.Merge
