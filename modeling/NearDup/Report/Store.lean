import NearDup.Failure
import NearDup.Report.Stored

/-!
# Storing reports

A report is saved in one step, so that no reader meets half of it, and loaded from a file that has
to hold exactly one report.
-/

namespace NearDup.Report

/-- The report in a file. A missing file is a missing report; every other fault is told as it is. -/
def load (t : Tree) (path : String) : Except Failure Report :=
  match t.readText path with
  | .error .noEntry => .error (.reportMissing path)
  | .error f => .error (.io path f)
  | .ok s => (ofJson s).mapError (.reportInvalid path)

/-- Saves a report. -/
def save (r : Report) (path : String) : OnTree Unit := Tree.replace path r.json

end NearDup.Report
