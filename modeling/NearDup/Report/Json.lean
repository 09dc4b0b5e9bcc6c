import NearDup.Json.Writer
import NearDup.Report.Basic

/-!
# Reports as JSON

The stored form of a report. Its field names and their order are fixed; each member stands on a line
of its own.
-/

namespace NearDup

open Json

def Summary.writer (s : Summary) : Writer :=
  .object
    [("total_files", .nat s.totalFiles), ("exact_duplicate_groups", .nat s.exactGroups),
     ("similar_pairs", .nat s.similarPairs), ("similarity_threshold", .double s.threshold)]

def GroupEntry.writer (g : GroupEntry) : Writer :=
  .object [("hash", .text g.hash), ("files", .array (g.files.map .text)), ("size", .nat g.size)]

def PairEntry.writer (p : PairEntry) : Writer :=
  .object
    [("file1", .text p.file1), ("file2", .text p.file2), ("similarity", .double p.similarity),
     ("line_overlap", .double p.overlap), ("common_lines", .nat p.commonLines),
     ("unique_common_lines", .nat p.sharedLines), ("total_lines", .nat p.totalLines),
     ("sections", .nat p.sections)]

def Report.writer (r : Report) : Writer :=
  .object
    [("summary", r.summary.writer), ("exact_duplicates", .array (r.exact.map (·.writer))),
     ("similar_pairs", .array (r.similar.map (·.writer)))]

/-- The stored text of a report. -/
def Report.json (r : Report) : String := r.writer.render .pretty

end NearDup
