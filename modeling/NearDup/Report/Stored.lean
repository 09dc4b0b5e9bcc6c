import NearDup.Json.Record
import NearDup.Report.Json

/-!
# Reading stored reports

The readers of the stored form of a report, one for each kind of record in it.
-/

namespace NearDup

open Json

/-! ## The parts -/

/-- What has been read of a summary. -/
structure PartialSummary where
  totalFiles : Option Nat
  exactGroups : Option Nat
  similarPairs : Option Nat
  threshold : Option Binary64

namespace PartialSummary

def empty : PartialSummary := ⟨none, none, none, none⟩

def fields : List (Member PartialSummary) :=
  [.make "total_files" totalFiles (fun p n => { p with totalFiles := some n }) .natural,
   .make "exact_duplicate_groups" exactGroups
     (fun p n => { p with exactGroups := some n }) .natural,
   .make "similar_pairs" similarPairs (fun p n => { p with similarPairs := some n }) .natural,
   .make "similarity_threshold" threshold (fun p x => { p with threshold := some x }) .double]

def finish (p : PartialSummary) : Option Summary :=
  match p with
  | ⟨some totalFiles, some exactGroups, some similarPairs, some threshold⟩ =>
    some ⟨totalFiles, exactGroups, similarPairs, threshold⟩
  | _ => none

end PartialSummary

def Summary.reader : Reader Summary := .record PartialSummary.fields .empty PartialSummary.finish

/-- What has been read of an exact group. -/
structure PartialGroup where
  hash : Option String
  files : Option (List String)
  size : Option Nat

namespace PartialGroup

def empty : PartialGroup := ⟨none, none, none⟩

def fields : List (Member PartialGroup) :=
  [.make "hash" hash (fun p s => { p with hash := some s }) .text,
   .make "files" files (fun p ss => { p with files := some ss }) (.array .text),
   .make "size" size (fun p n => { p with size := some n }) .natural]

def finish (p : PartialGroup) : Option GroupEntry :=
  match p with
  | ⟨some hash, some files, some size⟩ => some ⟨hash, files, size⟩
  | _ => none

end PartialGroup

def GroupEntry.reader : Reader GroupEntry := .record PartialGroup.fields .empty PartialGroup.finish

/-- What has been read of a pair. -/
structure PartialPair where
  file1 : Option String
  file2 : Option String
  similarity : Option Binary64
  overlap : Option Binary64
  commonLines : Option Nat
  sharedLines : Option Nat
  totalLines : Option Nat
  sections : Option Nat

namespace PartialPair

def empty : PartialPair := ⟨none, none, none, none, none, none, none, none⟩

def fields : List (Member PartialPair) :=
  [.make "file1" file1 (fun p s => { p with file1 := some s }) .text,
   .make "file2" file2 (fun p s => { p with file2 := some s }) .text,
   .make "similarity" similarity (fun p x => { p with similarity := some x }) .double,
   .make "line_overlap" overlap (fun p x => { p with overlap := some x }) .double,
   .make "common_lines" commonLines (fun p n => { p with commonLines := some n }) .natural,
   .make "unique_common_lines" sharedLines (fun p n => { p with sharedLines := some n }) .natural,
   .make "total_lines" totalLines (fun p n => { p with totalLines := some n }) .natural,
   .make "sections" sections (fun p n => { p with sections := some n }) .natural]

def finish (p : PartialPair) : Option PairEntry :=
  match p with
  | ⟨some file1, some file2, some similarity, some overlap, some commonLines, some sharedLines,
      some totalLines, some sections⟩ =>
    some ⟨file1, file2, similarity, overlap, commonLines, sharedLines, totalLines, sections⟩
  | _ => none

end PartialPair

def PairEntry.reader : Reader PairEntry := .record PartialPair.fields .empty PartialPair.finish

/-! ## The report -/

/-- What has been read of a report. -/
structure PartialReport where
  summary : Option Summary
  exact : Option (List GroupEntry)
  similar : Option (List PairEntry)

namespace PartialReport

def empty : PartialReport := ⟨none, none, none⟩

def fields : List (Member PartialReport) :=
  [.make "summary" summary (fun p s => { p with summary := some s }) Summary.reader,
   .make "exact_duplicates" exact (fun p gs => { p with exact := some gs })
     (.array GroupEntry.reader),
   .make "similar_pairs" similar (fun p ps => { p with similar := some ps })
     (.array PairEntry.reader)]

def finish (p : PartialReport) : Option Report :=
  match p with
  | ⟨some summary, some exact, some similar⟩ => some ⟨summary, exact, similar⟩
  | _ => none

end PartialReport

namespace Report

def reader : Reader Report := .record PartialReport.fields .empty PartialReport.finish

/-- The report that a stored text holds. -/
def ofJson (s : String) : Except Defect Report := readWhole reader s

end Report

end NearDup
