import NearDup.Analysis

/-!
# Reports

A report is what is kept of an analysis: the counts, the exact groups with shortened digests, and
the matches with ratios of three decimal places and the number of their sections.
-/

namespace NearDup

/-- The counts of an analysis and the threshold it was made with. -/
structure Summary where
  totalFiles : Nat
  exactGroups : Nat
  similarPairs : Nat
  threshold : Binary64
  deriving DecidableEq, Repr

/-- Files with one text; the first is the one to keep. -/
structure GroupEntry where
  hash : String
  files : List String
  size : Nat
  deriving DecidableEq, Repr

/-- Two files that are alike. -/
structure PairEntry where
  file1 : String
  file2 : String
  similarity : Binary64
  overlap : Binary64
  commonLines : Nat
  sharedLines : Nat
  totalLines : Nat
  sections : Nat
  deriving DecidableEq, Repr

structure Report where
  summary : Summary
  exact : List GroupEntry
  similar : List PairEntry
  deriving DecidableEq, Repr

namespace Report

/-- Digits of a digest that a report keeps. -/
def hashLength : Nat := 16

def groupEntry (g : ExactGroup) : GroupEntry := ⟨g.digest.short hashLength, g.files, g.size⟩

def pairEntry (m : Match) : PairEntry :=
  { file1 := m.file1
    file2 := m.file2
    similarity := m.similarity.roundToThousandths
    overlap := m.overlap.roundToThousandths
    commonLines := m.commonLines
    sharedLines := m.sharedLines
    totalLines := m.totalLines
    sections := m.sections.length }

/-- The report of an analysis. -/
def ofAnalysis (a : Analysis) : Report :=
  { summary := ⟨a.totalFiles, a.exact.length, a.similar.length, a.threshold⟩
    exact := a.exact.map groupEntry
    similar := a.similar.map pairEntry }

end Report

end NearDup
