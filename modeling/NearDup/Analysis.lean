import NearDup.Align.Section
import NearDup.Document
import NearDup.Sort

/-!
# Analysis of a collection

Two findings are made about a list of documents: which of them are the same text, and which pairs of
different texts are alike by at least one of the two measures.

## Main definitions

* `exactGroups` — documents of one digest, two or more, in order of first appearance
* `matchOf?` — the match of two documents, if a measure reaches the threshold
* `analyze` — both findings; the matches ranked by falling overlap, ties in order of discovery
-/

namespace NearDup

/-- What decides which pairs and which sections are reported, and which files are documents. -/
structure AnalysisSettings where
  threshold : Binary64
  leastSection : Nat
  extensions : List String

def AnalysisSettings.default : AnalysisSettings :=
  { threshold := .ofRatio 30 100, leastSection := 10, extensions := ["md", "txt"] }

/-! ## Exact groups -/

/-- Documents with one text. -/
structure ExactGroup where
  digest : Digest
  files : List String
  size : Nat
  deriving DecidableEq, Repr

/-- The group of a digest among the documents, if it has at least two members. -/
def groupOf (docs : List Document) (d : Digest) : Option ExactGroup :=
  match docs.filter (·.digest = d) with
  | first :: second :: rest =>
    some ⟨d, (first :: second :: rest).map (·.id), first.size⟩
  | _ => none

/-- The elements of a list in order of first appearance, without those of `seen`. -/
def firstAppearances {α : Type} [DecidableEq α] (seen : List α) : List α → List α
  | [] => []
  | x :: xs =>
    if x ∈ seen then firstAppearances seen xs else x :: firstAppearances (x :: seen) xs

/-- The groups, in order of first appearance. -/
def exactGroups (docs : List Document) : List ExactGroup :=
  (firstAppearances [] (docs.map (·.digest))).filterMap (groupOf docs)

/-! ## Matches -/

/-- A pair of documents that are alike. -/
structure Match where
  file1 : String
  file2 : String
  similarity : Binary64
  overlap : Binary64
  /-- Lines in the reported sections. -/
  commonLines : Nat
  /-- Distinct lines that both documents have. -/
  sharedLines : Nat
  /-- Lines of the longer document. -/
  totalLines : Nat
  sections : List Align.Section
  deriving DecidableEq, Repr

/-- The match of two documents, unless both measures stay below the threshold. -/
def matchOf? (settings : AnalysisSettings) (first second : Document) : Option Match :=
  let similarity := (NearDup.similarity first.content second.content).toDouble
  let overlap := (NearDup.overlap first.lineDigests second.lineDigests).toDouble
  if similarity.lt settings.threshold && overlap.lt settings.threshold then none
  else
    let sections := Align.sections first.lines second.lines settings.leastSection
    some
      { file1 := first.id
        file2 := second.id
        similarity
        overlap
        commonLines := sections.foldr (fun s n => s.length + n) 0
        sharedLines := sharedCount first.lineDigests second.lineDigests
        totalLines := max first.lines.length second.lines.length
        sections }

/-- The matches of one document with later ones of a different digest. -/
def matchesWith (settings : AnalysisSettings) (first : Document)
    (later : List Document) : List Match :=
  (later.filter (·.digest ≠ first.digest)).filterMap (matchOf? settings first)

/-- The matches of all pairs, in the order of the first, then of the second document. -/
def allMatches (settings : AnalysisSettings) : List Document → List Match
  | [] => []
  | first :: later => matchesWith settings first later ++ allMatches settings later

/-- Does the first match have at least the overlap of the second? -/
def Match.ranksBefore (m n : Match) : Bool := n.overlap.position ≤ m.overlap.position

/-! ## Analysis -/

/-- The findings about a collection. -/
structure Analysis where
  totalFiles : Nat
  threshold : Binary64
  exact : List ExactGroup
  similar : List Match
  deriving DecidableEq, Repr

def analyze (settings : AnalysisSettings) (docs : List Document) : Analysis :=
  { totalFiles := docs.length
    threshold := settings.threshold
    exact := exactGroups docs
    similar := sortBy Match.ranksBefore (allMatches settings docs) }

end NearDup
