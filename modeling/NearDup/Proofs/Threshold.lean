import NearDup.Proofs.Number.Rounding
import NearDup.Proofs.Ranking

/-!
# Raising the threshold

The threshold decides which pairs are reported, and nothing else: a match is the same whatever the
threshold was, and a pair that misses the lower of two thresholds misses the higher one, too. So the
findings with the higher threshold are those with the lower one, less the matches that miss it. They
stand in the same order, because it makes no difference whether these matches are left out before
the sort or behind it.

* `Match.reaches` — a match reaches a threshold by one of its measures
* `matchOf?_raise` — the match of two documents with a higher threshold
* `analyze_raise` — the analysis with a higher threshold
-/

namespace NearDup

variable {settings : AnalysisSettings} {low high : Binary64} {first second : Document}

/-- Is one of the two measures at least the threshold? -/
def Match.reaches (threshold : Binary64) (m : Match) : Bool :=
  threshold.le m.similarity || threshold.le m.overlap

/-- A match that reaches a threshold reaches every lower one. -/
theorem Match.reaches_of_le {m : Match} (h : low.le high = true) (hm : m.reaches high = true) :
    m.reaches low = true := by
  rw [reaches, Bool.or_eq_true] at hm ⊢
  exact hm.imp (Binary64.le_trans h) (Binary64.le_trans h)

/-- Between numbers both measures are below a threshold if the match does not reach it. -/
theorem Match.below_eq_not_reaches {m : Match} {threshold : Binary64}
    (hs : m.similarity.isNaN = false) (ho : m.overlap.isNaN = false)
    (ht : threshold.isNaN = false) :
    (m.similarity.lt threshold && m.overlap.lt threshold) = !m.reaches threshold := by
  rw [Binary64.lt_eq_not_le hs ht, Binary64.lt_eq_not_le ho ht, ← Bool.not_or, reaches]

/-- Where the threshold is a number, a comparison is recorded if it reaches the threshold. -/
theorem matchOf?_eq_filter (settings : AnalysisSettings) (ht : settings.threshold.isNaN = false) :
    matchOf? settings first second = (some (comparison settings.leastSection first second)).filter
      (Match.reaches settings.threshold) := by
  have hs : (comparison settings.leastSection first second).similarity.isNaN = false :=
    Binary64.isNaN_ofRatio _ _
  have ho : (comparison settings.leastSection first second).overlap.isNaN = false :=
    Binary64.isNaN_ofRatio _ _
  rw [matchOf?_eq, Match.below_eq_not_reaches hs ho ht, Option.filter_some]
  cases (comparison settings.leastSection first second).reaches settings.threshold with
  | true => rfl
  | false => rfl

/-- **With a higher threshold a match is the one with the lower, if it reaches the higher.** -/
theorem matchOf?_raise (h : low.le high = true) :
    matchOf? { settings with threshold := high } first second =
      (matchOf? { settings with threshold := low } first second).filter (Match.reaches high) := by
  obtain ⟨hlow, hhigh⟩ := Binary64.isNaN_of_le h
  rw [matchOf?_eq_filter { settings with threshold := low } hlow,
    matchOf?_eq_filter { settings with threshold := high } hhigh, Option.filter_filter]
  congr 1
  funext m
  rw [eq_comm, Bool.and_eq_right_iff_imp]
  exact Match.reaches_of_le h

theorem matchesWith_raise (h : low.le high = true) (later : List Document) :
    matchesWith { settings with threshold := high } first later =
      (matchesWith { settings with threshold := low } first later).filter (Match.reaches high) := by
  rw [matchesWith, matchesWith, List.filter_filterMap]
  exact List.filterMap_congr fun second _ => matchOf?_raise h

/-- The pairs found with a higher threshold, before they are ranked. -/
theorem allMatches_raise (h : low.le high = true) (docs : List Document) :
    allMatches { settings with threshold := high } docs =
      (allMatches { settings with threshold := low } docs).filter (Match.reaches high) := by
  induction docs with
  | nil => rfl
  | cons first later ih => rw [allMatches, allMatches, List.filter_append, matchesWith_raise h, ih]

/-- **Raising the threshold only removes pairs.** The documents are grouped as before, and the pairs
are, in the same order, those of before that reach the higher threshold by one measure or the other;
each of them is recorded as before. -/
theorem analyze_raise (settings : AnalysisSettings) (docs : List Document)
    (h : low.le high = true) :
    (analyze { settings with threshold := high } docs).exact =
      (analyze { settings with threshold := low } docs).exact ∧
    (analyze { settings with threshold := high } docs).similar =
      (analyze { settings with threshold := low } docs).similar.filter fun m =>
        high.le m.similarity || high.le m.overlap := by
  refine ⟨rfl, ?_⟩
  calc (analyze { settings with threshold := high } docs).similar
      _ = sortBy Match.ranksBefore
          ((allMatches { settings with threshold := low } docs).filter (Match.reaches high)) := by
        rw [← allMatches_raise h]
        rfl
      _ = (sortBy Match.ranksBefore
          (allMatches { settings with threshold := low } docs)).filter (Match.reaches high) :=
        (filter_sortBy ranksBefore_trans ranksBefore_total _ _).symm

/-- Two notes with one word in common, and the first of them upside down. -/
def upsideDown : List Document :=
  [.ofText "a.md" "p\nq\n", .ofText "b.md" "p\nr\n", .ofText "c.md" "q\np\n"]

/-- All three pairs reach 0.3. Only the note and itself upside down reach 0.9, by their lines. -/
theorem analyze_raise_upsideDown :
    (Binary64.ofRatio 3 10).le (.ofRatio 9 10) = true ∧
    (analyze { AnalysisSettings.default with threshold := .ofRatio 3 10 } upsideDown).similar.map
      (fun m => (m.file1, m.file2)) = [("a.md", "c.md"), ("a.md", "b.md"), ("b.md", "c.md")] ∧
    (analyze { AnalysisSettings.default with threshold := .ofRatio 9 10 } upsideDown).similar.map
      (fun m => (m.file1, m.file2)) = [("a.md", "c.md")] := by
  have hle : (Binary64.ofRatio 3 10).le (.ofRatio 9 10) = true := by decide +kernel
  refine ⟨hle, by decide +kernel, ?_⟩
  rw [(analyze_raise .default upsideDown hle).2]
  decide +kernel

end NearDup
