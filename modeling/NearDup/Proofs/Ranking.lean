import Mathlib.Data.List.FinRange
import NearDup.Proofs.Analysis
import NearDup.Proofs.Sort

/-!
# The ranking of similar pairs

The documents are compared pair by pair, each with all later ones, and the matches are then put in
the order of falling overlap. The sort is stable, so matches of one overlap stay in the order in
which they were found.

* `Qualifies` — two documents are to be reported
* `allMatches_eq_qualifying` — the matches found are those of the qualifying pairs, in order
* `similar_ranked` — the matches of an analysis are the qualifying pairs, ranked
-/

namespace NearDup

/-! ## Qualifying pairs -/

variable {settings : AnalysisSettings} {first second : Document} {docs : List Document}

/-- The likeness of two documents by their characters, as the double that is compared. -/
def likeness (first second : Document) : Binary64 :=
  (similarity first.content second.content).toDouble

/-- The overlap of two documents by their lines, as the double that is compared. -/
def lineOverlap (first second : Document) : Binary64 :=
  (overlap first.lineDigests second.lineDigests).toDouble

/-- Two documents are to be reported: their texts differ by digest, and not both measures are below
the threshold. -/
def Qualifies (settings : AnalysisSettings) (first second : Document) : Prop :=
  first.digest ≠ second.digest ∧ ¬((likeness first second).lt settings.threshold ∧
    (lineOverlap first second).lt settings.threshold)

instance (settings : AnalysisSettings) (first second : Document) :
    Decidable (Qualifies settings first second) :=
  inferInstanceAs (Decidable (_ ∧ ¬(_ ∧ _)))

theorem isSome_matchOf? : (matchOf? settings first second).isSome = true ↔
    ¬((likeness first second).lt settings.threshold ∧
      (lineOverlap first second).lt settings.threshold) := by
  rw [matchOf?_eq, ← Bool.and_eq_true]
  split
  · next hbelow => exact iff_of_false Bool.false_ne_true (not_not.2 hbelow)
  · next hbelow => exact iff_of_true rfl hbelow

theorem overlap_of_matchOf? {m : Match} (h : matchOf? settings first second = some m) :
    m.overlap = lineOverlap first second := by
  rw [eq_comparison_of_matchOf? h]
  rfl

/-- The places i < j of a list, in the order of the first and then of the second. -/
def placePairs (n : Nat) : List (Fin n × Fin n) :=
  (List.finRange n).flatMap fun i => ((List.finRange n).filter (i < ·)).map fun j => (i, j)

theorem mem_placePairs {n : Nat} {p : Fin n × Fin n} : p ∈ placePairs n ↔ p.1 < p.2 := by
  simp only [placePairs, List.mem_flatMap, List.mem_map, List.mem_filter, List.mem_finRange,
    true_and, decide_eq_true_eq]
  constructor
  · rintro ⟨i, j, h, rfl⟩
    exact h
  · exact fun h => ⟨p.1, p.2, h, rfl⟩

/-- The first place comes first, and of pairs with one first place that with the smaller second. -/
def FoundBefore {n : Nat} (p q : Fin n × Fin n) : Prop := p.1 < q.1 ∨ p.1 = q.1 ∧ p.2 < q.2

theorem pairwise_placePairs (n : Nat) : (placePairs n).Pairwise FoundBefore := by
  have hrange : (List.finRange n).Pairwise (· < ·) := List.pairwise_lt_finRange n
  refine List.pairwise_flatMap.2 ⟨fun i _ => ?_, hrange.imp fun {i i'} hi => ?_⟩
  · exact List.pairwise_map.2 ((hrange.filter _).imp fun h => Or.inr ⟨rfl, h⟩)
  · intro p hp q hq
    obtain ⟨j, -, rfl⟩ := List.mem_map.1 hp
    obtain ⟨j', -, rfl⟩ := List.mem_map.1 hq
    exact Or.inl hi

theorem placePairs_succ (n : Nat) : placePairs (n + 1) =
    (List.finRange n).map (fun j => (0, j.succ)) ++
      (placePairs n).map fun p => (p.1.succ, p.2.succ) := by
  simp [placePairs, List.finRange_succ, List.flatMap_map, List.map_flatMap, List.filter_map,
    Function.comp_def]

theorem filterMap_filter_finRange {α β : Type} (p : α → Bool) (f : α → Option β) (xs : List α) :
    ((List.finRange xs.length).filter fun i => p xs[i]).filterMap (fun i => f xs[i]) =
      (xs.filter p).filterMap f := by
  conv_rhs => rw [← List.map_getElem_finRange xs]
  rw [List.filter_map, List.filterMap_map]
  rfl

/-- The matches are those of the pairs of documents with different digests, in order. -/
theorem allMatches_eq_filterMap (settings : AnalysisSettings) (docs : List Document) :
    allMatches settings docs = ((placePairs docs.length).filter
      fun p => docs[p.2].digest ≠ docs[p.1].digest).filterMap
        fun p => matchOf? settings docs[p.1] docs[p.2] := by
  induction docs with
  | nil => rfl
  | cons first later ih =>
    have hfirst := filterMap_filter_finRange (fun d => d.digest ≠ first.digest)
      (matchOf? settings first) later
    have hpairs : placePairs (first :: later).length = _ := placePairs_succ later.length
    rw [allMatches, ih, matchesWith, ← hfirst, hpairs, List.filter_append, List.filterMap_append,
      List.filter_map, List.filterMap_map, List.filter_map, List.filterMap_map]
    rfl

/-- The pairs of places whose documents qualify, in the order in which they are found. -/
def qualifyingPairs (settings : AnalysisSettings) (docs : List Document) :
    List (Fin docs.length × Fin docs.length) :=
  (placePairs docs.length).filter fun p => Qualifies settings docs[p.1] docs[p.2]

theorem mem_qualifyingPairs {p : Fin docs.length × Fin docs.length} :
    p ∈ qualifyingPairs settings docs ↔ p.1 < p.2 ∧ Qualifies settings docs[p.1] docs[p.2] := by
  rw [qualifyingPairs, List.mem_filter, mem_placePairs, decide_eq_true_eq]

theorem allMatches_eq_qualifying (settings : AnalysisSettings) (docs : List Document) :
    allMatches settings docs = (qualifyingPairs settings docs).filterMap
      fun p => matchOf? settings docs[p.1] docs[p.2] := by
  rw [allMatches_eq_filterMap, qualifyingPairs, List.filterMap_filter, List.filterMap_filter]
  refine List.filterMap_congr fun p _ => ?_
  cases hm : matchOf? settings docs[p.1] docs[p.2] with
  | none => simp
  | some m =>
    have halike := isSome_matchOf?.1 (Option.isSome_iff_exists.2 ⟨m, hm⟩)
    have hiff : docs[p.2].digest ≠ docs[p.1].digest ↔ Qualifies settings docs[p.1] docs[p.2] :=
      ⟨fun h => ⟨h.symm, halike⟩, fun h => h.1.symm⟩
    simp only [decide_eq_true_eq, hiff]

/-- A match is made of a document and a later one with another digest. -/
theorem exists_places_of_mem_similar {m : Match} (h : m ∈ (analyze settings docs).similar) :
    ∃ i j : Fin docs.length, i < j ∧ (docs.get i).digest ≠ (docs.get j).digest ∧
      matchOf? settings (docs.get i) (docs.get j) = some m := by
  have hmem : m ∈ allMatches settings docs := (sortBy_perm _ _).mem_iff.1 h
  rw [allMatches_eq_qualifying] at hmem
  obtain ⟨p, hp, hm⟩ := List.mem_filterMap.1 hmem
  obtain ⟨hlt, hdigest, -⟩ := mem_qualifyingPairs.1 hp
  exact ⟨p.1, p.2, hlt, hdigest, hm⟩

/-! ## The ranking -/

/-- Does the first pair come before the second in the ranking? A greater overlap does, and of equal
ones the pair that is found first. -/
def RankedBefore (docs : List Document) (p q : Fin docs.length × Fin docs.length) : Prop :=
  (lineOverlap docs[q.1] docs[q.2]).position < (lineOverlap docs[p.1] docs[p.2]).position ∨
    lineOverlap docs[p.1] docs[p.2] = lineOverlap docs[q.1] docs[q.2] ∧ FoundBefore p q

/-- The qualifying pairs as they are ranked. -/
def rankedPairs (settings : AnalysisSettings) (docs : List Document) :
    List (Fin docs.length × Fin docs.length) :=
  sortBy (fun p q => (lineOverlap docs[q.1] docs[q.2]).position ≤
    (lineOverlap docs[p.1] docs[p.2]).position) (qualifyingPairs settings docs)

theorem perm_rankedPairs (settings : AnalysisSettings) (docs : List Document) :
    (rankedPairs settings docs).Perm (qualifyingPairs settings docs) := sortBy_perm _ _

theorem pairwise_rankedPairs (settings : AnalysisSettings) (docs : List Document) :
    (rankedPairs settings docs).Pairwise (RankedBefore docs) := by
  have hfound : (qualifyingPairs settings docs).Pairwise FoundBefore :=
    (pairwise_placePairs _).filter _
  refine (pairwise_sortBy_stable ?_ ?_ hfound).imp fun {p q} h => ?_
  · intro p q r hpq hqr
    simp only [decide_eq_true_eq] at *
    omega
  · intro p q
    simp only [decide_eq_true_eq]
    omega
  · obtain ⟨hle, htie⟩ := h
    simp only [decide_eq_true_eq] at hle htie
    rcases lt_or_eq_of_le hle with hlt | heq
    · exact Or.inl hlt
    · exact Or.inr ⟨Binary64.position_inj heq.symm, htie heq.ge⟩

/-- The matches are scored pair by pair in the order of the ranking. -/
theorem map_some_similar (settings : AnalysisSettings) (docs : List Document) :
    (analyze settings docs).similar.map some =
      (rankedPairs settings docs).map fun p => matchOf? settings docs[p.1] docs[p.2] := by
  rw [analyze, allMatches_eq_qualifying]
  refine map_sortBy (fun p q m n hm hn => ?_) fun p hp => ?_
  · rw [Match.ranksBefore, overlap_of_matchOf? hm, overlap_of_matchOf? hn]
  · exact Option.isSome_iff_exists.1 (isSome_matchOf?.2 (mem_qualifyingPairs.1 hp).2.2)

/-- The first file of a match is that of the earlier document. -/
theorem map_files_similar (settings : AnalysisSettings) (docs : List Document) :
    (analyze settings docs).similar.map (fun m => (m.file1, m.file2)) =
      (rankedPairs settings docs).map fun p => (docs[p.1].id, docs[p.2].id) := by
  have hfiles : ∀ p ∈ rankedPairs settings docs,
      (matchOf? settings docs[p.1] docs[p.2]).map (fun m => (m.file1, m.file2)) =
        some (docs[p.1].id, docs[p.2].id) := by
    intro p hp
    have hqualifies := mem_qualifyingPairs.1 ((perm_rankedPairs settings docs).mem_iff.1 hp)
    obtain ⟨m, hm⟩ := Option.isSome_iff_exists.1 (isSome_matchOf?.2 hqualifies.2.2)
    obtain ⟨h₁, h₂⟩ := docs_of_matchOf? hm
    rw [hm, Option.map_some, h₁, h₂]
  have hmap := congrArg (List.map (Option.map fun m : Match => (m.file1, m.file2)))
    (map_some_similar settings docs)
  rw [List.map_map, List.map_map, Function.comp_def, Function.comp_def,
    List.map_congr_left hfiles] at hmap
  refine List.map_injective_iff.2 (Option.some_injective _) ?_
  rw [List.map_map, List.map_map]
  exact hmap

theorem ranksBefore_trans (l m n : Match) (h : l.ranksBefore m) (h' : m.ranksBefore n) :
    l.ranksBefore n := by
  simp only [Match.ranksBefore, decide_eq_true_eq] at *
  omega

theorem ranksBefore_total (m n : Match) : m.ranksBefore n ∨ n.ranksBefore m := by
  simp only [Match.ranksBefore, decide_eq_true_eq]
  omega

/-- **The matches of an analysis are the qualifying pairs, stably ranked by falling overlap.** They
are what the stable sort makes of the scores of the pairs i < j in lexicographic order, of which
those of one digest and those with both measures below the threshold are left out. So each of these
pairs is reported once, with the earlier document as the first; a pair with the greater overlap is
reported earlier, and of equal ones that which is found first. -/
theorem similar_ranked (settings : AnalysisSettings) (docs : List Document) :
    (analyze settings docs).similar =
      ((qualifyingPairs settings docs).filterMap
        fun p => matchOf? settings docs[p.1] docs[p.2]).mergeSort
          (fun m n => n.overlap.position ≤ m.overlap.position) ∧
    (qualifyingPairs settings docs).Pairwise FoundBefore ∧
    (∀ i j : Fin docs.length, (i, j) ∈ qualifyingPairs settings docs ↔
      i < j ∧ docs[i].digest ≠ docs[j].digest ∧
        ¬((likeness docs[i] docs[j]).lt settings.threshold ∧
          (lineOverlap docs[i] docs[j]).lt settings.threshold)) ∧
    ∃ ranked : List (Fin docs.length × Fin docs.length),
      ranked.Perm (qualifyingPairs settings docs) ∧ ranked.Pairwise (RankedBefore docs) ∧
      (analyze settings docs).similar.map some =
        ranked.map (fun p => matchOf? settings docs[p.1] docs[p.2]) ∧
      (analyze settings docs).similar.map (fun m => (m.file1, m.file2)) =
        ranked.map fun p => (docs[p.1].id, docs[p.2].id) := by
  refine ⟨?_, (pairwise_placePairs _).filter _, fun i j => mem_qualifyingPairs,
    rankedPairs settings docs, perm_rankedPairs settings docs, pairwise_rankedPairs settings docs,
    map_some_similar settings docs, map_files_similar settings docs⟩
  rw [← allMatches_eq_qualifying]
  exact sortBy_eq_mergeSort ranksBefore_trans ranksBefore_total _

end NearDup
