import NearDup.Report.Basic

/-!
# What a report names

Every name in a report is that of a document that was analysed, and the files of a group are all the
documents of one digest.

* `exists_digest_of_mem_exact` — a group is what one digest makes of the documents
* `groupOf_eq_some_iff`, `mem_files_iff` — a group holds every document of its digest
* `comparison`, `matchOf?_eq` — what is recorded of two documents, whatever the threshold
* `exists_docs_of_mem_similar` — a pair is made of two documents
-/

namespace NearDup

variable {settings : AnalysisSettings} {docs : List Document} {d : Document} {g : GroupEntry}
  {pair : PairEntry}

/-! ## Exact groups -/

/-- A group is what one digest makes of the documents. -/
theorem exists_digest_of_mem_exactGroups {group : ExactGroup} (h : group ∈ exactGroups docs) :
    ∃ digest, groupOf docs digest = some group := by
  obtain ⟨digest, -, hof⟩ := List.mem_filterMap.1 h
  exact ⟨digest, hof⟩

/-- So is its entry in a report. -/
theorem exists_digest_of_mem_exact (h : g ∈ (Report.ofAnalysis (analyze settings docs)).exact) :
    ∃ digest group, groupOf docs digest = some group ∧ g = Report.groupEntry group := by
  obtain ⟨group, hgroup, rfl⟩ := List.mem_map.1 h
  obtain ⟨digest, hof⟩ := exists_digest_of_mem_exactGroups hgroup
  exact ⟨digest, group, hof, rfl⟩

/-- A digest that two documents have makes a group of all that have it. -/
theorem groupOf_eq_some_iff {digest : Digest} {group : ExactGroup} :
    groupOf docs digest = some group ↔ ∃ first second rest,
      docs.filter (·.digest = digest) = first :: second :: rest ∧
        group = ⟨digest, (first :: second :: rest).map (·.id), first.size⟩ := by
  unfold groupOf
  constructor
  · intro h
    split at h
    · next first second rest hd => exact ⟨first, second, rest, hd, (Option.some.inj h).symm⟩
    · cases h
  · rintro ⟨first, second, rest, hd, rfl⟩
    rw [hd]

theorem digest_of_groupOf {digest : Digest} {group : ExactGroup}
    (h : groupOf docs digest = some group) : group.digest = digest := by
  obtain ⟨first, second, rest, -, rfl⟩ := groupOf_eq_some_iff.1 h
  rfl

/-- The size of a group is that of its first document, and it has another one. -/
theorem size_of_groupOf {digest : Digest} {group : ExactGroup}
    (h : groupOf docs digest = some group) : ∃ first second rest,
      docs.filter (·.digest = digest) = first :: second :: rest ∧ group.size = first.size := by
  obtain ⟨first, second, rest, hd, rfl⟩ := groupOf_eq_some_iff.1 h
  exact ⟨first, second, rest, hd, rfl⟩

theorem files_of_groupOf {digest : Digest} {group : ExactGroup}
    (h : groupOf docs digest = some group) :
    group.files = (docs.filter (·.digest = digest)).map (·.id) := by
  obtain ⟨first, second, rest, hd, rfl⟩ := groupOf_eq_some_iff.1 h
  rw [hd]

theorem mem_files_iff {digest : Digest} {group : ExactGroup} {name : String}
    (h : groupOf docs digest = some group) :
    name ∈ group.files ↔ ∃ d ∈ docs, d.digest = digest ∧ d.id = name := by
  rw [files_of_groupOf h]
  simp only [List.mem_map, List.mem_filter, decide_eq_true_eq, and_assoc]

/-- Every file of a group is a document. -/
theorem exists_doc_of_mem_files (h : g ∈ (Report.ofAnalysis (analyze settings docs)).exact)
    {name : String} (hn : name ∈ g.files) : ∃ d ∈ docs, d.id = name := by
  obtain ⟨digest, group, hof, rfl⟩ := exists_digest_of_mem_exact h
  obtain ⟨d, hd, -, hid⟩ := (mem_files_iff hof).1 hn
  exact ⟨d, hd, hid⟩

/-! ## Similar pairs -/

/-- What is recorded of two documents, if anything is. -/
def comparison (leastSection : Nat) (first second : Document) : Match :=
  let sections := Align.sections first.lines second.lines leastSection
  { file1 := first.id
    file2 := second.id
    similarity := (similarity first.content second.content).toDouble
    overlap := (overlap first.lineDigests second.lineDigests).toDouble
    commonLines := sections.foldr (fun s n => s.length + n) 0
    sharedLines := sharedCount first.lineDigests second.lineDigests
    totalLines := max first.lines.length second.lines.length
    sections }

/-- The threshold decides whether a comparison is recorded, and not what it is. -/
theorem matchOf?_eq (settings : AnalysisSettings) (first second : Document) :
    matchOf? settings first second =
      if (comparison settings.leastSection first second).similarity.lt settings.threshold &&
          (comparison settings.leastSection first second).overlap.lt settings.threshold then none
      else some (comparison settings.leastSection first second) := rfl

theorem eq_comparison_of_matchOf? {first second : Document} {m : Match}
    (h : matchOf? settings first second = some m) :
    m = comparison settings.leastSection first second := by
  rw [matchOf?_eq] at h
  split at h
  · cases h
  · exact (Option.some.inj h).symm

theorem docs_of_matchOf? {first second : Document} {m : Match}
    (h : matchOf? settings first second = some m) :
    m.file1 = first.id ∧ m.file2 = second.id := by
  rw [eq_comparison_of_matchOf? h]
  exact ⟨rfl, rfl⟩

theorem exists_docs_of_mem_allMatches {m : Match} (h : m ∈ allMatches settings docs) :
    (∃ d ∈ docs, d.id = m.file1) ∧ ∃ d ∈ docs, d.id = m.file2 := by
  induction docs with
  | nil => simp [allMatches] at h
  | cons first later ih =>
    rw [allMatches, List.mem_append] at h
    rcases h with h | h
    · obtain ⟨second, hsecond, hm⟩ := List.mem_filterMap.1 h
      obtain ⟨h₁, h₂⟩ := docs_of_matchOf? hm
      have hlater := (List.mem_filter.1 hsecond).1
      exact ⟨⟨first, by simp, h₁.symm⟩, second, List.mem_cons_of_mem _ hlater, h₂.symm⟩
    · obtain ⟨⟨d, hd, h₁⟩, d', hd', h₂⟩ := ih h
      exact ⟨⟨d, List.mem_cons_of_mem _ hd, h₁⟩, d', List.mem_cons_of_mem _ hd', h₂⟩

/-- Both files of a pair are documents. -/
theorem exists_docs_of_mem_similar
    (h : pair ∈ (Report.ofAnalysis (analyze settings docs)).similar) :
    (∃ d ∈ docs, d.id = pair.file1) ∧ ∃ d ∈ docs, d.id = pair.file2 := by
  obtain ⟨m, hm, rfl⟩ := List.mem_map.1 h
  exact exists_docs_of_mem_allMatches ((sortBy_perm _ _).mem_iff.1 hm)

end NearDup
