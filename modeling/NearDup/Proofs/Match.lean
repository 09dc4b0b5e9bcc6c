import Mathlib.Algebra.Order.BigOperators.Group.List
import NearDup.Proofs.Overlap

/-!
# What a match records

A match is put together from two computations that know nothing of each other: the alignment of the
lines as they are, and the digests of the lines trimmed. Its sections are blocks of the alignment,
so they stand in order in both documents and together have no more lines than either; its shared
lines are distinct lines of both. The least length of a section only chooses among the blocks.

* `SharedSections` — sections are stretches that two documents share, in order in both
* `sections_of_least_le` — a greater least length leaves out the shorter sections
* `match_consistent` — the parts of a match agree with the documents
-/

namespace NearDup

namespace Align

variable {xs ys : List String} {m : Block} {least least' : Nat}

/-! ## Sections -/

/-- Sections are stretches of a list of lines, none of them empty and one behind the other, with the
lines of each as its text; and the same stretches stand one behind the other in a second list. -/
structure SharedSections (xs ys : List String) (ss : List Section) : Prop where
  positive : ∀ s ∈ ss, s.start < s.stop
  inside : ∀ s ∈ ss, s.stop ≤ xs.length
  ordered : ss.Pairwise fun s t => s.stop ≤ t.start
  text : ∀ s ∈ ss, s.text = Text.join "\n" (stretch xs s.start s.length)
  elsewhere : ∃ places : List Nat,
    List.Forall₂ (fun s j => j + s.length ≤ ys.length ∧
      stretch ys j s.length = stretch xs s.start s.length) ss places ∧
    (ss.zip places).Pairwise fun p q => p.2 + p.1.length ≤ q.2

/-- A block is the same stretch in both sequences. -/
theorem Block.Matches.stretch_eq (h : m.Matches xs ys) :
    stretch ys m.b m.size = stretch xs m.a m.size := by
  have hswap : Block.Matches ys xs ⟨m.b, m.a, m.size⟩ := by
    intro k hk
    obtain ⟨x, hx, hy⟩ := h k hk
    exact ⟨x, hy, hx⟩
  exact hswap.picks_left.eq h.picks_right

theorem exists_block_of_mem_sections {s : Section} (h : s ∈ sections xs ys least) :
    ∃ m ∈ blocks xs ys, least ≤ m.size ∧ s = .ofBlock xs m := by
  obtain ⟨m, hm, rfl⟩ := List.mem_map.1 h
  obtain ⟨hm, hsize⟩ := List.mem_filter.1 hm
  exact ⟨m, hm, of_decide_eq_true hsize, rfl⟩

/-- **The sections of two lists of lines are shared by them.** -/
theorem sharedSections_sections (xs ys : List String) (least : Nat) :
    SharedSections xs ys (sections xs ys least) := by
  have h := aligned_blocks xs ys
  have hordered : ((blocks xs ys).filter fun m => least ≤ m.size).Pairwise Block.Before :=
    h.ordered.filter _
  refine ⟨?_, ?_, ?_, ?_, ((blocks xs ys).filter fun m => least ≤ m.size).map (·.b), ?_, ?_⟩
  · intro s hs
    obtain ⟨m, hm, -, rfl⟩ := exists_block_of_mem_sections hs
    exact Nat.lt_add_of_pos_right (h.holds m hm).1
  · intro s hs
    obtain ⟨m, hm, -, rfl⟩ := exists_block_of_mem_sections hs
    exact (h.holds m hm).2.leftEnd
  · exact List.pairwise_map.2 (hordered.imp And.left)
  · intro s hs
    obtain ⟨m, -, -, rfl⟩ := exists_block_of_mem_sections hs
    rw [Section.length_ofBlock]
    rfl
  · rw [sections, List.forall₂_map_left_iff, List.forall₂_map_right_iff, List.forall₂_same]
    intro m hm
    have hm := (h.holds m (List.mem_filter.1 hm).1).2
    rw [Section.length_ofBlock]
    exact ⟨hm.rightEnd, hm.same.stretch_eq⟩
  · rw [sections, List.zip_map', List.pairwise_map]
    refine hordered.imp fun {m n} hmn => ?_
    rw [Section.length_ofBlock]
    exact hmn.2

theorem least_le_length {s : Section} (h : s ∈ sections xs ys least) : least ≤ s.length := by
  obtain ⟨m, -, hsize, rfl⟩ := exists_block_of_mem_sections h
  rwa [Section.length_ofBlock]

/-- **A greater least length leaves out the shorter sections.** -/
theorem sections_of_least_le (xs ys : List String) (h : least ≤ least') :
    sections xs ys least' = (sections xs ys least).filter (least' ≤ ·.length) := by
  rw [sections, sections, List.filter_map, List.filter_filter]
  congr 1
  refine List.filter_congr fun m _ => ?_
  rw [Function.comp_apply, Section.length_ofBlock, eq_comm, Bool.and_eq_left_iff_imp]
  simp only [decide_eq_true_eq]
  exact h.trans

/-! ## Lines in sections -/

/-- The lines in sections. -/
def linesIn (ss : List Section) : Nat := (ss.map Section.length).sum

theorem totalSize_eq_sum (ms : List Block) : totalSize ms = (ms.map Block.size).sum := by
  rw [totalSize, List.sum, List.foldr_map]

/-- Sections have no more lines than the alignment matches. -/
theorem linesIn_sections_le (xs ys : List String) (least : Nat) :
    linesIn (sections xs ys least) ≤ totalSize (blocks xs ys) := by
  have hlength : (sections xs ys least).map Section.length =
      ((blocks xs ys).filter fun m => least ≤ m.size).map Block.size := by
    rw [sections, List.map_map]
    exact List.map_congr_left fun m _ => Section.length_ofBlock xs m
  rw [linesIn, hlength, totalSize_eq_sum]
  exact (List.filter_sublist.map Block.size).sum_le_sum fun _ _ => Nat.zero_le _

end Align

open Align

/-! ## Ratios -/

theorem num_le_den_matchedShare {α : Type} [DecidableEq α] (xs ys : List α) :
    (matchedShare xs ys).num ≤ (matchedShare xs ys).den := by
  have hleft := totalSize_le_left xs ys
  have hright := totalSize_le_right xs ys
  rcases Nat.eq_zero_or_pos (xs.length + ys.length) with h | h
  · rw [matchedShare_of_empty h]
  · rw [matchedShare_of_pos h]
    simp only
    omega

/-- A recorded double is that of a fraction, and both lie between zero and one. -/
structure RecordsShare (x : Binary64) (f : Fraction) : Prop where
  recorded : x = f.toDouble
  nonneg : 0 ≤ f.value
  le_one : f.value ≤ 1
  double_nonneg : (Binary64.ofNat 0).le x = true
  double_le_one : x.le (.ofNat 1) = true

theorem recordsShare_toDouble {f : Fraction} (h : f.num ≤ f.den) : RecordsShare f.toDouble f := by
  obtain ⟨hzero, hone⟩ := Binary64.ofRatio_within h f.den_pos
  exact ⟨rfl, f.value_nonneg, Fraction.value_le_one_iff.2 h, hzero, hone⟩

/-! ## Matches -/

variable {settings : AnalysisSettings} {first second : Document} {m : Match}

theorem parts_of_matchOf? (h : matchOf? settings first second = some m) :
    m.sections = sections first.lines second.lines settings.leastSection ∧
    m.commonLines = linesIn m.sections ∧
    m.sharedLines = sharedCount first.lineDigests second.lineDigests ∧
    m.totalLines = max first.lines.length second.lines.length := by
  rw [eq_comparison_of_matchOf? h]
  refine ⟨rfl, ?_, rfl, rfl⟩
  rw [linesIn, List.sum, List.foldr_map]
  rfl

/-- The match of the same documents with a greater least length of sections. -/
theorem matchOf?_of_least_le {least : Nat} (hleast : settings.leastSection ≤ least)
    (h : matchOf? settings first second = some m) :
    matchOf? { settings with leastSection := least } first second =
      some { m with
        sections := m.sections.filter (least ≤ ·.length)
        commonLines := linesIn (m.sections.filter (least ≤ ·.length)) } := by
  have hsections := sections_of_least_le first.lines second.lines hleast
  have hcomparison : comparison least first second = { m with
      sections := m.sections.filter (least ≤ ·.length)
      commonLines := linesIn (m.sections.filter (least ≤ ·.length)) } := by
    rw [eq_comparison_of_matchOf? h]
    simp only [comparison, hsections, linesIn, List.sum, List.foldr_map]
  rw [← hcomparison, matchOf?_eq]
  rw [matchOf?_eq] at h
  split at h
  · cases h
  · next hbelow => exact if_neg hbelow

/-- No more lines are known by their digests than there are. -/
theorem card_lineDigests_le (lines : List String) :
    (lineDigests lines).toFinset.card ≤ lines.length := by
  refine (List.toFinset_card_le _).trans ?_
  rw [lineDigests, List.length_map]
  exact (List.length_filter_le _ _).trans_eq (List.length_map _)

/-- **A match agrees with its documents.** Its sections are stretches of lines that both have, in
order in both and as long as asked for; the lines in them are counted, and are no more than the
shorter document has. Nor are the shared lines. Both ratios lie between zero and one, as fractions
and as the doubles that are recorded. With a greater least length the match has just those sections
that are long enough. -/
theorem match_consistent (hfirst : first = .make first.id first.path first.size first.content)
    (hsecond : second = .make second.id second.path second.size second.content)
    (h : matchOf? settings first second = some m) :
    SharedSections first.lines second.lines m.sections ∧
    (∀ s ∈ m.sections, settings.leastSection ≤ s.length) ∧
    m.commonLines = linesIn m.sections ∧
    m.commonLines ≤ min first.lines.length second.lines.length ∧
    min first.lines.length second.lines.length ≤ m.totalLines ∧
    m.sharedLines ≤ min first.lines.length second.lines.length ∧
    RecordsShare m.similarity (similarity first.content second.content) ∧
    RecordsShare m.overlap (overlap first.lineDigests second.lineDigests) ∧
    ∀ least, settings.leastSection ≤ least →
      matchOf? { settings with leastSection := least } first second =
        some { m with
          sections := m.sections.filter (least ≤ ·.length)
          commonLines := linesIn (m.sections.filter (least ≤ ·.length)) } := by
  obtain ⟨hsections, hcommon, hshared, htotal⟩ := parts_of_matchOf? h
  refine ⟨?_, ?_, hcommon, ?_, ?_, ?_, ?_, ?_, fun least hleast => matchOf?_of_least_le hleast h⟩
  · rw [hsections]
    exact sharedSections_sections _ _ _
  · rw [hsections]
    exact fun s hs => least_le_length hs
  · have hle := linesIn_sections_le first.lines second.lines settings.leastSection
    rw [hcommon, hsections]
    exact le_min (hle.trans (totalSize_le_left _ _)) (hle.trans (totalSize_le_right _ _))
  · rw [htotal]
    exact min_le_max
  · have hdigests : first.lineDigests = lineDigests first.lines := by rw [hfirst]; rfl
    have hdigests' : second.lineDigests = lineDigests second.lines := by rw [hsecond]; rfl
    rw [hshared, hdigests, hdigests']
    refine le_min ?_ ?_
    · exact (sharedCount_le_left _ _).trans (card_lineDigests_le _)
    · exact (sharedCount_le_right _ _).trans (card_lineDigests_le _)
  · rw [similarity_of_matchOf? h]
    exact recordsShare_toDouble (num_le_den_matchedShare _ _)
  · rw [overlap_of_matchOf? h]
    exact recordsShare_toDouble (num_le_den_overlap _ _)

/-- Two versions of a note: the third of four lines was changed. -/
def twoVersions : Document × Document :=
  (.make "old.md" "in/old.md" 8 "a\nb\nx\nc\n", .make "new.md" "in/new.md" 8 "a\nb\ny\nc\n")

/-- They share a section of two lines and one of a single line; the first is the one of two lines or
more. -/
theorem match_consistent_twoVersions :
    ∃ m, matchOf? { AnalysisSettings.default with leastSection := 1 } twoVersions.1
        twoVersions.2 = some m ∧
      SharedSections twoVersions.1.lines twoVersions.2.lines m.sections ∧
      m.sections.map (fun s => (s.start, s.stop)) = [(0, 2), (3, 4)] ∧ linesIn m.sections = 3 ∧
      ∃ m', matchOf? { AnalysisSettings.default with leastSection := 2 } twoVersions.1
          twoVersions.2 = some m' ∧
        m'.sections.map (fun s => (s.start, s.stop)) = [(0, 2)] ∧ m'.commonLines = 2 := by
  have hsome : (matchOf? { AnalysisSettings.default with leastSection := 1 } twoVersions.1
      twoVersions.2).isSome = true := by decide +kernel
  obtain ⟨m, hm⟩ := Option.isSome_iff_exists.1 hsome
  have hsections : m.sections = sections twoVersions.1.lines twoVersions.2.lines 1 :=
    (parts_of_matchOf? hm).1
  obtain ⟨hshared, -, -, -, -, -, -, -, hlonger⟩ := match_consistent rfl rfl hm
  refine ⟨m, hm, hshared, ?_, ?_, _, hlonger 2 (by decide), ?_, ?_⟩
  · rw [hsections]
    decide +kernel
  · rw [hsections]
    decide +kernel
  · simp only [hsections]
    decide +kernel
  · simp only [hsections]
    decide +kernel

end NearDup
