import Mathlib
import NearDup.Merge.Session
import NearDup.Proofs.Merge.Page

/-!
# Any number of documents

Each further document is divided against the page so far, which is read back for it: what stood in
the page as a title, a heading or a rule is a line like any other in that round, and may be shared
with the document. A round takes no line away and adds none but those of the document and its own
frame. So the last page has every line at least as often as each document, and at most as often as
all documents together with the frames of all rounds.

* `frames` — the lines that the rounds write for themselves
* `count_le_mergeSources` — no document has a line more often than the page of all
* `count_mergeSources_le` — nor the page one more often than the documents and the frames
* `mergeSources_keeps_lines` — the page of any number of documents, line by line
* `mem_bareLines_mergedText` — nothing is lost in the text that a session writes
-/

namespace NearDup.Merge

open Align Text

variable {line page : String} {names : List String} {next s : Source} {sources : List Source}

/-! ## One round -/

/-- No line of a document holds a line feed. -/
def Source.Whole (s : Source) : Prop := ∀ l ∈ s.lines, '\n' ∉ l.toList

/-- How often a document has a line, up to carriage returns at its end. -/
def Source.count (s : Source) (x : String) : Nat := (s.lines.map bare).count x

/-- The lines that the page of two documents has for itself. -/
def frameTwo (first second : Source) : List String :=
  frameOf (first.name ++ " + " ++ second.name)
    "This document combines content from multiple sources"
    (regionsOf (divide first.lines second.lines) first.name second.name)

/-- The lines that a page has for itself when one more document is merged into the page so far. -/
def frameNext (page : String) (names : List String) (next : Source) : List String :=
  frameOf (join ", " names) ("Combined from " ++ Number.decimal names.length ++ " sources")
    (regionsOf (divide (lines page) next.lines) "Previous Merge" next.name)

theorem whole_append {xs ys : List String} (hx : ∀ l ∈ xs, '\n' ∉ l.toList)
    (hy : ∀ l ∈ ys, '\n' ∉ l.toList) : ∀ l ∈ xs ++ ys, '\n' ∉ l.toList :=
  fun l hl => (List.mem_append.1 hl).elim (hx l) (hy l)

/-- The lines that are read from a page hold no line feed, so a round can divide them. -/
theorem whole_round (page : String) (hn : next.Whole) :
    ∀ l ∈ lines page ++ next.lines, '\n' ∉ l.toList :=
  whole_append (fun _ => lineFeed_not_mem) hn

/-! ## All rounds -/

/-- The lines that further rounds write for themselves. -/
def framesRest (page : String) (names : List String) : List Source → List String
  | [] => []
  | next :: rest =>
    frameNext page (names ++ [next.name]) next ++
      framesRest (mergeNext page (names ++ [next.name]) next) (names ++ [next.name]) rest

/-- The lines that all rounds write for themselves; a single document is written without any. -/
def frames : List Source → List String
  | first :: second :: rest =>
    frameTwo first second ++ framesRest (mergeTwo first second) [first.name, second.name] rest
  | _ => []

/-- Further rounds keep every line of the page so far. -/
theorem count_page_le_mergeRest (hn : ∀ s ∈ sources, s.Whole) (x : String) :
    (bareLines page).count x ≤ (bareLines (mergeRest page names sources)).count x := by
  induction sources generalizing page names with
  | nil => exact Nat.le_refl _
  | cons next rest ih =>
    obtain ⟨hnext, hrest⟩ := List.forall_mem_cons.1 hn
    -- the page so far is the left side of the round
    exact (count_division _ _ _ _ (whole_round page hnext) x).1.trans (ih hrest)

/-- Further rounds keep every line of their documents. -/
theorem count_le_mergeRest (hn : ∀ s ∈ sources, s.Whole) (hs : s ∈ sources) (x : String) :
    s.count x ≤ (bareLines (mergeRest page names sources)).count x := by
  induction sources generalizing page names with
  | nil => simp at hs
  | cons next rest ih =>
    obtain ⟨hnext, hrest⟩ := List.forall_mem_cons.1 hn
    rw [mergeRest]
    rcases List.mem_cons.1 hs with rfl | hs
    · -- the document is the right side of its round, and the rounds behind keep what they get
      exact (count_division _ _ _ _ (whole_round page hnext) x).2.1.trans
        (count_page_le_mergeRest hrest x)
    · exact ih hrest hs

/-- Further rounds add only the lines of their documents and their own frames. -/
theorem count_mergeRest_le (hn : ∀ s ∈ sources, s.Whole) (x : String) :
    (bareLines (mergeRest page names sources)).count x ≤
      (framesRest page names sources).count x +
        ((bareLines page).count x + (sources.map (·.count x)).sum) := by
  induction sources generalizing page names with
  | nil => simp [mergeRest]
  | cons next rest ih =>
    obtain ⟨hnext, hrest⟩ := List.forall_mem_cons.1 hn
    have hround : (bareLines (mergeNext page (names ++ [next.name]) next)).count x ≤
        (frameNext page (names ++ [next.name]) next).count x +
          ((bareLines page).count x + next.count x) :=
      (count_division _ _ _ _ (whole_round page hnext) x).2.2
    have hmore := @ih (mergeNext page (names ++ [next.name]) next) (names ++ [next.name]) hrest
    rw [mergeRest, framesRest, List.count_append, List.map_cons, List.sum_cons]
    omega

/-- **No document has a line more often than the page of all.** -/
theorem count_le_mergeSources (hn : ∀ s ∈ sources, s.Whole) (hs : s ∈ sources) (x : String) :
    s.count x ≤ (bareLines (mergeSources sources)).count x := by
  match sources with
  | [] => simp at hs
  | [only] =>
    rw [List.mem_singleton] at hs
    subst hs
    rw [mergeSources, bareLines_join (hn s (by simp))]
    exact Nat.le_refl _
  | first :: second :: rest =>
    obtain ⟨hfirst, hn⟩ := List.forall_mem_cons.1 hn
    obtain ⟨hsecond, hrest⟩ := List.forall_mem_cons.1 hn
    have hboth := whole_append hfirst hsecond
    rw [mergeSources]
    rcases List.mem_cons.1 hs with rfl | hs
    · exact (count_division _ _ _ _ hboth x).1.trans (count_page_le_mergeRest hrest x)
    · rcases List.mem_cons.1 hs with rfl | hs
      · exact (count_division _ _ _ _ hboth x).2.1.trans (count_page_le_mergeRest hrest x)
      · exact count_le_mergeRest hrest hs x

/-- **The page of all has no line more often than the documents and the frames together.** -/
theorem count_mergeSources_le (hn : ∀ s ∈ sources, s.Whole) (x : String) :
    (bareLines (mergeSources sources)).count x ≤
      (frames sources).count x + (sources.map (·.count x)).sum := by
  match sources with
  | [] => simp [mergeSources, bareLines, lines, lineChars, pieces, linesOfPieces]
  | [only] =>
    rw [mergeSources, bareLines_join (hn only (by simp))]
    simp [frames, Source.count]
  | first :: second :: rest =>
    obtain ⟨hfirst, hn⟩ := List.forall_mem_cons.1 hn
    obtain ⟨hsecond, hrest⟩ := List.forall_mem_cons.1 hn
    have htwo : (bareLines (mergeTwo first second)).count x ≤
        (frameTwo first second).count x + (first.count x + second.count x) :=
      (count_division _ _ _ _ (whole_append hfirst hsecond) x).2.2
    have hmore := @count_mergeRest_le (mergeTwo first second) [first.name, second.name] rest hrest x
    rw [mergeSources, frames, List.count_append]
    simp only [List.map_cons, List.sum_cons]
    omega

/-- **The page of any number of documents, line by line.** It has every line at least as often as
each document has it, and at most as often as all documents have it together and the rounds write it
for themselves. So each of its lines comes from a document, or from the title, the line below it, a
heading, a rule or an empty line that some round has written. -/
theorem mergeSources_keeps_lines (sources : List Source)
    (hn : ∀ s ∈ sources, ∀ l ∈ s.lines, '\n' ∉ l.toList) :
    (∀ s ∈ sources, ∀ x, (s.lines.map bare).count x ≤
      (bareLines (mergeSources sources)).count x) ∧
    (∀ x, (bareLines (mergeSources sources)).count x ≤
      (frames sources).count x + (sources.map fun s => (s.lines.map bare).count x).sum) ∧
    ∀ x ∈ bareLines (mergeSources sources),
      (∃ s ∈ sources, ∃ l ∈ s.lines, x = bare l) ∨ x ∈ frames sources := by
  refine ⟨fun s hs x => count_le_mergeSources hn hs x, count_mergeSources_le hn, ?_⟩
  intro x hx
  have hle := count_mergeSources_le hn x
  have hpos : 0 < (bareLines (mergeSources sources)).count x := List.count_pos_iff.2 hx
  rcases Nat.eq_zero_or_pos ((frames sources).count x) with hframes | hframes
  · -- no round has written the line, so some document has it
    have hsum : (sources.map (·.count x)).sum ≠ 0 := by omega
    obtain ⟨n, hmem, hne⟩ : ∃ n ∈ sources.map (·.count x), n ≠ 0 := by
      by_contra h
      push Not at h
      exact hsum (List.sum_eq_zero h)
    obtain ⟨s, hs, rfl⟩ := List.mem_map.1 hmem
    obtain ⟨l, hl, rfl⟩ := List.mem_map.1 (List.count_pos_iff.1 (Nat.pos_of_ne_zero hne))
    exact Or.inl ⟨s, hs, l, hl, rfl⟩
  · exact Or.inr (List.count_pos_iff.1 hframes)

/-- Three documents with repeated lines, and with lines that look like those of a page. -/
def lookAlikes : List Source :=
  [⟨"a", ["x", "x\r", "---"]⟩, ⟨"b", ["x", "", "---", "x"]⟩,
   ⟨"c", ["## Common Content", "---", "x", "---"]⟩]

/-- The line that two of them repeat is kept twice at least, and there are no more of it than the five
in all of them and those that the rounds write; the line that looks like a heading is kept, too. -/
theorem mergeSources_keeps_lines_lookAlikes :
    (∀ s ∈ lookAlikes, ∀ l ∈ s.lines, '\n' ∉ l.toList) ∧
    2 ≤ (bareLines (mergeSources lookAlikes)).count "x" ∧
    (bareLines (mergeSources lookAlikes)).count "x" ≤ (frames lookAlikes).count "x" + 5 ∧
    1 ≤ (bareLines (mergeSources lookAlikes)).count "## Common Content" ∧
    ∀ x ∈ bareLines (mergeSources lookAlikes),
      (∃ s ∈ lookAlikes, ∃ l ∈ s.lines, x = bare l) ∨ x ∈ frames lookAlikes := by
  have hn : ∀ s ∈ lookAlikes, ∀ l ∈ s.lines, '\n' ∉ l.toList := by decide +kernel
  obtain ⟨least, most, source⟩ := mergeSources_keeps_lines lookAlikes hn
  have hx := least ⟨"a", ["x", "x\r", "---"]⟩ (by simp [lookAlikes]) "x"
  have hheading := least ⟨"c", ["## Common Content", "---", "x", "---"]⟩ (by simp [lookAlikes])
    "## Common Content"
  have hsum : (lookAlikes.map fun s => (s.lines.map bare).count "x").sum = 5 := by decide +kernel
  exact ⟨hn, hx, hsum ▸ most "x", hheading, source⟩

/-! ## What a session writes -/

/-- **Nothing is lost in the text that a session writes.** -/
theorem mem_bareLines_mergedText {inputs : List String} {docs : List Document} {d : Document}
    (hlen : inputs.length = docs.length) (hlines : ∀ d ∈ docs, d.lines = Text.lines d.content)
    (hd : d ∈ docs) : bareLines d.content ⊆ bareLines (Session.mergedText inputs docs) := by
  intro l hl
  have many :
      l ∈ bareLines (mergeSources ((inputs.zip docs).map fun p => ⟨p.1, p.2.lines⟩)) := by
    obtain ⟨i, hi, rfl⟩ := List.getElem_of_mem hd
    have hzip : (inputs.get ⟨i, by omega⟩, docs[i]) ∈ inputs.zip docs :=
      List.mem_iff_getElem.2 ⟨i, by simp; omega, by simp⟩
    have hwhole : ∀ s ∈ (inputs.zip docs).map fun p => (⟨p.1, p.2.lines⟩ : Source), s.Whole := by
      intro s hs
      obtain ⟨p, hp, rfl⟩ := List.mem_map.1 hs
      intro l hl
      rw [hlines _ (List.of_mem_zip hp).2] at hl
      exact lineFeed_not_mem hl
    have hcount := count_le_mergeSources hwhole (List.mem_map_of_mem hzip) l
    refine List.count_pos_iff.1 (lt_of_lt_of_le (List.count_pos_iff.2 ?_) hcount)
    show l ∈ docs[i].lines.map bare
    rwa [hlines _ hd]
  unfold Session.mergedText
  split
  · rw [List.mem_singleton] at hd
    subst hd
    exact hl
  · exact many

/-- **What a session writes for two documents has their lines and its frame, and nothing else.** -/
theorem mem_bareLines_mergedText_two {name1 name2 : String} {d1 d2 : Document}
    (hlines : ∀ d ∈ [d1, d2], d.lines = Text.lines d.content)
    (h : line ∈ bareLines (Session.mergedText [name1, name2] [d1, d2])) :
    (∃ d ∈ [d1, d2], line ∈ bareLines d.content) ∨ line ∈ frameOfTwo name1 name2 := by
  obtain ⟨h1, hrest⟩ := List.forall_mem_cons.1 hlines
  obtain ⟨h2, -⟩ := List.forall_mem_cons.1 hrest
  have hn : ∀ l ∈ d1.lines ++ d2.lines, '\n' ∉ l.toList := by
    intro l hl
    rw [h1, h2, List.mem_append] at hl
    exact hl.elim lineFeed_not_mem lineFeed_not_mem
  rcases @mem_bareLines_mergeTwo _ ⟨name1, d1.lines⟩ ⟨name2, d2.lines⟩ hn h with
    ⟨l, hl, rfl⟩ | h
  · left
    rw [h1, h2, List.mem_append] at hl
    rcases hl with hl | hl
    · exact ⟨d1, by simp, List.mem_map_of_mem hl⟩
    · exact ⟨d2, by simp, List.mem_map_of_mem hl⟩
  · exact Or.inr h

end NearDup.Merge
