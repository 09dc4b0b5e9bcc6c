import Mathlib
import NearDup.Merge.Layout
import NearDup.Proofs.Align.Division
import NearDup.Proofs.Text.Lines

/-!
# The lines of a page

A page is read back as its own lines, the frame, and the lines of its regions, each as often as it
stands there, up to carriage returns at its end. The regions of a division have the lines of both
sides: what they share is written once, what either has alone is written besides. So a page of two
sides has each line at least as often as either side, and at most as often as both and the frame.

* `frameOf` — the lines that a page has for itself
* `perm_bareLines_pageText` — a page is read back as its frame and the lines of its regions
* `count_division` — how often a line stands in a page of two sides
* `mem_bareLines_mergeTwo` — a page of two documents has nothing else
-/

namespace NearDup.Merge

open Align Text

variable {line title subtitle left right : String} {r : Region} {rs : List Region}
  {xs ys : List String}

/-! ## Regions -/

/-- The lines of a heading. -/
def headingLines (r : Region) : List String := bareLines ("## " ++ r.heading ++ "\n\n")

theorem endsLine_region (r : Region) : EndsLine r.text.toList := by
  rw [Region.text, String.toList_append]
  exact (endsLine_append _ rfl).append (endsLine_join r.lines)

/-- A region has the lines of its heading and its own. -/
theorem bareLines_region (hn : ∀ l ∈ r.lines, '\n' ∉ l.toList) :
    bareLines r.text = headingLines r ++ r.lines.map bare := by
  rw [Region.text, bareLines_append (endsLine_append _ rfl), bareLines_join hn]
  rfl

/-- The lines of regions that are not their own: the headings, empty lines and rules between. -/
def regionFrames : List Region → List String
  | [] => []
  | [last] => headingLines last ++ [""]
  | r :: next :: rest => headingLines r ++ ["", "---", ""] ++ regionFrames (next :: rest)

/-- Regions are read back as their frames and their own lines. -/
theorem perm_bareLines_regionsText (hn : ∀ r ∈ rs, ∀ l ∈ r.lines, '\n' ∉ l.toList) :
    (bareLines (regionsText rs)).Perm
      (regionFrames rs ++ rs.flatMap fun r => r.lines.map bare) := by
  induction rs using regionsText.induct with
  | case1 => exact .refl _
  | case2 last =>
    rw [regionsText, bareLines_append (endsLine_region last), bareLines_region (hn last (by simp)),
      show bareLines "\n" = [""] by decide, regionFrames, List.flatMap_singleton,
      List.append_assoc, List.append_assoc]
    exact List.perm_append_comm.append_left _
  | case3 first next rest ih =>
    obtain ⟨hfirst, hrest⟩ := List.forall_mem_cons.1 hn
    have hrule : EndsLine (first.text ++ "\n---\n\n").toList := endsLine_append _ rfl
    rw [regionsText, bareLines_append hrule, bareLines_append (endsLine_region first),
      bareLines_region hfirst, show bareLines "\n---\n\n" = ["", "---", ""] by decide, regionFrames,
      List.flatMap_cons]
    simp only [List.append_assoc]
    -- the lines of the first region move behind the frames of all others
    refine List.Perm.append_left _ ((((ih hrest).append_left _).append_left _).trans ?_)
    simp only [← List.append_assoc]
    refine List.Perm.append_right _ ?_
    simp only [List.append_assoc]
    rw [← List.append_assoc ["", "---", ""]]
    exact List.perm_append_comm

/-! ## Pages -/

/-- The lines that a page has for itself: those of the title and of the line below it, the rule
under them, and the frames of the regions that have lines. -/
def frameOf (title subtitle : String) (rs : List Region) : List String :=
  bareLines ("# Merged Document: " ++ title ++ "\n*" ++ subtitle ++ "*\n\n---\n\n") ++
    regionFrames (rs.filter (·.lines ≠ []))

/-- A region that is left out has no lines of its own. -/
theorem flatMap_filter_lines (rs : List Region) :
    (rs.filter (·.lines ≠ [])).flatMap (fun r => r.lines.map bare) =
      rs.flatMap fun r => r.lines.map bare := by
  induction rs with
  | nil => rfl
  | cons r rs ih =>
    by_cases hr : r.lines = []
    · simpa [hr] using ih
    · simpa [hr] using ih

/-- **A page is read back as its frame and the lines of its regions.** -/
theorem perm_bareLines_pageText (title subtitle : String)
    (hn : ∀ r ∈ rs, ∀ l ∈ r.lines, '\n' ∉ l.toList) :
    (bareLines (pageText title subtitle rs)).Perm
      (frameOf title subtitle rs ++ rs.flatMap fun r => r.lines.map bare) := by
  have hhead : EndsLine ("# Merged Document: " ++ title ++ "\n*" ++ subtitle ++
      "*\n\n---\n\n").toList := endsLine_append _ rfl
  have hpage : bareLines (pageText title subtitle rs) =
      bareLines ("# Merged Document: " ++ title ++ "\n*" ++ subtitle ++ "*\n\n---\n\n") ++
        bareLines (regionsText (rs.filter (·.lines ≠ []))) := bareLines_append hhead
  have hkept : ∀ r ∈ rs.filter (·.lines ≠ []), ∀ l ∈ r.lines, '\n' ∉ l.toList :=
    fun r hr => hn r (List.mem_filter.1 hr).1
  rw [hpage, frameOf, List.append_assoc, ← flatMap_filter_lines rs]
  exact (perm_bareLines_regionsText hkept).append_left _

/-- The lines that a page can have for itself: empty ones, rules, the title and the headings. -/
def pageFrame (title subtitle : String) (headings : List String) : List String :=
  ["", "---"] ++
    bareLines ("# Merged Document: " ++ title ++ "\n*" ++ subtitle ++ "*\n\n---\n\n") ++
    headings.flatMap fun heading => bareLines ("## " ++ heading ++ "\n\n")

theorem mem_regionFrames (h : line ∈ regionFrames rs) :
    line ∈ ["", "---"] ∨ ∃ r ∈ rs, line ∈ headingLines r := by
  induction rs using regionFrames.induct with
  | case1 => simp [regionFrames] at h
  | case2 last =>
    rw [regionFrames, List.mem_append, List.mem_singleton] at h
    exact h.symm.imp (fun h => by simp [h]) fun h => ⟨last, by simp, h⟩
  | case3 first next rest ih =>
    rw [regionFrames, List.mem_append, List.mem_append] at h
    rcases h with (h | h) | h
    · exact Or.inr ⟨first, by simp, h⟩
    · simp only [List.mem_cons, List.not_mem_nil, or_false] at h ⊢
      exact Or.inl (h.elim Or.inl (·.symm))
    · refine (ih h).imp_right ?_
      rintro ⟨r, hr, hline⟩
      exact ⟨r, List.mem_cons_of_mem _ hr, hline⟩

/-- The frame of a page is among the lines that it can have for itself, whatever its regions hold. -/
theorem frameOf_subset_pageFrame (title subtitle : String) (rs : List Region) :
    frameOf title subtitle rs ⊆ pageFrame title subtitle (rs.map Region.heading) := by
  intro line h
  rw [pageFrame, List.mem_append, List.mem_append, List.mem_flatMap]
  rcases List.mem_append.1 h with h | h
  · exact Or.inl (Or.inr h)
  · rcases mem_regionFrames h with h | ⟨r, hr, h⟩
    · exact Or.inl (Or.inl h)
    · exact Or.inr ⟨r.heading, List.mem_map_of_mem (List.mem_filter.1 hr).1, h⟩

/-! ## Pages of two sides -/

/-- A page of two sides is read back as its frame, what they share and what either has alone. -/
theorem perm_bareLines_division (title subtitle left right : String)
    (hn : ∀ l ∈ xs ++ ys, '\n' ∉ l.toList) :
    (bareLines (pageText title subtitle (regionsOf (divide xs ys) left right))).Perm
      (frameOf title subtitle (regionsOf (divide xs ys) left right) ++
        ((divide xs ys).shared ++ (divide xs ys).left ++ (divide xs ys).right).map bare) := by
  have hregions : ∀ r ∈ regionsOf (divide xs ys) left right, ∀ l ∈ r.lines, l ∈ xs ++ ys := by
    intro r hr l hl
    rw [List.mem_append]
    simp only [regionsOf, List.mem_cons, List.not_mem_nil, or_false] at hr
    rcases hr with rfl | rfl | rfl
    · exact mem_of_mem_divide (Or.inr (Or.inl hl))
    · exact mem_of_mem_divide (Or.inl hl)
    · exact mem_of_mem_divide (Or.inr (Or.inr hl))
  have hperm := perm_bareLines_pageText title subtitle fun r hr l hl => hn l (hregions r hr l hl)
  simpa only [regionsOf, List.flatMap_cons, List.flatMap_nil, List.append_nil, List.map_append,
    List.append_assoc] using hperm

/-- **How often a line stands in a page of two sides**: at least as often as either side has it, for
what is shared is written for both, and at most as often as both sides and the frame have it. -/
theorem count_division (title subtitle left right : String) (hn : ∀ l ∈ xs ++ ys, '\n' ∉ l.toList)
    (x : String) :
    let page := bareLines (pageText title subtitle (regionsOf (divide xs ys) left right))
    (xs.map bare).count x ≤ page.count x ∧ (ys.map bare).count x ≤ page.count x ∧
      page.count x ≤ (frameOf title subtitle (regionsOf (divide xs ys) left right)).count x +
        ((xs.map bare).count x + (ys.map bare).count x) := by
  intro page
  have hpage : page.count x = _ :=
    (perm_bareLines_division title subtitle left right hn).count_eq x
  have hleft := ((perm_left xs ys).map bare).count_eq x
  have hright := ((perm_right xs ys).map bare).count_eq x
  simp only [List.map_append, List.count_append] at hpage hleft hright
  omega

/-! ## Pages of two documents -/

/-- The lines that a page of two documents can have for itself. -/
def frameOfTwo (name1 name2 : String) : List String :=
  pageFrame (name1 ++ " + " ++ name2) "This document combines content from multiple sources"
    ["Common Content", "Additional Content from " ++ name1, "Additional Content from " ++ name2]

/-- **The page of two documents has their lines and its frame, and nothing else.** -/
theorem mem_bareLines_mergeTwo {first second : Source}
    (hn : ∀ l ∈ first.lines ++ second.lines, '\n' ∉ l.toList)
    (h : line ∈ bareLines (mergeTwo first second)) :
    (∃ l ∈ first.lines ++ second.lines, line = bare l) ∨
      line ∈ frameOfTwo first.name second.name := by
  rw [mergeTwo] at h
  rcases List.mem_append.1 ((perm_bareLines_division _ _ _ _ hn).subset h) with h | h
  · have hframe := frameOf_subset_pageFrame _ _ _ h
    exact Or.inr hframe
  · obtain ⟨l, hl, rfl⟩ := List.mem_map.1 h
    rw [List.mem_append, List.mem_append] at hl
    have hsides := mem_of_mem_divide (or_assoc.1 (hl.imp_left Or.symm))
    exact Or.inl ⟨l, List.mem_append.2 hsides, rfl⟩

end NearDup.Merge
