import NearDup.Proofs.Merge.Survival
import NearDup.Proofs.Number.Order
import NearDup.Proofs.Ranking

/-!
# Raising the least overlap

The least overlap decides which pairs of a report are merged, and nothing else in a session. Where
the pairs stand in the order of falling overlap, those that reach the greater of two bounds are the
first of those that reach the lesser one. So a run with the greater bound takes the steps of a run
with the lesser one, through the same trees, and ends where the other pairs have their turn. No pair
is left out in front of one that is merged, so none leaves a file or the name of an output to it.

* `Report.Ranked` — the pairs of a report stand in the order of falling overlap
* `Report.ranked_ofAnalysis` — the report of an analysis is ranked
* `Session.requiring` — the same session with another least overlap
* `Session.run_requiring` — a run with a greater least overlap is the beginning of the run
-/

namespace NearDup

/-! ## Ranked reports -/

namespace Report

/-- The pairs of a report stand in the order of falling overlap: none has less than one behind it. -/
def Ranked (r : Report) : Prop := r.similar.Pairwise fun p q => p.overlap.lt q.overlap = false

/-- Pairs that do not rise in the total order of doubles are ranked. -/
theorem ranked_of_position {r : Report}
    (h : r.similar.Pairwise fun p q => q.overlap.position ≤ p.overlap.position) : r.Ranked := by
  refine h.imp ?_
  intro p q hle
  rw [← Bool.not_eq_true]
  intro hlt
  exact absurd (Binary64.position_lt_of_lt hlt) (Int.not_lt.2 hle)

/-- **The report of an analysis is ranked.** The matches are sorted by their exact overlaps, and
rounding these to thousandths does not turn the order of two. -/
theorem ranked_ofAnalysis (settings : AnalysisSettings) (docs : List Document) :
    (ofAnalysis (analyze settings docs)).Ranked := by
  have hnumber : ∀ m ∈ (analyze settings docs).similar, m.overlap.isNaN = false := by
    intro m hm
    obtain ⟨i, j, -, -, hof⟩ := exists_places_of_mem_similar hm
    rw [overlap_of_matchOf? hof]
    exact Binary64.isNaN_ofRatio _ _
  have hsorted : (analyze settings docs).similar.Pairwise (Match.ranksBefore · ·) :=
    pairwise_sortBy ranksBefore_trans ranksBefore_total _
  refine ranked_of_position (List.pairwise_map.2 (hsorted.imp_of_mem ?_))
  intro m n hm hn hmn
  exact Binary64.keepsOrder_roundToThousandths.position_le (hnumber n hn) (hnumber m hm)
    (of_decide_eq_true hmn)

/-- Of ranked pairs that reach a bound, those that reach a greater one come first. -/
theorem Ranked.filter_eq_append {r : Report} (hr : r.Ranked) {low high : Binary64}
    (h : low.le high = true) :
    r.similar.filter (fun pair => low.le pair.overlap) =
      r.similar.filter (fun pair => high.le pair.overlap) ++
        (r.similar.filter fun pair => !high.le pair.overlap).filter
          fun pair => low.le pair.overlap := by
  have hfront : (r.similar.filter fun pair => low.le pair.overlap).Pairwise
      fun p q => high.le q.overlap = true → high.le p.overlap = true := by
    refine (hr.filter _).imp_of_mem ?_
    intro p q hp _ hpq hq
    obtain ⟨-, hnumber⟩ := Binary64.isNaN_of_le (List.mem_filter.1 hp).2
    exact Binary64.le_of_lt_eq_false hnumber hpq hq
  have hhigh : (r.similar.filter fun pair => low.le pair.overlap).filter
      (fun pair => high.le pair.overlap) = r.similar.filter fun pair => high.le pair.overlap := by
    rw [List.filter_filter]
    refine List.filter_congr fun pair _ => ?_
    rw [Bool.and_eq_left_iff_imp]
    exact Binary64.le_trans h
  rw [← filter_append_filter_not hfront, hhigh, List.filter_filter, List.filter_filter]
  simp only [Bool.and_comm]

end Report

namespace Merge

open Effect

namespace Session

variable {s : Session} {least : Binary64} {r : Report} {p p₁ : Progress} {pair : PairEntry}
  {pairs : List PairEntry}

/-! ## Another least overlap -/

/-- The same session with another least overlap. -/
def requiring (s : Session) (least : Binary64) : Session := { s with leastOverlap := least }

@[simp] theorem requiring_requiring (least least' : Binary64) :
    (s.requiring least).requiring least' = s.requiring least' := rfl

theorem removeCopies_requiring (groups : List GroupEntry) :
    (s.requiring least).removeCopies groups = s.removeCopies groups := by
  have hcopies : (s.requiring least).useCopies = s.useCopies := by
    funext names p
    refine useCopies_congr ?_ ?_ names p
    · rfl
    · rfl
  unfold removeCopies
  congr 1
  funext g
  unfold removeCopiesOf
  rw [hcopies]
  rfl

/-- A request does not depend on the least overlap. -/
theorem combine_requiring (change : Change) (inputs : List String) (asked : Option String) :
    (s.requiring least).combine change inputs asked = s.combine change inputs asked := by
  have hremove : (s.requiring least).removeFiles = s.removeFiles := by
    funext names t
    refine removeFiles_congr ?_ names t
    rfl
  unfold combine writeMerged
  rw [hremove]
  rfl

/-- Pairs without enough overlap make no difference. -/
theorem mergePairs_filter (s : Session) (pairs : List PairEntry) :
    s.mergePairs (pairs.filter fun pair => s.leastOverlap.le pair.overlap) =
      s.mergePairs pairs := by
  unfold mergePairs
  induction pairs with
  | nil => rfl
  | cons pair rest ih =>
    cases hle : s.leastOverlap.le pair.overlap with
    | true => rw [List.filter_cons, if_pos hle, forEach, forEach, ih]
    | false =>
      rw [List.filter_cons, if_neg (by simp [hle]), ih, forEach, mergePair_of_not_le hle]
      simp

/-- Pairs that reach both bounds are merged alike. -/
theorem mergePairs_requiring (h : ∀ pair ∈ pairs, s.leastOverlap.le pair.overlap = true ∧
    least.le pair.overlap = true) : (s.requiring least).mergePairs pairs = s.mergePairs pairs := by
  unfold mergePairs
  induction pairs with
  | nil => rfl
  | cons pair rest ih =>
    rw [List.forall_mem_cons] at h
    obtain ⟨⟨hlow, hhigh⟩, hrest⟩ := h
    rw [forEach, forEach, ih hrest, mergePair_of_le hlow, mergePair_of_le hhigh, combine_requiring]

/-! ## Runs -/

/-- **Raising the least overlap only cuts off the end of a run.** On the same tree the run with the
greater bound ends well if the run with the lesser one does, and its actions are the first ones of
that. The longer run goes on from where the shorter one ends, with the pairs that miss the greater
bound. -/
theorem run_requiring (hle : s.leastOverlap.le least = true) (hr : r.Ranked) {outcome : Outcome}
    (h : (s.run r).perform p = (.ok outcome, p₁)) :
    ∃ shorter p₂, ((s.requiring least).run r).perform p = (.ok shorter, p₂) ∧
      shorter.actions <+: outcome.actions ∧
      ∃ rest, outcome.actions = shorter.actions ++ rest ∧
        (s.mergePairs (r.similar.filter fun pair => !least.le pair.overlap)).perform p₂ =
          (.ok rest, p₁) := by
  have hd := isDir_of_run h
  obtain ⟨copies, q, merges, hcopies, hmerges, rfl⟩ := (perform_run_eq_ok hd).1 h
  rw [← mergePairs_filter, hr.filter_eq_append hle] at hmerges
  obtain ⟨first, p₂, rest, hfirst, hrest, rfl⟩ := perform_forEach_append_eq_ok.1 hmerges
  have hboth : ∀ pair ∈ r.similar.filter fun pair => least.le pair.overlap,
      s.leastOverlap.le pair.overlap = true ∧ least.le pair.overlap = true := by
    intro pair hp
    have hhigh := (List.mem_filter.1 hp).2
    exact ⟨Binary64.le_trans hle hhigh, hhigh⟩
  have hshorter : ((s.requiring least).run r).perform p = (.ok ⟨copies ++ first⟩, p₂) := by
    refine (perform_run_eq_ok (s := s.requiring least) hd).2 ⟨copies, q, first, ?_, ?_, rfl⟩
    · rw [removeCopies_requiring]
      exact hcopies
    · rw [← mergePairs_filter]
      exact (congrArg (·.perform q) (mergePairs_requiring hboth)).trans hfirst
  refine ⟨_, p₂, hshorter, ⟨rest, List.append_assoc _ _ _⟩, rest, (List.append_assoc _ _ _).symm, ?_⟩
  rw [← mergePairs_filter]
  exact hrest

/-- Notes that have lines in common with the next one: the first two and the last two more than the
two in the middle. -/
def chain : Tree :=
  ⟨[(["in"], .dir), (["in", "a.md"], .file [0x70, 0x0A, 0x71, 0x0A]),
    (["in", "b.md"], .file [0x70, 0x0A, 0x71, 0x0A, 0x72, 0x0A]),
    (["in", "c.md"], .file [0x72, 0x0A, 0x78, 0x0A]),
    (["in", "d.md"], .file [0x78, 0x0A, 0x79, 0x0A])]⟩

/-- With 0.3 all three pairs have their turn, and the middle one is used up by then. With 0.6 the
run ends behind the first pair. -/
theorem run_requiring_chain :
    (plain.requiring (.ofRatio 3 10)).leastOverlap.le (.ofRatio 6 10) = true ∧
      (reportOf chain).Ranked ∧
      ∃ p₁ p₂, ((plain.requiring (.ofRatio 3 10)).run (reportOf chain)).perform (.start chain) =
          (.ok ⟨[.merge "a.md" "b.md" "a-merged.md", .merge "c.md" "d.md" "c-merged.md",
            .skipConsumed ["b.md", "c.md"] "b.md"]⟩, p₁) ∧
        ((plain.requiring (.ofRatio 6 10)).run (reportOf chain)).perform (.start chain) =
          (.ok ⟨[.merge "a.md" "b.md" "a-merged.md"]⟩, p₂) ∧
        ((plain.requiring (.ofRatio 3 10)).mergePairs
          ((reportOf chain).similar.filter fun pair =>
            !(Binary64.ofRatio 6 10).le pair.overlap)).perform p₂ =
          (.ok [.merge "c.md" "d.md" "c-merged.md", .skipConsumed ["b.md", "c.md"] "b.md"], p₁) := by
  have hle : (plain.requiring (.ofRatio 3 10)).leastOverlap.le (.ofRatio 6 10) = true := by
    decide +kernel
  have hranked : (reportOf chain).Ranked := Report.ranked_ofAnalysis _ _
  obtain ⟨hlong, hshort⟩ :
      (((plain.requiring (.ofRatio 3 10)).run (reportOf chain)).perform (.start chain)).1 =
        .ok ⟨[.merge "a.md" "b.md" "a-merged.md", .merge "c.md" "d.md" "c-merged.md",
          .skipConsumed ["b.md", "c.md"] "b.md"]⟩ ∧
      (((plain.requiring (.ofRatio 6 10)).run (reportOf chain)).perform (.start chain)).1 =
        .ok ⟨[.merge "a.md" "b.md" "a-merged.md"]⟩ := by
    decide +kernel
  rcases hrun : ((plain.requiring (.ofRatio 3 10)).run (reportOf chain)).perform (.start chain)
    with ⟨result, p₁⟩
  rw [hrun] at hlong
  cases hlong
  obtain ⟨shorter, p₂, hcut, -, rest, hrest, hothers⟩ := run_requiring hle hranked hrun
  rw [requiring_requiring] at hcut
  rw [hcut] at hshort
  cases hshort
  cases hrest
  exact ⟨hle, hranked, p₁, p₂, rfl, hcut, hothers⟩

end Session

end Merge

end NearDup
