import NearDup.Proofs.Merge.Outcome
import NearDup.Proofs.Merge.Since
import NearDup.Proofs.Merge.Survival

/-!
# Running a second time

A report is not made anew when it is carried out again, so a second run looks for the same names. It
finds nothing to do exactly if no copy is back and no pair can be merged, and that is so if no file
that the first run removed is one that the output of a pair leads to or through. Without that
condition an output can take the place of a file that was removed, as a copy or as an input of
another page, and the second run removes the new page.

* `NothingLeft` — no copy can be removed, and no pair can be merged
* `unchanging_iff` — then, and only then, a run changes nothing
* `rerun_unchanging` — when a second run changes nothing
-/

namespace NearDup.Merge

open NearDup.Tree Effect

namespace Session

variable {s : Session} {r : Report} {t : Tree} {p p' : Progress} {names inputs : List String}
  {pairs : List PairEntry} {groups : List GroupEntry}

/-! ## Nothing to do -/

/-- No copy can be removed, and of every pair that may be merged the output is taken or a file
cannot be read. -/
def NothingLeft (s : Session) (r : Report) (t : Tree) : Prop :=
  (∀ copy ∈ copiesOf r.exact, (s.removeFile copy t).1 = false) ∧
  ∀ pair ∈ s.candidates r, t.has (s.pathOf (outputName pair.file1)) = true ∨
    ∃ file ∈ [pair.file1, pair.file2], ∀ bytes, t.read (s.pathOf file) ≠ .ok bytes

/-- A run ends well and changes nothing. -/
def Unchanging (s : Session) (r : Report) (t : Tree) : Prop :=
  ∃ outcome p, (s.run r).perform (.start t) = (.ok outcome, p) ∧ outcome.changed = false ∧
    p.tree = t

/-! ## A run that changes nothing -/

/-- No copy is removed exactly if none can be removed, and then the tree stays as it is. -/
theorem useCopies_eq_nil_iff (live : s.trial = false)
    (h : ∀ n ∈ p.consumed, (s.removeFile n p.tree).1 = false) :
    ((s.useCopies names p).1 = [] ↔ ∀ n ∈ names, (s.removeFile n p.tree).1 = false) ∧
    ((s.useCopies names p).1 = [] → (s.useCopies names p).2.tree = p.tree) := by
  induction names generalizing p with
  | nil => simp [useCopies]
  | cons name rest ih =>
    rw [List.forall_mem_cons]
    rcases useCopies_cons_cases live name rest p with ⟨hc, he⟩ | ⟨-, t', hr, he⟩ | ⟨-, hr, he⟩
    · rw [he]
      simpa [h name hc] using ih h
    · simp [he, hr]
    · rw [he]
      simp only [hr, true_and]
      refine ih (p := { p with consumed := name :: p.consumed }) fun n hn => ?_
      rcases List.mem_cons.1 hn with rfl | hn
      · rw [hr]
      · exact h n hn

/-- When no copy was removed, the pairs that are skipped are those that no candidate is. -/
theorem skips_pairs_iff (hc : ∀ n, n ∈ p.consumed ↔ n ∈ copiesOf r.exact) (hp : p.planned = []) :
    (∀ pair ∈ r.similar, s.leastOverlap.le pair.overlap = true →
      s.Skips p [pair.file1, pair.file2] (outputName pair.file1)) ↔
    ∀ pair ∈ s.candidates r, p.tree.has (s.pathOf (outputName pair.file1)) = true ∨
      ∃ file ∈ [pair.file1, pair.file2], ∀ bytes, p.tree.read (s.pathOf file) ≠ .ok bytes := by
  have htaken : ∀ output, s.isTaken p output = p.tree.has (s.pathOf output) := by
    intro output
    simp [isTaken, hp]
  have hmem : ∀ pair, pair ∈ s.candidates r ↔ pair ∈ r.similar ∧
      s.leastOverlap.le pair.overlap = true ∧ ¬∃ n ∈ [pair.file1, pair.file2], n ∈ p.consumed := by
    intro pair
    simp [candidates, hc]
  constructor
  · intro h pair hcand
    obtain ⟨hpair, hle, hfree⟩ := (hmem pair).1 hcand
    rcases h pair hpair hle with hused | ht | hread
    · exact absurd hused hfree
    · exact Or.inl (by rwa [htaken] at ht)
    · exact Or.inr hread
  · intro h pair hpair hle
    by_cases hused : ∃ n ∈ [pair.file1, pair.file2], n ∈ p.consumed
    · exact Or.inl hused
    · rcases h pair ((hmem pair).2 ⟨hpair, hle, hused⟩) with ht | hread
      · exact Or.inr (Or.inl (by rwa [htaken]))
      · exact Or.inr (Or.inr hread)

/-- **A run changes nothing exactly if nothing is left to do.** -/
theorem unchanging_iff (live : s.trial = false) (hd : t.isDir s.inbox = true) :
    s.Unchanging r t ↔ s.NothingLeft r t := by
  have hcopies : (s.useCopies (copiesOf r.exact) (.start t)).1 = [] ↔
      ∀ copy ∈ copiesOf r.exact, (s.removeFile copy t).1 = false :=
    (useCopies_eq_nil_iff live (by simp [Progress.start])).1
  have htree : (s.useCopies (copiesOf r.exact) (.start t)).1 = [] →
      (s.useCopies (copiesOf r.exact) (.start t)).2.tree = t :=
    (useCopies_eq_nil_iff live (by simp [Progress.start])).2
  have hpairs := skips_pairs_iff (s := s) (r := r)
    (p := (s.useCopies (copiesOf r.exact) (.start t)).2) (fun n => mem_consumed_afterCopies)
    planned_useCopies
  unfold Unchanging NothingLeft
  simp only [perform_run_eq_ok (p := .start t) hd, changed_eq_false_iff]
  constructor
  · rintro ⟨_, p, ⟨copies, p₁, merges, hc, hm, rfl⟩, hskip, -⟩
    obtain ⟨hnone, rfl⟩ := removeCopies_skips_iff.1
      ⟨copies, hc, fun a ha => hskip a (List.mem_append_left _ ha)⟩
    have hskips := (mergePairs_skips_iff.1
      ⟨merges, hm, fun a ha => hskip a (List.mem_append_right _ ha)⟩).2
    have hleft := hpairs.1 hskips
    rw [htree hnone] at hleft
    exact ⟨hcopies.1 hnone, hleft⟩
  · rintro ⟨hleft, hcands⟩
    have hnone := hcopies.2 hleft
    rw [← htree hnone] at hcands
    obtain ⟨copies, hc, hskipc⟩ := removeCopies_skips_iff.2 ⟨hnone, rfl⟩
    obtain ⟨merges, hm, hskipm⟩ := mergePairs_skips_iff.2 ⟨rfl, hpairs.2 hcands⟩
    refine ⟨_, _, ⟨copies, _, merges, hc, hm, rfl⟩, fun a ha => ?_, htree hnone⟩
    exact (List.mem_append.1 ha).elim (hskipc a) (hskipm a)

/-! ## In the course of a run -/

variable {gone : List String} {change : Change} {asked : Option String} {output : String}

/-- Since the tree was `t`, only files of `gone` were removed; what is used up is gone, the copies
among it, and the outputs written are there. -/
structure Underway (s : Session) (gone copies : List String) (t : Tree) (p : Progress) : Prop where
  since : s.Since gone t p.tree
  files : s.Files t p.consumed
  copies : copies ⊆ p.consumed
  used : ∀ name ∈ p.consumed, p.tree.has (s.pathOf name) = false
  planned : ∀ output ∈ p.planned, s.Undisturbed t gone (s.pathOf output) ∧
    p.tree.has (s.pathOf output) = true

/-- The output of a request is taken, or an input is gone. -/
def Settled (s : Session) (inputs : List String) (output : String) (t : Tree) : Prop :=
  t.has (s.pathOf output) = true ∨ ∃ name ∈ inputs, t.has (s.pathOf name) = false

theorem Later.settled {t₁ t₂ : Tree} (h : s.Later gone t t₁ t₂) (hf : s.Files t inputs)
    (hu : s.Undisturbed t gone (s.pathOf output)) (hs : s.Settled inputs output t₁) :
    s.Settled inputs output t₂ := by
  rcases hs with ht | ⟨name, hn, hg⟩
  · exact Or.inl (h.taken _ hu ht)
  · obtain ⟨loc, bytes, hfind⟩ := hf name hn
    exact Or.inr ⟨name, hn, h.gone _ loc bytes hfind hg⟩

/-- A request that is skipped in the course of a run is settled. -/
theorem Underway.settled_of_skips {copies : List String} (h : s.Underway gone copies t p)
    (hf : s.Files t inputs) (hs : s.Skips p inputs output) : s.Settled inputs output p.tree := by
  rcases hs with ⟨name, hn, hc⟩ | ht | ⟨name, hn, hread⟩
  · exact Or.inr ⟨name, hn, h.used name hc⟩
  · simp only [isTaken, Bool.or_eq_true, decide_eq_true_eq] at ht
    rcases ht with ht | ht
    · exact Or.inl (h.planned output ht).2
    · exact Or.inl ht
  · obtain ⟨loc, bytes, hfind⟩ := hf name hn
    rcases h.since.find_eq_or_gone hfind with hfind' | hgone
    · exact absurd (read_eq_ok_iff.2 ⟨loc, hfind'⟩) (hread bytes)
    · exact Or.inr ⟨name, hn, hgone⟩

/-- **One request goes on as a run does, and is settled.** -/
theorem Underway.combine (live : s.trial = false) (hj : s.journal = none) {copies : List String}
    {a : Action} (h : s.Underway gone copies t p) (hf : s.Files t inputs)
    (hu : s.Undisturbed t gone (s.pathOf (outputFor inputs asked)))
    (hc : (s.combine change inputs asked).perform p = (.ok a, p')) (hg : a.removes ⊆ gone) :
    s.Underway gone copies t p' ∧ s.Later gone t p.tree p'.tree ∧
      s.Settled inputs (outputFor inputs asked) p'.tree := by
  rcases s.combine_live_cases live hj change inputs asked p with
    ⟨_, ha, he⟩ | ⟨_, he⟩ | ⟨docs, new, hr, hv, he⟩
  · rw [he] at hc
    cases hc
    exact ⟨h, .refl s gone t p.tree, h.settled_of_skips hf (skips_of_combine he ha).2⟩
  · rw [he] at hc
    cases hc
  · rw [he] at hc
    cases hc
    rw [removes_madeAction] at hg
    have hfree := (meets_of_vacant hv).2
    have hv₀ := h.since.resolve_vacant hu hv
    have hnew := (meets_of_vacant hv₀).2
    have hclears := s.clears_replace inputs docs new p.tree
    have hput := h.since.put hnew (pageOf inputs docs)
    have hafter := hput.clear hclears hg hf
    have hlater := h.since.later hnew hfree hclears hg hf
    have hout : (s.replace inputs docs new p.tree).has (s.pathOf (outputFor inputs asked)) = true :=
      has_of_find (find_replace_page hr hv)
    refine ⟨⟨hafter, ?_, ?_, ?_, ?_⟩, hlater, Or.inl hout⟩
    · intro name hn
      exact (List.mem_append.1 hn).elim (hf name) (h.files name)
    · exact fun n hn => List.mem_append_right _ (h.copies hn)
    · intro name hn
      rcases List.mem_append.1 hn with hn | hn
      · exact has_replace hr hfree hn
      · obtain ⟨loc, bytes, hfind⟩ := h.files name hn
        exact hlater.gone _ loc bytes hfind (h.used name hn)
    · intro o ho
      rcases List.mem_cons.1 ho with rfl | ho
      · exact ⟨hu, hout⟩
      · obtain ⟨huo, hto⟩ := h.planned o ho
        exact ⟨huo, hlater.taken _ huo hto⟩

/-- A pair goes on as a run does, and is settled if it may be merged. A pair that has a copy is
skipped. -/
theorem Underway.mergePair (live : s.trial = false) (hj : s.journal = none) {pair : PairEntry}
    {a : Option Action} (h : s.Underway gone (copiesOf r.exact) t p)
    (hf : s.Files t [pair.file1, pair.file2]) (hpair : pair ∈ r.similar)
    (hu : pair ∈ s.candidates r → s.Undisturbed t gone (s.pathOf (outputName pair.file1)))
    (hm : (s.mergePair pair).perform p = (.ok a, p'))
    (hg : a.toList.flatMap Action.removes ⊆ gone) :
    s.Underway gone (copiesOf r.exact) t p' ∧ s.Later gone t p.tree p'.tree ∧
      (pair ∈ s.candidates r →
        s.Settled [pair.file1, pair.file2] (outputName pair.file1) p'.tree) := by
  rcases perform_mergePair_eq_ok.1 hm with ⟨hle, action, rfl, hc⟩ | ⟨hle, rfl, rfl⟩
  · rw [← outputFor_none pair.file1 [pair.file2]] at hu ⊢
    by_cases hcand : pair ∈ s.candidates r
    · have hg : action.removes ⊆ gone := by simpa using hg
      obtain ⟨hp, hlater, hset⟩ := h.combine live hj hf (hu hcand) hc hg
      exact ⟨hp, hlater, fun _ => hset⟩
    · -- one of the files is a copy, and copies are used up
      have hskips : s.Skips p [pair.file1, pair.file2]
          (outputFor [pair.file1, pair.file2] none) := by
        simp only [mem_candidates, hpair, hle, true_and, not_forall, not_not] at hcand
        obtain ⟨n, hn, hcopy⟩ := hcand
        exact Or.inl ⟨n, hn, h.copies hcopy⟩
      obtain ⟨b, -, hc'⟩ := hskips.combine .merged
      rw [hc'] at hc
      cases hc
      exact ⟨h, .refl s gone t _, fun hcand' => absurd hcand' hcand⟩
  · refine ⟨h, .refl s gone t _, fun hcand => ?_⟩
    rw [(mem_candidates.1 hcand).2.1] at hle
    cases hle

/-- **Merging goes on as a run does, and settles every candidate.** -/
theorem Underway.mergePairs (live : s.trial = false) (hj : s.journal = none)
    {actions : List Action} (h : s.Underway gone (copiesOf r.exact) t p)
    (hf : ∀ pair ∈ pairs, s.Files t [pair.file1, pair.file2])
    (hu : ∀ pair ∈ pairs, pair ∈ s.candidates r →
      s.Undisturbed t gone (s.pathOf (outputName pair.file1)))
    (hs : pairs ⊆ r.similar) (hm : (s.mergePairs pairs).perform p = (.ok actions, p'))
    (hg : actions.flatMap Action.removes ⊆ gone) :
    s.Underway gone (copiesOf r.exact) t p' ∧ s.Later gone t p.tree p'.tree ∧
      ∀ pair ∈ pairs, pair ∈ s.candidates r →
        s.Settled [pair.file1, pair.file2] (outputName pair.file1) p'.tree := by
  unfold Session.mergePairs at hm
  induction pairs generalizing p actions with
  | nil =>
    cases hm
    exact ⟨h, .refl s gone t _, by simp⟩
  | cons pair rest ih =>
    obtain ⟨a, p₁, as, hstep, hrest, rfl⟩ := perform_forEach_cons_eq_ok.1 hm
    rw [List.flatMap_append, List.append_subset] at hg
    obtain ⟨hfpair, hfrest⟩ := List.forall_mem_cons.1 hf
    obtain ⟨hupair, hurest⟩ := List.forall_mem_cons.1 hu
    obtain ⟨hspair, hsrest⟩ := List.cons_subset.1 hs
    obtain ⟨h₁, hlater₁, hset₁⟩ := h.mergePair live hj hfpair hspair hupair hstep hg.1
    obtain ⟨h₂, hlater₂, hset₂⟩ := ih h₁ hfrest hurest hsrest hrest hg.2
    refine ⟨h₂, hlater₁.trans hlater₂, fun pair' hp' hcand => ?_⟩
    rcases List.mem_cons.1 hp' with rfl | hp'
    · exact hlater₂.settled hfpair (hupair hcand) (hset₁ hcand)
    · exact hset₂ pair' hp' hcand

/-! ## A second run -/

variable {settings : AnalysisSettings} {docs : List Document}

/-- The copies are used up in the course of a run. -/
theorem underway_useCopies (live : s.trial = false) {copies : List String} (hf : s.Files t copies)
    (hg : (s.useCopies copies (.start t)).1 ⊆ gone) :
    s.Underway gone copies t (s.useCopies copies (.start t)).2 := by
  have hused := (s.usedUp_start t).useCopies live hf
  have hfiles : s.Files t (s.useCopies copies (.start t)).2.consumed :=
    hf.mono fun n hn => mem_consumed_afterCopies.1 hn
  have hclears := clears_useCopies live copies (.start t)
  refine ⟨(hclears.mono hg).since, hfiles, fun n hn => ?_, hused.gone, ?_⟩
  · exact mem_consumed_afterCopies.2 hn
  · rw [planned_useCopies]
    simp [Progress.start]

/-- What is used up and what is settled is left. -/
theorem Underway.nothingLeft (h : s.Underway gone (copiesOf r.exact) t p)
    (hset : ∀ pair ∈ r.similar, pair ∈ s.candidates r →
      s.Settled [pair.file1, pair.file2] (outputName pair.file1) p.tree) :
    s.NothingLeft r p.tree := by
  constructor
  · intro copy hc
    have hgone := h.used copy (h.copies hc)
    simp [removeFile, hgone]
  · intro pair hcand
    rcases hset pair (mem_candidates.1 hcand).1 hcand with ht | ⟨file, hfile, hgone⟩
    · exact Or.inl ht
    · refine Or.inr ⟨file, hfile, fun bytes hread => ?_⟩
      obtain ⟨loc, hfind⟩ := read_eq_ok_iff.1 hread
      rw [has_of_find hfind] at hgone
      cases hgone

/-- What is left beside a journal is what would be left without it. -/
theorem Beside.nothingLeft {files : List String} {u v : Tree} (h : s.Beside files t u v)
    (hcopies : ∀ copy ∈ copiesOf r.exact,
      copy ∈ files ∧ t.Avoids (s.JournalAt t) (s.pathOf copy))
    (hpairs : ∀ pair ∈ r.similar, ∀ name ∈ [pair.file1, pair.file2, outputName pair.file1],
      t.Avoids (s.JournalAt t) (s.pathOf name)) (hleft : s.NothingLeft r v) :
    s.NothingLeft r u := by
  refine ⟨fun copy hc => ?_, fun pair hcand => ?_⟩
  · obtain ⟨hmem, hoff⟩ := hcopies copy hc
    rw [(h.removeFile hmem hoff).1]
    exact hleft.1 copy hc
  · have hoff := hpairs pair (mem_candidates.1 hcand).1
    rw [h.has_eq (hoff _ (by simp))]
    refine (hleft.2 pair hcand).imp_right ?_
    rintro ⟨file, hfile, hread⟩
    refine ⟨file, hfile, ?_⟩
    have hname : file ∈ [pair.file1, pair.file2, outputName pair.file1] :=
      (List.mem_append_left [outputName pair.file1] hfile : _)
    rwa [h.read_eq (hoff file hname)]

/-- A run without a journal leaves nothing to do, if the output of each candidate leads where it led
after any one of the files that the run removed is removed alone. -/
theorem nothingLeft_of_run {outcome : Outcome} (live : s.trial = false) (hj : s.journal = none)
    (hf : s.Files t (copiesOf r.exact))
    (hfs : ∀ pair ∈ r.similar, s.Files t [pair.file1, pair.file2])
    (hd : t.isDir s.inbox = true) (hrun : (s.run r).perform (.start t) = (.ok outcome, p))
    (hu : ∀ pair ∈ s.candidates r,
      s.Undisturbed t outcome.removes (s.pathOf (outputName pair.file1))) :
    s.NothingLeft r p.tree := by
  obtain ⟨merges, hm, rfl⟩ := (perform_run_eq_ok_iff (Or.inr hj) hd).1 hrun
  rw [removes_copyActions_append] at hu
  have hstart := underway_useCopies live hf
    (List.subset_append_left (s.useCopies (copiesOf r.exact) (.start t)).1
      (merges.flatMap Action.removes))
  obtain ⟨hend, -, hset⟩ := hstart.mergePairs live hj hfs (fun pair _ hcand => hu pair hcand)
    (List.Subset.refl _) hm (List.subset_append_right _ _)
  exact hend.nothingLeft hset

/-- **When a second run changes nothing.** It changes nothing exactly if no copy can be removed
again and no pair can be merged; and it is so if the output of each candidate leads where it led
after any one of the files that the first run removed, copies and inputs of pages, is removed
alone. -/
theorem rerun_unchanging {outcome : Outcome} (live : s.trial = false)
    (hw : Inbox.WellNamed t) (hl : Inbox.load t s.inbox settings.extensions = .ok docs)
    (ha : s.JournalAside t (namesOf docs (Report.ofAnalysis (analyze settings docs))))
    (hrun : (s.run (Report.ofAnalysis (analyze settings docs))).perform (.start t) =
      (.ok outcome, p)) :
    let r := Report.ofAnalysis (analyze settings docs)
    (s.Unchanging r p.tree ↔ s.NothingLeft r p.tree) ∧
    ((∀ pair ∈ s.candidates r,
        s.Undisturbed t outcome.removes (s.pathOf (outputName pair.file1))) →
      s.Unchanging r p.tree) := by
  intro r
  have hstored : s.Stored t docs := fun d hd => Inbox.find_of_mem_load hw hl hd
  have hdir := (Inbox.load_eq_ok_iff.1 hl).1
  have hfs : ∀ pair ∈ r.similar, s.Files t [pair.file1, pair.file2] :=
    fun pair hp => hstored.files_of_mem_similar hp
  obtain ⟨hresult, habreast⟩ := hstored.parallel_run live hdir ha
  rw [hrun] at hresult habreast
  have hiff := unchanging_iff (r := r) live (habreast.trees.isDir hstored.files_of_docs hdir)
  refine ⟨hiff, fun hu => hiff.2 ?_⟩
  have hleft : s.NothingLeft r ((s.silent.run r).perform (.start t)).2.tree :=
    nothingLeft_of_run (s := s.silent) live rfl hstored.files hfs hdir
      (Prod.ext hresult.symm rfl) hu
  have hoff : ∀ name ∈ docs.map (·.id), t.Avoids (s.JournalAt t) (s.pathOf name) :=
    fun name hn => ha.avoid name (List.mem_append_left _ hn)
  refine habreast.trees.nothingLeft (fun copy hc => ?_) (fun pair hp name hn => ?_) hleft
  · exact ⟨copies_subset_docs hc, hoff copy (copies_subset_docs hc)⟩
  · have hsplit : name ∈ [pair.file1, pair.file2] ++ [outputName pair.file1] := hn
    rcases List.mem_append.1 hsplit with hn | hn
    · exact hoff name (pair_subset_docs hp hn)
    · rw [List.mem_singleton.1 hn]
      exact ha.avoid _ (List.mem_append_right _ (List.mem_map_of_mem hp))

/-! A second run finds nothing to do after a copy was removed and two documents were merged. But
where the copy has the name of the output, the page takes its place, and the second run removes the
page. -/

/-- A second run, after a first one with the same report. -/
def runAgain (s : Session) (t : Tree) : Except Failure Outcome × Progress :=
  (s.run (reportOf t)).perform (.start ((s.run (reportOf t)).perform (.start t)).2.tree)

theorem rerun_unchanging_outputFree :
    Inbox.load outputFree "in" ["md", "txt"] = .ok (documentsOf outputFree) ∧
      withJournal.JournalAside outputFree (namesOf (documentsOf outputFree) (reportOf outputFree)) ∧
      ∃ outcome p, (withJournal.run (reportOf outputFree)).perform (.start outputFree) =
        (.ok outcome, p) ∧ outcome.changed = true ∧
        withJournal.Unchanging (reportOf outputFree) p.tree := by
  have hload := load_documentsOf (t := outputFree) (by decide +kernel)
  obtain ⟨hfirst, hnames, hu⟩ :
      ((withJournal.run (reportOf outputFree)).perform (.start outputFree)).1 =
        .ok ⟨[.deduplicate "0.md" ["1.md"], .merge "a.md" "b.md" "a-merged.md"]⟩ ∧
      (∀ name ∈ namesOf (documentsOf outputFree) (reportOf outputFree),
        (outputFree.resolve .followed (withJournal.pathOf name)).toOption ≠ none ∧
        (outputFree.resolve .followed (withJournal.pathOf name)).toOption ≠
          some (outputFree.placeAt ["log"])) ∧
      ∀ pair ∈ withJournal.candidates (reportOf outputFree), ∀ name ∈ ["1.md", "a.md", "b.md"],
        ((withJournal.removeFile name outputFree).2.resolve .followed
          (withJournal.pathOf (outputName pair.file1))).toOption =
        (outputFree.resolve .followed (withJournal.pathOf (outputName pair.file1))).toOption := by
    decide +kernel
  have hlog : outputFree.openFile "log" = .ok (["log"], []) := by decide +kernel
  have haside := journalAside_of_resolve (s := withJournal) rfl (by decide +kernel) hlog hnames
  have hrun := Prod.fst_eq_iff.1 hfirst
  have h := @rerun_unchanging withJournal outputFree _ .default _ _ rfl (by decide +kernel) hload
    haside hrun
  simp only [ofAnalysis_documentsOf] at h
  exact ⟨hload, haside, _, _, hrun, rfl, h.2 hu⟩

/-- **A second run removes the page that the first one made in place of a copy.** -/
theorem not_unchanging_outputIsCopy :
    Inbox.load outputIsCopy "in" ["md", "txt"] = .ok (documentsOf outputIsCopy) ∧
      ∃ outcome p, (plain.run (reportOf outputIsCopy)).perform (.start outputIsCopy) =
        (.ok outcome, p) ∧
      ∃ again p', (plain.run (reportOf outputIsCopy)).perform (.start p.tree) = (.ok again, p') ∧
        again.changed = true ∧
        p.tree.has "in/a-merged.md" = true ∧ p'.tree.has "in/a-merged.md" = false := by
  obtain ⟨hfirst, hsecond, hpage⟩ :
      ((plain.run (reportOf outputIsCopy)).perform (.start outputIsCopy)).1 =
        .ok ⟨[.deduplicate "0.md" ["a-merged.md"], .merge "a.md" "b.md" "a-merged.md"]⟩ ∧
      (plain.runAgain outputIsCopy).1 =
        .ok ⟨[.deduplicate "0.md" ["a-merged.md"], .skipUnreadable "a.md"
          "IO error on in/a.md: No such file or directory (os error 2)"]⟩ ∧
      ((plain.run (reportOf outputIsCopy)).perform (.start outputIsCopy)).2.tree.has
        "in/a-merged.md" = true ∧
      (plain.runAgain outputIsCopy).2.tree.has "in/a-merged.md" = false := by
    decide +kernel
  exact ⟨load_documentsOf (by decide +kernel), _, _, Prod.fst_eq_iff.1 hfirst, _,
    (plain.runAgain outputIsCopy).2, Prod.fst_eq_iff.1 hsecond, rfl, hpage⟩

end Session

end NearDup.Merge
