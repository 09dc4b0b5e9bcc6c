import NearDup.Console.Command
import NearDup.Proofs.Inbox.Settled

/-!
# Analyses of one inbox, one after the other

An analysis writes into the directory for reports, which the next one does not see. So where no
links are it finds the same documents, answers in the same way and writes the same report, and
nothing changes but that directory and what stands in it.

* `analyzed_run` — what one analysis answers, and what it leaves
* `steady_afterAnalyses` — what any number of them leave
* `analyses_ignore_output` — they see nothing that they write
-/

namespace NearDup.Console

open NearDup.Inbox NearDup.Tree NearDup.Path Effect Text.Utf8

variable {t t' : Tree} {root : String} {inbox loc : Location} {clock : Clock}
  {threshold : Binary64} {leastSection : Nat} {docs : List Document}

/-! ## One analysis -/

/-- The analysis of documents with the settings of a request. -/
def analysisOf (threshold : Binary64) (leastSection : Nat) (docs : List Document) : Analysis :=
  analyze { AnalysisSettings.default with threshold, leastSection } docs

/-- What an analysis of an inbox answers, told by how the two reports were written. -/
def answerFor (root : String) (analysis : Analysis) (docs : List Document)
    (saved written : Except Failure Unit) : Answer :=
  let found := ["▶ Analyzing documents in: " ++ root] ++
    ["▶ Loaded " ++ Number.decimal docs.length ++ " documents"] ++ findingLines analysis
  match saved, written with
  | .error f, _ => ⟨1, printLines found, some (Trouble.unwritten (paths root).json f).text⟩
  | .ok _, .error f => ⟨1, printLines found, some (Trouble.unwritten (paths root).markdown f).text⟩
  | .ok _, .ok _ => ⟨0, printLines (found ++ analyzedLines analysis (paths root)), none⟩

/-- An analysis loads the inbox, writes its report, and then the one for reading. -/
theorem run_analyze {saved written : Except Failure Unit} {t₁ t₂ : Tree}
    (hload : load t root AnalysisSettings.default.extensions = .ok docs)
    (hsave : (replace (paths root).json
      (Report.ofAnalysis (analysisOf threshold leastSection docs)).json).perform t = (saved, t₁))
    (hwrite : (replace (paths root).markdown
      ((Report.ofAnalysis (analysisOf threshold leastSection docs)).markdown clock.date)).perform
        t₁ = (written, t₂)) :
    ((Request.analyze root threshold leastSection).run clock t).1 =
        answerFor root (analysisOf threshold leastSection docs) docs saved written ∧
      (saved = .ok () → ((Request.analyze root threshold leastSection).run clock t).2 = t₂) ∧
      (saved ≠ .ok () → ((Request.analyze root threshold leastSection).run clock t).2 = t₁) := by
  unfold analysisOf at hsave hwrite ⊢
  simp only [Request.run, Request.running, answerOf, runAnalyze, say, look, onTree, Report.save,
    perform_bind, perform_modify, mapError, perform_ofPerform, perform_within, perform_inspect,
    hload, hsave]
  cases saved with
  | error f => exact ⟨rfl, fun h => absurd h (by simp), fun _ => rfl⟩
  | ok _ =>
    simp only [hwrite]
    cases written with
    | error f => exact ⟨rfl, fun _ => rfl, fun h => absurd rfl h⟩
    | ok _ => exact ⟨rfl, fun _ => rfl, fun h => absurd rfl h⟩

/-- The place of the directory for reports. -/
def reportsAt (inbox : Location) : Location := inbox ++ [analysisName]

/-- How it ends to write the report of an inbox. -/
def savedIn (t : Tree) (root : String) (inbox : Location) : Except Failure Unit :=
  endOf t (reportsAt inbox) (paths root).dir "duplicates.json"

/-- How it ends to write the report for reading. -/
def writtenIn (t : Tree) (root : String) (inbox : Location) : Except Failure Unit :=
  endOf t (reportsAt inbox) (paths root).dir "duplicates-report.md"

/-- What an analysis of the tree `t'` answers and leaves, if `t'` is what analyses have left of `t`.
The report is in its file, or it could not be written and the file is as it was. -/
structure Analyzed (root : String) (inbox : Location) (threshold : Binary64) (leastSection : Nat)
    (docs : List Document) (t t' : Tree) (result : Answer × Tree) : Prop where
  answers : result.1 = answerFor root (analysisOf threshold leastSection docs) docs
    (savedIn t root inbox) (writtenIn t root inbox)
  steady : Steady (reportsAt inbox) t result.2
  done : savedIn t root inbox = .ok () → result.2.get? (reportsAt inbox) = some .dir ∧
    result.2.get? (reportsAt inbox ++ ["duplicates.json"]) =
      some (.file (encode (Report.ofAnalysis (analysisOf threshold leastSection docs)).json))
  failed : savedIn t root inbox ≠ .ok () →
    result.2.get? (reportsAt inbox ++ ["duplicates.json"]) =
      t'.get? (reportsAt inbox ++ ["duplicates.json"])

section

variable (hw : WellNamed t) (hl : t.LinkFree) (hf : t.find root = .ok (inbox, .dir))
include hw hl hf

/-- **What one analysis answers, and what it leaves.** Its answer depends on the documents and on
what stands in the way of the reports. -/
theorem analyzed_run (hload : load t root AnalysisSettings.default.extensions = .ok docs)
    (threshold : Binary64) (leastSection : Nat) (clock : Clock) :
    Analyzed root inbox threshold leastSection docs t t
      ((Request.analyze root threshold leastSection).run clock t) := by
  have hdir : Ordinary analysisName := by decide
  have hshort : size analysisName ≤ nameLimit := by decide
  have hjson : Ordinary "duplicates.json" := by decide
  have hmarkdown : Ordinary "duplicates-report.md" := by decide
  obtain ⟨saved, t₁, hsave, hsaved, hsettles⟩ := perform_replace hjson hl hw (by decide) hf hdir
    hshort (Report.ofAnalysis (analysisOf threshold leastSection docs)).json
  have hf₁ := hsettles.find_dir hl hf (by simp)
  obtain ⟨written, t₂, hwrite, hwritten, hsettles'⟩ := perform_replace hmarkdown hsettles.linkFree
    hsettles.wellNamed (by decide) hf₁ hdir hshort
    ((Report.ofAnalysis (analysisOf threshold leastSection docs)).markdown clock.date)
  rw [hsettles.endOf_eq] at hwritten
  change saved = savedIn t root inbox at hsaved
  change written = writtenIn t root inbox at hwritten
  obtain ⟨hanswer, hok, herror⟩ := run_analyze hload hsave hwrite
  rw [hsaved, hwritten] at hanswer
  by_cases hs : saved = .ok ()
  · obtain ⟨hmade, hfile⟩ := hsettles.done hs
    refine ⟨hanswer, ?_, fun _ => ⟨?_, ?_⟩, fun h => absurd (hsaved.symm.trans hs) h⟩
    · rw [hok hs]
      exact hsettles.trans hsettles'.toSteady
    · rw [hok hs]
      rcases hsettles'.above with he | ⟨-, he⟩
      · exact he.trans hmade
      · exact he
    · -- the report for reading is written beside the other one
      rw [hok hs]
      exact (hsettles'.others "duplicates.json" (by decide) (by decide)).trans hfile
  · refine ⟨hanswer, ?_, fun h => absurd (hsaved.trans h) hs, fun _ => ?_⟩
    · rw [herror hs]
      exact hsettles.toSteady
    · rw [herror hs]
      exact hsettles.failed hs

/-! ## Any number of them -/

/-- The tree after an analysis at each of these times. -/
def afterAnalyses (root : String) (threshold : Binary64) (leastSection : Nat)
    (clocks : List Clock) (t : Tree) : Tree :=
  clocks.foldl (fun u clock => ((Request.analyze root threshold leastSection).run clock u).2) t

omit hw hl hf in
theorem afterAnalyses_concat (clocks : List Clock) (clock : Clock) :
    afterAnalyses root threshold leastSection (clocks ++ [clock]) t =
      ((Request.analyze root threshold leastSection).run clock
        (afterAnalyses root threshold leastSection clocks t)).2 := by
  simp [afterAnalyses]

omit hw hl hf in
/-- What changes in the directory for reports is output. -/
theorem isOutput_of_steady (h : Steady (reportsAt inbox) t t') (hne : t'.get? loc ≠ t.get? loc) :
    ∃ rest, loc = inbox ++ analysisName :: rest := by
  obtain ⟨rest, rfl⟩ := h.below hne
  exact ⟨rest, by simp [reportsAt]⟩

/-- Nothing that analyses write is among the documents of an inbox. -/
theorem load_of_steady (h : Steady (reportsAt inbox) t t') (extensions : List String) :
    load t' root extensions = load t root extensions := by
  have hf' := h.find_dir hl hf (by simp [reportsAt])
  refine load_congr hl h.linkFree (fun loc hne => ?_) hw h.wellNamed hf
    (Or.inl (isDir_iff.2 ⟨inbox, hf'⟩)) extensions
  obtain ⟨rest, rfl⟩ := isOutput_of_steady h hne
  exact ⟨analysisName :: rest, rfl, List.mem_cons_self⟩

/-- **The next analysis answers in the same way**, and leaves the same report. -/
theorem analyzed_next (hload : load t root AnalysisSettings.default.extensions = .ok docs)
    (h : Steady (reportsAt inbox) t t') (threshold : Binary64) (leastSection : Nat)
    (clock : Clock) : Analyzed root inbox threshold leastSection docs t t'
      ((Request.analyze root threshold leastSection).run clock t') := by
  have hf' := h.find_dir hl hf (by simp [reportsAt])
  have hload' := (load_of_steady hw hl hf h _).trans hload
  have hsaved : savedIn t' root inbox = savedIn t root inbox := h.endOf_eq _ _
  have hwritten : writtenIn t' root inbox = writtenIn t root inbox := h.endOf_eq _ _
  have hrun := analyzed_run h.wellNamed h.linkFree hf' hload' threshold leastSection clock
  exact ⟨by rw [hrun.answers, hsaved, hwritten], h.trans hrun.steady,
    fun hok => hrun.done (hsaved.trans hok), fun hne => hrun.failed (hsaved ▸ hne)⟩

theorem steady_afterAnalyses
    (hload : load t root AnalysisSettings.default.extensions = .ok docs)
    (threshold : Binary64) (leastSection : Nat) (clocks : List Clock) :
    Steady (reportsAt inbox) t (afterAnalyses root threshold leastSection clocks t) ∧
      (savedIn t root inbox ≠ .ok () →
        (afterAnalyses root threshold leastSection clocks t).get?
          (reportsAt inbox ++ ["duplicates.json"]) =
            t.get? (reportsAt inbox ++ ["duplicates.json"])) := by
  induction clocks using List.reverseRecOn with
  | nil => exact ⟨.refl hl hw, fun _ => rfl⟩
  | append_singleton clocks clock ih =>
    have hrun := analyzed_next hw hl hf hload ih.1 threshold leastSection clock
    rw [afterAnalyses_concat]
    exact ⟨hrun.steady, fun h => (hrun.failed h).trans (ih.2 h)⟩

omit hw in
/-- The report is read where it was written. -/
theorem read_report (h : Steady (reportsAt inbox) t t') (hsaved : savedIn t root inbox = .ok ())
    (hdir : t'.get? (reportsAt inbox) = some .dir) {bytes : List UInt8}
    (hfile : t'.get? (reportsAt inbox ++ ["duplicates.json"]) = some (.file bytes)) :
    t'.read (paths root).json = .ok bytes := by
  obtain ⟨hc, htemp⟩ := checkPath_of_endOf hsaved
  have hjson : Ordinary "duplicates.json" := by decide
  have hreports : t'.find (paths root).dir = .ok (reportsAt inbox, .dir) := by
    have hname : Ordinary analysisName := by decide
    have hplace : t'.get? (inbox ++ [analysisName]) = some .dir := hdir
    have hr := resolve_join (h.find_dir hl hf (by simp [reportsAt])) hname (h.linkFree.get?_ne _) hc
      (by decide) .followed
    rw [placeAt, hplace] at hr
    exact find_eq_ok_iff.2 hr
  have hne := join_ne_empty (ne_empty_of_find hreports) hjson.head?
  have hr := resolve_join hreports hjson (h.linkFree.get?_ne _) (checkPath_of_temporary hne htemp)
    (by decide) .followed
  rw [placeAt, hfile] at hr
  exact read_eq_ok_iff.2 ⟨_, find_eq_ok_iff.2 hr⟩

end

/-- **Analyses see nothing that they write.** Two trees without links that differ only in what
belongs to directories for reports inside an inbox, at any depth, hold the same documents; the path
has to lead to the inbox in both, which it does by itself unless it goes up. So any number of
analyses, at any times, answer alike and change nothing but the directory for reports and what is
below it. Either they all leave the same report, or none of them can write it, and tells so. -/
theorem analyses_ignore_output (hw : WellNamed t) (hl : t.LinkFree)
    (hf : t.find root = .ok (inbox, .dir)) :
    (∀ t', WellNamed t' → t'.LinkFree → (t'.isDir root = true ∨ ".." ∉ pathNames root) →
      (∀ loc, t'.get? loc ≠ t.get? loc → IsOutput inbox loc) →
      ∀ extensions, load t' root extensions = load t root extensions) ∧
    ∀ threshold leastSection, ∃ docs answer,
      load t root AnalysisSettings.default.extensions = .ok docs ∧
      (∀ clocks clock, ((Request.analyze root threshold leastSection).run clock
        (afterAnalyses root threshold leastSection clocks t)).1 = answer) ∧
      (∀ clocks loc, (afterAnalyses root threshold leastSection clocks t).get? loc ≠ t.get? loc →
        ∃ rest, loc = inbox ++ analysisName :: rest) ∧
      ((∀ clocks, clocks ≠ [] →
        (afterAnalyses root threshold leastSection clocks t).read (paths root).json =
          .ok (encode (Report.ofAnalysis (analysisOf threshold leastSection docs)).json)) ∨
      answer.code = 1 ∧ (∃ f, answer.error = some (Trouble.unwritten (paths root).json f).text) ∧
        ∀ clocks, (afterAnalyses root threshold leastSection clocks t).get?
          (inbox ++ [analysisName, "duplicates.json"]) =
            t.get? (inbox ++ [analysisName, "duplicates.json"])) := by
  refine ⟨fun t' hw' hl' hdir hd => load_congr hl hl' hd hw hw' hf hdir, fun threshold least => ?_⟩
  have hload : load t root AnalysisSettings.default.extensions = .ok
      (documents t root AnalysisSettings.default.extensions) :=
    load_eq_ok_iff.2 ⟨isDir_iff.2 ⟨inbox, hf⟩, rfl⟩
  refine ⟨_, _, hload, fun clocks clock => (analyzed_next hw hl hf hload
    (steady_afterAnalyses hw hl hf hload threshold least clocks).1 threshold least clock).answers,
    fun clocks loc => isOutput_of_steady
      (steady_afterAnalyses hw hl hf hload threshold least clocks).1, ?_⟩
  cases hsaved : savedIn t root inbox with
  | ok _ =>
    refine Or.inl fun clocks hne => ?_
    obtain ⟨front, clock, rfl⟩ : ∃ front clock, clocks = front ++ [clock] :=
      ⟨_, _, (List.dropLast_append_getLast hne).symm⟩
    have hrun := analyzed_next hw hl hf hload
      (steady_afterAnalyses hw hl hf hload threshold least front).1 threshold least clock
    obtain ⟨hdir, hfile⟩ := hrun.done hsaved
    rw [afterAnalyses_concat]
    exact read_report hl hf hrun.steady hsaved hdir hfile
  | error f =>
    refine Or.inr ⟨rfl, ⟨f, rfl⟩, fun clocks => ?_⟩
    have hkept := (steady_afterAnalyses hw hl hf hload threshold least clocks).2 (by simp [hsaved])
    simpa [reportsAt] using hkept

/-- Two notes, one of them in a directory of its own. -/
def unreported : Tree :=
  ⟨[(["in"], .dir), (["in", "a.md"], .file [0x78, 0x0A]), (["in", "sub"], .dir),
    (["in", "sub", "b.md"], .file [0x79])]⟩

/-- The same notes, with what programs have left below: a stale report, and a note that is none. -/
def reported : Tree :=
  (((unreported.put ["in", "_analysis"] .dir).put ["in", "_analysis", "c.md"] (.file [0x7A])).put
    ["in", "sub", "_analysis"] .dir).put ["in", "sub", "_analysis", "d.md"] (.file [0x78, 0x0A])

/-- The notes are loaded without what was left, and any analyses leave one report. -/
theorem analyses_ignore_output_reported :
    load reported "in" ["md"] = load unreported "in" ["md"] ∧
    ∃ text, ∀ clocks, clocks ≠ [] →
      (afterAnalyses "in" AnalysisSettings.default.threshold 10 clocks unreported).read
        (paths "in").json = .ok text := by
  have hw : WellNamed unreported := by decide +kernel
  have hl : unreported.LinkFree := by decide +kernel
  have hf : unreported.find "in" = .ok (["in"], .dir) := by decide +kernel
  obtain ⟨hload, hruns⟩ := analyses_ignore_output hw hl hf
  refine ⟨hload reported (by decide +kernel) (by decide +kernel) (Or.inr (by decide +kernel))
    (fun loc hne => ?_) ["md"], ?_⟩
  · by_contra hout
    have hother : ∀ (t : Tree) x rest, analysisName ∈ rest →
        (t.put ("in" :: rest) x).get? loc = t.get? loc :=
      fun t x rest hmem => get?_put_ne t x fun he => hout ⟨rest, he, hmem⟩
    refine hne ?_
    rw [reported, hother _ _ _ (by decide), hother _ _ _ (by decide), hother _ _ _ (by decide),
      hother _ _ _ (by decide)]
  · obtain ⟨docs, answer, hdocs, hanswer, -, hread | ⟨hcode, -⟩⟩ :=
      hruns AnalysisSettings.default.threshold 10
    · exact ⟨_, hread⟩
    · -- nothing stands in the way of the report
      have hrun := (analyzed_run hw hl hf hdocs AnalysisSettings.default.threshold 10
        ⟨"", ""⟩).answers
      have hsaved : savedIn unreported "in" ["in"] = .ok () := by decide +kernel
      have hwritten : writtenIn unreported "in" ["in"] = .ok () := by decide +kernel
      rw [hsaved, hwritten] at hrun
      rw [← hanswer [] ⟨"", ""⟩] at hcode
      rw [afterAnalyses, List.foldl_nil, hrun] at hcode
      cases hcode

end NearDup.Console
