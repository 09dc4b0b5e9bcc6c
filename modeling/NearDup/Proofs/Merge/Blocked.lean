import NearDup.Proofs.Merge.Survival
import NearDup.Proofs.Merge.UsedOnce

/-!
# When a run fails

A live run that keeps no journal can fail only where it writes. A pair is blocked if it is to be
merged and the path of its output leads nowhere, not even to a free name: through a link whose own
target leads nowhere, say, or because the name is too long. Nothing is found under such a path, so
the output is not taken, but no file can be made there either. The run ends at the first blocked
pair, and what it has done until then stays done.

What a run does makes no path lead nowhere: it removes own entries of files, which paths meet last,
and makes files where nothing was. So only those pairs can be blocked whose outputs led nowhere from
the beginning.

* `Session.Reworked` — what has become of a tree in the course of a run, whatever its outputs meet
* `Session.Reworked.leads` — a path that led somewhere still does
* `Session.Blocked` — a run comes to a pair and cannot write its output
* `Session.run_fails_iff_blocked` — a run fails exactly at a blocked pair
-/

namespace NearDup.Merge

open NearDup.Tree Effect

namespace Session

variable {s : Session} {r : Report} {t t₁ t₂ t' : Tree} {p p' : Progress}
  {names inputs : List String} {path : String} {new : Location} {pair : PairEntry}
  {pairs : List PairEntry}

/-! ## What a run does to paths -/

/-- Since the tree was `t`, it has changed only where nothing was or where files among `names` had
their own entries; and nothing is there now, or a file. -/
def Reworked (s : Session) (names : List String) (t t' : Tree) : Prop :=
  ∀ loc, t'.get? loc ≠ t.get? loc →
    (t.get? loc = none ∨ ∃ name ∈ names, t.Owns (s.pathOf name) loc) ∧
    (t'.get? loc = none ∨ ∃ bytes, t'.get? loc = some (.file bytes))

theorem Clears.reworked (h : s.Clears names t t') : s.Reworked names t t' := by
  intro loc hne
  obtain ⟨name, hn, -, ho⟩ := h.owned loc hne
  exact ⟨Or.inr ⟨name, hn, ho⟩, Or.inl ((h.thinner loc).resolve_left hne)⟩

theorem Reworked.mono {names' : List String} (h : s.Reworked names t t') (hs : names ⊆ names') :
    s.Reworked names' t t' := by
  intro loc hne
  refine (h loc hne).imp_left (Or.imp_right ?_)
  rintro ⟨name, hn, ho⟩
  exact ⟨name, hs hn, ho⟩

theorem Reworked.put (h : s.Reworked names t t₁) (hfree : t₁.get? new = none)
    (bytes : List UInt8) : s.Reworked names t (t₁.put new (.file bytes)) := by
  intro loc hne
  by_cases hl : loc = new
  · -- what is free now was free from the beginning, or has been cleared since
    subst hl
    refine ⟨?_, Or.inr ⟨bytes, get?_put_self t₁ _ (isAbove_of_get?_eq_none hfree)⟩⟩
    by_cases hnone : t.get? loc = none
    · exact Or.inl hnone
    · exact (h loc (by rw [hfree]; exact Ne.symm hnone)).1
  · rw [get?_put_ne t₁ _ hl] at hne ⊢
    exact h loc hne

/-- An entry that has not changed is owned now by the paths that owned it before. -/
theorem Reworked.owns (h : s.Reworked names t t₁) {own : Location} (ho : t₁.Owns path own)
    (hsame : t₁.get? own = t.get? own) : t.Owns path own := by
  obtain ⟨x, hx, hd⟩ := id ho
  rcases resolve_eq_or_meets t t₁ .kept path with he | ⟨cut, rest, hne, hm⟩
  · exact ⟨x, he.symm.trans hx, hd⟩
  · -- the path ends where the tree has changed, which is not at its own entry
    have hnow := hm t₁ (.right t t₁)
    rcases (h cut hne).2 with hnone | ⟨bytes, hfile⟩
    · rw [hnow.resolve_free hnone] at hx
      split at hx <;> cases hx
    · rw [hnow.resolve_file hfile] at hx
      split at hx
      · cases hx
        exact absurd hsame hne
      · cases hx

theorem Reworked.clear (h : s.Reworked names t t₁) (hc : s.Clears inputs t₁ t₂)
    (hi : inputs ⊆ names) : s.Reworked names t t₂ := by
  intro loc hne
  by_cases he : t₂.get? loc = t₁.get? loc
  · rw [he] at hne ⊢
    exact h loc hne
  · refine ⟨?_, Or.inl ((hc.thinner loc).resolve_left he)⟩
    by_cases hsame : t₁.get? loc = t.get? loc
    · -- the entry is from the beginning, and so is the name that leads to it
      obtain ⟨name, hn, -, ho⟩ := hc.owned loc he
      exact Or.inr ⟨name, hi hn, h.owns ho hsame⟩
    · exact (h loc hsame).1

/-- **A path that led somewhere still leads somewhere**: what has changed on its way it met last. -/
theorem Reworked.leads (h : s.Reworked names t t') (hf : s.Files t names) (hl : t.Leads path) :
    t'.Leads path := by
  obtain ⟨place, hplace⟩ := hl
  rcases resolve_eq_or_meets t t' .followed path with he | ⟨cut, rest, hne, hm⟩
  · exact ⟨place, he.trans hplace⟩
  · have hthen := hm t (.left t t')
    have hnow := hm t' (.right t t')
    obtain ⟨hbefore, hafter⟩ := h cut hne
    -- behind a free name and behind the own entry of a file no path leads anywhere
    have hrest : rest = [] := by
      rcases hbefore with hnone | ⟨name, hn, ho⟩
      · rw [hthen.resolve_free hnone] at hplace
        split at hplace
        · next hrest => exact hrest
        · cases hplace
      · obtain ⟨loc, bytes, hfind⟩ := hf name hn
        exact (ho.find_eq hfind hthen hplace).1
    subst hrest
    rcases hafter with hnone | ⟨bytes, hfile⟩
    · exact ⟨_, hnow.resolve_free hnone⟩
    · exact ⟨_, hnow.resolve_file hfile⟩

theorem Reworked.combine (live : s.trial = false) (hj : s.journal = none) (change : Change)
    (asked : Option String) (hi : inputs ⊆ names) (h : s.Reworked names t p.tree) :
    s.Reworked names t ((s.combine change inputs asked).perform p).2.tree := by
  rcases s.combine_live_cases live hj change inputs asked p with
    ⟨_, -, he⟩ | ⟨_, he⟩ | ⟨docs, new, -, hv, he⟩
  · rw [he]
    exact h
  · rw [he]
    exact h
  · rw [he]
    exact (h.put (meets_of_vacant hv).2 _).clear (s.clears_replace inputs docs new p.tree) hi

theorem Reworked.mergePairs (live : s.trial = false) (hj : s.journal = none)
    (hin : ∀ pair ∈ pairs, [pair.file1, pair.file2] ⊆ names) (h : s.Reworked names t p.tree) :
    s.Reworked names t ((s.mergePairs pairs).perform p).2.tree := by
  refine mergePairs_preserves (P := fun p => s.Reworked names t p.tree) ?_ h
  intro pair hp q hq
  exact hq.combine live hj .merged none (hin pair hp)

/-! ## How a run ends -/

/-- A run that ends well has changed the tree only as a run does, and used up all copies. -/
theorem reworked_of_run (live : s.trial = false) (hj : s.journal = none)
    (hd : t.isDir s.inbox = true) (hcopies : copiesOf r.exact ⊆ names)
    (hin : ∀ pair ∈ r.similar, [pair.file1, pair.file2] ⊆ names) {outcome : Outcome}
    (h : (s.run r).perform (.start t) = (.ok outcome, p)) :
    s.Reworked names t p.tree ∧ copiesOf r.exact ⊆ p.consumed := by
  obtain ⟨merges, hm, -⟩ := (perform_run_eq_ok_iff (Or.inr hj) hd).1 h
  constructor
  · have hremoved : (s.useCopies (copiesOf r.exact) (.start t)).1 ⊆ names :=
      fun n hn => hcopies ((nodup_useCopies _ _).2 n hn).1
    have hstart := (clears_useCopies live (copiesOf r.exact) (.start t)).reworked.mono hremoved
    have hend := Reworked.mergePairs live hj hin hstart
    rwa [hm] at hend
  · have hconsumed : (s.useCopies (copiesOf r.exact) (.start t)).2.consumed ⊆
        ((s.mergePairs r.similar).perform (s.useCopies (copiesOf r.exact) (.start t)).2).2.consumed :=
      (once_doneEach s.once_mergePair r.similar _).consumed
    rw [hm] at hconsumed
    exact fun n hn => hconsumed (mem_consumed_afterCopies.2 hn)

/-! ## Blocked pairs -/

/-- A run comes to a pair, having carried out all that the report says before it, and cannot write
its output: the pair has enough overlap and is not to be skipped, but the output leads nowhere. -/
structure Blocked (s : Session) (r : Report) (t : Tree) (pair : PairEntry) (p : Progress) :
    Prop where
  turn : ∃ before after outcome, r.similar = before ++ pair :: after ∧
    (s.run { r with similar := before }).perform (.start t) = (.ok outcome, p)
  enough : s.leastOverlap.le pair.overlap = true
  due : ¬s.Skips p [pair.file1, pair.file2] (outputName pair.file1)
  nowhere : ¬p.tree.Leads (s.pathOf (outputName pair.file1))

/-- At a blocked pair the run ends, and what it has done before stays done. -/
theorem Blocked.perform_run (live : s.trial = false) (hj : s.journal = none)
    (hd : t.isDir s.inbox = true) (h : s.Blocked r t pair p) :
    ∃ fault, (s.run r).perform (.start t) =
      (.error (.io (s.pathOf (outputName pair.file1)) fault),
        claimed p [pair.file1, pair.file2] (outputName pair.file1)) := by
  obtain ⟨⟨before, after, outcome, hsimilar, hrun⟩, henough, hdue, hnowhere⟩ := h
  obtain ⟨merges, hm, -⟩ := (perform_run_eq_ok_iff (Or.inr hj) hd).1 hrun
  rw [← outputFor_none pair.file1 [pair.file2]] at hdue hnowhere
  obtain ⟨fault, hc⟩ := exists_error_of_not_leads live hj .merged hdue hnowhere
  refine ⟨fault, (perform_run_eq_error_iff (Or.inr hj) hd).2 ?_⟩
  exact perform_forEach_eq_error_iff.2 ⟨before, pair, after, merges, p, hsimilar, hm,
    perform_mergePair_eq_error.2 ⟨henough, hc⟩⟩

/-- A run that fails comes to a blocked pair. -/
theorem exists_blocked_of_error (live : s.trial = false) (hj : s.journal = none)
    (hd : t.isDir s.inbox = true) {f : Failure}
    (h : (s.run r).perform (.start t) = (.error f, p')) : ∃ pair p, s.Blocked r t pair p := by
  obtain ⟨before, pair, after, merges, p, hsimilar, hbefore, hpair⟩ :=
    perform_forEach_eq_error_iff.1 ((perform_run_eq_error_iff (Or.inr hj) hd).1 h)
  obtain ⟨henough, hc⟩ := perform_mergePair_eq_error.1 hpair
  obtain ⟨hdue, hnowhere⟩ := not_leads_of_combine_error live hj hc
  exact ⟨pair, p, ⟨before, after, _, hsimilar,
    (perform_run_eq_ok_iff (Or.inr hj) hd).2 ⟨merges, hbefore, rfl⟩⟩, henough, hdue, hnowhere⟩

/-- A blocked pair is a candidate, and its output led nowhere before the run. -/
theorem Blocked.not_leads (live : s.trial = false) (hj : s.journal = none)
    (hd : t.isDir s.inbox = true) (hf : s.Files t names) (hcopies : copiesOf r.exact ⊆ names)
    (hin : ∀ pair ∈ r.similar, [pair.file1, pair.file2] ⊆ names) (h : s.Blocked r t pair p) :
    pair ∈ s.candidates r ∧ ¬t.Leads (s.pathOf (outputName pair.file1)) := by
  obtain ⟨⟨before, after, outcome, hsimilar, hrun⟩, henough, hdue, hnowhere⟩ := h
  have hbefore : ∀ pair ∈ before, [pair.file1, pair.file2] ⊆ names :=
    fun pair hp => hin pair (by rw [hsimilar]; exact List.mem_append_left _ hp)
  obtain ⟨hreworked, hconsumed⟩ :=
    reworked_of_run (r := { r with similar := before }) live hj hd hcopies hbefore hrun
  have hnew := consumedInput?_eq_none_iff.1 (not_skips_iff.1 hdue).1
  refine ⟨mem_candidates.2 ⟨by simp [hsimilar], henough, fun n hn hc => ?_⟩, fun hl => ?_⟩
  · exact hnew n hn (hconsumed hc)
  · exact hnowhere (hreworked.leads hf hl)

/-- **A run fails exactly if it comes to a blocked pair.** The error names the path of the output;
the pairs behind it are not looked at, and what was done before stays done. Only a candidate is
blocked whose output leads nowhere from the beginning, so a run ends well if the output of every
candidate leads to an entry or to a free name. -/
theorem run_fails_iff_blocked {settings : AnalysisSettings} {docs : List Document}
    (live : s.trial = false) (hj : s.journal = none) (hw : Inbox.WellNamed t)
    (hl : Inbox.load t s.inbox settings.extensions = .ok docs) :
    let r := Report.ofAnalysis (analyze settings docs)
    ((∃ outcome p, (s.run r).perform (.start t) = (.ok outcome, p)) ↔
      ∀ pair p, ¬s.Blocked r t pair p) ∧
    (∀ pair p, s.Blocked r t pair p →
      (∃ fault, (s.run r).perform (.start t) =
        (.error (.io (s.pathOf (outputName pair.file1)) fault),
          claimed p [pair.file1, pair.file2] (outputName pair.file1))) ∧
      pair ∈ s.candidates r ∧ ¬t.Leads (s.pathOf (outputName pair.file1))) ∧
    ((∀ pair ∈ s.candidates r, t.Leads (s.pathOf (outputName pair.file1))) →
      ∃ outcome p, (s.run r).perform (.start t) = (.ok outcome, p)) := by
  intro r
  have hstored : s.Stored t docs := fun d hd => Inbox.find_of_mem_load hw hl hd
  have hd := (Inbox.load_eq_ok_iff.1 hl).1
  have blocked : ∀ pair p, s.Blocked r t pair p →
      pair ∈ s.candidates r ∧ ¬t.Leads (s.pathOf (outputName pair.file1)) :=
    fun pair p h => h.not_leads live hj hd hstored.files_of_docs copies_subset_docs
      fun pair hp => pair_subset_docs hp
  have ends : (∃ outcome p, (s.run r).perform (.start t) = (.ok outcome, p)) ↔
      ∀ pair p, ¬s.Blocked r t pair p := by
    constructor
    · rintro ⟨outcome, p', hrun⟩ pair p h
      obtain ⟨fault, herror⟩ := h.perform_run live hj hd
      rw [hrun] at herror
      cases herror
    · intro h
      rcases hrun : (s.run r).perform (.start t) with ⟨f | outcome, p⟩
      · obtain ⟨pair, p, hb⟩ := exists_blocked_of_error live hj hd hrun
        exact absurd hb (h pair p)
      · exact ⟨outcome, p, rfl⟩
  refine ⟨ends, fun pair p h => ⟨h.perform_run live hj hd, blocked pair p h⟩, fun hleads => ?_⟩
  refine ends.2 fun pair p h => ?_
  obtain ⟨hc, hnot⟩ := blocked pair p h
  exact hnot (hleads pair hc)

/-! A run whose outputs lead to free names, and one that comes to a link to where nothing is. -/

theorem run_fails_iff_blocked_outputFree :
    Inbox.load outputFree "in" ["md", "txt"] = .ok (documentsOf outputFree) ∧
      (plain.candidates (reportOf outputFree)).length = 1 ∧
      ∃ outcome p, (plain.run (reportOf outputFree)).perform (.start outputFree) =
        (.ok outcome, p) := by
  have hload := load_documentsOf (t := outputFree) (by decide +kernel)
  obtain ⟨hlength, hleads⟩ : (plain.candidates (reportOf outputFree)).length = 1 ∧
      ∀ pair ∈ plain.candidates (reportOf outputFree),
        (outputFree.resolve .followed (plain.pathOf (outputName pair.file1))).toOption ≠ none := by
    decide +kernel
  have h := @run_fails_iff_blocked plain outputFree .default _ rfl rfl (by decide +kernel) hload
  simp only [ofAnalysis_documentsOf] at h
  refine ⟨hload, hlength, h.2.2 fun pair hp => ?_⟩
  cases hr : outputFree.resolve .followed (plain.pathOf (outputName pair.file1)) with
  | error fault => exact absurd (by rw [hr]; rfl) (hleads pair hp)
  | ok place => exact ⟨place, hr⟩

/-- Two equal documents, two that share a line and whose output is a link to where nothing is, and
two more that share a line. -/
def outputNowhere : Tree :=
  ⟨[(["in"], .dir), (["in", "0.md"], .file [0x7A, 0x0A]), (["in", "1.md"], .file [0x7A, 0x0A]),
    (["in", "a.md"], .file [0x70, 0x0A, 0x71, 0x0A]), (["in", "a-merged.md"], .link "gone/x.md"),
    (["in", "b.md"], .file [0x70, 0x0A, 0x72, 0x0A]),
    (["in", "e.md"], .file [0x73, 0x0A, 0x74, 0x0A]),
    (["in", "f.md"], .file [0x73, 0x0A, 0x75, 0x0A])]⟩

/-- **A run fails at an output that cannot be written.** The copy is removed by then, and the pair
behind is not merged. -/
theorem not_ok_run_outputNowhere :
    outputNowhere.isDir "in" = true ∧
      Inbox.load outputNowhere "in" ["md", "txt"] = .ok (documentsOf outputNowhere) ∧
      (plain.run (reportOf outputNowhere)).perform (.start outputNowhere) =
        (.error (.io "in/a-merged.md" .noEntry),
          ⟨["a.md", "b.md", "1.md"], ["a-merged.md"], outputNowhere.erase ["in", "1.md"]⟩) ∧
      (plain.candidates (reportOf outputNowhere)).map (fun pair => (pair.file1, pair.file2)) =
        [("a.md", "b.md"), ("e.md", "f.md")] := by
  have hd : outputNowhere.isDir "in" = true := by decide +kernel
  exact ⟨hd, load_documentsOf hd, by decide +kernel⟩

end Session

end NearDup.Merge
