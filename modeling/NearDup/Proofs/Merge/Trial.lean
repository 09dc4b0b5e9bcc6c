import NearDup.Proofs.Merge.Outcome
import NearDup.Proofs.Merge.Plan
import NearDup.Proofs.Merge.Since
import NearDup.Proofs.Merge.Survival

/-!
# What a trial run says

A trial says what a live run does exactly if its plan can be carried out. It can if the names of the
report do not depend on each other; but a trial says that an output is taken also where a copy has
its name, and a live run has removed the copy by then.

* `Independent` — no removal changes what other names lead to, and outputs do not meet
* `Tracked` — how far a live session is while its trial goes on
* `run_eq_trial_iff` — when a live run does what the trial says
-/

namespace NearDup.Merge

open NearDup.Tree Effect

namespace Session

variable {s : Session} {r : Report} {t : Tree} {p p' : Progress} {names gone : List String}
  {groups : List GroupEntry} {pairs : List PairEntry}

/-! ## When a trial is right -/

/-- The names that a report speaks of do not depend on each other: a file of `gone` that is removed
alone takes no other file away and leaves every output where it leads, and no two outputs lead to
one free name. -/
structure Independent (s : Session) (r : Report) (t : Tree) (gone : List String) : Prop where
  copies : ∀ n ∈ gone, ∀ m ∈ copiesOf r.exact, m ≠ n →
    (s.removeFile n t).2.has (s.pathOf m) = true
  inputs : ∀ n ∈ gone, ∀ pair ∈ s.candidates r, ∀ m ∈ [pair.file1, pair.file2], m ≠ n →
    (s.removeFile n t).2.has (s.pathOf m) = true
  outputs : ∀ pair ∈ s.candidates r, s.Undisturbed t gone (s.pathOf (outputName pair.file1))
  apart : ∀ pair ∈ s.candidates r, ∀ pair' ∈ s.candidates r, ∀ loc,
    t.resolve .followed (s.pathOf (outputName pair.file1)) = .ok (.vacant loc) →
    t.resolve .followed (s.pathOf (outputName pair'.file1)) = .ok (.vacant loc) →
    outputName pair.file1 = outputName pair'.file1

/-- A live session removes the copies that the trial names, and is as far as the trial but for its
tree. -/
theorem useCopies_eq_onTrial (live : s.trial = false) {copies : List String}
    (hf : s.Files t copies) (hfree : ∀ n ∈ copies, ∀ m ∈ copies, m ≠ n →
      (s.removeFile n t).2.has (s.pathOf m) = true)
    (h : s.UsedUp t p) (hc : p.consumed ⊆ copies) (hn : names ⊆ copies) :
    (s.useCopies names p).1 = (s.onTrial.useCopies names { p with tree := t }).1 ∧
      { (s.useCopies names p).2 with tree := t } =
        (s.onTrial.useCopies names { p with tree := t }).2 := by
  induction names generalizing p with
  | nil => exact ⟨rfl, rfl⟩
  | cons name rest ih =>
    obtain ⟨hname, hrest⟩ := List.cons_subset.1 hn
    by_cases hused : name ∈ p.consumed
    · rw [useCopies_cons_of_mem hused,
        useCopies_cons_of_mem (s := s.onTrial) (p := { p with tree := t }) hused]
      exact ih h hc hrest
    · -- the file is still there, since no file removed before takes it away
      obtain ⟨loc, bytes, hfind⟩ := hf name hname
      have hnow := h.clears.since.find_eq_of_kept hfind fun n hn =>
        hfree n (hc hn) name hname fun he => hused (he ▸ hn)
      obtain ⟨t', hr⟩ := removeFile_of_find hnow
      have hone : s.Files t [name] := hf.mono (by simpa using hname)
      have hnext := h.removeFile hone
      rw [hr] at hnext
      obtain ⟨hremoved, hprogress⟩ := ih hnext (List.cons_subset.2 ⟨hname, hc⟩) hrest
      rw [useCopies_cons_of_removed live hused hr,
        useCopies_onTrial_cons_of_has (p := { p with tree := t }) hused (has_of_find hfind)]
      exact ⟨congrArg (name :: ·) hremoved, hprogress⟩

/-- What is said of groups is what the trial says. -/
theorem copyActions_eq_onTrial (live : s.trial = false) {copies : List String}
    (hf : s.Files t copies) (hfree : ∀ n ∈ copies, ∀ m ∈ copies, m ≠ n →
      (s.removeFile n t).2.has (s.pathOf m) = true)
    (h : s.UsedUp t p) (hc : p.consumed ⊆ copies) (hn : copiesOf groups ⊆ copies) :
    s.copyActions groups p = s.onTrial.copyActions groups { p with tree := t } := by
  induction groups generalizing p with
  | nil => rfl
  | cons g rest ih =>
    rw [copiesOf_cons, List.append_subset] at hn
    obtain ⟨hremoved, hprogress⟩ := useCopies_eq_onTrial live hf hfree h hc hn.1
    have hused := h.useCopies live (hf.mono hn.1)
    have hcons : (s.useCopies g.files.tail p).2.consumed ⊆ copies := by
      intro n hmem
      exact (mem_consumed_useCopies.1 hmem).elim (fun h => hn.1 h) fun h => hc h
    have hnext := ih hused hcons hn.2
    rw [hprogress] at hnext
    rw [copyActions, copyActions, hnext, hremoved]

/-- A trial names every copy that is there. -/
theorem mem_useCopies_onTrial {n : String} (h : ∀ m ∈ names, p.tree.has (s.pathOf m) = true)
    (hn : n ∈ names) : n ∈ p.consumed ∨ n ∈ (s.onTrial.useCopies names p).1 := by
  induction names generalizing p with
  | nil => simp at hn
  | cons name rest ih =>
    obtain ⟨hname, hrest⟩ := List.forall_mem_cons.1 h
    rcases s.useCopies_onTrial_cons_cases name rest p with ⟨hc, he⟩ | ⟨-, -, he⟩ | ⟨-, hnot, -⟩
    · rw [he]
      rcases List.mem_cons.1 hn with rfl | hn
      · exact Or.inl hc
      · exact ih hrest hn
    · rw [he]
      rcases List.mem_cons.1 hn with rfl | hn
      · exact Or.inr List.mem_cons_self
      · rcases ih (p := { p with consumed := name :: p.consumed }) hrest hn with hc | hr
        · rcases List.mem_cons.1 hc with rfl | hc
          · exact Or.inr List.mem_cons_self
          · exact Or.inl hc
        · exact Or.inr (List.mem_cons_of_mem _ hr)
    · rw [hname] at hnot
      cases hnot

/-- How far a live session is while its trial goes on in the tree `t` as it was: only files used up
were removed, and only outputs were made. -/
structure Tracked (s : Session) (r : Report) (t : Tree) (p : Progress) : Prop where
  since : s.Since p.consumed t p.tree
  files : s.Files t p.consumed
  copies : copiesOf r.exact ⊆ p.consumed
  planned : ∀ output ∈ p.planned, ∃ pair ∈ s.candidates r, output = outputName pair.file1
  made : ∀ loc, t.get? loc = none → p.tree.get? loc ≠ none → ∃ output ∈ p.planned,
    t.resolve .followed (s.pathOf output) = .ok (.vacant loc)

/-- An output is taken in the one tree exactly if it is in the other. -/
theorem Tracked.isTaken_eq (h : s.Tracked r t p) (hi : s.Independent r t gone)
    (hg : p.consumed ⊆ gone) {pair : PairEntry} (hcand : pair ∈ s.candidates r) :
    s.isTaken p (outputName pair.file1) =
      s.isTaken { p with tree := t } (outputName pair.file1) := by
  by_cases hplan : outputName pair.file1 ∈ p.planned
  · simp [isTaken, hplan]
  · have hu : s.Undisturbed t p.consumed (s.pathOf (outputName pair.file1)) :=
      fun n hn => hi.outputs pair hcand n (hg hn)
    have hhas : p.tree.has (s.pathOf (outputName pair.file1)) =
        t.has (s.pathOf (outputName pair.file1)) := by
      rcases h.since.resolve_cases hu with he | ⟨l, bytes, hv, hfind⟩ | ⟨⟨f, hf⟩, f', hf'⟩
      · simp [has, find, he]
      · -- what was made there is another output, so that one leads to the same free name
        exfalso
        have hfree := (meets_of_vacant hv).2
        have hfile := (meets_of_entry (find_eq_ok_iff.1 hfind) (by simp)).2
        obtain ⟨output, ho, hv'⟩ := h.made l hfree (by simp [hfile])
        obtain ⟨pair', hcand', rfl⟩ := h.planned output ho
        exact hplan (hi.apart pair hcand pair' hcand' l hv hv' ▸ ho)
      · simp [has, find, hf, hf', bind, Except.bind]
    simp [isTaken, hhas]

/-- The files of a pair that are not used up are still read, since none that is used up takes them
away. -/
theorem Tracked.read_eq (h : s.Tracked r t p) (hi : s.Independent r t gone)
    (hg : p.consumed ⊆ gone) {pair : PairEntry} (hcand : pair ∈ s.candidates r)
    (hnot : ∀ n ∈ [pair.file1, pair.file2], n ∉ p.consumed)
    (hf : s.Files t [pair.file1, pair.file2]) :
    ∀ n ∈ [pair.file1, pair.file2], ∃ bytes, t.read (s.pathOf n) = .ok bytes ∧
      p.tree.read (s.pathOf n) = .ok bytes := by
  intro n hn
  obtain ⟨loc, bytes, hfind⟩ := hf n hn
  have hnow := h.since.find_eq_of_kept hfind fun m hm =>
    hi.inputs m (hg hm) pair hcand n hn fun he => hnot n hn (he ▸ hm)
  exact ⟨bytes, read_eq_ok_iff.2 ⟨loc, hfind⟩, read_eq_ok_iff.2 ⟨loc, hnow⟩⟩

/-- A pair is merged into a page at a free name to which its output leads. -/
theorem Tracked.replace (h : s.Tracked r t p) {pair : PairEntry} {docs : List Document}
    {new : Location} (hcand : pair ∈ s.candidates r) (hf : s.Files t [pair.file1, pair.file2])
    (hv : t.resolve .followed (s.pathOf (outputName pair.file1)) = .ok (.vacant new)) :
    s.Tracked r t
      { claimed p [pair.file1, pair.file2] (outputName pair.file1) with
        tree := s.replace [pair.file1, pair.file2] docs new p.tree } := by
  have hclears := s.clears_replace [pair.file1, pair.file2] docs new p.tree
  have hsince := h.since.mono (List.subset_append_right [pair.file1, pair.file2] p.consumed)
  refine ⟨(hsince.put (meets_of_vacant hv).2 _).clear hclears (List.subset_append_left _ _) hf,
    ?_, ?_, ?_, ?_⟩
  · intro n hn
    exact (List.mem_append.1 hn).elim (hf n) (h.files n)
  · exact fun n hn => List.mem_append_right _ (h.copies hn)
  · intro o ho
    rcases List.mem_cons.1 ho with rfl | ho
    · exact ⟨pair, hcand, rfl⟩
    · exact h.planned o ho
  · intro loc hfree hthere
    have hput := (hclears.thinner loc).resolve_right hthere
    rw [hput] at hthere
    by_cases hloc : loc = new
    · exact ⟨_, List.mem_cons_self, hloc ▸ hv⟩
    · rw [get?_put_ne p.tree _ hloc] at hthere
      obtain ⟨o, ho, hvo⟩ := h.made loc hfree hthere
      exact ⟨o, List.mem_cons_of_mem _ ho, hvo⟩

/-- **A request is answered by a live session as the trial says.** -/
theorem Tracked.combine (live : s.trial = false) (hj : s.journal = none) {pair : PairEntry}
    {a b : Action} {q : Progress} (h : s.Tracked r t p) (hi : s.Independent r t gone)
    (hg : p.consumed ⊆ gone) (hpair : pair ∈ r.similar)
    (hle : s.leastOverlap.le pair.overlap = true) (hf : s.Files t [pair.file1, pair.file2])
    (hl : (s.combine .merged [pair.file1, pair.file2] none).perform p = (.ok a, p'))
    (hd : (s.onTrial.combine .merged [pair.file1, pair.file2] none).perform
      { p with tree := t } = (.ok b, q)) :
    a = b ∧ { p' with tree := t } = q ∧ s.Tracked r t p' ∧
      p'.consumed ⊆ b.removes ++ p.consumed := by
  cases hused : consumedInput? p [pair.file1, pair.file2] with
  | some name =>
    rw [perform_combine_of_consumed hused] at hl
    rw [perform_combine_of_consumed (s := s.onTrial) (p := { p with tree := t }) hused] at hd
    cases hl
    cases hd
    exact ⟨rfl, rfl, h, by simp [Action.removes]⟩
  | none =>
    have hnot := consumedInput?_eq_none_iff.1 hused
    have hcand : pair ∈ s.candidates r :=
      mem_candidates.2 ⟨hpair, hle, fun n hn hcopy => hnot n hn (h.copies hcopy)⟩
    have htaken := h.isTaken_eq hi hg hcand
    rw [← outputFor_none pair.file1 [pair.file2]] at htaken
    cases ht : s.isTaken p (outputFor [pair.file1, pair.file2] none) with
    | true =>
      rw [perform_combine_of_taken hused ht] at hl
      rw [perform_combine_of_taken (s := s.onTrial) (p := { p with tree := t }) hused
        (htaken.symm.trans ht)] at hd
      cases hl
      cases hd
      exact ⟨rfl, rfl, h, by simp [Action.removes]⟩
    | false =>
      have hu : s.Undisturbed t p.consumed (s.pathOf (outputFor [pair.file1, pair.file2] none)) :=
        fun n hn => hi.outputs pair hcand n (hg hn)
      have hread := h.read_eq hi hg hcand hnot hf
      obtain ⟨docs, hr⟩ := exists_ok_readInputs (s := s) (t := t) fun n hn =>
        (hread n hn).imp fun _ hb => hb.1
      rw [perform_combine_of_read (s := s.onTrial) (p := { p with tree := t }) hused
        (htaken.symm.trans ht) hr, perform_carryOut_of_trial rfl] at hd
      cases hd
      rcases s.combine_live_cases live hj .merged [pair.file1, pair.file2] none p with
        ⟨_, ha, he⟩ | ⟨_, he⟩ | ⟨docs', new, -, hv, he⟩
      · -- there is no reason for a skip
        exfalso
        rcases (skips_of_combine he ha).2 with ⟨n, hn, hmem⟩ | ht' | ⟨n, hn, hnone⟩
        · exact hnot n hn hmem
        · rw [ht] at ht'
          cases ht'
        · obtain ⟨bytes, -, hb⟩ := hread n hn
          exact hnone bytes hb
      · rw [he] at hl
        cases hl
      · rw [he] at hl
        cases hl
        refine ⟨rfl, rfl, h.replace hcand hf (h.since.resolve_vacant hu hv), ?_⟩
        rw [removes_madeAction]
        exact List.Subset.refl _

/-- **Pairs are merged by a live session as the trial says.** -/
theorem Tracked.mergePairs (live : s.trial = false) (hj : s.journal = none)
    {lives trials : List Action} {q : Progress} (h : s.Tracked r t p)
    (hi : s.Independent r t gone) (hg : p.consumed ⊆ gone) (hs : pairs ⊆ r.similar)
    (hf : ∀ pair ∈ pairs, s.Files t [pair.file1, pair.file2])
    (hl : (s.mergePairs pairs).perform p = (.ok lives, p'))
    (hd : (s.onTrial.mergePairs pairs).perform { p with tree := t } = (.ok trials, q))
    (ht : trials.flatMap Action.removes ⊆ gone) : lives = trials := by
  unfold Session.mergePairs at hl hd
  induction pairs generalizing p lives trials with
  | nil =>
    cases hl
    cases hd
    rfl
  | cons pair rest ih =>
    obtain ⟨hspair, hsrest⟩ := List.cons_subset.1 hs
    obtain ⟨hfpair, hfrest⟩ := List.forall_mem_cons.1 hf
    obtain ⟨a, p₁, as, hstep, hrest, rfl⟩ := perform_forEach_cons_eq_ok.1 hl
    obtain ⟨b, q₁, bs, hstep', hrest', rfl⟩ := perform_forEach_cons_eq_ok.1 hd
    rw [List.flatMap_append, List.append_subset] at ht
    rcases perform_mergePair_eq_ok.1 hstep with ⟨hle, action, rfl, hc⟩ | ⟨hle, rfl, rfl⟩
    · rcases perform_mergePair_eq_ok.1 hstep' with ⟨-, action', rfl, hc'⟩ | ⟨hle', -⟩
      · obtain ⟨rfl, rfl, h₁, hg₁⟩ := h.combine live hj hi hg hspair hle hfpair hc hc'
        have hgone : action.removes ⊆ gone := by simpa using ht.1
        have hg₁' : p₁.consumed ⊆ gone :=
          fun n hn => (List.mem_append.1 (hg₁ hn)).elim (fun h => hgone h) fun h => hg h
        rw [ih h₁ hg₁' hsrest hfrest hrest hrest' ht.2]
      · rw [show s.leastOverlap.le pair.overlap = false from hle'] at hle
        cases hle
    · rcases perform_mergePair_eq_ok.1 hstep' with ⟨hle', -⟩ | ⟨-, rfl, rfl⟩
      · rw [show s.leastOverlap.le pair.overlap = true from hle'] at hle
        cases hle
      · rw [ih h hg hsrest hfrest hrest hrest' ht.2]

variable {settings : AnalysisSettings} {docs : List Document}

/-- When the copies are used up, the pairs have their turn. -/
theorem tracked_afterCopies (live : s.trial = false) (hf : s.Files t (copiesOf r.exact)) :
    s.Tracked r t (s.useCopies (copiesOf r.exact) (.start t)).2 := by
  have hused := (s.usedUp_start t).useCopies live hf
  refine ⟨hused.clears.since, hf.mono fun n hn => mem_consumed_afterCopies.1 hn,
    fun n hn => mem_consumed_afterCopies.2 hn, ?_, ?_⟩
  · rw [planned_useCopies]
    simp [Progress.start]
  · intro loc hnone hthere
    rcases hused.clears.thinner loc with he | he
    · exact absurd (he.trans hnone) hthere
    · exact absurd he hthere

/-- A trial says of every copy that it was removed. -/
theorem copiesOf_subset_onTrial (hf : s.Files t (copiesOf r.exact)) :
    copiesOf r.exact ⊆ (s.onTrial.useCopies (copiesOf r.exact) (.start t)).1 := by
  intro n hn
  have hhas : ∀ m ∈ copiesOf r.exact, t.has (s.pathOf m) = true := by
    intro m hm
    obtain ⟨loc, bytes, hfind⟩ := hf m hm
    exact has_of_find hfind
  rcases mem_useCopies_onTrial (p := .start t) hhas hn with hmem | hmem
  · simp [Progress.start] at hmem
  · exact hmem

/-- What a live run says is what the trial says, if the names do not depend on each other. -/
theorem run_eq_trial_of_independent (live : s.trial = false) (hj : s.journal = none)
    (hf : s.Files t (copiesOf r.exact))
    (hfs : ∀ pair ∈ r.similar, s.Files t [pair.file1, pair.file2])
    (hdir : t.isDir s.inbox = true) {outcome plan : Outcome} {q : Progress}
    (hl : (s.run r).perform (.start t) = (.ok outcome, p))
    (hd : (s.onTrial.run r).perform (.start t) = (.ok plan, q))
    (hi : s.Independent r t plan.removes) : outcome = plan := by
  obtain ⟨lives, hml, rfl⟩ := (perform_run_eq_ok_iff (Or.inr hj) hdir).1 hl
  obtain ⟨trials, hmd, rfl⟩ := (perform_run_eq_ok_iff (s := s.onTrial) (Or.inl rfl) hdir).1 hd
  rw [removes_copyActions_append] at hi
  have hgone : copiesOf r.exact ⊆ (s.onTrial.useCopies (copiesOf r.exact) (.start t)).1 ++
      trials.flatMap Action.removes :=
    fun n hn => List.mem_append_left _ (copiesOf_subset_onTrial hf hn)
  have hfree : ∀ n ∈ copiesOf r.exact, ∀ m ∈ copiesOf r.exact, m ≠ n →
      (s.removeFile n t).2.has (s.pathOf m) = true :=
    fun n hn m hm hne => hi.copies n (hgone hn) m hm hne
  have hstart : (Progress.start t).consumed ⊆ copiesOf r.exact := by simp [Progress.start]
  have hprogress : { (s.useCopies (copiesOf r.exact) (.start t)).2 with tree := t } =
      (s.onTrial.useCopies (copiesOf r.exact) (.start t)).2 :=
    (useCopies_eq_onTrial live hf hfree (s.usedUp_start t) hstart (List.Subset.refl _)).2
  rw [← hprogress] at hmd
  have hmerges := (tracked_afterCopies live hf).mergePairs live hj hi
    (fun n hn => hgone (mem_consumed_afterCopies.1 hn)) (List.Subset.refl _) hfs hml hmd
    (List.subset_append_right _ _)
  rw [copyActions_eq_onTrial live hf hfree (s.usedUp_start t) hstart (List.Subset.refl _), hmerges]
  rfl

/-- Plans do not speak of the journal. -/
theorem CarriesOut.with_journal {planned : List String} {actions : List Action}
    (journal : Option String) (h : s.CarriesOut planned t actions) :
    ({ s with journal } : Session).CarriesOut planned t actions := by
  have hsame : ({ s with journal } : Session).inbox = s.inbox := rfl
  induction h with
  | done planned t => exact .done planned t
  | deduplicate kept gone _ ih =>
    exact .deduplicate kept ((removeFiles_congr hsame _ _).trans gone) ih
  | merge free readable written _ ih =>
    rw [← removeFiles_congr hsame] at ih
    exact .merge free readable written ih
  | skipConsumed inputs name _ ih => exact .skipConsumed inputs name ih
  | skipCollision inputs taken _ ih => exact .skipCollision inputs taken ih
  | skipUnreadable unreadable _ ih => exact .skipUnreadable unreadable ih

/-- A live run does what the trial says exactly if that can be carried out. -/
theorem run_eq_plan_iff (live : s.trial = false) (hj : s.journal = none)
    (hfs : ∀ pair ∈ r.similar, s.Files t [pair.file1, pair.file2])
    (hdir : t.isDir s.inbox = true) {plan : Outcome}
    (hd : (s.onTrial.run r).perform (.start t) = (.ok plan, p)) :
    ((s.run r).perform (.start t)).1 = .ok plan ↔ s.CarriesOut [] t plan.actions := by
  obtain ⟨merges, hm, rfl⟩ := (perform_run_eq_ok_iff (s := s.onTrial) (Or.inl rfl) hdir).1 hd
  constructor
  · intro h
    obtain ⟨merges', hlive, he⟩ :=
      (perform_run_eq_ok_iff (Or.inr hj) hdir).1 (Prod.fst_eq_iff.1 h)
    have hpairs := carriesOut_mergePairs live hj hlive
    rw [planned_useCopies] at hpairs
    rw [he]
    exact carriesOut_copyActions live r.exact (.start t) hpairs
  · intro h
    obtain ⟨hcopies, t', hend, hrest⟩ := h.copyActions live (p := .start t) (Thinner.refl t)
    have hread : ∀ pair ∈ r.similar, ∀ name ∈ [pair.file1, pair.file2],
        ∃ bytes, (s.onTrial.useCopies (copiesOf r.exact) (.start t)).2.tree.read
          (s.pathOf name) = .ok bytes := by
      intro pair hp name hn
      obtain ⟨loc, bytes, hf⟩ := hfs pair hp name hn
      rw [tree_useCopies_onTrial]
      exact ⟨bytes, read_eq_ok_iff.2 ⟨loc, hf⟩⟩
    rw [← show (s.onTrial.useCopies (copiesOf r.exact) (.start t)).2.planned = [] from
      planned_useCopies] at hrest
    obtain ⟨p', hlive⟩ := hrest.mergePairs live hj hread hm
    rw [← show (s.useCopies (copiesOf r.exact) (.start t)).2 = _ from hend] at hlive
    rw [(perform_run_eq_ok_iff (Or.inr hj) hdir).2 ⟨merges, hlive, rfl⟩,
      show s.copyActions r.exact (.start t) = _ from hcopies]

/-- **A trial never fails, and leaves the tree. A live run does what the trial says exactly if that
can be carried out**, and where it ends well it does so if the names do not depend on each other. -/
theorem run_eq_trial_iff (live : s.trial = false) (hw : Inbox.WellNamed t)
    (hl : Inbox.load t s.inbox settings.extensions = .ok docs)
    (ha : s.JournalAside t (namesOf docs (Report.ofAnalysis (analyze settings docs)))) :
    let r := Report.ofAnalysis (analyze settings docs)
    ∃ plan p, (s.onTrial.run r).perform (.start t) = (.ok plan, p) ∧ p.tree = t ∧
      (((s.run r).perform (.start t)).1 = .ok plan ↔ s.CarriesOut [] t plan.actions) ∧
      (s.Independent r t plan.removes → ∀ outcome p',
        (s.run r).perform (.start t) = (.ok outcome, p') → outcome = plan) := by
  intro r
  have hstored : s.Stored t docs := fun d hd => Inbox.find_of_mem_load hw hl hd
  have hdir := (Inbox.load_eq_ok_iff.1 hl).1
  have hfs : ∀ pair ∈ r.similar, s.Files t [pair.file1, pair.file2] :=
    fun pair hp => hstored.files_of_mem_similar hp
  obtain ⟨merges, p, hm, ht⟩ := s.exists_ok_mergePairs_onTrial r.similar
    (s.onTrial.useCopies (copiesOf r.exact) (.start t)).2
  rw [tree_useCopies_onTrial] at ht
  have htrial : (s.onTrial.run r).perform (.start t) =
      (.ok ⟨s.onTrial.copyActions r.exact (.start t) ++ merges⟩, p) := by
    rw [perform_run (s := s.onTrial) (p := .start t) (Or.inl rfl) hdir, hm]
    rfl
  -- without the journal nothing is said otherwise, neither by the trial nor by the live run
  have hsilent : (s.silent.onTrial.run r).perform (.start t) = _ :=
    (perform_run_silent (s := s.onTrial) rfl hdir).trans htrial
  have hsame := (hstored.parallel_run live hdir ha).1
  refine ⟨_, p, htrial, ht, ?_, fun hi outcome p' hlive => ?_⟩
  · rw [hsame, run_eq_plan_iff (s := s.silent) live rfl hfs hdir hsilent]
    exact ⟨fun h => h.with_journal s.journal, fun h => h.with_journal none⟩
  · rw [hlive] at hsame
    exact run_eq_trial_of_independent (s := s.silent) live rfl hstored.files hfs hdir
      (Prod.fst_eq_iff.1 hsame.symm) hsilent ⟨hi.copies, hi.inputs, hi.outputs, hi.apart⟩

/-! The trial says that an output is taken by a copy, which the live run has removed by then. -/

theorem run_eq_trial_outputFree :
    Inbox.load outputFree "in" ["md", "txt"] = .ok (documentsOf outputFree) ∧
      withJournal.JournalAside outputFree (namesOf (documentsOf outputFree) (reportOf outputFree)) ∧
      ∃ plan p, (withJournal.onTrial.run (reportOf outputFree)).perform (.start outputFree) =
        (.ok plan, p) ∧ p.tree = outputFree ∧
        withJournal.CarriesOut [] outputFree plan.actions ∧
        withJournal.Independent (reportOf outputFree) outputFree plan.removes ∧
        ∀ outcome p', (withJournal.run (reportOf outputFree)).perform (.start outputFree) =
          (.ok outcome, p') → outcome = plan := by
  have hload := load_documentsOf (t := outputFree) (by decide +kernel)
  obtain ⟨hnames, hplan, hlive, hcopies, hinputs, houtputs, hapart⟩ :
      (∀ name ∈ namesOf (documentsOf outputFree) (reportOf outputFree),
        (outputFree.resolve .followed (withJournal.pathOf name)).toOption ≠ none ∧
        (outputFree.resolve .followed (withJournal.pathOf name)).toOption ≠
          some (outputFree.placeAt ["log"])) ∧
      ((withJournal.onTrial.run (reportOf outputFree)).perform (.start outputFree)).1 =
        .ok ⟨[.deduplicate "0.md" ["1.md"], .merge "a.md" "b.md" "a-merged.md"]⟩ ∧
      ((withJournal.run (reportOf outputFree)).perform (.start outputFree)).1 =
        .ok ⟨[.deduplicate "0.md" ["1.md"], .merge "a.md" "b.md" "a-merged.md"]⟩ ∧
      (∀ n ∈ ["1.md", "a.md", "b.md"], ∀ m ∈ copiesOf (reportOf outputFree).exact, m ≠ n →
        (withJournal.removeFile n outputFree).2.has (withJournal.pathOf m) = true) ∧
      (∀ n ∈ ["1.md", "a.md", "b.md"], ∀ pair ∈ withJournal.candidates (reportOf outputFree),
        ∀ m ∈ [pair.file1, pair.file2], m ≠ n →
        (withJournal.removeFile n outputFree).2.has (withJournal.pathOf m) = true) ∧
      (∀ pair ∈ withJournal.candidates (reportOf outputFree), ∀ n ∈ ["1.md", "a.md", "b.md"],
        ((withJournal.removeFile n outputFree).2.resolve .followed
          (withJournal.pathOf (outputName pair.file1))).toOption =
        (outputFree.resolve .followed (withJournal.pathOf (outputName pair.file1))).toOption) ∧
      ∀ pair ∈ withJournal.candidates (reportOf outputFree),
        outputName pair.file1 = "a-merged.md" := by
    decide +kernel
  have hlog : outputFree.openFile "log" = .ok (["log"], []) := by decide +kernel
  have haside := journalAside_of_resolve (s := withJournal) rfl (by decide +kernel) hlog hnames
  have h := @run_eq_trial_iff withJournal outputFree .default _ rfl (by decide +kernel) hload haside
  simp only [ofAnalysis_documentsOf] at h
  obtain ⟨plan, p, htrial, htree, hiff, hsame⟩ := h
  rw [htrial] at hplan
  cases hplan
  have hindependent : withJournal.Independent (reportOf outputFree) outputFree
      ["1.md", "a.md", "b.md"] :=
    ⟨hcopies, hinputs, houtputs, fun pair hp pair' hp' _ _ _ =>
      (hapart pair hp).trans (hapart pair' hp').symm⟩
  exact ⟨hload, haside, _, p, htrial, htree, hiff.1 hlive, hindependent, hsame hindependent⟩

/-- **A trial can say what a live run does not do.** -/
theorem run_ne_trial_outputIsCopy :
    Inbox.load outputIsCopy "in" ["md", "txt"] = .ok (documentsOf outputIsCopy) ∧
      ((plain.run (reportOf outputIsCopy)).perform (.start outputIsCopy)).1 =
        .ok ⟨[.deduplicate "0.md" ["a-merged.md"], .merge "a.md" "b.md" "a-merged.md"]⟩ ∧
      ((plain.onTrial.run (reportOf outputIsCopy)).perform (.start outputIsCopy)).1 =
        .ok ⟨[.deduplicate "0.md" ["a-merged.md"],
          .skipCollision ["a.md", "b.md"] "a-merged.md"]⟩ := by
  refine ⟨load_documentsOf (by decide +kernel), ?_⟩
  decide +kernel

end Session

end NearDup.Merge
