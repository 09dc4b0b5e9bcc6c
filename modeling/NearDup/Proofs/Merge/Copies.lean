import NearDup.Proofs.Merge.Step

/-!
# Using up copies

The exact groups of a report are gone through one after the other, so what happens to their copies
does not depend on where one group ends. A name is used up once, and a file that was used up in a
live session is gone.

* `perform_removeCopies` — the groups together use up all their copies, and nothing fails
* `UsedUp` — only files that were used up are removed, and they are gone
* `UsedUp.useCopies` — using up copies keeps this
-/

namespace NearDup.Merge

open NearDup.Tree Effect

/-- The files of groups that are not kept. -/
def copiesOf (groups : List GroupEntry) : List String := groups.flatMap fun g => g.files.tail

theorem copiesOf_cons (g : GroupEntry) (groups : List GroupEntry) :
    copiesOf (g :: groups) = g.files.tail ++ copiesOf groups := rfl

/-- What is said of a group of which these files were removed. -/
def copyAction (files removed : List String) : Option Action :=
  match files with
  | [] => none
  | kept :: _ => if removed = [] then none else some (.deduplicate kept removed)

namespace Session

variable {s : Session} {t : Tree} {p : Progress} {name copy path : String} {names : List String}
  {loc : Location} {bytes : List UInt8}

/-! ## Names -/

theorem mem_consumed_useCopy {n : String} :
    n ∈ (s.useCopy name p).2.consumed ↔ n = name ∨ n ∈ p.consumed := by
  unfold useCopy
  split
  · next h =>
    constructor
    · exact Or.inr
    · rintro (rfl | hn)
      · exact h
      · exact hn
  · split <;> exact List.mem_cons

theorem planned_useCopy : (s.useCopy name p).2.planned = p.planned := by
  unfold useCopy
  split
  · rfl
  · split <;> rfl

/-- Using up copies uses up just these. -/
theorem mem_consumed_useCopies {n : String} :
    n ∈ (s.useCopies names p).2.consumed ↔ n ∈ names ∨ n ∈ p.consumed := by
  induction names generalizing p with
  | nil => simp [useCopies]
  | cons name rest ih =>
    rw [useCopies, ih, mem_consumed_useCopy, List.mem_cons]
    constructor
    · rintro (h | h | h)
      · exact Or.inl (Or.inr h)
      · exact Or.inl (Or.inl h)
      · exact Or.inr h
    · rintro ((h | h) | h)
      · exact Or.inr (Or.inl h)
      · exact Or.inl h
      · exact Or.inr (Or.inr h)

theorem planned_useCopies : (s.useCopies names p).2.planned = p.planned := by
  induction names generalizing p with
  | nil => rfl
  | cons name rest ih => rw [useCopies, ih, planned_useCopy]

theorem mem_consumed_afterCopies {n : String} :
    n ∈ (s.useCopies names (.start t)).2.consumed ↔ n ∈ names := by
  rw [mem_consumed_useCopies]
  simp [Progress.start]

/-- A copy that was used up before is left alone. -/
theorem useCopies_cons_of_mem (hc : name ∈ p.consumed) (rest : List String) :
    s.useCopies (name :: rest) p = s.useCopies rest p := by
  simp [useCopies, useCopy, hc]

theorem useCopies_cons_of_removed (live : s.trial = false) {t' : Tree} (hc : name ∉ p.consumed)
    (hr : s.removeFile name p.tree = (true, t')) (rest : List String) :
    s.useCopies (name :: rest) p =
      (name :: (s.useCopies rest { p with consumed := name :: p.consumed, tree := t' }).1,
        (s.useCopies rest { p with consumed := name :: p.consumed, tree := t' }).2) := by
  simp [useCopies, useCopy, hc, live, hr]

theorem useCopies_cons_of_not_removed (live : s.trial = false) (hc : name ∉ p.consumed)
    (hr : s.removeFile name p.tree = (false, p.tree)) (rest : List String) :
    s.useCopies (name :: rest) p =
      s.useCopies rest { p with consumed := name :: p.consumed } := by
  simp [useCopies, useCopy, hc, live, hr]

/-- What becomes of the first of some copies in a live session: it was used up before, it is
removed, or it cannot be removed and the tree stays. -/
theorem useCopies_cons_cases (live : s.trial = false) (name : String) (rest : List String)
    (p : Progress) :
    (name ∈ p.consumed ∧ s.useCopies (name :: rest) p = s.useCopies rest p) ∨
    (name ∉ p.consumed ∧ ∃ t', s.removeFile name p.tree = (true, t') ∧
      s.useCopies (name :: rest) p =
        (name :: (s.useCopies rest { p with consumed := name :: p.consumed, tree := t' }).1,
          (s.useCopies rest { p with consumed := name :: p.consumed, tree := t' }).2)) ∨
    (name ∉ p.consumed ∧ s.removeFile name p.tree = (false, p.tree) ∧
      s.useCopies (name :: rest) p =
        s.useCopies rest { p with consumed := name :: p.consumed }) := by
  by_cases hc : name ∈ p.consumed
  · exact Or.inl ⟨hc, useCopies_cons_of_mem hc rest⟩
  · right
    rcases s.removeFile_cases name p.tree with ⟨own, -, -, hr⟩ | ⟨hr, -⟩
    · exact Or.inl ⟨hc, p.tree.erase own, hr, useCopies_cons_of_removed live hc hr rest⟩
    · exact Or.inr ⟨hc, hr, useCopies_cons_of_not_removed live hc hr rest⟩

/-- Which copies are removed depends on the inbox, and on whether anything is removed at all. -/
theorem useCopies_congr {s' : Session} (hi : s'.inbox = s.inbox) (ht : s'.trial = s.trial)
    (names : List String) (p : Progress) : s'.useCopies names p = s.useCopies names p := by
  have hone : ∀ name p, s'.useCopy name p = s.useCopy name p := by
    intro name p
    unfold useCopy removeFile pathOf
    rw [hi, ht]
  induction names generalizing p with
  | nil => rfl
  | cons name rest ih => simp only [useCopies, hone, ih]

/-! ## Groups -/

theorem useCopies_append (names names' : List String) (p : Progress) :
    s.useCopies (names ++ names') p =
      ((s.useCopies names p).1 ++ (s.useCopies names' (s.useCopies names p).2).1,
        (s.useCopies names' (s.useCopies names p).2).2) := by
  induction names generalizing p with
  | nil => rfl
  | cons name rest ih =>
    simp only [List.cons_append, useCopies, ih]
    split <;> rfl

/-- What is said of groups, one after the other. -/
def copyActions (s : Session) : List GroupEntry → Progress → List Action
  | [], _ => []
  | g :: rest, p =>
    (copyAction g.files (s.useCopies g.files.tail p).1).toList ++
      s.copyActions rest (s.useCopies g.files.tail p).2

theorem perform_removeCopiesOf (hu : s.trial = true ∨ s.journal = none) (g : GroupEntry) :
    (s.removeCopiesOf g).perform p =
      (.ok (copyAction g.files (s.useCopies g.files.tail p).1),
        (s.useCopies g.files.tail p).2) := by
  have hrecord : ∀ change retained removed p,
      (s.record change retained removed).perform p = (.ok (), p) := by
    rcases hu with h | h
    · exact fun change retained removed p => perform_record_of_trial h change retained removed p
    · exact fun change retained removed p => perform_record_of_none h change retained removed p
  unfold removeCopiesOf copyAction
  cases hg : g.files with
  | nil => simp [useCopies]
  | cons kept copies =>
    simp only [perform_bind, perform_modifyGet, List.tail_cons]
    by_cases hr : (s.useCopies copies p).1 = []
    · simp [hr]
    · simp [hr, perform_map, hrecord, Except.map]

/-- **The groups together use up all their copies, and nothing fails.** -/
theorem perform_removeCopies (hu : s.trial = true ∨ s.journal = none) (groups : List GroupEntry) :
    (s.removeCopies groups).perform p =
      (.ok (s.copyActions groups p), (s.useCopies (copiesOf groups) p).2) := by
  unfold removeCopies
  induction groups generalizing p with
  | nil => rfl
  | cons g rest ih =>
    rw [perform_forEach_cons, perform_removeCopiesOf hu]
    simp only [ih]
    rw [copiesOf_cons, useCopies_append]
    rfl

/-- Where its inbox is, a run removes copies and then merges pairs. -/
theorem perform_run_of_isDir {r : Report} (hd : p.tree.isDir s.inbox = true) :
    (s.run r).perform p =
      (do let copies ← s.removeCopies r.exact
          let merges ← s.mergePairs r.similar
          return ⟨copies ++ merges⟩ : Step Outcome).perform p := by
  unfold run
  simp [perform_bind, hd]

theorem perform_run_of_not_isDir {r : Report} (hd : p.tree.isDir s.inbox = false) :
    (s.run r).perform p = (.error (.inboxMissing s.inbox), p) := by
  simp [run, perform_bind, hd]

/-- A run ends well if the groups do and then the pairs do. -/
theorem perform_run_eq_ok {r : Report} {outcome : Outcome} {p' : Progress}
    (hd : p.tree.isDir s.inbox = true) : (s.run r).perform p = (.ok outcome, p') ↔
      ∃ copies p₁ merges, (s.removeCopies r.exact).perform p = (.ok copies, p₁) ∧
        (s.mergePairs r.similar).perform p₁ = (.ok merges, p') ∧
        outcome = ⟨copies ++ merges⟩ := by
  rw [perform_run_of_isDir hd, perform_bind_eq_ok]
  constructor
  · rintro ⟨copies, p₁, hc, h⟩
    obtain ⟨merges, p₂, hm, h⟩ := perform_bind_eq_ok.1 h
    cases h
    exact ⟨copies, p₁, merges, hc, hm, rfl⟩
  · rintro ⟨copies, p₁, merges, hc, hm, rfl⟩
    exact ⟨copies, p₁, hc, perform_bind_eq_ok.2 ⟨merges, p', hm, rfl⟩⟩

/-- A run that ends well has found its inbox. -/
theorem isDir_of_run {r : Report} {outcome : Outcome} {p' : Progress}
    (h : (s.run r).perform p = (.ok outcome, p')) : p.tree.isDir s.inbox = true := by
  rw [← Bool.not_eq_false]
  intro hd
  rw [perform_run_of_not_isDir hd] at h
  cases h

/-- A run uses up the copies and then merges the pairs. -/
theorem perform_run (hu : s.trial = true ∨ s.journal = none) (hd : p.tree.isDir s.inbox = true)
    (r : Report) : (s.run r).perform p =
      (((s.mergePairs r.similar).perform (s.useCopies (copiesOf r.exact) p).2).1.map
          fun merges => ⟨s.copyActions r.exact p ++ merges⟩,
        ((s.mergePairs r.similar).perform (s.useCopies (copiesOf r.exact) p).2).2) := by
  rw [perform_run_of_isDir hd]
  simp only [perform_bind, perform_pure, perform_removeCopies hu]
  rcases hm : (s.mergePairs r.similar).perform (s.useCopies (copiesOf r.exact) p).2
    with ⟨_ | as, p'⟩
  · simp [Except.map]
  · simp [Except.map]

/-- It ends as the merging of the pairs does, once the copies are used up. -/
theorem perform_run_eq_ok_iff (hu : s.trial = true ∨ s.journal = none)
    (hd : p.tree.isDir s.inbox = true) {r : Report} {outcome : Outcome} {p' : Progress} :
    (s.run r).perform p = (.ok outcome, p') ↔ ∃ merges,
      (s.mergePairs r.similar).perform (s.useCopies (copiesOf r.exact) p).2 = (.ok merges, p') ∧
        outcome = ⟨s.copyActions r.exact p ++ merges⟩ := by
  rw [perform_run hu hd]
  rcases (s.mergePairs r.similar).perform (s.useCopies (copiesOf r.exact) p).2
    with ⟨f | merges, p₁⟩
  · simp [Except.map]
  · simp [Except.map, eq_comm, and_comm]

theorem perform_run_eq_error_iff (hu : s.trial = true ∨ s.journal = none)
    (hd : p.tree.isDir s.inbox = true) {r : Report} {f : Failure} {p' : Progress} :
    (s.run r).perform p = (.error f, p') ↔
      (s.mergePairs r.similar).perform (s.useCopies (copiesOf r.exact) p).2 = (.error f, p') := by
  rw [perform_run hu hd]
  rcases (s.mergePairs r.similar).perform (s.useCopies (copiesOf r.exact) p).2
    with ⟨f' | merges, p₁⟩
  · simp [Except.map]
  · simp [Except.map]

/-! ## What is used up -/

/-- What is removed while copies are used up. -/
theorem clears_useCopies (live : s.trial = false) (names : List String) (p : Progress) :
    s.Clears (s.useCopies names p).1 p.tree (s.useCopies names p).2.tree := by
  induction names generalizing p with
  | nil => exact .refl s p.tree
  | cons name rest ih =>
    rcases useCopies_cons_cases live name rest p with ⟨-, he⟩ | ⟨-, t', hr, he⟩ | ⟨-, -, he⟩
    · rw [he]
      exact ih p
    · have hclears := s.clears_removeFile name p.tree
      rw [hr] at hclears
      rw [he]
      exact hclears.trans (ih { p with consumed := name :: p.consumed, tree := t' })
    · rw [he]
      exact ih { p with consumed := name :: p.consumed }

/-- Since the tree was `t`, only files that are used up were removed, and all of them are gone. -/
structure UsedUp (s : Session) (t : Tree) (p : Progress) : Prop where
  clears : s.Clears p.consumed t p.tree
  gone : ∀ name ∈ p.consumed, p.tree.has (s.pathOf name) = false

theorem usedUp_start (s : Session) (t : Tree) : s.UsedUp t (.start t) :=
  ⟨.refl s t, by simp [Progress.start]⟩

/-- Removing one more file keeps what is known of those removed before. -/
theorem UsedUp.removeFile (hf : s.Files t [name]) (h : s.UsedUp t p) :
    s.UsedUp t { p with consumed := name :: p.consumed, tree := (s.removeFile name p.tree).2 } := by
  have hclears := s.clears_removeFile name p.tree
  refine ⟨(h.clears.trans hclears).mono ?_, ?_⟩
  · intro n hn
    rcases List.mem_append.1 hn with hn | hn
    · exact List.mem_cons_of_mem _ hn
    · rw [List.mem_singleton.1 hn]
      exact List.mem_cons_self
  · intro n hn
    rcases List.mem_cons.1 hn with rfl | hn
    · refine has_removeFile ?_
      intro loc x hx
      obtain ⟨loc', bytes, hf⟩ := hf n (by simp)
      rw [h.clears.thinner.find_eq hx] at hf
      cases hf
      exact ⟨bytes, rfl⟩
    · rw [← Bool.not_eq_true]
      intro hhas
      have hbefore := hclears.thinner.has hhas
      rw [h.gone n hn] at hbefore
      cases hbefore

theorem UsedUp.useCopy (live : s.trial = false) (hf : s.Files t [name]) (h : s.UsedUp t p) :
    s.UsedUp t (s.useCopy name p).2 := by
  unfold Session.useCopy
  split
  · exact h
  · rw [if_neg (by simp [live])]
    exact h.removeFile hf

/-- **What is used up is gone, and nothing else is.** -/
theorem UsedUp.useCopies (live : s.trial = false) (hf : s.Files t names) (h : s.UsedUp t p) :
    s.UsedUp t (s.useCopies names p).2 := by
  induction names generalizing p with
  | nil => exact h
  | cons name rest ih =>
    rw [Session.useCopies]
    have hone : s.Files t [name] := hf.mono (by simp)
    have hrest : s.Files t rest := hf.mono (List.subset_cons_self name rest)
    exact ih hrest (h.useCopy live hone)

/-- **What a removal alone cuts off is not found once the file to be removed is gone.** -/
theorem UsedUp.has_eq_false (h : s.UsedUp t p) (hf : s.Files t p.consumed)
    (hc : copy ∈ p.consumed) (hp : t.find path = .ok (loc, .file bytes))
    (hcut : (s.removeFile copy t).2.has path = false) : p.tree.has path = false := by
  rw [← Bool.not_eq_true]
  intro hhas
  obtain ⟨loc', x, hfind⟩ := has_iff.1 hhas
  obtain ⟨locc, bytesc, hcopy⟩ := hf copy hc
  rcases s.removeFile_cases copy t with ⟨own, -, ho, he⟩ | ⟨he, -⟩
  · rw [he] at hcut
    obtain ⟨y, hy, -⟩ := ho.get?_ne
    obtain ⟨hthere, rest, hm, hm'⟩ :=
      h.clears.meets_of_find hfind (by simp [hy]) hcut ho.isAbove
    obtain ⟨rfl, -⟩ := ho.find_eq hcopy hm (find_eq_ok_iff.1 hp)
    -- both paths come through the entry, so the copy is found as well, or follows too many links
    have hown := h.clears.owns hf hcopy ho hthere
    rcases hm'.resolve_eq hown.meets (find_eq_ok_iff.1 hfind) with hr | hr
    · have hnot := h.gone copy hc
      rw [has_of_find (find_eq_ok_iff.2 hr)] at hnot
      cases hnot
    · rcases h.clears.thinner.find_eq_or_cut hcopy with hr' | ⟨cut, rest, -, hnone, hmc⟩
      · rw [find_eq_ok_iff, hr] at hr'
        cases hr'
      · rw [(hmc p.tree (.right t p.tree)).resolve_free hnone] at hr
        split at hr <;> cases hr
  · rw [he, has_of_find hp] at hcut
    cases hcut

end Session

end NearDup.Merge
