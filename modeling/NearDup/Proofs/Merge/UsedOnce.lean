import NearDup.Proofs.Merge.Changes
import NearDup.Proofs.Merge.Outcome

/-!
# Every name is used once

A session remembers the names that it has used up and those of its outputs, in a trial as in a live
session, and forgets none of them. A copy is used up before it is removed, the inputs of a new
document once all of them are read, and its output with them. So whatever is asked of a session, and
whichever of the requests fail on the way, no two changes use up one name and no two documents have
one name.

* `Session.history` — what a session has done, also in the course of requests that failed
* `NamesOnce` — actions that use every name once
* `Once` — what was done between two moments used only new names, each once
* `once_combine`, `once_removeCopiesOf` — each step keeps to this
* `history_uses_names_once` — and so does any sequence of requests
-/

namespace NearDup.Merge

open Effect

variable {s : Session} {p p' p₁ : Progress} {as bs : List Action} {a : Action}

/-! ## What a session has done -/

/-- The output of an action that makes a new document. -/
def Action.output? : Action → Option String
  | merge _ _ output | fold _ output => some output
  | _ => none

/-- What steps have done, until one of them fails. -/
def doneEach {α : Type} (step : α → Step (Option Action)) : List α → Progress → List Action
  | [], _ => []
  | x :: xs, p =>
    match (step x).perform p with
    | (.ok a, p') => a.toList ++ doneEach step xs p'
    | (.error _, _) => []

namespace Session

/-- What a session has done for a request, whether it fails in the end or not. -/
def done (s : Session) : Request → Progress → List Action
  | .copies groups, p => doneEach s.removeCopiesOf groups p
  | .pairs pairs, p => doneEach s.mergePair pairs p
  | .fold files output, p =>
    match (s.fold files output).perform p with
    | (.ok a, _) => [a]
    | (.error _, _) => []
  | .report r, p =>
    if p.tree.isDir s.inbox then
      match (s.removeCopies r.exact).perform p with
      | (.ok copies, p') => copies ++ doneEach s.mergePair r.similar p'
      | (.error _, _) => doneEach s.removeCopiesOf r.exact p
    else []

/-- What a session has done for requests, one after the other. A request that fails leaves the
progress made until then, and the next one goes on from there. -/
def history (s : Session) : List Request → Progress → List Action
  | [], _ => []
  | request :: rest, p =>
    s.done request p ++ s.history rest ((s.serve request).perform p).2

/-- What a session reports of requests, one after the other; of one that fails it reports nothing. -/
def reported (s : Session) : List Request → Progress → List Action
  | [], _ => []
  | request :: rest, p =>
    (((s.serve request).perform p).1.toOption.getD []) ++
      s.reported rest ((s.serve request).perform p).2

end Session

/-! ## Each name once -/

/-- No two of these actions have removed one name, no group is said to have lost a copy twice, and no
two new documents have one name. -/
structure NamesOnce (as : List Action) : Prop where
  apart : as.Pairwise fun a b => a.removes.Disjoint b.removes
  copies : ∀ kept removed, .deduplicate kept removed ∈ as → removed.Nodup
  distinct : (as.filterMap Action.output?).Nodup

theorem NamesOnce.sublist (h : NamesOnce bs) (hs : as.Sublist bs) : NamesOnce as :=
  ⟨h.apart.sublist hs, fun kept removed hmem => h.copies kept removed (hs.subset hmem),
    h.distinct.sublist (hs.filterMap Action.output?)⟩

/-- What was done between two moments of a session used names that had not been used up, and outputs
that no document had got, each once; they are used up since. -/
structure Once (p p' : Progress) (as : List Action) : Prop extends NamesOnce as where
  consumed : p.consumed ⊆ p'.consumed
  planned : p.planned ⊆ p'.planned
  removes : ∀ a ∈ as, ∀ name ∈ a.removes, name ∉ p.consumed ∧ name ∈ p'.consumed
  outputs : ∀ a ∈ as, ∀ output ∈ a.output?, output ∉ p.planned ∧ output ∈ p'.planned

/-- Nothing was done; names may still have been used up. -/
theorem once_nil (hc : p.consumed ⊆ p'.consumed) (hp : p.planned ⊆ p'.planned) : Once p p' [] where
  consumed := hc
  planned := hp
  removes := by simp
  outputs := by simp
  apart := .nil
  copies := by simp
  distinct := .nil

theorem Once.refl (p : Progress) : Once p p [] := once_nil (fun _ => id) fun _ => id

/-- One action was done. -/
theorem once_singleton (hc : p.consumed ⊆ p'.consumed) (hp : p.planned ⊆ p'.planned)
    (hr : ∀ name ∈ a.removes, name ∉ p.consumed ∧ name ∈ p'.consumed)
    (ho : ∀ output ∈ a.output?, output ∉ p.planned ∧ output ∈ p'.planned)
    (hd : ∀ kept removed, a = .deduplicate kept removed → removed.Nodup) : Once p p' [a] where
  consumed := hc
  planned := hp
  removes := by simpa using hr
  outputs := by simpa using ho
  apart := List.pairwise_singleton _ _
  copies := fun kept removed h => hd kept removed (List.mem_singleton.1 h).symm
  distinct := by
    cases h : a.output? with
    | none => simp [h]
    | some output => simp [h]

/-- A skip uses up nothing. -/
theorem once_skip (ha : a.changesFiles = false) (p : Progress) : Once p p [a] := by
  have hnone : a.removes = [] ∧ a.output? = none := by
    cases a with
    | deduplicate | merge | fold => cases ha
    | skipConsumed | skipCollision | skipUnreadable => exact ⟨rfl, rfl⟩
  refine once_singleton (fun _ => id) (fun _ => id) (by simp [hnone.1]) (by simp [hnone.2]) ?_
  rintro kept removed rfl
  cases ha

/-- What is done later uses other names, for those used before are remembered. -/
theorem Once.append (h : Once p p₁ as) (h' : Once p₁ p' bs) : Once p p' (as ++ bs) where
  consumed := List.Subset.trans h.consumed h'.consumed
  planned := List.Subset.trans h.planned h'.planned
  removes := by
    intro a ha name hn
    rcases List.mem_append.1 ha with ha | ha
    · exact (h.removes a ha name hn).imp_right fun hmem => h'.consumed hmem
    · exact (h'.removes a ha name hn).imp_left fun hnot hmem => hnot (h.consumed hmem)
  outputs := by
    intro a ha output ho
    rcases List.mem_append.1 ha with ha | ha
    · exact (h.outputs a ha output ho).imp_right fun hmem => h'.planned hmem
    · exact (h'.outputs a ha output ho).imp_left fun hnot hmem => hnot (h.planned hmem)
  apart := by
    refine List.pairwise_append.2 ⟨h.apart, h'.apart, ?_⟩
    intro a ha b hb name hna hnb
    -- a name of both would be used up in between, and be new afterwards
    exact (h'.removes b hb name hnb).1 (h.removes a ha name hna).2
  copies := by
    intro kept removed hmem
    exact (List.mem_append.1 hmem).elim (h.copies kept removed) (h'.copies kept removed)
  distinct := by
    rw [List.filterMap_append]
    refine List.nodup_append'.2 ⟨h.distinct, h'.distinct, ?_⟩
    intro output hoa hob
    obtain ⟨a, ha, hoa⟩ := List.mem_filterMap.1 hoa
    obtain ⟨b, hb, hob⟩ := List.mem_filterMap.1 hob
    exact (h'.outputs b hb output hob).1 (h.outputs a ha output hoa).2

/-! ## Steps -/

namespace Session

/-- A record uses up no name. -/
theorem names_record (s : Session) (change : Change) (kept : String) (removed : List String)
    (p : Progress) : ((s.record change kept removed).perform p).2.consumed = p.consumed ∧
      ((s.record change kept removed).perform p).2.planned = p.planned := by
  unfold record
  split
  · simp [Step.onTree]
  · exact ⟨rfl, rfl⟩

/-- What is carried out uses up no more names than those that were claimed before. -/
theorem names_carryOut (s : Session) (change : Change) (inputs : List String) (output : String)
    (docs : List Document) (p : Progress) :
    ((s.carryOut change inputs output docs).perform p).2.consumed = p.consumed ∧
      ((s.carryOut change inputs output docs).perform p).2.planned = p.planned := by
  cases ht : s.trial with
  | true =>
    rw [perform_carryOut_of_trial ht]
    exact ⟨rfl, rfl⟩
  | false =>
    rw [perform_carryOut_of_live ht]
    split
    · exact ⟨rfl, rfl⟩
    · exact s.names_record change output _ _

theorem useCopies_cons (name : String) (names : List String) (p : Progress) :
    s.useCopies (name :: names) p =
      (if (s.useCopy name p).1 then name :: (s.useCopies names (s.useCopy name p).2).1
        else (s.useCopies names (s.useCopy name p).2).1,
        (s.useCopies names (s.useCopy name p).2).2) := rfl

/-- The copies that are removed had not been used up before, and are removed once. -/
theorem nodup_useCopies (names : List String) (p : Progress) :
    (s.useCopies names p).1.Nodup ∧
      ∀ name ∈ (s.useCopies names p).1, name ∈ names ∧ name ∉ p.consumed := by
  induction names generalizing p with
  | nil => simp [useCopies]
  | cons name rest ih =>
    obtain ⟨hnodup, hnew⟩ := ih (s.useCopy name p).2
    -- the first name is used up before the others are looked at, be it removed or not
    have hrest : ∀ n ∈ (s.useCopies rest (s.useCopy name p).2).1,
        n ∈ rest ∧ n ≠ name ∧ n ∉ p.consumed := by
      intro n hn
      obtain ⟨hmem, hnot⟩ := hnew n hn
      rw [mem_consumed_useCopy, not_or] at hnot
      exact ⟨hmem, hnot⟩
    rw [useCopies_cons]
    cases hgone : (s.useCopy name p).1 with
    | false =>
      refine ⟨hnodup, fun n hn => ?_⟩
      obtain ⟨hmem, -, hnot⟩ := hrest n hn
      exact ⟨List.mem_cons_of_mem _ hmem, hnot⟩
    | true =>
      have hfirst : name ∉ p.consumed := by
        intro hc
        simp [useCopy, hc] at hgone
      refine ⟨List.nodup_cons.2 ⟨fun hn => (hrest name hn).2.1 rfl, hnodup⟩, ?_⟩
      intro n hn
      rcases List.mem_cons.1 hn with rfl | hn
      · exact ⟨List.mem_cons_self, hfirst⟩
      · obtain ⟨hmem, -, hnot⟩ := hrest n hn
        exact ⟨List.mem_cons_of_mem _ hmem, hnot⟩

/-- **The copies of a group are used up once**, also if the record of it cannot be written. -/
theorem once_removeCopiesOf (s : Session) (g : GroupEntry) (p : Progress) :
    Once p ((s.removeCopiesOf g).perform p).2
      (((s.removeCopiesOf g).perform p).1.toOption.bind id).toList := by
  unfold removeCopiesOf
  split
  · exact .refl p
  · next kept copies _ =>
    obtain ⟨hnodup, hnew⟩ := nodup_useCopies (s := s) copies p
    have hconsumed : p.consumed ⊆ (s.useCopies copies p).2.consumed :=
      fun n hn => mem_consumed_useCopies.2 (Or.inr hn)
    have hplanned : p.planned ⊆ (s.useCopies copies p).2.planned :=
      fun n hn => by rwa [planned_useCopies]
    simp only [perform_bind, perform_modifyGet]
    by_cases hr : (s.useCopies copies p).1 = []
    · simp only [hr, if_true, perform_pure]
      exact once_nil hconsumed hplanned
    · simp only [hr, if_false, perform_bind]
      obtain ⟨hc, hp⟩ := s.names_record .deduplicated kept (s.useCopies copies p).1
        (s.useCopies copies p).2
      rcases hrec : (s.record .deduplicated kept (s.useCopies copies p).1).perform
        (s.useCopies copies p).2 with ⟨_ | u, p₁⟩
      · -- the copies are gone, but the failure takes the place of the action
        rw [hrec] at hc hp
        exact once_nil (hc ▸ hconsumed) (hp ▸ hplanned)
      · simp only [hrec] at hc hp
        show Once p p₁ [.deduplicate kept (s.useCopies copies p).1]
        refine once_singleton (hc ▸ hconsumed) (hp ▸ hplanned) ?_ (by simp [Action.output?]) ?_
        · intro name hn
          obtain ⟨hmem, hnot⟩ := hnew name hn
          refine ⟨hnot, ?_⟩
          rw [hc]
          exact mem_consumed_useCopies.2 (Or.inl hmem)
        · rintro _ _ ⟨⟩
          exact hnodup

theorem output?_madeAction (change : Change) (inputs : List String) (output : String) :
    (madeAction change inputs output).output? = some output := by
  unfold madeAction
  split <;> rfl

/-- **A request for a new document uses its names once**, also if it cannot be written. -/
theorem once_combine (s : Session) (change : Change) (inputs : List String)
    (asked : Option String) (p : Progress) :
    Once p ((s.combine change inputs asked).perform p).2
      ((s.combine change inputs asked).perform p).1.toOption.toList := by
  rcases s.combine_cases change inputs asked p with
    ⟨name, _, h⟩ | ⟨_, _, h⟩ | ⟨_, _, name, f, _, h⟩ | ⟨hc, hfree, docs, _, h⟩
  · rw [h]
    exact once_skip rfl p
  · rw [h]
    exact once_skip rfl p
  · rw [h]
    exact once_skip rfl p
  · rw [h]
    obtain ⟨hconsumed, hplanned⟩ := s.names_carryOut change inputs (outputFor inputs asked) docs
      (claimed p inputs (outputFor inputs asked))
    rcases hr : (s.carryOut change inputs (outputFor inputs asked) docs).perform
      (claimed p inputs (outputFor inputs asked)) with ⟨_ | a, p'⟩
    · -- the names were claimed before the output could not be written
      rw [hr] at hconsumed hplanned
      refine once_nil ?_ ?_
      · exact hconsumed ▸ List.subset_append_right _ _
      · exact hplanned ▸ List.subset_cons_self _ _
    · obtain rfl := eq_madeAction_of_carryOut hr
      rw [hr] at hconsumed hplanned
      have hnew : outputFor inputs asked ∉ p.planned := by
        simp only [isTaken, Bool.or_eq_false_iff, decide_eq_false_iff_not] at hfree
        exact hfree.1
      refine once_singleton (hconsumed ▸ List.subset_append_right _ _)
        (hplanned ▸ List.subset_cons_self _ _) ?_ ?_ ?_
      · intro name hn
        rw [removes_madeAction] at hn
        refine ⟨consumedInput?_eq_none_iff.1 hc name hn, ?_⟩
        rw [hconsumed]
        exact List.mem_append_left _ hn
      · intro output ho
        rw [output?_madeAction] at ho
        cases ho
        refine ⟨hnew, ?_⟩
        rw [hplanned]
        exact List.mem_cons_self
      · intro kept removed hmade
        unfold madeAction at hmade
        split at hmade <;> cases hmade

theorem once_mergePair (s : Session) (pair : PairEntry) (p : Progress) :
    Once p ((s.mergePair pair).perform p).2
      (((s.mergePair pair).perform p).1.toOption.bind id).toList := by
  unfold mergePair
  split
  · have h := s.once_combine .merged [pair.file1, pair.file2] none p
    rw [perform_map]
    rcases hc : (s.combine .merged [pair.file1, pair.file2] none).perform p with ⟨_ | a, p'⟩
    · rw [hc] at h
      exact h
    · rw [hc] at h
      exact h
  · exact .refl p

/-! ## Requests -/

section ForEach

variable {α : Type} {step : α → Step (Option Action)}

/-- Steps that end well have done what they report. -/
theorem doneEach_of_ok {xs : List α} (h : (forEach step xs).perform p = (.ok as, p')) :
    doneEach step xs p = as := by
  induction xs generalizing p as with
  | nil =>
    cases h
    rfl
  | cons x xs ih =>
    obtain ⟨a, p₁, rest, hx, hrest, rfl⟩ := perform_forEach_cons_eq_ok.1 h
    rw [doneEach, hx]
    exact congrArg (a.toList ++ ·) (ih hrest)

/-- Steps each of which uses its names once use them once in turn. -/
theorem once_doneEach (hstep : ∀ x p, Once p ((step x).perform p).2
      (((step x).perform p).1.toOption.bind id).toList) (xs : List α) (p : Progress) :
    Once p ((forEach step xs).perform p).2 (doneEach step xs p) := by
  induction xs generalizing p with
  | nil => exact .refl p
  | cons x xs ih =>
    have hx := hstep x p
    rw [perform_forEach_cons, doneEach]
    rcases h : (step x).perform p with ⟨_ | a, p₁⟩
    · -- the steps behind a failure are not taken
      rw [h] at hx
      exact hx
    · rw [h] at hx
      exact hx.append (ih p₁)

end ForEach

/-- A request that ends well reports what it has done. -/
theorem done_of_ok {request : Request} (h : (s.serve request).perform p = (.ok as, p')) :
    s.done request p = as := by
  cases request with
  | copies groups => exact doneEach_of_ok h
  | pairs pairs => exact doneEach_of_ok h
  | fold files output =>
    rw [serve_fold] at h
    obtain ⟨a, hf, rfl⟩ := perform_map_eq_ok.1 h
    simp [done, fold, hf]
  | report r =>
    rw [serve_report] at h
    obtain ⟨outcome, hrun, rfl⟩ := perform_map_eq_ok.1 h
    have hd := isDir_of_run hrun
    obtain ⟨copies, p₂, merges, hc, hm, rfl⟩ := (perform_run_eq_ok hd).1 hrun
    simp only [done, hd, if_true, hc]
    exact congrArg (copies ++ ·) (doneEach_of_ok hm)

/-- **A request uses its names once**, whether it fails or not. -/
theorem once_serve (s : Session) (request : Request) (p : Progress) :
    Once p ((s.serve request).perform p).2 (s.done request p) := by
  cases request with
  | copies groups => exact once_doneEach s.once_removeCopiesOf groups p
  | pairs pairs => exact once_doneEach s.once_mergePair pairs p
  | fold files output =>
    have h := s.once_combine .folded files output p
    simp only [serve, done, fold, perform_bind]
    rcases hc : (s.combine .folded files output).perform p with ⟨_ | a, p'⟩
    · rw [hc] at h
      exact h
    · rw [hc] at h
      exact h
  | report r =>
    simp only [serve, done, perform_map]
    cases hd : p.tree.isDir s.inbox with
    | false =>
      rw [perform_run_of_not_isDir hd]
      exact .refl p
    | true =>
      have hcopies := once_doneEach s.once_removeCopiesOf r.exact p
      rw [perform_run_of_isDir hd]
      simp only [perform_bind, perform_pure, if_true, removeCopies, mergePairs]
      rcases hc : (forEach s.removeCopiesOf r.exact).perform p with ⟨_ | copies, p₁⟩
      · -- no pair is looked at once a group has failed
        rw [hc] at hcopies
        exact hcopies
      · have hpairs := once_doneEach s.once_mergePair r.similar p₁
        rw [hc, doneEach_of_ok hc] at hcopies
        rcases hm : (forEach s.mergePair r.similar).perform p₁ with ⟨_ | merges, p₂⟩
        · rw [hm] at hpairs
          simpa [hm] using hcopies.append hpairs
        · rw [hm] at hpairs
          simpa [hm] using hcopies.append hpairs

/-- How far a session is after requests, whether they fail or not. -/
def after (s : Session) (requests : List Request) (p : Progress) : Progress :=
  requests.foldl (fun p request => ((s.serve request).perform p).2) p

/-- **Any sequence of requests uses its names once.** -/
theorem once_history (s : Session) (requests : List Request) (p : Progress) :
    Once p (s.after requests p) (s.history requests p) := by
  induction requests generalizing p with
  | nil => exact .refl p
  | cons request rest ih => exact (s.once_serve request p).append (ih _)

/-- What is reported has been done. -/
theorem reported_sublist_history (s : Session) (requests : List Request) (p : Progress) :
    (s.reported requests p).Sublist (s.history requests p) := by
  induction requests generalizing p with
  | nil => exact .refl _
  | cons request rest ih =>
    rw [reported, history]
    refine List.Sublist.append ?_ (ih _)
    rcases h : (s.serve request).perform p with ⟨_ | as, p'⟩
    · exact List.nil_sublist _
    · rw [done_of_ok h]
      exact .refl _

/-- **Every name is used once, and every output, in the course of a session**, live or in a trial,
whatever is asked of it and whether the requests fail or not. This holds of all that was done, also
for requests that failed in the end, and so of what the requests report. -/
theorem history_uses_names_once (s : Session) (requests : List Request) (p : Progress) :
    NamesOnce (s.history requests p) ∧ NamesOnce (s.reported requests p) ∧
      (s.reported requests p).Sublist (s.history requests p) := by
  have hdone := (s.once_history requests p).toNamesOnce
  have hsub := s.reported_sublist_history requests p
  exact ⟨hdone, hdone.sublist hsub, hsub⟩

end Session

end NearDup.Merge
