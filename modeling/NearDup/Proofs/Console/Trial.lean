import NearDup.Console.Command
import NearDup.Proofs.Console.Arguments
import NearDup.Proofs.Merge.Plan
import NearDup.Proofs.Merge.UsedOnce

/-!
# A trial touches nothing

Each of the three changes of a session has its own guard: copies are not removed, new documents are
not written and the journal is not kept while the session is a trial. Every request of a trial ends
well or, for a report of an inbox that is no directory, before anything is done, so the tree is the
same after any number of requests. The commands do nothing to the tree but what their session does;
and a command line that says `--dry-run` anywhere before two dashes alone either makes a trial, or
is rejected, or shows help.

* `Effect.Leaves` — a computation leaves a part of the state, whether it fails or not
* `serve_onTrial` — what a request makes of a trial
* `trial_keeps_tree` — no request, command or command line of a trial changes the tree
-/

namespace NearDup

open Effect

/-! ## What a computation leaves -/

section Leaves

variable {ε σ τ α β : Type} {part : σ → τ} {x : Effect ε σ α} {f : α → Effect ε σ β}

/-- A computation leaves a part of the state as it was, whether it fails or not. -/
def Effect.Leaves (part : σ → τ) (x : Effect ε σ α) : Prop := ∀ s, part (x.perform s).2 = part s

theorem Effect.Leaves.bind (hx : Leaves part x) (hf : ∀ a, Leaves part (f a)) :
    Leaves part (x >>= f) := by
  intro s
  rw [perform_bind]
  rcases h : x.perform s with ⟨_ | a, s'⟩
  · simpa [h] using hx s
  · show part ((f a).perform s').2 = part s
    rw [hf a s']
    simpa [h] using hx s

theorem Effect.leaves_pure (a : α) : Leaves part (pure a : Effect ε σ α) := fun _ => rfl

theorem Effect.leaves_throw (e : ε) : Leaves part (throw e : Effect ε σ α) := fun _ => rfl

end Leaves

/-! ## Requests of a session -/

namespace Merge.Session

variable {s : Session} {p : Progress}

/-- A trial answers a request and leaves the tree, unless a report is to be carried out in an inbox
that is no directory. -/
theorem serve_onTrial (s : Session) (request : Request) (p : Progress) :
    (∃ actions p', (s.onTrial.serve request).perform p = (.ok actions, p') ∧ p'.tree = p.tree) ∨
    (∃ r, request = .report r ∧ p.tree.isDir s.inbox = false ∧
      (s.onTrial.serve request).perform p = (.error (.inboxMissing s.inbox), p)) := by
  have hcopies (groups : List GroupEntry) (p : Progress) :
      (s.onTrial.removeCopies groups).perform p = (.ok (s.onTrial.copyActions groups p),
        (s.onTrial.useCopies (copiesOf groups) p).2) := perform_removeCopies (Or.inl rfl) groups
  cases request with
  | copies groups => exact Or.inl ⟨_, _, hcopies groups p, tree_useCopies_onTrial _ p⟩
  | pairs pairs => exact Or.inl (exists_ok_mergePairs_onTrial pairs p)
  | fold files output =>
    obtain ⟨action, p', hc, ht⟩ := s.exists_ok_combine_onTrial .folded files output p
    refine Or.inl ⟨[action], p', ?_, ht⟩
    rw [serve_fold]
    exact perform_map_eq_ok.2 ⟨action, hc, rfl⟩
  | report r =>
    cases hd : p.tree.isDir s.inbox with
    | false =>
      refine Or.inr ⟨r, rfl, rfl, ?_⟩
      have hinbox : p.tree.isDir s.onTrial.inbox = false := hd
      have hrun : (s.onTrial.run r).perform p = (.error (.inboxMissing s.inbox), p) := by
        show (s.onTrial.run r).perform p = (.error (.inboxMissing s.onTrial.inbox), p)
        exact perform_run_of_not_isDir hinbox
      rw [serve_report, perform_map, hrun]
      rfl
    | true =>
      have hinbox : p.tree.isDir s.onTrial.inbox = true := hd
      obtain ⟨merges, p', hm, ht⟩ := s.exists_ok_mergePairs_onTrial r.similar
        (s.onTrial.useCopies (copiesOf r.exact) p).2
      have hrun := (perform_run_eq_ok_iff (Or.inl rfl) hinbox).2 ⟨merges, hm, rfl⟩
      refine Or.inl ⟨s.onTrial.copyActions r.exact p ++ merges, p', ?_,
        ht.trans (tree_useCopies_onTrial _ p)⟩
      exact perform_map_eq_ok.2 ⟨_, hrun, rfl⟩

theorem eq_onTrial (trial : s.trial = true) : s = s.onTrial := by
  rw [onTrial, ← trial]

/-- A request of a trial leaves the tree. -/
theorem leaves_serve (trial : s.trial = true) (request : Request) :
    Leaves Progress.tree (s.serve request) := by
  intro p
  rw [eq_onTrial trial]
  rcases s.serve_onTrial request p with ⟨actions, p', he, ht⟩ | ⟨r, -, -, he⟩
  · rw [he]
    exact ht
  · rw [he]

/-- Nor do any number of requests change it. -/
theorem tree_after (trial : s.trial = true) (requests : List Request) (p : Progress) :
    (s.after requests p).tree = p.tree := by
  induction requests generalizing p with
  | nil => rfl
  | cons request rest ih =>
    show (s.after rest ((s.serve request).perform p).2).tree = p.tree
    rw [ih, leaves_serve trial request p]

end Merge.Session

/-! ## Commands -/

namespace Console

variable {t : Tree} {clock : Clock}

theorem leaves_say (lines : List String) : Leaves Progress.tree (say lines) := fun _ => rfl

theorem leaves_look {α : Type} (f : Tree → Except Failure α) :
    Leaves Progress.tree (look f) := by
  intro p
  simp only [look, onTree, mapError, perform_ofPerform, perform_within, perform_inspect]
  cases f p.tree with
  | error e => rfl
  | ok a => rfl

/-- A session leaves the tree if its computation does. -/
theorem leaves_inSession {α : Type} {x : Merge.Step α} (h : Leaves Merge.Progress.tree x) :
    Leaves Progress.tree (inSession x) := by
  intro p
  have htree : (x.perform (.start p.tree)).2.tree = p.tree := h (.start p.tree)
  simp only [inSession, onTree, mapError, perform_ofPerform, perform_within]
  rcases hx : x.perform (.start p.tree) with ⟨_ | a, q⟩
  · rw [hx] at htree
    simpa [hx] using htree
  · rw [hx] at htree
    simpa [hx] using htree

theorem leaves_checkInbox (path : String) : Leaves Progress.tree (checkInbox path) :=
  leaves_look _

theorem leaves_checkConsent (trial confirmed : Bool) :
    Leaves Progress.tree (checkConsent trial confirmed) := by
  unfold checkConsent
  split
  · exact leaves_pure ()
  · exact leaves_throw _

theorem leaves_run_trial (s : Merge.Session) (trial : s.trial = true) (r : Report) :
    Leaves Merge.Progress.tree (s.run r) := by
  intro p
  have h := Merge.Session.leaves_serve trial (.report r) p
  rwa [Merge.Session.serve_report, perform_map] at h

theorem leaves_fold_trial (s : Merge.Session) (trial : s.trial = true) (files : List String)
    (output : Option String) : Leaves Merge.Progress.tree (s.fold files output) := by
  intro p
  have h := Merge.Session.leaves_serve trial (.fold files output) p
  rwa [Merge.Session.serve_fold, perform_map] at h

/-- A merge on trial leaves the tree. -/
theorem leaves_runMerge (clock : Clock) (path : String) (least : Binary64) (confirmed : Bool) :
    Leaves Progress.tree (runMerge clock path least true confirmed) := by
  unfold runMerge
  refine (leaves_checkInbox path).bind fun _ => (leaves_look _).bind fun report =>
    (leaves_say _).bind fun _ => (leaves_checkConsent _ _).bind fun _ =>
    (leaves_inSession (leaves_run_trial _ rfl report)).bind fun outcome => ?_
  split
  · exact (leaves_say _).bind fun _ => (leaves_say _).bind fun _ => leaves_say _
  · exact (leaves_pure _).bind fun _ => (leaves_say _).bind fun _ => leaves_say _

/-- So does a fold on trial. -/
theorem leaves_runFold (clock : Clock) (path : String) (files : List String)
    (output : Option String) (confirmed : Bool) :
    Leaves Progress.tree (runFold clock path files output true confirmed) := by
  unfold runFold
  exact (leaves_checkInbox path).bind fun _ => (leaves_say _).bind fun _ =>
    (leaves_checkConsent _ _).bind fun _ =>
    (leaves_inSession (leaves_fold_trial _ rfl files output)).bind fun action =>
    (leaves_say _).bind fun _ => leaves_say _

/-- What leaves the tree in a command leaves it in its answer. -/
theorem tree_answerOf {x : Running Unit} (h : Leaves Progress.tree x) (t : Tree) :
    (answerOf x t).2 = t := by
  have htree := h ⟨t, []⟩
  unfold answerOf
  split
  · next hx => rwa [hx] at htree
  · next hx => rwa [hx] at htree

/-! ## Command lines -/

theorem isSet_trialOption {c : Command} {f f' : Found} {pending : Pending}
    (hc : c = mergeCommand ∨ c = foldCommand)
    (h : c.takeDashed f "--dry-run" = .ok (f', pending)) : f'.isSet "dry-run" = true := by
  have hcs : splitEquals "dry-run".toList = (trialOption.name.toList, none) := by decide +kernel
  have hfind : (c.options.find? (·.name.toList = trialOption.name.toList)) = some trialOption := by
    rcases hc with rfl | rfl
    · rfl
    · rfl
  exact Command.isSet_of_takeNamed hcs hfind rfl h

/-- A command that is told to be a trial is one, if it is carried out at all. -/
theorem parse_trial {c : Command} {before rest : List String} {request : Request}
    (hc : c = mergeCommand ∨ c = foldCommand) (hb : "--" ∉ before)
    (h : c.parse (before ++ "--dry-run" :: rest) = some request) :
    request = .help ∨ (∃ path least confirmed, request = .merge path least true confirmed) ∨
      ∃ path files output confirmed, request = .fold path files output true confirmed := by
  unfold Command.parse at h
  split at h
  · next f hf =>
    right
    have hset : f.isSet "dry-run" = true :=
      Command.isSet_of_takeArguments (by decide +kernel) (by decide +kernel)
        (fun _ _ _ => isSet_trialOption hc) hb hf
    rcases hc with rfl | rfl
    · left
      obtain ⟨path, -, h⟩ := Option.bind_eq_some_iff.1 h
      obtain ⟨least, -, h⟩ := Option.bind_eq_some_iff.1 h
      rw [hset] at h
      cases h
      exact ⟨path, least, _, rfl⟩
    · right
      simp only [foldCommand] at h
      split at h
      · cases h
      · obtain ⟨path, -, h⟩ := Option.bind_eq_some_iff.1 h
        rw [hset] at h
        cases h
        exact ⟨path, _, _, _, rfl⟩
  · cases h
    exact Or.inl rfl
  · cases h

/-- A trial and a call for help leave the tree. -/
theorem tree_run_trial {c : Command} {before rest : List String} {request : Request}
    (hc : c = mergeCommand ∨ c = foldCommand) (hb : "--" ∉ before)
    (h : c.parse (before ++ "--dry-run" :: rest) = some request) (clock : Clock) (t : Tree) :
    (request.run clock t).2 = t := by
  rcases parse_trial hc hb h with
    rfl | ⟨path, least, confirmed, rfl⟩ | ⟨path, files, output, confirmed, rfl⟩
  · exact tree_answerOf (leaves_say _) t
  · exact tree_answerOf (leaves_runMerge clock path least confirmed) t
  · exact tree_answerOf (leaves_runFold clock path files output confirmed) t

theorem tree_runLine {name : String} {args : List String} {c : Command}
    (hparse : Request.parse (name :: args) = c.parse args)
    (h : ∀ request, c.parse args = some request → (request.run clock t).2 = t) :
    (runLine clock (name :: args) t).2 = t := by
  unfold runLine
  rw [hparse]
  cases hc : c.parse args with
  | none => rfl
  | some request => exact h request hc

/-- A command line of one of these commands that says `--dry-run` leaves the tree. -/
theorem tree_runLine_trial {name : String} {before rest : List String}
    (hname : name ∈ ["merge", "fold"]) (hb : "--" ∉ before) (clock : Clock) (t : Tree) :
    (runLine clock (name :: before ++ "--dry-run" :: rest) t).2 = t := by
  rw [List.mem_cons, List.mem_singleton] at hname
  rcases hname with rfl | rfl
  · exact tree_runLine (c := mergeCommand) rfl
      fun _ h => tree_run_trial (Or.inl rfl) hb h clock t
  · exact tree_runLine (c := foldCommand) rfl
      fun _ h => tree_run_trial (Or.inr rfl) hb h clock t

end Console

/-! ## Trials -/

open Merge.Session Console

/-- **A trial touches nothing.** However far a session is and whatever was asked of it before, a
request of a trial leaves the whole tree, the journal included, and fails only if a report is to be
carried out in an inbox that is no directory. The commands that change files leave the tree if they
are told to be trials, confirmed or not and whatever they answer; and so does every command line
that tells them to, by an option anywhere before two dashes alone. -/
theorem trial_keeps_tree :
    (∀ s : Merge.Session, s.trial = true →
      ∀ (requests : List Merge.Request) (p : Merge.Progress) (request : Merge.Request),
        (s.after requests p).tree = p.tree ∧
        ((s.serve request).perform (s.after requests p)).2.tree = p.tree ∧
        ∀ f, ((s.serve request).perform (s.after requests p)).1 = .error f →
          f = .inboxMissing s.inbox ∧ (∃ r, request = .report r) ∧
            p.tree.isDir s.inbox = false) ∧
    (∀ clock path least confirmed t,
      ((Request.merge path least true confirmed).run clock t).2 = t) ∧
    (∀ clock path files output confirmed t,
      ((Request.fold path files output true confirmed).run clock t).2 = t) ∧
    ∀ clock name before rest t, name ∈ ["merge", "fold"] → "--" ∉ before →
      (runLine clock (name :: before ++ "--dry-run" :: rest) t).2 = t := by
  refine ⟨fun s trial requests p request => ?_, ?_, ?_, ?_⟩
  · have hafter := tree_after trial requests p
    refine ⟨hafter, (leaves_serve trial request _).trans hafter, fun f hf => ?_⟩
    rw [eq_onTrial trial] at hf
    rcases s.serve_onTrial request (s.onTrial.after requests p) with
      ⟨actions, p', he, -⟩ | ⟨r, hr, hd, he⟩
    · rw [he] at hf
      cases hf
    · rw [he] at hf
      rw [← eq_onTrial trial, hafter] at hd
      cases hf
      exact ⟨rfl, ⟨r, hr⟩, hd⟩
  · intro clock path least confirmed t
    exact tree_answerOf (leaves_runMerge clock path least confirmed) t
  · intro clock path files output confirmed t
    exact tree_answerOf (leaves_runFold clock path files output confirmed) t
  · intro clock name before rest t hname hb
    exact tree_runLine_trial hname hb clock t

/-- After a report was carried out on trial in an inbox with links, one more time and by a command
line, and where there is no such inbox. -/
theorem trial_keeps_tree_linkedInbox :
    (journaled.onTrial.after [.report linkedReport, .fold ["a.md", "d.md"] none]
      (.start linkedInbox)).tree = linkedInbox ∧
    (∃ f, (({ journaled.onTrial with inbox := "out" }.serve (.report linkedReport)).perform
        (.start linkedInbox)).1 = .error f ∧ f = .inboxMissing "out") ∧
    (runLine ⟨"now", "today"⟩ ["fold", "-p", "in", "a.md", "d.md", "--dry-run", "-y"]
      linkedInbox).2 = linkedInbox := by
  obtain ⟨hsession, -, -, hline⟩ := trial_keeps_tree
  have herror : (({ journaled.onTrial with inbox := "out" }.serve (.report linkedReport)).perform
      (.start linkedInbox)).1 = .error (.inboxMissing "out") := by decide +kernel
  refine ⟨(hsession journaled.onTrial rfl _ _ (.pairs [])).1, ⟨_, herror, ?_⟩, ?_⟩
  · exact ((hsession _ rfl [] (.start linkedInbox) (.report linkedReport)).2.2 _ herror).1
  · exact hline _ "fold" ["-p", "in", "a.md", "d.md"] ["-y"] linkedInbox (by decide) (by decide)

end NearDup
