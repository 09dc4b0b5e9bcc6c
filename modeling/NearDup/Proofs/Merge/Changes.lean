import NearDup.Proofs.Journal
import NearDup.Proofs.Merge.Copies

/-!
# The actions are the changes

The actions that a live session reports are exactly what it has done to the tree, action by action
in the order of the report: copies are gone, a new document stands where nothing was and the files
it was made of are gone, and a skip has changed nothing. Every other entry is as it was.

Only the record that a journal keeps of a change comes on top. It is written after the change and
can make directories above the journal, and the journal itself, where a file was just removed; but
then the name of that file leads to one of these, and to nothing else.

* `Session.Does` — what an action says of the tree before and after it
* `Session.Enacts` — the same with the record that is written of it
* `Session.Unfolds` — a tree goes over into another action by action
* `unfolds_serve` — the actions that are reported are the changes of the tree
-/

namespace NearDup.Merge

open NearDup.Tree Effect Text

variable {s : Session} {t t' : Tree} {p p' : Progress} {inputs texts : List String}
  {output : String} {docs : List Document} {new : Location}

/-! ## What an action says -/

/-- The files that an action makes one of. -/
def Action.sources : Action → List String
  | merge file1 file2 _ => [file1, file2]
  | fold inputs _ => inputs
  | _ => []

/-- The text made of the texts of documents, under the names they were asked for. A single one stays
as it is. -/
def textOf (inputs texts : List String) : String :=
  match texts with
  | [only] => only
  | _ => mergeSources ((inputs.zip texts).map fun (name, text) => ⟨name, lines text⟩)

namespace Session

/-- Files are removed: the entries under these very names, and nothing else. -/
structure Deletes (s : Session) (names : List String) (t t' : Tree) : Prop where
  gone : ∀ name ∈ names, t.has (s.pathOf name) = true ∧
    ∃ own, t.Owns (s.pathOf name) own ∧ t'.get? own = none
  kept : ∀ loc, (∀ name ∈ names, ¬t.Owns (s.pathOf name) loc) → t'.get? loc = t.get? loc

/-- A document is made of what is read of the inputs. It stands where the output leads, at a
location where nothing was; the inputs are gone, and nothing is removed but entries under their very
names. -/
structure Makes (s : Session) (inputs : List String) (output : String) (texts : List String)
    (new : Location) (t t' : Tree) : Prop where
  free : t.has (s.pathOf output) = false
  vacant : t.get? new = none
  read : List.Forall₂ (fun name text =>
    ∃ bytes, t.read (s.pathOf name) = .ok bytes ∧ text = Utf8.decodeLenient bytes) inputs texts
  page : t'.find (s.pathOf output) = .ok (new, .file (Utf8.encode (textOf inputs texts)))
  gone : ∀ name ∈ inputs, t'.has (s.pathOf name) = false
  kept : ∀ loc, loc ≠ new → t'.get? loc = t.get? loc ∨
    t'.get? loc = none ∧ ∃ name ∈ inputs, t.Owns (s.pathOf name) loc

/-- What an action says of the tree before and after it. -/
def Does (s : Session) (a : Action) (t t' : Tree) : Prop :=
  match a with
  | .deduplicate _ removed => removed ≠ [] ∧ s.Deletes removed t t'
  | .merge file1 file2 output => ∃ texts new, s.Makes [file1, file2] output texts new t t'
  | .fold inputs output => ∃ texts new, s.Makes inputs output texts new t t'
  | .skipConsumed _ _ | .skipCollision _ _ | .skipUnreadable _ _ => t' = t

/-- What is written of an action that was carried out: a record in the journal, if one is kept. Of a
skip nothing is written. -/
def Notes (s : Session) (a : Action) (t t' : Tree) : Prop :=
  match a.changesFiles, s.journal with
  | true, some path => ∃ r place before, Journal.Writes path r place before t t'
  | _, _ => t' = t

/-- The journal, or a directory above it, is at a location. -/
def JournalPlace (s : Session) (t : Tree) (loc : Location) : Prop :=
  ∃ journal path x, s.journal = some journal ∧ (path = journal ∨ Path.Above path journal) ∧
    t.find path = .ok (loc, x)

/-- A tree goes over into another by an action: the action is carried out, and then it is recorded.
A file of which a document was made is gone; if something is found under its name, the record has
put it there. -/
def Enacts (s : Session) (a : Action) (t t' : Tree) : Prop :=
  ∃ mid, s.Does a t mid ∧ s.Notes a mid t' ∧
    ∀ name ∈ a.sources, ∀ loc x, t'.find (s.pathOf name) = .ok (loc, x) → s.JournalPlace t' loc

/-- A tree goes over into another by actions, one after the other. -/
inductive Unfolds (s : Session) : List Action → Tree → Tree → Prop
  | nil {t : Tree} : Unfolds s [] t t
  | cons {a : Action} {as : List Action} {t mid t' : Tree} :
      s.Enacts a t mid → Unfolds s as mid t' → Unfolds s (a :: as) t t'

theorem Unfolds.append {as bs : List Action} {mid : Tree} (h : s.Unfolds as t mid)
    (h' : s.Unfolds bs mid t') : s.Unfolds (as ++ bs) t t' := by
  induction h with
  | nil => exact h'
  | cons ha _ ih => exact .cons ha (ih h')

theorem Enacts.unfolds {a : Action} (h : s.Enacts a t t') : s.Unfolds [a] t t' := .cons h .nil

/-- A skip changes nothing. -/
theorem enacts_skip {a : Action} (h : a.changesFiles = false) (t : Tree) : s.Enacts a t t := by
  have hnotes : s.Notes a t t := by
    unfold Notes
    rw [h]
  cases a with
  | deduplicate kept removed => cases h
  | merge file1 file2 output => cases h
  | fold inputs output => cases h
  | skipConsumed inputs consumed => exact ⟨t, rfl, hnotes, by simp [Action.sources]⟩
  | skipCollision inputs output => exact ⟨t, rfl, hnotes, by simp [Action.sources]⟩
  | skipUnreadable file reason => exact ⟨t, rfl, hnotes, by simp [Action.sources]⟩

/-! ## Records -/

/-- A record that is written is that of a change, in the journal. -/
theorem notes_record {change : Change} {retained : String} {removed : List String} {a : Action}
    (live : s.trial = false) (ha : a.changesFiles = true)
    (h : (s.record change retained removed).perform p = (.ok (), p')) :
    s.Notes a p.tree p'.tree := by
  unfold record at h
  unfold Notes
  rw [ha]
  rw [live] at h
  cases hj : s.journal with
  | none =>
    simp only [hj, perform_pure] at h
    cases h
    rfl
  | some path =>
    simp only [hj, Step.onTree, perform_within] at h
    obtain ⟨hok, rfl⟩ := Prod.mk.inj h
    exact ⟨_, Journal.writes_append (Prod.ext hok rfl)⟩

/-- Where a path led to a free location and now leads somewhere, the record has put there what is
found: the journal, or a directory above it. -/
theorem journalPlace_of_notes {a : Action} {path : String} {cut loc : Location} {x : Entry}
    (h : s.Notes a t t') (hv : t.resolve .followed path = .ok (.vacant cut))
    (hf : t'.find path = .ok (loc, x)) : s.JournalPlace t' loc := by
  rw [find_eq_ok_iff] at hf
  unfold Notes at h
  split at h
  · next journal _ hj =>
    obtain ⟨r, place, before, hw⟩ := h
    rcases resolve_eq_or_meets t t' .followed path with he | ⟨l, rest, hne, hm⟩
    · rw [he, hv] at hf
      cases hf
    · have hmt := hm t (.left t t')
      have hmt' := hm t' (.right t t')
      by_cases hl : l = place
      · subst hl
        have hg := (meets_of_entry (find_eq_ok_iff.1 hw.new) (by simp)).2
        rw [hmt'.resolve_file hg] at hf
        split at hf
        · cases hf
          exact ⟨journal, journal, _, hj, Or.inl rfl, hw.new⟩
        · cases hf
      · rcases hw.kept l hl with he | ⟨hg, hg', dir, hdir, hfd⟩
        · exact absurd he hne
        · -- the walk came to this free location before, and went no further
          rw [hmt.resolve_free hg] at hv
          split at hv
          · next hrest =>
            subst hrest
            rw [hmt'.resolve_dir hg'] at hf
            cases hf
            exact ⟨journal, dir, .dir, hj, Or.inr hdir, hfd⟩
          · cases hv
  · subst h
    rw [hv] at hf
    cases hf

/-! ## Copies -/

theorem deletes_nil (s : Session) (t : Tree) : s.Deletes [] t t := ⟨by simp, fun _ _ => rfl⟩

/-- One more file is removed before the others. -/
theorem Deletes.cons {name : String} {names : List String} {own : Location}
    (hp : t.has (s.pathOf name) = true) (ho : t.Owns (s.pathOf name) own)
    (h : s.Deletes names (t.erase own) t') : s.Deletes (name :: names) t t' := by
  have hthin := thinner_erase (t := t) ho.isAbove
  have hself := get?_erase_self t ho.isAbove
  refine ⟨?_, ?_⟩
  · intro n hn
    rcases List.mem_cons.1 hn with rfl | hn
    · refine ⟨hp, own, ho, ?_⟩
      rw [← hself]
      refine h.kept own ?_
      intro n hn hown
      obtain ⟨x, hx, -⟩ := hown.get?_ne
      rw [hself] at hx
      cases hx
    · obtain ⟨hhas, own', hown, hgone⟩ := h.gone n hn
      exact ⟨hthin.has hhas, own', hthin.owns hown, hgone⟩
  · intro loc hloc
    have hne : loc ≠ own := by
      rintro rfl
      exact hloc name List.mem_cons_self ho
    rw [← get?_erase_ne t hne]
    refine h.kept loc ?_
    intro n hn hown
    exact hloc n (List.mem_cons_of_mem _ hn) (hthin.owns hown)

/-- Using up copies removes just those that are said to be removed. -/
theorem deletes_useCopies (live : s.trial = false) (names : List String) (p : Progress) :
    s.Deletes (s.useCopies names p).1 p.tree (s.useCopies names p).2.tree := by
  induction names generalizing p with
  | nil => exact deletes_nil s p.tree
  | cons name rest ih =>
    rcases useCopies_cons_cases live name rest p with ⟨_, he⟩ | ⟨_, t₁, hr, he⟩ | ⟨_, _, he⟩
    · rw [he]
      exact ih p
    · rw [he]
      rcases s.removeFile_cases name p.tree with ⟨own, hp, ho, hr'⟩ | ⟨hr', -⟩
      · rw [hr] at hr'
        cases hr'
        exact .cons hp ho (ih _)
      · rw [hr] at hr'
        cases hr'
    · rw [he]
      exact ih { p with consumed := name :: p.consumed }

/-- Nothing has changed where no copy was removed. -/
theorem tree_useCopies_of_nil (live : s.trial = false) {names : List String}
    (h : (s.useCopies names p).1 = []) : (s.useCopies names p).2.tree = p.tree := by
  induction names generalizing p with
  | nil => rfl
  | cons name rest ih =>
    rcases useCopies_cons_cases live name rest p with ⟨_, he⟩ | ⟨_, t₁, _, he⟩ | ⟨_, _, he⟩
    · rw [he] at h ⊢
      exact ih h
    · rw [he] at h
      cases h
    · rw [he] at h ⊢
      exact ih h

theorem unfolds_removeCopiesOf (live : s.trial = false) {g : GroupEntry} {a : Option Action}
    (h : (s.removeCopiesOf g).perform p = (.ok a, p')) :
    s.Unfolds a.toList p.tree p'.tree := by
  unfold removeCopiesOf at h
  split at h
  · cases h
    exact .nil
  · next kept copies _ =>
    simp only [perform_bind, perform_modifyGet] at h
    by_cases hr : (s.useCopies copies p).1 = []
    · simp only [hr, if_true, perform_pure] at h
      cases h
      rw [tree_useCopies_of_nil live hr]
      exact .nil
    · simp only [hr, if_false] at h
      obtain ⟨u, p₁, hrec, h⟩ := perform_bind_eq_ok.1 h
      cases h
      have hdoes : s.Does (.deduplicate kept (s.useCopies copies p).1) p.tree
          (s.useCopies copies p).2.tree := ⟨hr, deletes_useCopies live copies p⟩
      exact Enacts.unfolds ⟨_, hdoes, notes_record live rfl hrec, by simp [Action.sources]⟩

/-! ## New documents -/

/-- The text that is written is made of the texts that were read. -/
theorem mergedText_eq (h : s.readInputs t inputs = .ok docs) :
    mergedText inputs docs = textOf inputs (docs.map Document.content) := by
  have hsources : (inputs.zip docs).map (fun p => Source.mk p.1 p.2.lines) =
      (inputs.zip (docs.map Document.content)).map fun p => Source.mk p.1 (lines p.2) := by
    rw [List.zip_map_right, List.map_map]
    apply List.map_congr_left
    rintro ⟨name, d⟩ hd
    show Source.mk name d.lines = Source.mk name (lines d.content)
    rw [lines_of_readInputs h d (List.of_mem_zip hd).2]
  unfold mergedText textOf
  rcases docs with _ | ⟨first, _ | ⟨second, rest⟩⟩
  · exact congrArg mergeSources hsources
  · rfl
  · exact congrArg mergeSources hsources

/-- What a request makes, once its output is written and its inputs are removed. -/
theorem makes_replace (hr : s.readInputs t inputs = .ok docs)
    (hv : t.resolve .followed (s.pathOf output) = .ok (.vacant new)) :
    s.Makes inputs output (docs.map Document.content) new t (s.replace inputs docs new t) := by
  obtain ⟨hm, hnew⟩ := meets_of_vacant hv
  refine ⟨hm.has_eq_false hnew, hnew, ?_, ?_, fun name hn => has_replace hr hnew hn, ?_⟩
  · refine List.forall₂_map_right_iff.2 ((forall₂_readInputs hr).imp ?_)
    intro name d hd
    obtain ⟨bytes, hb, rfl⟩ := readDocument_ok hd
    exact ⟨bytes, hb, rfl⟩
  · rw [find_replace_page hr hv, pageOf, mergedText_eq hr]
  · intro loc hl
    by_cases he : (s.replace inputs docs new t).get? loc = t.get? loc
    · exact Or.inl he
    · exact Or.inr (owns_of_get?_replace_ne hr hnew hl he)

theorem sources_madeAction (change : Change) (inputs : List String) (output : String) :
    (madeAction change inputs output).sources = inputs := by
  unfold madeAction
  split <;> rfl

/-- Whichever of its two names the action of a new document has, it says the same. -/
theorem does_madeAction (change : Change) (h : s.Makes inputs output texts new t t') :
    s.Does (madeAction change inputs output) t t' := by
  unfold madeAction
  split
  · exact ⟨texts, new, h⟩
  · exact ⟨texts, new, h⟩

/-- **What a request reports is what it has done.** -/
theorem enacts_combine (live : s.trial = false) {change : Change} {asked : Option String}
    {a : Action} (h : (s.combine change inputs asked).perform p = (.ok a, p')) :
    s.Enacts a p.tree p'.tree := by
  rcases s.combine_cases change inputs asked p with
    ⟨_, _, he⟩ | ⟨_, _, he⟩ | ⟨_, _, _, _, _, he⟩ | ⟨_, hfree, docs, hr, he⟩
  · rw [he] at h
    cases h
    exact enacts_skip rfl _
  · rw [he] at h
    cases h
    exact enacts_skip rfl _
  · rw [he] at h
    cases h
    exact enacts_skip rfl _
  · rw [he] at h
    obtain rfl := eq_madeAction_of_carryOut h
    obtain ⟨t₁, hw, hrec⟩ := exists_write_of_carryOut live h
    change p.tree.write _ _ = _ at hw
    -- the page is written before anything is removed, and the record comes last
    obtain ⟨new, hv, rfl⟩ := exists_put_of_write hw (has_of_isTaken_eq_false hfree)
    have hmakes : s.Makes inputs (outputFor inputs asked) (docs.map Document.content) new p.tree
        (s.replace inputs docs new p.tree) := makes_replace hr hv
    have hnotes : s.Notes (madeAction change inputs (outputFor inputs asked))
        (s.replace inputs docs new p.tree) p'.tree :=
      notes_record live (madeAction_changesFiles _ _ _) hrec
    refine ⟨_, does_madeAction change hmakes, hnotes, ?_⟩
    intro name hn loc x hf
    rw [sources_madeAction] at hn
    obtain ⟨cut, hcut⟩ := exists_vacant_replace hr hmakes.vacant hn
    exact journalPlace_of_notes hnotes hcut hf

/-! ## Requests -/

/-- Steps that report what they do report it together. -/
theorem unfolds_forEach {α : Type} {step : α → Step (Option Action)} {xs : List α}
    {actions : List Action}
    (hstep : ∀ x ∈ xs, ∀ p a p', (step x).perform p = (.ok a, p') →
      s.Unfolds a.toList p.tree p'.tree)
    (h : (forEach step xs).perform p = (.ok actions, p')) :
    s.Unfolds actions p.tree p'.tree := by
  induction xs generalizing p actions with
  | nil =>
    cases h
    exact .nil
  | cons x xs ih =>
    obtain ⟨a, p₁, as, hx, hrest, rfl⟩ := perform_forEach_cons_eq_ok.1 h
    have hfirst := hstep x List.mem_cons_self p a p₁ hx
    exact hfirst.append (ih (fun x hx => hstep x (List.mem_cons_of_mem _ hx)) hrest)

theorem unfolds_removeCopies (live : s.trial = false) {groups : List GroupEntry}
    {actions : List Action} (h : (s.removeCopies groups).perform p = (.ok actions, p')) :
    s.Unfolds actions p.tree p'.tree := by
  refine unfolds_forEach ?_ h
  intro g _ p a p' hg
  exact unfolds_removeCopiesOf live hg

theorem unfolds_mergePairs (live : s.trial = false) {pairs : List PairEntry}
    {actions : List Action} (h : (s.mergePairs pairs).perform p = (.ok actions, p')) :
    s.Unfolds actions p.tree p'.tree := by
  refine unfolds_forEach ?_ h
  intro pair _ p a p' hpair
  rcases perform_mergePair_eq_ok.1 hpair with ⟨-, action, rfl, hc⟩ | ⟨-, rfl, rfl⟩
  · exact (enacts_combine live hc).unfolds
  · exact .nil

theorem unfolds_run (live : s.trial = false) {r : Report} {outcome : Outcome}
    (h : (s.run r).perform p = (.ok outcome, p')) :
    s.Unfolds outcome.actions p.tree p'.tree := by
  obtain ⟨copies, p₁, merges, hc, hm, rfl⟩ := (perform_run_eq_ok (isDir_of_run h)).1 h
  exact (unfolds_removeCopies live hc).append (unfolds_mergePairs live hm)

end Session

/-- What may be asked of a session. -/
inductive Request
  | copies (groups : List GroupEntry)
  | pairs (pairs : List PairEntry)
  | fold (files : List String) (output : Option String)
  | report (report : Report)

namespace Session

/-- Does what is asked, and gives the actions. -/
def serve (s : Session) : Request → Step (List Action)
  | .copies groups => s.removeCopies groups
  | .pairs pairs => s.mergePairs pairs
  | .fold files output => do return [← s.fold files output]
  | .report report => Outcome.actions <$> s.run report

/-- To fold files is to ask for one new document. -/
theorem serve_fold (files : List String) (output : Option String) :
    s.serve (.fold files output) = (fun a => [a]) <$> s.combine .folded files output :=
  (map_eq_pure_bind _ _).symm

theorem serve_report (r : Report) : s.serve (.report r) = Outcome.actions <$> s.run r := rfl

/-- **The actions that a live session reports are the changes of the tree**, whatever is asked of it
and however far it is. -/
theorem unfolds_serve (live : s.trial = false) {request : Request} {actions : List Action}
    (h : (s.serve request).perform p = (.ok actions, p')) :
    s.Unfolds actions p.tree p'.tree := by
  cases request with
  | copies groups => exact unfolds_removeCopies live h
  | pairs pairs => exact unfolds_mergePairs live h
  | fold files output =>
    rw [serve_fold] at h
    obtain ⟨a, hc, rfl⟩ := perform_map_eq_ok.1 h
    exact (enacts_combine live hc).unfolds
  | report r =>
    rw [serve_report] at h
    obtain ⟨outcome, hrun, rfl⟩ := perform_map_eq_ok.1 h
    exact unfolds_run live hrun

/-! A group whose copies are a file and a link, a pair whose output is a link to where nothing is,
and a pair one of whose files was merged before; the journal and its directory are not there yet. -/

/-- The documents and links of an inbox. -/
def linkedInbox : Tree :=
  ⟨[(["in"], .dir), (["in", "a.md"], .file [0x78, 0x0A]), (["in", "b.md"], .file [0x78, 0x0A]),
    (["in", "c.md"], .link "a.md"), (["in", "d.md"], .file [0x79, 0x0A]),
    (["in", "e.md"], .file [0x7A, 0x0A]), (["in", "d-merged.md"], .link "f.md")]⟩

/-- A live session whose journal is to stand in a directory of the inbox. -/
def journaled : Session := ⟨"in", .ofRatio 40 100, false, some "in/log/journal", "now"⟩

/-- A report of one group and two pairs. -/
def linkedReport : Report :=
  ⟨⟨6, 1, 2, .ofRatio 60 100⟩, [⟨"0", ["a.md", "b.md", "c.md"], 2⟩],
    [⟨"d.md", "e.md", .ofRatio 1 1, .ofRatio 1 1, 1, 1, 1, 1⟩,
     ⟨"e.md", "a.md", .ofRatio 1 1, .ofRatio 1 2, 1, 1, 1, 1⟩]⟩

theorem unfolds_serve_linkedInbox : ∃ actions p', actions =
      [.deduplicate "a.md" ["b.md", "c.md"], .merge "d.md" "e.md" "d-merged.md",
        .skipConsumed ["e.md", "a.md"] "e.md"] ∧
    (journaled.serve (.report linkedReport)).perform (.start linkedInbox) = (.ok actions, p') ∧
    journaled.Unfolds actions linkedInbox p'.tree := by
  have h : ((journaled.serve (.report linkedReport)).perform (.start linkedInbox)).1 =
      .ok [.deduplicate "a.md" ["b.md", "c.md"], .merge "d.md" "e.md" "d-merged.md",
        .skipConsumed ["e.md", "a.md"] "e.md"] := by
    decide +kernel
  generalize hr : (journaled.serve (.report linkedReport)).perform (.start linkedInbox) = r at h
  obtain ⟨result, p'⟩ := r
  subst h
  exact ⟨_, p', rfl, rfl, unfolds_serve rfl hr⟩

end Session

end NearDup.Merge
