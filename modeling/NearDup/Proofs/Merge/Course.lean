import NearDup.Proofs.Merge.UsedOnce

/-!
# The course of a live session

What a live session does falls into events: a copy is used up and removed, or used up and nothing
is removed; a new document is written, or cannot be written and its inputs are used up all the same;
an input is removed; a record is written. The names that are used up are those of the events, and
the actions that were done and the records can be read off them.

* `Event`, `Session.Happens` — what can happen, and what it makes of a session
* `Session.Account` — the events behind actions, with their records and removals
* `exists_account_serve` — there is an account of every request, whether it fails or not
* `consumed_iff_used` — what is used up, and what a request for a name that is used up comes to
-/

namespace NearDup.Merge

open NearDup.Tree Effect

/-- What happens to the names, the files and the journal of a live session. -/
inductive Event
  /-- A copy was used up and removed. -/
  | removed (copy : String)
  /-- A copy was used up, but nothing was removed: it was not there, or it could not be. -/
  | missed (copy : String)
  /-- A new document was written, and its inputs are used up. -/
  | written (inputs : List String) (output : String)
  /-- A new document could not be written. Its inputs are used up all the same. -/
  | unwritten (inputs : List String) (output : String) (f : Failure)
  /-- An input of the document that was written was removed. -/
  | cleared (input : String)
  /-- A record was written. -/
  | recorded (r : Record)
  /-- A record could not be written. -/
  | unrecorded (r : Record) (f : Failure)
  /-- A request was skipped. -/
  | skipped (a : Action)
  /-- A report was not looked at, for there is no inbox. -/
  | refused (inbox : String)

namespace Event

/-- The names that are used up. -/
def uses : Event → List String
  | removed copy | missed copy => [copy]
  | written inputs _ | unwritten inputs _ _ => inputs
  | _ => []

/-- The names of the files that are looked at. -/
def names : Event → List String
  | removed name | missed name | cleared name => [name]
  | written inputs output | unwritten inputs output _ => output :: inputs
  | _ => []

/-- The name that is deleted. -/
def deleted? : Event → Option String
  | removed name | cleared name => some name
  | _ => none

/-- The record that is written. -/
def record? : Event → Option Record
  | recorded r => some r
  | _ => none

/-- The skip that is reported. -/
def skip? : Event → Option Action
  | skipped a => some a
  | _ => none

/-- The failure that ends the request. -/
def failure? : Event → Option Failure
  | unwritten _ _ f | unrecorded _ f => some f
  | refused inbox => some (.inboxMissing inbox)
  | _ => none

/-- Is an event part of a change that is still to be recorded? -/
def isPart : Event → Bool
  | removed _ | missed _ | written _ _ | cleared _ => true
  | _ => false

/-- Behind a document that was written, its inputs are removed, and then comes its record, be it
written or not. At the beginning a record may be due. -/
def RecordsFollow : Bool → List Event → Prop
  | due, [] => due = false
  | false, .written _ _ :: es => RecordsFollow true es
  | false, _ :: es => RecordsFollow false es
  | true, .cleared _ :: es => RecordsFollow true es
  | true, .recorded _ :: es | true, .unrecorded _ _ :: es => RecordsFollow false es
  | true, _ :: _ => False

end Event

/-- The failure of a step, if it ended with one. -/
def failure? {α : Type} : Except Failure α → Option Failure
  | .ok _ => none
  | .error f => some f

theorem failure?_map {α β : Type} (f : α → β) (x : Except Failure α) :
    failure? (x.map f) = failure? x := by
  cases x <;> rfl

variable {s : Session} {t : Tree} {p p₁ p' : Progress} {e : Event} {es es' : List Event}
  {as bs : List Action} {a : Action} {fs gs : List Failure} {names more inputs : List String}
  {docs : List Document} {change : Change} {output : String}

/-! ## Events -/

theorem Event.eq_skipped (h : e.skip? = some a) : e = .skipped a := by
  cases e with
  | skipped b =>
    cases h
    rfl
  | removed | missed | written | unwritten | cleared | recorded | unrecorded | refused => cases h

theorem Event.RecordsFollow.append {due : Bool} (h : RecordsFollow due es)
    (h' : RecordsFollow false es') : RecordsFollow due (es ++ es') := by
  induction es generalizing due with
  | nil =>
    obtain rfl : due = false := h
    exact h'
  | cons e es ih =>
    cases due with
    | false => cases e <;> exact ih h
    | true => cases e <;> first | exact ih h | exact h.elim

/-- Where a record follows that was due, none need have been due. -/
theorem Event.RecordsFollow.weaken (h : RecordsFollow true es) : RecordsFollow false es := by
  induction es with
  | nil => cases h
  | cons e es ih =>
    cases e with
    | cleared => exact ih h
    | recorded | unrecorded => exact h
    | removed | missed | written | unwritten | skipped | refused => exact h.elim

namespace Session

/-- An event happens to a session, and this is how far the session is afterwards. -/
inductive Happens (s : Session) : Event → Progress → Progress → Prop
  | removed {p : Progress} {copy : String} {own : Location} (hnew : copy ∉ p.consumed)
      (hp : p.tree.has (s.pathOf copy) = true) (ho : p.tree.Owns (s.pathOf copy) own) :
      Happens s (.removed copy) p
        { p with consumed := copy :: p.consumed, tree := p.tree.erase own }
  | missed {p : Progress} {copy : String} (hnew : copy ∉ p.consumed)
      (h : p.tree.has (s.pathOf copy) = true → ∀ own, ¬p.tree.Owns (s.pathOf copy) own) :
      Happens s (.missed copy) p { p with consumed := copy :: p.consumed }
  | written {p : Progress} {inputs : List String} {output : String} {docs : List Document}
      {new : Location} (hc : consumedInput? p inputs = none) (hfree : s.isTaken p output = false)
      (hr : s.readInputs p.tree inputs = .ok docs)
      (hv : p.tree.resolve .followed (s.pathOf output) = .ok (.vacant new)) :
      Happens s (.written inputs output) p
        { p with
          consumed := inputs ++ p.consumed
          planned := output :: p.planned
          tree := p.tree.put new (.file (pageOf inputs docs)) }
  | unwritten {p : Progress} {inputs : List String} {output : String} {docs : List Document}
      {f : Fault} (hc : consumedInput? p inputs = none) (hfree : s.isTaken p output = false)
      (hr : s.readInputs p.tree inputs = .ok docs)
      (hw : p.tree.write (s.pathOf output) (pageOf inputs docs) = .error f) :
      Happens s (.unwritten inputs output (.io (s.pathOf output) f)) p (claimed p inputs output)
  | cleared {p : Progress} {input : String} {own : Location}
      (hp : p.tree.has (s.pathOf input) = true) (ho : p.tree.Owns (s.pathOf input) own) :
      Happens s (.cleared input) p { p with tree := p.tree.erase own }
  | recorded {p : Progress} {path : String} {r : Record} {t : Tree} (hj : s.journal = some path)
      (h : (Journal.append path r).perform p.tree = (.ok (), t)) :
      Happens s (.recorded r) p { p with tree := t }
  | unrecorded {p : Progress} {path : String} {r : Record} {f : Failure} {t : Tree}
      (hj : s.journal = some path)
      (h : (Journal.append path r).perform p.tree = (.error f, t)) :
      Happens s (.unrecorded r f) p { p with tree := t }
  | skipped {p : Progress} {a : Action} (hs : a.isSkip = true)
      (h : ∀ inputs name, a = .skipConsumed inputs name → name ∈ inputs ∧ name ∈ p.consumed) :
      Happens s (.skipped a) p p
  | refused {p : Progress} (h : p.tree.isDir s.inbox = false) : Happens s (.refused s.inbox) p p

/-- Events happen to a session one after the other. -/
inductive Course (s : Session) : List Event → Progress → Progress → Prop
  | nil {p : Progress} : Course s [] p p
  | cons {e : Event} {es : List Event} {p p₁ p' : Progress} :
      s.Happens e p p₁ → Course s es p₁ p' → Course s (e :: es) p p'

theorem Happens.course (h : s.Happens e p p') : s.Course [e] p p' := .cons h .nil

theorem Course.append (h : s.Course es p p₁) (h' : s.Course es' p₁ p') :
    s.Course (es ++ es') p p' := by
  induction h with
  | nil => exact h'
  | cons he _ ih => exact .cons he (ih h')

theorem exists_course_append (h : s.Course (es ++ es') p p') :
    ∃ p₁, s.Course es p p₁ ∧ s.Course es' p₁ p' := by
  induction es generalizing p with
  | nil => exact ⟨p, .nil, h⟩
  | cons e es ih =>
    cases h with
    | cons he hrest =>
      obtain ⟨p₁, h₁, h₂⟩ := ih hrest
      exact ⟨p₁, .cons he h₁, h₂⟩

/-- An event uses up its names, and forgets none. -/
theorem Happens.mem_consumed_iff (h : s.Happens e p p') (name : String) :
    name ∈ p'.consumed ↔ name ∈ p.consumed ∨ name ∈ e.uses := by
  cases h with
  | removed | missed => simp [Event.uses, or_comm]
  | written | unwritten => simp [Event.uses, claimed, or_comm]
  | cleared | recorded | unrecorded | skipped | refused => simp [Event.uses]

/-- **The names that are used up are those of the events.** -/
theorem Course.mem_consumed_iff (h : s.Course es p p') (name : String) :
    name ∈ p'.consumed ↔ name ∈ p.consumed ∨ ∃ e ∈ es, name ∈ e.uses := by
  induction h with
  | nil => simp
  | cons he _ ih => rw [ih, he.mem_consumed_iff, or_assoc, List.exists_mem_cons_iff]

/-! ## Accounts -/

/-- A record is that of an action: it has the kept file or the output, and the files removed; of a
new document not more of them than there were inputs. -/
def Records (s : Session) : Action → Record → Prop
  | .deduplicate kept removed, r => r = ⟨s.now, .deduplicated, kept, removed⟩
  | .merge file1 file2 output, r =>
    r = ⟨s.now, .merged, output, r.removed⟩ ∧ r.removed.Sublist [file1, file2]
  | .fold inputs output, r =>
    r = ⟨s.now, .folded, output, r.removed⟩ ∧ r.removed.Sublist inputs
  | _, _ => False

/-- The records are those of the actions that change files, one for each in their order, and the
files that they say were removed are those that were deleted. -/
structure Logs (s : Session) (es : List Event) (as : List Action) : Prop where
  each : List.Forall₂ s.Records (as.filter Action.changesFiles) (es.filterMap Event.record?)
  removed : (es.filterMap Event.record?).flatMap Record.removed = es.filterMap Event.deleted?

/-- Actions were done between two moments of a session in the course of these events, with these
failures and no other names than these; if a journal is kept and every record could be written, the
changes are recorded. -/
structure Account (s : Session) (names : List String) (es : List Event) (as : List Action)
    (fs : List Failure) (p p' : Progress) : Prop where
  course : s.Course es p p'
  failures : es.filterMap Event.failure? = fs
  skips : es.filterMap Event.skip? = as.filter Action.isSkip
  names : ∀ e ∈ es, e.names ⊆ names
  follow : s.journal ≠ none → Event.RecordsFollow false es
  logs : s.journal ≠ none → (∀ r f, .unrecorded r f ∉ es) → s.Logs es as

theorem Logs.append (h : s.Logs es as) (h' : s.Logs es' bs) : s.Logs (es ++ es') (as ++ bs) where
  each := by
    rw [List.filter_append, List.filterMap_append]
    exact List.rel_append h.each h'.each
  removed := by
    rw [List.filterMap_append, List.flatMap_append, h.removed, h'.removed, List.filterMap_append]

theorem account_nil (s : Session) (names : List String) (p : Progress) :
    s.Account names [] [] [] p p where
  course := .nil
  failures := rfl
  skips := rfl
  names := by simp
  follow := fun _ => rfl
  logs := fun _ _ => ⟨.nil, rfl⟩

theorem Account.mono (h : s.Account names es as fs p p') (hs : names ⊆ more) :
    s.Account more es as fs p p' :=
  { h with names := fun e he => List.Subset.trans (h.names e he) hs }

theorem Account.append (h : s.Account names es as fs p p₁)
    (h' : s.Account names es' bs gs p₁ p') :
    s.Account names (es ++ es') (as ++ bs) (fs ++ gs) p p' where
  course := h.course.append h'.course
  failures := by rw [List.filterMap_append, h.failures, h'.failures]
  skips := by rw [List.filterMap_append, h.skips, h'.skips, List.filter_append]
  names := fun e he => (List.mem_append.1 he).elim (h.names e) (h'.names e)
  follow := fun hj => (h.follow hj).append (h'.follow hj)
  logs := by
    intro hj hall
    refine (h.logs hj fun r f hmem => hall r f ?_).append (h'.logs hj fun r f hmem => hall r f ?_)
    · exact List.mem_append_left _ hmem
    · exact List.mem_append_right _ hmem

/-- A skip is an event by itself. -/
theorem account_skip (names : List String) (hs : a.isSkip = true)
    (h : ∀ inputs name, a = .skipConsumed inputs name → name ∈ inputs ∧ name ∈ p.consumed) :
    s.Account names [.skipped a] [a] [] p p where
  course := (Happens.skipped hs h).course
  failures := rfl
  skips := by simp [Event.skip?, hs]
  names := by simp [Event.names]
  follow := fun _ => rfl
  logs := by
    intro _ _
    have hchange : a.changesFiles = false := by simpa [Action.isSkip] using hs
    exact ⟨by simp [hchange, Event.record?], rfl⟩

/-! ## Changes -/

/-- The parts of a change tell of no record, no skip and no failure. -/
theorem filterMap_of_isPart (h : ∀ e ∈ es, e.isPart = true) :
    es.filterMap Event.record? = [] ∧ es.filterMap Event.skip? = [] ∧
      es.filterMap Event.failure? = [] := by
  have hnone : ∀ e ∈ es, e.record? = none ∧ e.skip? = none ∧ e.failure? = none := by
    intro e he
    have hpart := h e he
    cases e with
    | removed | missed | written | cleared => exact ⟨rfl, rfl, rfl⟩
    | unwritten | recorded | unrecorded | skipped | refused => cases hpart
  refine ⟨?_, ?_, ?_⟩
  · exact List.filterMap_eq_nil_iff.2 fun e he => (hnone e he).1
  · exact List.filterMap_eq_nil_iff.2 fun e he => (hnone e he).2.1
  · exact List.filterMap_eq_nil_iff.2 fun e he => (hnone e he).2.2

/-- **A change is accounted for by its parts and the record behind them.** If the record cannot be
written, then the change is not reported. -/
theorem exists_account_record (live : s.trial = false) {kept : String} {removed : List String}
    (hes : s.Course es p p₁) (hpart : ∀ e ∈ es, e.isPart = true)
    (hnames : ∀ e ∈ es, e.names ⊆ names)
    (hfollow : ∀ es', Event.RecordsFollow true es' → Event.RecordsFollow false (es ++ es'))
    (hdeleted : es.filterMap Event.deleted? = removed)
    (ha : s.Records a ⟨s.now, change, kept, removed⟩) :
    ∃ es', s.Account names es'
      (((s.record change kept removed).perform p₁).1.map fun _ => a).toOption.toList
      (failure? ((s.record change kept removed).perform p₁).1).toList
      p ((s.record change kept removed).perform p₁).2 := by
  obtain ⟨hrecords, hskips, hfailures⟩ := filterMap_of_isPart hpart
  have hchange : a.changesFiles = true := by
    cases a with
    | deduplicate | merge | fold => rfl
    | skipConsumed | skipCollision | skipUnreadable => exact absurd ha id
  have hskip : a.isSkip = false := by simp [Action.isSkip, hchange]
  cases hj : s.journal with
  | none =>
    rw [perform_record_of_none hj]
    refine ⟨es, hes, hfailures, ?_, hnames, fun h => absurd hj h, fun h => absurd hj h⟩
    rw [hskips]
    simp [Except.map, Except.toOption, hskip]
  | some path =>
    have hperform : (s.record change kept removed).perform p₁ =
        (((Journal.append path ⟨s.now, change, kept, removed⟩).perform p₁.tree).1,
          { p₁ with tree :=
            ((Journal.append path ⟨s.now, change, kept, removed⟩).perform p₁.tree).2 }) := by
      simp [record, live, hj, Step.onTree]
    have hmore : ∀ e : Event, e.names = [] → ∀ e' ∈ es ++ [e], e'.names ⊆ names := by
      intro e he e' he'
      rcases List.mem_append.1 he' with he' | he'
      · exact hnames e' he'
      · rw [List.mem_singleton.1 he', he]
        exact List.nil_subset _
    rw [hperform]
    rcases hr : (Journal.append path ⟨s.now, change, kept, removed⟩).perform p₁.tree with
      ⟨f | u, t₁⟩
    · refine ⟨es ++ [.unrecorded ⟨s.now, change, kept, removed⟩ f],
        hes.append (Happens.unrecorded hj hr).course, ?_, ?_, hmore _ rfl,
        fun _ => hfollow [.unrecorded _ f] rfl, ?_⟩
      · rw [List.filterMap_append, hfailures]
        rfl
      · rw [List.filterMap_append, hskips]
        rfl
      · intro _ hall
        exact absurd (List.mem_append_right _ List.mem_cons_self) (hall _ f)
    · refine ⟨es ++ [.recorded ⟨s.now, change, kept, removed⟩],
        hes.append (Happens.recorded hj hr).course, ?_, ?_, hmore _ rfl,
        fun _ => hfollow [.recorded _] rfl, fun _ _ => ⟨?_, ?_⟩⟩
      · rw [List.filterMap_append, hfailures]
        rfl
      · rw [List.filterMap_append, hskips]
        simp [Except.map, Except.toOption, hskip, Event.skip?]
      · rw [List.filterMap_append, hrecords]
        simpa [Except.map, Except.toOption, hchange, Event.record?] using ha
      · rw [List.filterMap_append, hrecords, List.filterMap_append, hdeleted]
        simp [Event.record?, Event.deleted?]

/-! ## Copies -/

/-- Copies are used up in the course of events that tell which of them were removed. -/
theorem exists_course_useCopies (live : s.trial = false) (names : List String) (p : Progress) :
    ∃ es, s.Course es p (s.useCopies names p).2 ∧
      (∀ e ∈ es, e.isPart = true) ∧ (∀ e ∈ es, e.names ⊆ names) ∧
      Event.RecordsFollow false es ∧ es.filterMap Event.deleted? = (s.useCopies names p).1 := by
  induction names generalizing p with
  | nil => exact ⟨[], .nil, by simp, by simp, rfl, rfl⟩
  | cons name rest ih =>
    have hcons : ∀ {e : Event} {es : List Event}, e.names = [name] → (∀ e ∈ es, e.names ⊆ rest) →
        ∀ e' ∈ e :: es, e'.names ⊆ name :: rest := by
      intro e es he hes
      refine List.forall_mem_cons.2 ⟨by simp [he], fun e' he' => ?_⟩
      exact List.Subset.trans (hes e' he') (List.subset_cons_self _ _)
    rcases useCopies_cons_cases live name rest p with
      ⟨_, he⟩ | ⟨hnew, t₁, hr, he⟩ | ⟨hnew, hr, he⟩
    · obtain ⟨es, hes, hpart, hnames, hfollow, hdeleted⟩ := ih p
      rw [he]
      refine ⟨es, hes, hpart, fun e he => ?_, hfollow, hdeleted⟩
      exact List.Subset.trans (hnames e he) (List.subset_cons_self _ _)
    · rcases s.removeFile_cases name p.tree with ⟨own, hp, ho, hr'⟩ | ⟨hr', -⟩
      · rw [hr] at hr'
        cases hr'
        obtain ⟨es, hes, hpart, hnames, hfollow, hdeleted⟩ :=
          ih { p with consumed := name :: p.consumed, tree := p.tree.erase own }
        rw [he]
        exact ⟨.removed name :: es, .cons (.removed hnew hp ho) hes,
          List.forall_mem_cons.2 ⟨rfl, hpart⟩, hcons rfl hnames, hfollow,
          congrArg (name :: ·) hdeleted⟩
      · rw [hr] at hr'
        cases hr'
    · rcases s.removeFile_cases name p.tree with ⟨own, hp, ho, hr'⟩ | ⟨-, hnot⟩
      · rw [hr] at hr'
        cases hr'
      · obtain ⟨es, hes, hpart, hnames, hfollow, hdeleted⟩ :=
          ih { p with consumed := name :: p.consumed }
        rw [he]
        exact ⟨.missed name :: es, .cons (.missed hnew hnot) hes,
          List.forall_mem_cons.2 ⟨rfl, hpart⟩, hcons rfl hnames, hfollow, hdeleted⟩

/-- There is an account of the copies of a group. -/
theorem exists_account_removeCopiesOf (live : s.trial = false) (g : GroupEntry) (p : Progress) :
    ∃ es, s.Account g.files.tail es (((s.removeCopiesOf g).perform p).1.toOption.bind id).toList
      (failure? ((s.removeCopiesOf g).perform p).1).toList
      p ((s.removeCopiesOf g).perform p).2 := by
  unfold removeCopiesOf
  split
  · exact ⟨[], account_nil s _ p⟩
  · next kept copies hg =>
    obtain ⟨es, hes, hpart, hnames, hfollow, hdeleted⟩ := exists_course_useCopies live copies p
    rw [hg, List.tail_cons]
    simp only [perform_bind, perform_modifyGet]
    by_cases hr : (s.useCopies copies p).1 = []
    · -- names may be used up although no copy is removed, and then nothing is recorded
      obtain ⟨hrecords, hskips, hfailures⟩ := filterMap_of_isPart hpart
      simp only [hr, if_true, perform_pure]
      refine ⟨es, hes, hfailures, hskips, hnames, fun _ => hfollow, fun _ _ => ⟨?_, ?_⟩⟩
      · rw [hrecords]
        exact .nil
      · rw [hrecords, hdeleted, hr]
        rfl
    · simp only [hr, if_false, perform_bind]
      have hrecord : s.Records (.deduplicate kept (s.useCopies copies p).1)
        ⟨s.now, .deduplicated, kept, (s.useCopies copies p).1⟩ := rfl
      obtain ⟨es', h⟩ := exists_account_record live hes hpart hnames
        (fun es' h => hfollow.append h.weaken) hdeleted hrecord
      refine ⟨es', ?_⟩
      rcases hrec : (s.record .deduplicated kept (s.useCopies copies p).1).perform
        (s.useCopies copies p).2 with ⟨_ | u, p₁⟩
      · rw [hrec] at h
        exact h
      · rw [hrec] at h
        exact h

/-! ## New documents -/

/-- Inputs are removed in the course of events, one for each that is. -/
theorem exists_course_removeFiles (s : Session) (names : List String) (p : Progress) :
    ∃ es, s.Course es p { p with tree := (s.removeFiles names p.tree).2 } ∧
      (∀ e ∈ es, e.isPart = true) ∧ (∀ e ∈ es, e.names ⊆ names) ∧
      (∀ es', Event.RecordsFollow true es' → Event.RecordsFollow true (es ++ es')) ∧
      es.filterMap Event.deleted? = (s.removeFiles names p.tree).1 ∧
      (s.removeFiles names p.tree).1.Sublist names := by
  induction names generalizing p with
  | nil => exact ⟨[], .nil, by simp, by simp, fun _ => id, rfl, .refl _⟩
  | cons name rest ih =>
    have hmore : ∀ {es : List Event}, (∀ e ∈ es, e.names ⊆ rest) →
        ∀ e ∈ es, e.names ⊆ name :: rest :=
      fun hes e he => List.Subset.trans (hes e he) (List.subset_cons_self _ _)
    unfold removeFiles
    rcases s.removeFile_cases name p.tree with ⟨own, hp, ho, hr⟩ | ⟨hr, -⟩
    · obtain ⟨es, hes, hpart, hnames, hfollow, hdeleted, hsub⟩ :=
        ih { p with tree := p.tree.erase own }
      simp only [hr, if_true]
      refine ⟨.cleared name :: es, .cons (.cleared hp ho) hes,
        List.forall_mem_cons.2 ⟨rfl, hpart⟩, ?_, hfollow, congrArg (name :: ·) hdeleted,
        hsub.cons_cons name⟩
      exact List.forall_mem_cons.2 ⟨by simp [Event.names], hmore hnames⟩
    · obtain ⟨es, hes, hpart, hnames, hfollow, hdeleted, hsub⟩ := ih p
      simp only [hr, Bool.false_eq_true, if_false]
      exact ⟨es, hes, hpart, hmore hnames, hfollow, hdeleted, hsub.cons name⟩

/-- A change of these names: a merge of two files, or a fold. -/
def Names (change : Change) (inputs : List String) : Prop :=
  change = .folded ∨ change = .merged ∧ ∃ file1 file2, inputs = [file1, file2]

theorem records_madeAction (h : Names change inputs) (hsub : names.Sublist inputs) :
    s.Records (madeAction change inputs output) ⟨s.now, change, output, names⟩ := by
  rcases h with rfl | ⟨rfl, file1, file2, rfl⟩
  · exact ⟨rfl, hsub⟩
  · exact ⟨rfl, hsub⟩

/-- There is an account of a request for a new document. -/
theorem exists_account_combine (live : s.trial = false) (hn : Names change inputs)
    (asked : Option String) (p : Progress) :
    ∃ es, s.Account (outputFor inputs asked :: inputs) es
      ((s.combine change inputs asked).perform p).1.toOption.toList
      (failure? ((s.combine change inputs asked).perform p).1).toList p
      ((s.combine change inputs asked).perform p).2 := by
  rcases s.combine_cases change inputs asked p with
    ⟨name, hc, h⟩ | ⟨_, _, h⟩ | ⟨_, _, name, f, _, h⟩ | ⟨hc, hfree, docs, hr, h⟩
  · rw [h]
    refine ⟨_, account_skip _ rfl ?_⟩
    rintro _ _ ⟨⟩
    exact ⟨List.mem_of_find?_eq_some hc, by simpa using List.find?_some hc⟩
  · rw [h]
    exact ⟨_, account_skip _ rfl (by simp)⟩
  · rw [h]
    exact ⟨_, account_skip _ rfl (by simp)⟩
  · rw [h, perform_carryOut_of_live live]
    cases hw : p.tree.write (s.pathOf (outputFor inputs asked))
        (Text.Utf8.encode (mergedText inputs docs)) with
    | error f =>
      simp only [claimed, hw]
      exact ⟨_, (Happens.unwritten hc hfree hr hw).course, rfl, rfl, by simp [Event.names],
        fun _ => rfl, fun _ _ => ⟨.nil, rfl⟩⟩
    | ok t₁ =>
      simp only [claimed, hw]
      obtain ⟨new, hv, rfl⟩ := exists_put_of_write hw (has_of_isTaken_eq_false hfree)
      have hwritten := Happens.written hc hfree hr hv
      obtain ⟨es, hes, hpart, hnames, hfollow, hdeleted, hsub⟩ :=
        s.exists_course_removeFiles inputs _
      rw [failure?_map]
      refine exists_account_record live (.cons hwritten hes)
        (List.forall_mem_cons.2 ⟨rfl, hpart⟩) (List.forall_mem_cons.2 ⟨fun _ => id, fun e he => ?_⟩)
        hfollow hdeleted (records_madeAction hn hsub)
      exact List.Subset.trans (hnames e he) (List.subset_cons_self _ _)

/-- There is an account of a pair. -/
theorem exists_account_mergePair (live : s.trial = false) (pair : PairEntry) (p : Progress) :
    ∃ es, s.Account [outputName pair.file1, pair.file1, pair.file2] es
      (((s.mergePair pair).perform p).1.toOption.bind id).toList
      (failure? ((s.mergePair pair).perform p).1).toList p ((s.mergePair pair).perform p).2 := by
  unfold mergePair
  split
  · obtain ⟨es, h⟩ :=
      exists_account_combine live (Or.inr ⟨rfl, pair.file1, pair.file2, rfl⟩) none p
    rw [perform_map, failure?_map]
    refine ⟨es, ?_⟩
    rcases hc : (s.combine .merged [pair.file1, pair.file2] none).perform p with ⟨_ | a, p'⟩
    · rw [hc] at h
      exact h
    · rw [hc] at h
      exact h
  · exact ⟨[], account_nil s _ p⟩

/-! ## Requests -/

/-- The names of files that a pair is about. -/
def pairNames (pair : PairEntry) : List String :=
  [outputName pair.file1, pair.file1, pair.file2]

/-- The names of files that a request is about: copies to be removed, files to be made one of, and
outputs. -/
def requestNames : Request → List String
  | .copies groups => copiesOf groups
  | .pairs pairs => pairs.flatMap pairNames
  | .fold files output => outputFor files output :: files
  | .report r => copiesOf r.exact ++ r.similar.flatMap pairNames

/-- Steps each of which is accounted for are accounted for in turn. -/
theorem exists_account_forEach {α : Type} {step : α → Step (Option Action)}
    {namesOf : α → List String}
    (hstep : ∀ x p, ∃ es, s.Account (namesOf x) es
      (((step x).perform p).1.toOption.bind id).toList
      (failure? ((step x).perform p).1).toList p ((step x).perform p).2)
    (xs : List α) (p : Progress) :
    ∃ es, s.Account (xs.flatMap namesOf) es (doneEach step xs p)
      (failure? ((forEach step xs).perform p).1).toList p ((forEach step xs).perform p).2 := by
  induction xs generalizing p with
  | nil => exact ⟨[], account_nil s _ p⟩
  | cons x xs ih =>
    obtain ⟨es, hx⟩ := hstep x p
    replace hx := hx.mono (List.subset_append_left (namesOf x) (xs.flatMap namesOf))
    rw [perform_forEach_cons, doneEach, List.flatMap_cons]
    rcases h : (step x).perform p with ⟨_ | a, p₁⟩
    · -- the steps behind a failure are not taken
      rw [h] at hx
      exact ⟨es, hx⟩
    · rw [h] at hx
      obtain ⟨es', hrest⟩ := ih p₁
      simp only [failure?_map]
      exact ⟨es ++ es', hx.append (hrest.mono (List.subset_append_right _ _))⟩

/-- There is an account of a report: its groups, and behind them its pairs. -/
theorem exists_account_report (live : s.trial = false) (r : Report) (p : Progress) :
    ∃ es, s.Account (requestNames (.report r)) es (s.done (.report r) p)
      (failure? ((s.run r).perform p).1).toList p ((s.run r).perform p).2 := by
  simp only [done]
  cases hd : p.tree.isDir s.inbox with
  | false =>
    rw [perform_run_of_not_isDir hd]
    exact ⟨_, (Happens.refused hd).course, rfl, rfl, by simp [Event.names], fun _ => rfl,
      fun _ _ => ⟨.nil, rfl⟩⟩
  | true =>
    obtain ⟨es, hcopies⟩ := exists_account_forEach (exists_account_removeCopiesOf live) r.exact p
    replace hcopies := hcopies.mono
      (List.subset_append_left (copiesOf r.exact) (r.similar.flatMap pairNames))
    rw [perform_run_of_isDir hd]
    simp only [perform_bind, perform_pure, if_true, removeCopies, mergePairs]
    rcases hc : (forEach s.removeCopiesOf r.exact).perform p with ⟨_ | copies, p₁⟩
    · -- no pair is looked at once a group has failed
      rw [hc] at hcopies
      exact ⟨es, hcopies⟩
    · obtain ⟨es', hpairs⟩ := exists_account_forEach (exists_account_mergePair live) r.similar p₁
      replace hpairs := hpairs.mono
        (List.subset_append_right (copiesOf r.exact) (r.similar.flatMap pairNames))
      rw [hc, doneEach_of_ok hc] at hcopies
      refine ⟨es ++ es', ?_⟩
      rcases hm : (forEach s.mergePair r.similar).perform p₁ with ⟨_ | merges, p₂⟩
      · rw [hm] at hpairs
        simpa [hm, failure?, requestNames] using hcopies.append hpairs
      · rw [hm] at hpairs
        simpa [hm, failure?, requestNames] using hcopies.append hpairs

/-- **There is an account of every request**, whether it fails or not. -/
theorem exists_account_serve (live : s.trial = false) (request : Request) (p : Progress) :
    ∃ es, s.Account (requestNames request) es (s.done request p)
      (failure? ((s.serve request).perform p).1).toList p ((s.serve request).perform p).2 := by
  cases request with
  | copies groups => exact exists_account_forEach (exists_account_removeCopiesOf live) groups p
  | pairs pairs => exact exists_account_forEach (exists_account_mergePair live) pairs p
  | fold files output =>
    have hfold : Names .folded files := Or.inl rfl
    obtain ⟨es, h⟩ := exists_account_combine live hfold output p
    simp only [serve, done, fold, perform_bind]
    refine ⟨es, ?_⟩
    rcases hc : (s.combine .folded files output).perform p with ⟨_ | a, p'⟩
    · rw [hc] at h
      exact h
    · rw [hc] at h
      exact h
  | report r =>
    simp only [serve, perform_map, failure?_map]
    exact exists_account_report live r p

/-- There is an account of any sequence of requests. -/
theorem exists_account_history (live : s.trial = false) (requests : List Request) (p : Progress) :
    ∃ es fs, s.Account (requests.flatMap requestNames) es (s.history requests p) fs
      p (s.after requests p) := by
  induction requests generalizing p with
  | nil => exact ⟨[], [], account_nil s _ p⟩
  | cons request rest ih =>
    obtain ⟨es, h⟩ := exists_account_serve live request p
    obtain ⟨es', fs, hrest⟩ := ih ((s.serve request).perform p).2
    rw [List.flatMap_cons]
    exact ⟨es ++ es', _, (h.mono (List.subset_append_left _ _)).append
      (hrest.mono (List.subset_append_right _ _))⟩

/-! ## Names that are used up -/

/-- The inputs of a fold that fails are used up all the same. -/
theorem subset_consumed_of_fold_error {asked : Option String} {f : Failure}
    (h : (s.fold inputs asked).perform p = (.error f, p')) : inputs ⊆ p'.consumed := by
  rw [fold] at h
  rcases s.combine_cases .folded inputs asked p with
    ⟨_, _, he⟩ | ⟨_, _, he⟩ | ⟨_, _, _, _, _, he⟩ | ⟨_, _, docs, _, he⟩
  · simp [he] at h
  · simp [he] at h
  · simp [he] at h
  · rw [he] at h
    have hnames := (s.names_carryOut .folded inputs (outputFor inputs asked) docs
      (claimed p inputs (outputFor inputs asked))).1
    rw [h] at hnames
    rw [hnames]
    exact List.subset_append_left _ _

/-- A request for a name that is used up is skipped. -/
theorem exists_skip_of_consumed (change : Change) (asked : Option String)
    (h : ∃ name ∈ inputs, name ∈ p.consumed) :
    ∃ name ∈ inputs, (s.combine change inputs asked).perform p =
      (.ok (.skipConsumed inputs name), p) := by
  cases hc : consumedInput? p inputs with
  | none =>
    obtain ⟨name, hn, hused⟩ := h
    exact absurd hused (consumedInput?_eq_none_iff.1 hc name hn)
  | some name => exact ⟨name, List.mem_of_find?_eq_some hc, perform_combine_of_consumed hc⟩

/-- **A name is used up exactly by an event before**: a copy that was removed or could not be, or an
input of a document that was written or could not be. Only such names are said to be used up; and
the inputs of a fold that failed stay used up, whatever output is asked for. -/
theorem consumed_iff_used (live : s.trial = false) (requests : List Request) (t : Tree) :
    ∃ es, s.Course es (.start t) (s.after requests (.start t)) ∧
      es.filterMap Event.skip? = (s.history requests (.start t)).filter Action.isSkip ∧
      (∀ name, name ∈ (s.after requests (.start t)).consumed ↔ ∃ e ∈ es, name ∈ e.uses) ∧
      (∀ inputs name, .skipConsumed inputs name ∈ s.history requests (.start t) →
        name ∈ inputs ∧ ∃ front back, es = front ++ .skipped (.skipConsumed inputs name) :: back ∧
          ∃ e ∈ front, name ∈ e.uses) ∧
      ∀ files asked f p', (s.fold files asked).perform (s.after requests (.start t)) =
          (.error f, p') →
        ∀ more inputs other, (∃ name ∈ files, name ∈ inputs) → ∃ name ∈ inputs,
          (s.fold inputs other).perform (s.after more p') =
            (.ok (.skipConsumed inputs name), s.after more p') := by
  obtain ⟨es, fs, haccount⟩ := exists_account_history live requests (.start t)
  have hstart : ∀ name, name ∉ (Progress.start t).consumed := by simp [Progress.start]
  refine ⟨es, haccount.course, haccount.skips, fun name => ?_, ?_, ?_⟩
  · simp [haccount.course.mem_consumed_iff, hstart]
  · intro inputs name hskip
    have hmem : Action.skipConsumed inputs name ∈ es.filterMap Event.skip? := by
      rw [haccount.skips]
      exact List.mem_filter.2 ⟨hskip, rfl⟩
    obtain ⟨e, he, heq⟩ := List.mem_filterMap.1 hmem
    obtain rfl := Event.eq_skipped heq
    obtain ⟨front, back, rfl⟩ := List.append_of_mem he
    -- the name was used up by what had happened before the skip
    obtain ⟨p₁, hfront, hback⟩ := exists_course_append haccount.course
    cases hback with
    | cons hskipped _ =>
      cases hskipped with
      | skipped _ h =>
        obtain ⟨hin, hused⟩ := h inputs name rfl
        refine ⟨hin, front, back, rfl, ?_⟩
        exact ((hfront.mem_consumed_iff name).1 hused).resolve_left (hstart name)
  · rintro files asked f p' hfold more inputs other ⟨name, hfile, hin⟩
    have hkept := (s.once_history more p').consumed
    exact exists_skip_of_consumed .folded other
      ⟨name, hin, hkept (subset_consumed_of_fold_error hfold hfile)⟩

/-! A document that is to be folded into a directory that is not there, and a copy that is not
there. -/

/-- An inbox with one document. -/
def single : Tree := ⟨[(["in"], .dir), (["in", "a.md"], .file [0x78, 0x0A])]⟩

/-- A live session without a journal. -/
def unrecording : Session := ⟨"in", .ofRatio 40 100, false, none, "now"⟩

theorem consumed_iff_used_unwritten :
    unrecording.trial = false ∧ ∃ es,
      unrecording.Course es (.start single)
        (unrecording.after [.fold ["a.md"] (some "gone/x.md")] (.start single)) ∧
      (∃ e ∈ es, "a.md" ∈ e.uses) ∧
      ∃ name ∈ ["a.md"], (unrecording.fold ["a.md"] (some "b.md")).perform
          (unrecording.after [.fold ["a.md"] (some "gone/x.md")] (.start single)) =
        (.ok (.skipConsumed ["a.md"] name),
          unrecording.after [.fold ["a.md"] (some "gone/x.md")] (.start single)) := by
  have hused : "a.md" ∈ (unrecording.after [.fold ["a.md"] (some "gone/x.md")]
      (.start single)).consumed := by decide +kernel
  have hfold : (unrecording.fold ["a.md"] (some "gone/x.md")).perform (.start single) =
      (.error (.io "in/gone/x.md" .noEntry),
        unrecording.after [.fold ["a.md"] (some "gone/x.md")] (.start single)) := by
    decide +kernel
  obtain ⟨es, hcourse, -, hiff, -⟩ :=
    consumed_iff_used (s := unrecording) rfl [.fold ["a.md"] (some "gone/x.md")] single
  obtain ⟨_, -, -, -, -, hagain⟩ := consumed_iff_used (s := unrecording) rfl [] single
  exact ⟨rfl, es, hcourse, (hiff "a.md").1 hused,
    hagain _ _ _ _ hfold [] ["a.md"] (some "b.md") ⟨"a.md", by simp, by simp⟩⟩

/-- So a name can be used up though no action has removed it: that of a document which could not be
written, and it cannot be folded again then, and that of a copy which was not there. -/
theorem not_consumed_of_removed :
    (∀ request ∈ [Request.fold ["a.md"] (some "gone/x.md"), .copies [⟨"0", ["a.md", "b.md"], 2⟩]],
      (unrecording.after [request] (.start single)).tree = single ∧
      ¬∀ name ∈ (unrecording.after [request] (.start single)).consumed,
        ∃ a ∈ unrecording.history [request] (.start single), name ∈ a.removes) ∧
    ((unrecording.fold ["a.md"] (some "b.md")).perform (.start single)).1 =
      .ok (.fold ["a.md"] "b.md") ∧
    ((unrecording.fold ["a.md"] (some "b.md")).perform
        (unrecording.after [.fold ["a.md"] (some "gone/x.md")] (.start single))).1 =
      .ok (.skipConsumed ["a.md"] "a.md") := by
  decide +kernel

end Session

end NearDup.Merge
