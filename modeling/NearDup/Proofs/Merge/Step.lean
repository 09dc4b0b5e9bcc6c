import NearDup.Proofs.Merge.Removal

/-!
# The steps of a session

What each operation of a session makes of its progress, said once: how a list of steps goes on, the
four ways in which a request for a new document can end, and what is found once it is carried out.

* `perform_forEach_cons`, `perform_forEach_eq_error_iff` — a list of steps ends with the first failure
* `Session.combine_cases` — a request is skipped, or carried out
* `Session.combine_live_cases` — what that makes of the tree of a live session
* `Session.find_replace_cases` — a file is still found, or it was an input
-/

namespace NearDup.Merge

open NearDup.Tree Effect

variable {s : Session} {t : Tree} {name : String} {p : Progress}

/-! ## Lists of steps -/

section ForEach

variable {α : Type} {step : α → Step (Option Action)} {x : α} {xs : List α}

@[simp] theorem perform_forEach_nil : (forEach step []).perform p = (.ok [], p) := rfl

theorem perform_forEach_cons : (forEach step (x :: xs)).perform p =
    match (step x).perform p with
    | (.ok a, p') => (((forEach step xs).perform p').1.map (a.toList ++ ·),
        ((forEach step xs).perform p').2)
    | (.error f, p') => (.error f, p') := by
  rw [forEach, perform_bind]
  rcases (step x).perform p with ⟨_ | a, p'⟩
  · rfl
  · simp only [perform_bind]
    rcases (forEach step xs).perform p' with ⟨_ | as, p''⟩ <;> rfl

/-- A list of steps ends well if the first does and then the others do. -/
theorem perform_forEach_cons_eq_ok {actions : List Action} {p' : Progress} :
    (forEach step (x :: xs)).perform p = (.ok actions, p') ↔
      ∃ a p₁ as, (step x).perform p = (.ok a, p₁) ∧
        (forEach step xs).perform p₁ = (.ok as, p') ∧ actions = a.toList ++ as := by
  rw [forEach, perform_bind_eq_ok]
  constructor
  · rintro ⟨a, p₁, hs, h⟩
    obtain ⟨as, p₂, hr, h⟩ := perform_bind_eq_ok.1 h
    cases h
    exact ⟨a, p₁, as, hs, hr, rfl⟩
  · rintro ⟨a, p₁, as, hs, hr, rfl⟩
    exact ⟨a, p₁, hs, perform_bind_eq_ok.2 ⟨as, p', hr, rfl⟩⟩

/-- Two lists of steps are taken one after the other. -/
theorem perform_forEach_append_eq_ok {ys : List α} {actions : List Action} {p' : Progress} :
    (forEach step (xs ++ ys)).perform p = (.ok actions, p') ↔
      ∃ first p₁ rest, (forEach step xs).perform p = (.ok first, p₁) ∧
        (forEach step ys).perform p₁ = (.ok rest, p') ∧ actions = first ++ rest := by
  induction xs generalizing p actions with
  | nil => simp
  | cons x xs ih =>
    rw [List.cons_append, perform_forEach_cons_eq_ok]
    constructor
    · rintro ⟨a, p₁, as, hx, has, rfl⟩
      obtain ⟨first, p₂, rest, hfirst, hrest, rfl⟩ := ih.1 has
      exact ⟨a.toList ++ first, p₂, rest,
        perform_forEach_cons_eq_ok.2 ⟨a, p₁, first, hx, hfirst, rfl⟩, hrest,
        (List.append_assoc _ _ _).symm⟩
    · rintro ⟨first, p₂, rest, hfirst, hrest, rfl⟩
      obtain ⟨a, p₁, as, hx, has, rfl⟩ := perform_forEach_cons_eq_ok.1 hfirst
      exact ⟨a, p₁, as ++ rest, hx, ih.2 ⟨as, p₂, rest, has, hrest, rfl⟩,
        List.append_assoc _ _ _⟩

/-- A list of steps fails exactly with the first step that does; those before it end well, and those
behind it are not taken. -/
theorem perform_forEach_eq_error_iff {f : Failure} {p' : Progress} :
    (forEach step xs).perform p = (.error f, p') ↔
      ∃ before x after actions p₁, xs = before ++ x :: after ∧
        (forEach step before).perform p = (.ok actions, p₁) ∧
        (step x).perform p₁ = (.error f, p') := by
  induction xs generalizing p with
  | nil => simp
  | cons x xs ih =>
    constructor
    · intro h
      rw [perform_forEach_cons] at h
      rcases hs : (step x).perform p with ⟨f' | a, p₁⟩
      · simp only [hs, Prod.mk.injEq, Except.error.injEq] at h
        obtain ⟨rfl, rfl⟩ := h
        exact ⟨[], x, xs, [], p, rfl, rfl, hs⟩
      · rcases hr : (forEach step xs).perform p₁ with ⟨f' | as, p₂⟩
        · simp only [hs, hr, Except.map, Prod.mk.injEq, Except.error.injEq] at h
          obtain ⟨rfl, rfl⟩ := h
          obtain ⟨before, y, after, actions, p₃, rfl, hbefore, hy⟩ := ih.1 hr
          exact ⟨x :: before, y, after, _, p₃, rfl,
            perform_forEach_cons_eq_ok.2 ⟨a, p₁, actions, hs, hbefore, rfl⟩, hy⟩
        · simp [hs, hr, Except.map] at h
    · rintro ⟨before, y, after, actions, p₁, hxs, hbefore, hy⟩
      rw [perform_forEach_cons]
      cases before with
      | nil =>
        cases hxs
        cases hbefore
        simp only [hy]
      | cons z before =>
        cases hxs
        obtain ⟨a, p₂, as, hs, hrest, rfl⟩ := perform_forEach_cons_eq_ok.1 hbefore
        have hall := ih.2 ⟨before, y, after, as, p₁, rfl, hrest, hy⟩
        simp only [hs, hall, Except.map]

/-- What every step preserves is preserved by all of them in turn. -/
theorem forEach_preserves {P : Progress → Prop}
    (h : ∀ x ∈ xs, ∀ p, P p → P ((step x).perform p).2) (hp : P p) :
    P ((forEach step xs).perform p).2 := by
  induction xs generalizing p with
  | nil => exact hp
  | cons x xs ih =>
    have hx := h x (by simp) p hp
    rw [perform_forEach_cons]
    rcases hs : (step x).perform p with ⟨_ | a, p'⟩
    · rwa [hs] at hx
    · rw [hs] at hx
      exact ih (fun x hx => h x (by simp [hx])) hx

end ForEach

/-! ## Requests -/

namespace Session

variable {change : Change} {inputs : List String} {output : String} {docs : List Document}

theorem readDocument_ok {root path : String} {d : Document}
    (h : Inbox.readDocument t root path = .ok d) : ∃ bytes, t.read path = .ok bytes ∧
      d = .make (Path.relativeTo root path) path bytes.length (Text.Utf8.decodeLenient bytes) := by
  unfold Inbox.readDocument withPath at h
  cases hr : t.read path with
  | error f => simp [hr, bind, Except.bind, Except.mapError] at h
  | ok bytes =>
    simp only [hr, bind, Except.bind, Except.mapError, pure, Except.pure, Except.ok.injEq] at h
    exact ⟨bytes, rfl, h.symm⟩

theorem readInputs_cons : s.readInputs t (name :: inputs) =
    match Inbox.readDocument t s.inbox (s.pathOf name) with
    | .error f => .error (name, f)
    | .ok d => (s.readInputs t inputs).map (d :: ·) := by
  rw [readInputs, List.mapM_cons]
  cases Inbox.readDocument t s.inbox (s.pathOf name) with
  | error f => rfl
  | ok d =>
    rw [readInputs]
    cases inputs.mapM fun name =>
      (Inbox.readDocument t s.inbox (s.pathOf name)).mapError fun f => (name, f) <;> rfl

/-- The documents are those of the inputs, in order. -/
theorem forall₂_readInputs (h : s.readInputs t inputs = .ok docs) :
    List.Forall₂ (fun name d => Inbox.readDocument t s.inbox (s.pathOf name) = .ok d)
      inputs docs := by
  induction inputs generalizing docs with
  | nil =>
    cases h
    exact .nil
  | cons name rest ih =>
    rw [readInputs_cons] at h
    split at h
    · cases h
    · next d hd =>
      cases hr : s.readInputs t rest with
      | error e =>
        rw [hr] at h
        cases h
      | ok ds =>
        rw [hr] at h
        cases h
        exact .cons hd (ih hr)

/-- The inputs of a request are read one by one. -/
theorem readInputs_ok (h : s.readInputs t inputs = .ok docs) :
    inputs.length = docs.length ∧
    (∀ name ∈ inputs, ∃ d ∈ docs, Inbox.readDocument t s.inbox (s.pathOf name) = .ok d) ∧
    ∀ d ∈ docs, ∃ name ∈ inputs, Inbox.readDocument t s.inbox (s.pathOf name) = .ok d := by
  have hread := forall₂_readInputs h
  refine ⟨hread.length_eq, ?_, ?_⟩
  · intro name hn
    obtain ⟨i, hi, rfl⟩ := List.mem_iff_getElem.1 hn
    exact ⟨_, List.getElem_mem _, hread.get hi (hread.length_eq ▸ hi)⟩
  · intro d hd
    obtain ⟨i, hi, rfl⟩ := List.mem_iff_getElem.1 hd
    exact ⟨_, List.getElem_mem _, hread.get (hread.length_eq ▸ hi) hi⟩

/-- What the inputs lead to is what the documents are made of. -/
theorem exists_doc_of_readInputs (h : s.readInputs t inputs = .ok docs) (hn : name ∈ inputs) :
    ∃ d ∈ docs, ∃ loc bytes, t.find (s.pathOf name) = .ok (loc, .file bytes) ∧
      d.content = Text.Utf8.decodeLenient bytes := by
  obtain ⟨d, hd, hr⟩ := (readInputs_ok h).2.1 name hn
  obtain ⟨bytes, hb, rfl⟩ := readDocument_ok hr
  obtain ⟨loc, hf⟩ := read_eq_ok_iff.1 hb
  exact ⟨_, hd, loc, bytes, hf, rfl⟩

/-- Inputs that were read lead to files. -/
theorem files_of_readInputs (h : s.readInputs t inputs = .ok docs) : s.Files t inputs := by
  intro name hn
  obtain ⟨_, _, loc, bytes, hf, _⟩ := exists_doc_of_readInputs h hn
  exact ⟨loc, bytes, hf⟩

/-- An input that cannot be read is the one that is told. -/
theorem readInputs_error {f : Failure} (h : s.readInputs t inputs = .error (name, f)) :
    name ∈ inputs ∧ Inbox.readDocument t s.inbox (s.pathOf name) = .error f := by
  induction inputs with
  | nil => cases h
  | cons first rest ih =>
    rw [readInputs_cons] at h
    split at h
    · next f' hf =>
      cases h
      exact ⟨List.mem_cons_self, hf⟩
    · cases hr : s.readInputs t rest with
      | ok ds =>
        rw [hr] at h
        cases h
      | error e =>
        rw [hr] at h
        cases h
        obtain ⟨hn, hf⟩ := ih hr
        exact ⟨List.mem_cons_of_mem _ hn, hf⟩

theorem lines_of_readInputs (h : s.readInputs t inputs = .ok docs) :
    ∀ d ∈ docs, d.lines = Text.lines d.content := by
  intro d hd
  obtain ⟨name, -, hr⟩ := (readInputs_ok h).2.2 d hd
  obtain ⟨bytes, -, rfl⟩ := readDocument_ok hr
  rfl

theorem perform_record_of_trial (h : s.trial = true) (change : Change) (retained : String)
    (removed : List String) (p : Progress) :
    (s.record change retained removed).perform p = (.ok (), p) := by
  simp [record, h]

theorem perform_record_of_none (h : s.journal = none) (change : Change) (retained : String)
    (removed : List String) (p : Progress) :
    (s.record change retained removed).perform p = (.ok (), p) := by
  simp [record, h]

/-- The progress of a request that is carried out, before anything is written. -/
def claimed (p : Progress) (inputs : List String) (output : String) : Progress :=
  { p with consumed := inputs ++ p.consumed, planned := output :: p.planned }

/-- What is done for a request that is not skipped. -/
def carryOut (s : Session) (change : Change) (inputs : List String) (output : String)
    (docs : List Document) : Step Action := do
  unless s.trial do s.writeMerged change inputs output (mergedText inputs docs)
  return madeAction change inputs output

/-- A trial only says what would be done. -/
theorem perform_carryOut_of_trial (h : s.trial = true) :
    (s.carryOut change inputs output docs).perform p =
      (.ok (madeAction change inputs output), p) := by
  simp [carryOut, h]

/-- A live session writes the output, then removes the inputs, and then records the change. -/
theorem perform_carryOut_of_live (h : s.trial = false) :
    (s.carryOut change inputs output docs).perform p =
      match p.tree.write (s.pathOf output) (Text.Utf8.encode (mergedText inputs docs)) with
      | .error f => (.error (.io (s.pathOf output) f), p)
      | .ok t =>
        (((s.record change output (s.removeFiles inputs t).1).perform
            { p with tree := (s.removeFiles inputs t).2 }).1.map
              fun _ => madeAction change inputs output,
          ((s.record change output (s.removeFiles inputs t).1).perform
            { p with tree := (s.removeFiles inputs t).2 }).2) := by
  simp only [carryOut, h, writeMerged, Step.onTree, perform_bind, perform_within, changeAt,
    Effect.change, perform_ofPerform, withPath, Except.mapError, Bool.false_eq_true, if_false,
    perform_modifyGet]
  cases p.tree.write (s.pathOf output) (Text.Utf8.encode (mergedText inputs docs)) with
  | error f => rfl
  | ok t =>
    rcases hr : (s.record change output (s.removeFiles inputs t).1).perform
      { p with tree := (s.removeFiles inputs t).2 } with ⟨_ | u, p'⟩
    · simp [hr, Except.map]
    · simp [hr, Except.map]

/-- Without a journal, that is all. -/
theorem perform_carryOut_of_none (live : s.trial = false) (hj : s.journal = none) :
    (s.carryOut change inputs output docs).perform p =
      match p.tree.write (s.pathOf output) (Text.Utf8.encode (mergedText inputs docs)) with
      | .error f => (.error (.io (s.pathOf output) f), p)
      | .ok t => (.ok (madeAction change inputs output),
          { p with tree := (s.removeFiles inputs t).2 }) := by
  rw [perform_carryOut_of_live live]
  simp only [perform_record_of_none hj, Except.map]

theorem eq_madeAction_of_carryOut {a : Action} {p' : Progress}
    (h : (s.carryOut change inputs output docs).perform p = (.ok a, p')) :
    a = madeAction change inputs output := by
  cases ht : s.trial with
  | true =>
    rw [perform_carryOut_of_trial ht] at h
    cases h
    rfl
  | false =>
    rw [perform_carryOut_of_live ht] at h
    split at h
    · cases h
    · next t₁ _ =>
      rw [Prod.mk.injEq] at h
      cases hr : ((s.record change output (s.removeFiles inputs t₁).1).perform
          { p with tree := (s.removeFiles inputs t₁).2 }).1 with
      | error f =>
        rw [hr] at h
        cases h.1
      | ok u =>
        rw [hr] at h
        cases h.1
        rfl

/-- A live session that carries a request out has written the output, removed the inputs, and
recorded the change. -/
theorem exists_write_of_carryOut (live : s.trial = false) {a : Action} {p' : Progress}
    (h : (s.carryOut change inputs output docs).perform p = (.ok a, p')) :
    ∃ t, p.tree.write (s.pathOf output) (Text.Utf8.encode (mergedText inputs docs)) = .ok t ∧
      (s.record change output (s.removeFiles inputs t).1).perform
        { p with tree := (s.removeFiles inputs t).2 } = (.ok (), p') := by
  rw [perform_carryOut_of_live live] at h
  cases hw : p.tree.write (s.pathOf output) (Text.Utf8.encode (mergedText inputs docs)) with
  | error f => simp [hw] at h
  | ok t =>
    simp only [hw] at h
    refine ⟨t, rfl, ?_⟩
    rcases hr : (s.record change output (s.removeFiles inputs t).1).perform
      { p with tree := (s.removeFiles inputs t).2 } with ⟨_ | u, p₁⟩
    · simp [hr, Except.map] at h
    · rw [hr] at h
      cases h
      rfl

/-- A request with an input that was used up is skipped. -/
theorem perform_combine_of_consumed {asked : Option String}
    (hc : consumedInput? p inputs = some name) :
    (s.combine change inputs asked).perform p = (.ok (.skipConsumed inputs name), p) := by
  unfold combine
  simp [perform_bind, hc]

/-- A request whose output is taken is skipped. -/
theorem perform_combine_of_taken {asked : Option String} (hc : consumedInput? p inputs = none)
    (ht : s.isTaken p (outputFor inputs asked) = true) :
    (s.combine change inputs asked).perform p =
      (.ok (.skipCollision inputs (outputFor inputs asked)), p) := by
  unfold combine
  simp [perform_bind, hc, ht]

/-- A request with an input that cannot be read is skipped. -/
theorem perform_combine_of_unreadable {asked : Option String} {f : Failure}
    (hc : consumedInput? p inputs = none) (ht : s.isTaken p (outputFor inputs asked) = false)
    (hr : s.readInputs p.tree inputs = .error (name, f)) :
    (s.combine change inputs asked).perform p = (.ok (.skipUnreadable name f.message), p) := by
  unfold combine
  simp [perform_bind, hc, ht, hr]

/-- Any other request is carried out. -/
theorem perform_combine_of_read {asked : Option String} (hc : consumedInput? p inputs = none)
    (ht : s.isTaken p (outputFor inputs asked) = false)
    (hr : s.readInputs p.tree inputs = .ok docs) :
    (s.combine change inputs asked).perform p =
      (s.carryOut change inputs (outputFor inputs asked) docs).perform
        (claimed p inputs (outputFor inputs asked)) := by
  unfold combine
  simp [perform_bind, hc, ht, hr, claimed, carryOut]

/-- What a request does: it is skipped, and nothing changes, or it is carried out. -/
theorem combine_cases (s : Session) (change : Change) (inputs : List String)
    (asked : Option String) (p : Progress) :
    (∃ name, consumedInput? p inputs = some name ∧
      (s.combine change inputs asked).perform p = (.ok (.skipConsumed inputs name), p)) ∨
    (consumedInput? p inputs = none ∧ s.isTaken p (outputFor inputs asked) = true ∧
      (s.combine change inputs asked).perform p =
        (.ok (.skipCollision inputs (outputFor inputs asked)), p)) ∨
    (consumedInput? p inputs = none ∧ s.isTaken p (outputFor inputs asked) = false ∧
      ∃ name f, s.readInputs p.tree inputs = .error (name, f) ∧
        (s.combine change inputs asked).perform p = (.ok (.skipUnreadable name f.message), p)) ∨
    (consumedInput? p inputs = none ∧ s.isTaken p (outputFor inputs asked) = false ∧
      ∃ docs, s.readInputs p.tree inputs = .ok docs ∧
        (s.combine change inputs asked).perform p =
          (s.carryOut change inputs (outputFor inputs asked) docs).perform
            (claimed p inputs (outputFor inputs asked))) := by
  cases hc : consumedInput? p inputs with
  | some name => exact Or.inl ⟨name, rfl, perform_combine_of_consumed hc⟩
  | none =>
    right
    cases ht : s.isTaken p (outputFor inputs asked) with
    | true => exact Or.inl ⟨rfl, rfl, perform_combine_of_taken hc ht⟩
    | false =>
      right
      cases hr : s.readInputs p.tree inputs with
      | error e => exact Or.inl ⟨rfl, rfl, e.1, e.2, rfl, perform_combine_of_unreadable hc ht hr⟩
      | ok docs => exact Or.inr ⟨rfl, rfl, docs, rfl, perform_combine_of_read hc ht hr⟩

theorem has_of_isTaken_eq_false (h : s.isTaken p output = false) :
    p.tree.has (s.pathOf output) = false := by
  simp only [isTaken, Bool.or_eq_false_iff] at h
  exact h.2

theorem outputFor_none (first : String) (rest : List String) :
    outputFor (first :: rest) none = outputName first := rfl

/-- A request is skipped: an input is used up, the output is taken, or an input cannot be read. -/
def Skips (s : Session) (p : Progress) (inputs : List String) (output : String) : Prop :=
  (∃ name ∈ inputs, name ∈ p.consumed) ∨ s.isTaken p output = true ∨
    ∃ name ∈ inputs, ∀ bytes, p.tree.read (s.pathOf name) ≠ .ok bytes

theorem madeAction_changesFiles (change : Change) (inputs : List String) (output : String) :
    (madeAction change inputs output).changesFiles = true := by
  unfold madeAction
  split <;> rfl

theorem consumedInput?_eq_none_iff : consumedInput? p inputs = none ↔
    ∀ name ∈ inputs, name ∉ p.consumed := by
  simp [consumedInput?]

theorem ne_ok_of_readInputs_error {f : Failure} (h : s.readInputs t inputs = .error (name, f)) :
    ∃ n ∈ inputs, ∀ bytes, t.read (s.pathOf n) ≠ .ok bytes := by
  obtain ⟨hn, hf⟩ := readInputs_error h
  refine ⟨name, hn, ?_⟩
  intro bytes hb
  simp [Inbox.readDocument, withPath, hb, bind, Except.bind, Except.mapError, pure,
    Except.pure] at hf

theorem exists_ok_readInputs (h : ∀ n ∈ inputs, ∃ bytes, t.read (s.pathOf n) = .ok bytes) :
    ∃ docs, s.readInputs t inputs = .ok docs := by
  cases hr : s.readInputs t inputs with
  | ok docs => exact ⟨docs, rfl⟩
  | error e =>
    obtain ⟨n, hn, hnot⟩ := ne_ok_of_readInputs_error hr
    obtain ⟨bytes, hb⟩ := h n hn
    exact absurd hb (hnot bytes)

/-- A request that is not skipped has new inputs, all of which can be read, and a free output. -/
theorem not_skips_iff : ¬s.Skips p inputs output ↔ consumedInput? p inputs = none ∧
    s.isTaken p output = false ∧ ∃ docs, s.readInputs p.tree inputs = .ok docs := by
  unfold Skips
  rw [consumedInput?_eq_none_iff]
  constructor
  · intro h
    simp only [not_or, not_exists, not_and, Bool.not_eq_true, not_forall, not_not] at h
    obtain ⟨hnew, hfree, hread⟩ := h
    exact ⟨hnew, hfree, exists_ok_readInputs hread⟩
  · rintro ⟨hnew, hfree, docs, hr⟩ (⟨name, hn, hc⟩ | htaken | ⟨name, hn, hnot⟩)
    · exact hnew name hn hc
    · rw [hfree] at htaken
      cases htaken
    · obtain ⟨-, -, loc, bytes, hf, -⟩ := exists_doc_of_readInputs hr hn
      exact hnot bytes (read_eq_ok_iff.2 ⟨loc, hf⟩)

/-- What is skipped changes nothing. -/
theorem Skips.combine {asked : Option String} (change : Change)
    (h : s.Skips p inputs (outputFor inputs asked)) : ∃ a, a.changesFiles = false ∧
      (s.combine change inputs asked).perform p = (.ok a, p) := by
  rcases s.combine_cases change inputs asked p with
    ⟨name, _, he⟩ | ⟨_, _, he⟩ | ⟨_, _, name, f, _, he⟩ | ⟨hc, hfree, docs, hr, _⟩
  · exact ⟨_, rfl, he⟩
  · exact ⟨_, rfl, he⟩
  · exact ⟨_, rfl, he⟩
  · exact absurd h (not_skips_iff.2 ⟨hc, hfree, docs, hr⟩)

/-- Only what is skipped is said not to change files. -/
theorem skips_of_combine {asked : Option String} {a : Action} {p' : Progress}
    (h : (s.combine change inputs asked).perform p = (.ok a, p')) (ha : a.changesFiles = false) :
    p' = p ∧ s.Skips p inputs (outputFor inputs asked) := by
  rcases s.combine_cases change inputs asked p with
    ⟨name, hc, he⟩ | ⟨_, ht, he⟩ | ⟨_, _, name, f, hr, he⟩ | ⟨_, _, docs, _, he⟩
  · rw [he] at h
    cases h
    refine ⟨rfl, Or.inl ⟨name, List.mem_of_find?_eq_some hc, ?_⟩⟩
    simpa using List.find?_some hc
  · rw [he] at h
    cases h
    exact ⟨rfl, Or.inr (Or.inl ht)⟩
  · rw [he] at h
    cases h
    exact ⟨rfl, Or.inr (Or.inr (ne_ok_of_readInputs_error hr))⟩
  · rw [he] at h
    obtain rfl := eq_madeAction_of_carryOut h
    rw [madeAction_changesFiles] at ha
    cases ha

theorem mergePair_of_le {pair : PairEntry} (h : s.leastOverlap.le pair.overlap = true) :
    s.mergePair pair = some <$> s.combine .merged [pair.file1, pair.file2] none := if_pos h

theorem mergePair_of_not_le {pair : PairEntry} (h : s.leastOverlap.le pair.overlap = false) :
    s.mergePair pair = pure none := if_neg (by simp [h])

/-- A pair is merged, or it has not enough overlap. -/
theorem perform_mergePair_eq_ok {pair : PairEntry} {a : Option Action} {p' : Progress} :
    (s.mergePair pair).perform p = (.ok a, p') ↔
      (s.leastOverlap.le pair.overlap = true ∧ ∃ action, a = some action ∧
        (s.combine .merged [pair.file1, pair.file2] none).perform p = (.ok action, p')) ∨
      (s.leastOverlap.le pair.overlap = false ∧ a = none ∧ p' = p) := by
  cases hle : s.leastOverlap.le pair.overlap with
  | true =>
    rw [mergePair_of_le hle, perform_map_eq_ok]
    simp [and_comm]
  | false =>
    rw [mergePair_of_not_le hle, perform_pure]
    simp [eq_comm]

theorem perform_mergePair_eq_error {pair : PairEntry} {f : Failure} {p' : Progress} :
    (s.mergePair pair).perform p = (.error f, p') ↔ s.leastOverlap.le pair.overlap = true ∧
      (s.combine .merged [pair.file1, pair.file2] none).perform p = (.error f, p') := by
  cases hle : s.leastOverlap.le pair.overlap with
  | true =>
    rw [mergePair_of_le hle, perform_map]
    rcases (s.combine .merged [pair.file1, pair.file2] none).perform p with ⟨_ | action, p₁⟩
    · simp [Except.map]
    · simp [Except.map]
  | false => simp [mergePair_of_not_le hle]

/-- What every request of pairs preserves is preserved by merging them. -/
theorem mergePairs_preserves {P : Progress → Prop} {pairs : List PairEntry}
    (h : ∀ pair ∈ pairs, ∀ p, P p →
      P ((s.combine .merged [pair.file1, pair.file2] none).perform p).2) (hp : P p) :
    P ((s.mergePairs pairs).perform p).2 := by
  refine forEach_preserves (fun pair hpair p hp => ?_) hp
  cases hle : s.leastOverlap.le pair.overlap with
  | true =>
    rw [mergePair_of_le hle, perform_map]
    exact h pair hpair p hp
  | false =>
    rw [mergePair_of_not_le hle]
    exact hp

/-! ## What is carried out -/

/-- The new document that is made of these ones. -/
def pageOf (inputs : List String) (docs : List Document) : List UInt8 :=
  Text.Utf8.encode (mergedText inputs docs)

/-- The tree once a request is carried out: the page stands at a location, and then the inputs are
removed. -/
def replace (s : Session) (inputs : List String) (docs : List Document) (new : Location)
    (t : Tree) : Tree :=
  (s.removeFiles inputs (t.put new (.file (pageOf inputs docs)))).2

/-- A live request fails, without a journal, if it is not to be skipped and its output leads
nowhere. -/
theorem exists_error_of_not_leads (live : s.trial = false) (hj : s.journal = none)
    (change : Change) {asked : Option String} (hdue : ¬s.Skips p inputs (outputFor inputs asked))
    (hn : ¬p.tree.Leads (s.pathOf (outputFor inputs asked))) :
    ∃ fault, (s.combine change inputs asked).perform p =
      (.error (.io (s.pathOf (outputFor inputs asked)) fault),
        claimed p inputs (outputFor inputs asked)) := by
  obtain ⟨hc, hfree, docs, hr⟩ := not_skips_iff.1 hdue
  rw [perform_combine_of_read hc hfree hr, perform_carryOut_of_none live hj]
  cases hw : p.tree.write (s.pathOf (outputFor inputs asked))
      (Text.Utf8.encode (mergedText inputs docs)) with
  | error fault => exact ⟨fault, by simp [claimed, hw]⟩
  | ok t₁ =>
    exact absurd ((write_eq_ok_iff_leads (has_of_isTaken_eq_false hfree) _).1 ⟨t₁, hw⟩) hn

/-- There is no other way for it to fail. -/
theorem not_leads_of_combine_error (live : s.trial = false) (hj : s.journal = none)
    {change : Change} {asked : Option String} {f : Failure} {p' : Progress}
    (h : (s.combine change inputs asked).perform p = (.error f, p')) :
    ¬s.Skips p inputs (outputFor inputs asked) ∧
      ¬p.tree.Leads (s.pathOf (outputFor inputs asked)) := by
  rcases s.combine_cases change inputs asked p with
    ⟨_, _, he⟩ | ⟨_, _, he⟩ | ⟨_, _, _, _, _, he⟩ | ⟨hc, hfree, docs, hr, he⟩
  · rw [he] at h
    cases h
  · rw [he] at h
    cases h
  · rw [he] at h
    cases h
  · refine ⟨not_skips_iff.2 ⟨hc, hfree, docs, hr⟩, fun hleads => ?_⟩
    obtain ⟨t₁, hw⟩ := (write_eq_ok_iff_leads (has_of_isTaken_eq_false hfree)
      (Text.Utf8.encode (mergedText inputs docs))).2 hleads
    rw [he, perform_carryOut_of_none live hj] at h
    simp [claimed, hw] at h

/-- What a request does in a live session that keeps no journal: it is skipped, its output cannot be
written, or the output stands at a free location and the inputs are removed. -/
theorem combine_live_cases (live : s.trial = false) (hj : s.journal = none) (change : Change)
    (inputs : List String) (asked : Option String) (p : Progress) :
    (∃ a, a.changesFiles = false ∧ (s.combine change inputs asked).perform p = (.ok a, p)) ∨
    (∃ f, (s.combine change inputs asked).perform p =
      (.error f, claimed p inputs (outputFor inputs asked))) ∨
    ∃ docs new, s.readInputs p.tree inputs = .ok docs ∧
      p.tree.resolve .followed (s.pathOf (outputFor inputs asked)) = .ok (.vacant new) ∧
      (s.combine change inputs asked).perform p =
        (.ok (madeAction change inputs (outputFor inputs asked)),
          { claimed p inputs (outputFor inputs asked) with
            tree := s.replace inputs docs new p.tree }) := by
  rcases s.combine_cases change inputs asked p with
    ⟨name, _, h⟩ | ⟨_, _, h⟩ | ⟨_, _, name, f, _, h⟩ | ⟨_, hfree, docs, hr, h⟩
  · exact Or.inl ⟨_, rfl, h⟩
  · exact Or.inl ⟨_, rfl, h⟩
  · exact Or.inl ⟨_, rfl, h⟩
  · right
    rw [perform_carryOut_of_none live hj] at h
    cases hw : p.tree.write (s.pathOf (outputFor inputs asked))
        (Text.Utf8.encode (mergedText inputs docs)) with
    | error f =>
      refine Or.inl ⟨.io (s.pathOf (outputFor inputs asked)) f, ?_⟩
      rw [h]
      simp [claimed, hw]
    | ok t₁ =>
      -- the output was free, so it is written where nothing was
      obtain ⟨new, hv, rfl⟩ := exists_put_of_write hw (has_of_isTaken_eq_false hfree)
      refine Or.inr ⟨docs, new, hr, hv, ?_⟩
      rw [h]
      simp only [claimed, hw]
      rfl

section Replace

variable {new loc : Location} {bytes : List UInt8} {path : String}

theorem clears_replace (s : Session) (inputs : List String) (docs : List Document)
    (new : Location) (t : Tree) :
    s.Clears inputs (t.put new (.file (pageOf inputs docs))) (s.replace inputs docs new t) :=
  s.clears_removeFiles inputs _

/-- Inputs that were read lead to the same files beside the page. -/
theorem files_put (hr : s.readInputs t inputs = .ok docs) (hnew : t.get? new = none) :
    s.Files (t.put new (.file (pageOf inputs docs))) inputs := by
  intro name hn
  obtain ⟨loc, bytes, hf⟩ := files_of_readInputs hr name hn
  exact ⟨loc, bytes, find_put hnew hf _⟩

/-- An input that leads to a file beside the page leads to it before. -/
theorem find_of_find_put_of_mem (hr : s.readInputs t inputs = .ok docs) (hnew : t.get? new = none)
    (hn : name ∈ inputs) {x : Entry}
    (h : (t.put new (.file (pageOf inputs docs))).find (s.pathOf name) = .ok (loc, x)) :
    t.find (s.pathOf name) = .ok (loc, x) := by
  obtain ⟨loc', bytes, hf⟩ := files_of_readInputs hr name hn
  rw [find_put hnew hf _] at h
  cases h
  exact hf

/-- What was read is gone. -/
theorem has_replace (hr : s.readInputs t inputs = .ok docs) (hnew : t.get? new = none)
    (hn : name ∈ inputs) : (s.replace inputs docs new t).has (s.pathOf name) = false :=
  has_removeFiles hn (files_put hr hnew)

/-- Under the name of what was read is a free location now, or the way there: no walk of an input
goes through what was removed. -/
theorem exists_vacant_replace (hr : s.readInputs t inputs = .ok docs) (hnew : t.get? new = none)
    (hn : name ∈ inputs) :
    ∃ cut, (s.replace inputs docs new t).resolve .followed (s.pathOf name) = .ok (.vacant cut) := by
  have hclears := s.clears_replace inputs docs new t
  have hfiles := files_put hr hnew
  obtain ⟨loc, bytes, hf⟩ := hfiles name hn
  rcases hclears.thinner.find_eq_or_cut hf with hf' | ⟨cut, rest, hg, hnone, hm⟩
  · have hgone := has_replace hr hnew hn
    rw [has_of_find hf'] at hgone
    cases hgone
  · obtain ⟨other, ho, -, hown⟩ := hclears.owned cut (by rw [hnone]; exact hg.symm)
    obtain ⟨loc', bytes', hother⟩ := hfiles other ho
    -- the removed entry leads to a file, so nothing of the path is left behind it
    obtain ⟨rfl, -⟩ := hown.find_eq hother (hm _ (.left _ _)) (find_eq_ok_iff.1 hf)
    exact ⟨cut, (hm _ (.right _ _)).resolve_vacant hnone⟩

/-- An entry that is removed with the inputs is the own entry of one of them. -/
theorem owns_of_get?_replace_ne (hr : s.readInputs t inputs = .ok docs)
    (hnew : t.get? new = none) {loc : Location} (hl : loc ≠ new)
    (hne : (s.replace inputs docs new t).get? loc ≠ t.get? loc) :
    (s.replace inputs docs new t).get? loc = none ∧
      ∃ name ∈ inputs, t.Owns (s.pathOf name) loc := by
  have hclears := s.clears_replace inputs docs new t
  rw [← get?_put_ne t (.file (pageOf inputs docs)) hl] at hne
  refine ⟨(hclears.thinner loc).resolve_left hne, ?_⟩
  obtain ⟨name, hn, -, hown⟩ := hclears.owned loc hne
  obtain ⟨loc', bytes, hf⟩ := files_of_readInputs hr name hn
  obtain ⟨own, ho⟩ := exists_owns hf
  obtain rfl := (owns_put hnew ho _).unique hown
  exact ⟨name, hn, ho⟩

/-- **A file is still found, or it is one that an input led to.** -/
theorem find_replace_cases (hr : s.readInputs t inputs = .ok docs) (hnew : t.get? new = none)
    (hf : (t.put new (.file (pageOf inputs docs))).find path = .ok (loc, .file bytes)) :
    (s.replace inputs docs new t).find path = .ok (loc, .file bytes) ∨
      ∃ name ∈ inputs, t.find (s.pathOf name) = .ok (loc, .file bytes) := by
  rcases (s.clears_replace inputs docs new t).find_eq_or_cut (files_put hr hnew) hf with
    hf' | ⟨name, hn, hname, -, -⟩
  · exact Or.inl hf'
  · exact Or.inr ⟨name, hn, find_of_find_put_of_mem hr hnew hn hname⟩

/-- **The page is found where the output led.** No input led there, since nothing was there. -/
theorem find_replace_page (hr : s.readInputs t inputs = .ok docs)
    (hv : t.resolve .followed path = .ok (.vacant new)) :
    (s.replace inputs docs new t).find path = .ok (new, .file (pageOf inputs docs)) := by
  obtain ⟨hm, hnew⟩ := meets_of_vacant hv
  rcases find_replace_cases hr hnew (find_put_self hm (Or.inl hnew) _) with h | ⟨name, _, hname⟩
  · exact h
  · rw [(meets_of_entry (find_eq_ok_iff.1 hname) (by simp)).2] at hnew
    cases hnew

/-- A file that is found now is the page, or it was found before. -/
theorem find_of_find_replace (hnew : t.get? new = none)
    (h : (s.replace inputs docs new t).find path = .ok (loc, .file bytes)) :
    (loc = new ∧ bytes = pageOf inputs docs) ∨ t.find path = .ok (loc, .file bytes) := by
  have hput := (s.clears_replace inputs docs new t).thinner.find_eq h
  rcases find_of_find_put hnew hput with rfl | hf
  · have hg := (meets_of_entry (find_eq_ok_iff.1 hput) (by simp)).2
    rw [get?_put_self _ _ (isAbove_of_get?_eq_none hnew)] at hg
    cases hg
    exact Or.inl ⟨rfl, rfl⟩
  · exact Or.inr hf

/-- A file stays at its location, or it is one that an input led to. -/
theorem get?_replace_cases (hr : s.readInputs t inputs = .ok docs) (hnew : t.get? new = none)
    (hg : (t.put new (.file (pageOf inputs docs))).get? loc = some (.file bytes)) :
    (s.replace inputs docs new t).get? loc = some (.file bytes) ∨
      ∃ name ∈ inputs, t.find (s.pathOf name) = .ok (loc, .file bytes) := by
  have hclears := s.clears_replace inputs docs new t
  by_cases hd : (s.replace inputs docs new t).get? loc =
      (t.put new (.file (pageOf inputs docs))).get? loc
  · exact Or.inl (hd.trans hg)
  · obtain ⟨name, hn, -, ho⟩ := hclears.owned loc hd
    exact Or.inr ⟨name, hn, find_of_find_put_of_mem hr hnew hn (ho.find_of_file hg)⟩

/-- The page stands at the location that was free. -/
theorem get?_replace_page (hr : s.readInputs t inputs = .ok docs) (hnew : t.get? new = none) :
    (s.replace inputs docs new t).get? new = some (.file (pageOf inputs docs)) := by
  have hself := get?_put_self t (.file (pageOf inputs docs)) (isAbove_of_get?_eq_none hnew)
  rcases get?_replace_cases hr hnew hself with h | ⟨name, -, hf⟩
  · exact h
  · rw [(meets_of_entry (find_eq_ok_iff.1 hf) (by simp)).2] at hnew
    cases hnew

/-- A path leads no further than before. -/
theorem shorter_replace (hnew : t.get? new = none) :
    Shorter t (s.replace inputs docs new t) :=
  (shorter_put (isAbove_of_get?_eq_none hnew) _).trans
    (s.clears_replace inputs docs new t).thinner.shorter

end Replace

end Session

end NearDup.Merge
