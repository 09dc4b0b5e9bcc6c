import NearDup.Proofs.Merge.Copies

/-!
# Plans

A trial run decides everything on the tree as it was in the beginning: it knows which names are used
up and which outputs are planned, but not what a removal does to other names. So its actions are a
plan, and a live run does just that if the plan can be carried out.

* `Session.CarriesOut` — a plan can be carried out, action by action
* `Session.carriesOut_mergePairs` — what a live run says of pairs can be
* `Session.CarriesOut.mergePairs` — what a trial says of pairs is done, if it can be
-/

namespace NearDup.Merge

open NearDup.Tree Effect

namespace Session

/-! ## Plans -/

/-- The actions can be carried out one after the other, beginning with a tree and with these names
already planned for outputs: what is to be removed is there, what is to be merged can be read, an
output is free when it is made and taken when it is said to be taken. -/
inductive CarriesOut (s : Session) : List String → Tree → List Action → Prop
  | done (planned : List String) (t : Tree) : CarriesOut s planned t []
  | deduplicate {planned : List String} {t t' : Tree} {rest : List Action} (kept : String)
      {removed : List String}
      (gone : s.removeFiles removed t = (removed, t'))
      (next : CarriesOut s planned t' rest) :
      CarriesOut s planned t (.deduplicate kept removed :: rest)
  | merge {planned : List String} {t t' : Tree} {rest : List Action}
      {file1 file2 output : String} {docs : List Document}
      (free : s.isTaken ⟨[], planned, t⟩ output = false)
      (readable : s.readInputs t [file1, file2] = .ok docs)
      (written : t.write (s.pathOf output) (Text.Utf8.encode (mergedText [file1, file2] docs)) =
        .ok t')
      (next : CarriesOut s (output :: planned) (s.removeFiles [file1, file2] t').2 rest) :
      CarriesOut s planned t (.merge file1 file2 output :: rest)
  | skipConsumed {planned : List String} {t : Tree} {rest : List Action} (inputs : List String)
      (name : String) (next : CarriesOut s planned t rest) :
      CarriesOut s planned t (.skipConsumed inputs name :: rest)
  | skipCollision {planned : List String} {t : Tree} {rest : List Action}
      (inputs : List String) {output : String}
      (taken : s.isTaken ⟨[], planned, t⟩ output = true) (next : CarriesOut s planned t rest) :
      CarriesOut s planned t (.skipCollision inputs output :: rest)
  | skipUnreadable {planned : List String} {t : Tree} {rest : List Action} {file : String}
      {f : Failure}
      (unreadable : Inbox.readDocument t s.inbox (s.pathOf file) = .error f)
      (next : CarriesOut s planned t rest) :
      CarriesOut s planned t (.skipUnreadable file f.message :: rest)

variable {s : Session} {t t' : Tree} {p p' : Progress} {planned names : List String}
  {groups : List GroupEntry} {pairs : List PairEntry} {actions rest : List Action}

/-! ## A live run carries out what it says -/

/-- The copies that were removed can be removed. -/
theorem removeFiles_useCopies (live : s.trial = false) (names : List String) (p : Progress) :
    s.removeFiles (s.useCopies names p).1 p.tree =
      ((s.useCopies names p).1, (s.useCopies names p).2.tree) := by
  induction names generalizing p with
  | nil => rfl
  | cons name rest ih =>
    rcases useCopies_cons_cases live name rest p with ⟨-, he⟩ | ⟨-, t', hr, he⟩ | ⟨-, -, he⟩
    · rw [he]
      exact ih p
    · rw [he]
      simp only [removeFiles, hr, if_true]
      rw [ih { p with consumed := name :: p.consumed, tree := t' }]
    · rw [he]
      exact ih { p with consumed := name :: p.consumed }

/-- What is said of a group can be carried out if the copies that are named can be removed. -/
theorem carriesOut_copyAction_iff {files removed : List String} (h : files = [] → removed = []) :
    s.CarriesOut planned t ((copyAction files removed).toList ++ rest) ↔
      ∃ t', s.removeFiles removed t = (removed, t') ∧ s.CarriesOut planned t' rest := by
  by_cases hr : removed = []
  · subst hr
    have hnone : copyAction files [] = none := by
      unfold copyAction
      split <;> simp
    rw [hnone]
    constructor
    · intro hc
      exact ⟨t, rfl, hc⟩
    · rintro ⟨t', ht, hc⟩
      cases ht
      exact hc
  · cases files with
    | nil => exact absurd (h rfl) hr
    | cons kept copies =>
      rw [show copyAction (kept :: copies) removed = some (.deduplicate kept removed) from
        if_neg hr]
      constructor
      · intro hc
        cases hc with
        | deduplicate _ gone next => exact ⟨_, gone, next⟩
      · rintro ⟨t', gone, next⟩
        exact .deduplicate kept gone next

theorem useCopies_tail_of_nil {files : List String} (h : files = []) :
    (s.useCopies files.tail p).1 = [] := by
  rw [h]
  rfl

theorem carriesOut_copyActions (live : s.trial = false) (groups : List GroupEntry) (p : Progress)
    (h : s.CarriesOut planned (s.useCopies (copiesOf groups) p).2.tree rest) :
    s.CarriesOut planned p.tree (s.copyActions groups p ++ rest) := by
  induction groups generalizing p with
  | nil => exact h
  | cons g groups ih =>
    rw [copiesOf_cons, useCopies_append] at h
    rw [copyActions, List.append_assoc, carriesOut_copyAction_iff useCopies_tail_of_nil]
    exact ⟨_, removeFiles_useCopies live g.files.tail p, ih (s.useCopies g.files.tail p).2 h⟩

/-- **What was said of pairs can be carried out.** -/
theorem carriesOut_mergePairs (live : s.trial = false) (hj : s.journal = none)
    (h : (s.mergePairs pairs).perform p = (.ok actions, p')) :
    s.CarriesOut p.planned p.tree actions := by
  unfold mergePairs at h
  induction pairs generalizing p actions with
  | nil =>
    cases h
    exact .done _ _
  | cons pair rest ih =>
    obtain ⟨a, p₁, as, hstep, hrest, rfl⟩ := perform_forEach_cons_eq_ok.1 h
    have hnext := ih hrest
    rcases perform_mergePair_eq_ok.1 hstep with ⟨-, action, rfl, hc⟩ | ⟨-, rfl, rfl⟩
    · rcases s.combine_cases .merged [pair.file1, pair.file2] none p with
        ⟨name, _, he⟩ | ⟨_, ht, he⟩ | ⟨_, _, name, f, hr, he⟩ | ⟨_, hfree, docs, hr, he⟩
      · rw [he] at hc
        cases hc
        exact .skipConsumed _ _ hnext
      · rw [he] at hc
        cases hc
        exact .skipCollision _ ht hnext
      · rw [he] at hc
        cases hc
        exact .skipUnreadable (readInputs_error hr).2 hnext
      · rw [he, perform_carryOut_of_none live hj] at hc
        split at hc
        · cases hc
        · next t' hw =>
          cases hc
          exact .merge hfree hr hw hnext
    · exact hnext

/-! ## A trial run -/

/-- The same session as a trial. -/
def onTrial (s : Session) : Session := { s with trial := true }

theorem length_removeFiles_le (names : List String) (t : Tree) :
    (s.removeFiles names t).1.length ≤ names.length := by
  induction names generalizing t with
  | nil => exact Nat.le_refl _
  | cons name rest ih =>
    have hrest := ih (s.removeFile name t).2
    simp only [removeFiles]
    split
    · simp only [List.length_cons]
      omega
    · simp only [List.length_cons]
      omega

/-- Files are all removed if the first is and then the others are. -/
theorem removeFiles_cons_eq {name : String} :
    s.removeFiles (name :: names) t = (name :: names, t') ↔
      ∃ t₁, s.removeFile name t = (true, t₁) ∧ s.removeFiles names t₁ = (names, t') := by
  constructor
  · intro h
    have hlen := length_removeFiles_le (s := s) names (s.removeFile name t).2
    rcases hr : s.removeFile name t with ⟨gone, t₁⟩
    rcases hrest : s.removeFiles names t₁ with ⟨removed, t₂⟩
    simp only [removeFiles, hr, hrest, Prod.mk.injEq] at h
    rw [hr] at hlen
    simp only [hrest] at hlen
    obtain ⟨hnames, rfl⟩ := h
    cases gone with
    | true =>
      simp only [if_true, List.cons.injEq, true_and] at hnames
      exact ⟨t₁, rfl, by rw [hrest, hnames]⟩
    | false =>
      simp only [Bool.false_eq_true, if_false] at hnames
      rw [hnames, List.length_cons] at hlen
      omega
  · rintro ⟨t₁, hr, hrest⟩
    simp only [removeFiles, hr, hrest, if_true]

theorem useCopies_onTrial_cons_of_has {name : String} (hc : name ∉ p.consumed)
    (hp : p.tree.has (s.pathOf name) = true) (rest : List String) :
    s.onTrial.useCopies (name :: rest) p =
      (name :: (s.onTrial.useCopies rest { p with consumed := name :: p.consumed }).1,
        (s.onTrial.useCopies rest { p with consumed := name :: p.consumed }).2) := by
  have hpath : s.onTrial.pathOf name = s.pathOf name := rfl
  have htrial : s.onTrial.trial = true := rfl
  simp [useCopies, useCopy, hc, hpath, htrial, hp]

theorem useCopies_onTrial_cons_of_not_has {name : String} (hc : name ∉ p.consumed)
    (hp : p.tree.has (s.pathOf name) = false) (rest : List String) :
    s.onTrial.useCopies (name :: rest) p =
      s.onTrial.useCopies rest { p with consumed := name :: p.consumed } := by
  have hpath : s.onTrial.pathOf name = s.pathOf name := rfl
  have htrial : s.onTrial.trial = true := rfl
  simp [useCopies, useCopy, hc, hpath, htrial, hp]

/-- What becomes of the first of some copies in a trial: it was used up before, it would be removed,
or it is not there. -/
theorem useCopies_onTrial_cons_cases (name : String) (rest : List String) (p : Progress) :
    (name ∈ p.consumed ∧
      s.onTrial.useCopies (name :: rest) p = s.onTrial.useCopies rest p) ∨
    (name ∉ p.consumed ∧ p.tree.has (s.pathOf name) = true ∧
      s.onTrial.useCopies (name :: rest) p =
        (name :: (s.onTrial.useCopies rest { p with consumed := name :: p.consumed }).1,
          (s.onTrial.useCopies rest { p with consumed := name :: p.consumed }).2)) ∨
    (name ∉ p.consumed ∧ p.tree.has (s.pathOf name) = false ∧
      s.onTrial.useCopies (name :: rest) p =
        s.onTrial.useCopies rest { p with consumed := name :: p.consumed }) := by
  by_cases hc : name ∈ p.consumed
  · exact Or.inl ⟨hc, useCopies_cons_of_mem hc rest⟩
  · right
    cases hp : p.tree.has (s.pathOf name) with
    | true => exact Or.inl ⟨hc, rfl, useCopies_onTrial_cons_of_has hc hp rest⟩
    | false => exact Or.inr ⟨hc, rfl, useCopies_onTrial_cons_of_not_has hc hp rest⟩

theorem tree_useCopies_onTrial (names : List String) (p : Progress) :
    (s.onTrial.useCopies names p).2.tree = p.tree := by
  induction names generalizing p with
  | nil => rfl
  | cons name rest ih =>
    rcases s.useCopies_onTrial_cons_cases name rest p with ⟨-, he⟩ | ⟨-, -, he⟩ | ⟨-, -, he⟩
    · rw [he, ih]
    · rw [he, ih]
    · rw [he, ih]

/-- Copies that can be removed in the tree of a live session as the trial says are removed there,
and no others are. -/
theorem useCopies_of_onTrial (live : s.trial = false) {now : Tree} (hthin : Thinner p.tree now)
    (h : s.removeFiles (s.onTrial.useCopies names p).1 now =
      ((s.onTrial.useCopies names p).1, t')) :
    s.useCopies names { p with tree := now } = ((s.onTrial.useCopies names p).1,
      { (s.onTrial.useCopies names p).2 with tree := t' }) := by
  induction names generalizing p now with
  | nil =>
    cases h
    rfl
  | cons name rest ih =>
    rcases s.useCopies_onTrial_cons_cases name rest p with ⟨hc, he⟩ | ⟨hc, -, he⟩ | ⟨hc, hp, he⟩
    · rw [he] at h ⊢
      rw [useCopies_cons_of_mem (p := { p with tree := now }) hc, ih hthin h]
    · rw [he] at h ⊢
      obtain ⟨t₁, hr, hrest⟩ := removeFiles_cons_eq.1 h
      have hthin₁ : Thinner p.tree t₁ := by
        have hclears := s.clears_removeFile name now
        rw [hr] at hclears
        exact hthin.trans hclears.thinner
      have hnext := ih (p := { p with consumed := name :: p.consumed }) hthin₁ hrest
      rw [useCopies_cons_of_removed (p := { p with tree := now }) live hc hr]
      simp only [hnext]
    · -- what was not there in the beginning is not there now
      rw [he] at h ⊢
      have hnot : now.has (s.pathOf name) = false := by
        rw [← Bool.not_eq_true] at hp ⊢
        exact fun hhas => hp (hthin.has hhas)
      have hr : s.removeFile name now = (false, now) := by simp [removeFile, hnot]
      rw [useCopies_cons_of_not_removed (p := { p with tree := now }) live hc hr]
      exact ih (p := { p with consumed := name :: p.consumed }) hthin h

/-- **If what a trial says of groups can be carried out, a live session does just that.** -/
theorem CarriesOut.copyActions (live : s.trial = false) {now : Tree} (hthin : Thinner p.tree now)
    (h : s.CarriesOut planned now (s.onTrial.copyActions groups p ++ rest)) :
    s.copyActions groups { p with tree := now } = s.onTrial.copyActions groups p ∧
    ∃ t', (s.useCopies (copiesOf groups) { p with tree := now }).2 =
        { (s.onTrial.useCopies (copiesOf groups) p).2 with tree := t' } ∧
      s.CarriesOut planned t' rest := by
  induction groups generalizing p now with
  | nil => exact ⟨rfl, now, rfl, h⟩
  | cons g groups ih =>
    rw [Session.copyActions, List.append_assoc,
      carriesOut_copyAction_iff useCopies_tail_of_nil] at h
    obtain ⟨t₁, hgone, hnext⟩ := h
    have hstep := useCopies_of_onTrial live hthin hgone
    have hthin₁ : Thinner (s.onTrial.useCopies g.files.tail p).2.tree t₁ := by
      have hclears := s.clears_removeFiles (s.onTrial.useCopies g.files.tail p).1 now
      rw [hgone] at hclears
      rw [tree_useCopies_onTrial]
      exact hthin.trans hclears.thinner
    obtain ⟨hactions, t', hend, hrest⟩ := ih hthin₁ hnext
    rw [Session.copyActions, Session.copyActions,
      copiesOf_cons, useCopies_append, useCopies_append, hstep]
    exact ⟨by rw [hactions], t', hend, hrest⟩

/-- A trial answers a request without a failure and leaves the tree. -/
theorem exists_ok_combine_onTrial (change : Change) (inputs : List String) (asked : Option String)
    (p : Progress) : ∃ action p', (s.onTrial.combine change inputs asked).perform p =
      (.ok action, p') ∧ p'.tree = p.tree := by
  rcases s.onTrial.combine_cases change inputs asked p with
    ⟨_, _, he⟩ | ⟨_, _, he⟩ | ⟨_, _, _, _, _, he⟩ | ⟨_, _, docs, _, he⟩
  · exact ⟨_, _, he, rfl⟩
  · exact ⟨_, _, he, rfl⟩
  · exact ⟨_, _, he, rfl⟩
  · exact ⟨_, _, he.trans (perform_carryOut_of_trial rfl), rfl⟩

theorem exists_ok_mergePairs_onTrial (pairs : List PairEntry) (p : Progress) :
    ∃ actions p', (s.onTrial.mergePairs pairs).perform p = (.ok actions, p') ∧
      p'.tree = p.tree := by
  induction pairs generalizing p with
  | nil => exact ⟨[], p, rfl, rfl⟩
  | cons pair rest ih =>
    cases hle : s.onTrial.leastOverlap.le pair.overlap with
    | false =>
      obtain ⟨as, p', hr, ht⟩ := ih p
      exact ⟨_, p', perform_forEach_cons_eq_ok.2 ⟨none, p, as,
        perform_mergePair_eq_ok.2 (Or.inr ⟨hle, rfl, rfl⟩), hr, rfl⟩, ht⟩
    | true =>
      obtain ⟨action, p₁, hc, ht₁⟩ := s.exists_ok_combine_onTrial .merged
        [pair.file1, pair.file2] none p
      obtain ⟨as, p', hr, ht⟩ := ih p₁
      exact ⟨_, p', perform_forEach_cons_eq_ok.2 ⟨some action, p₁, as,
        perform_mergePair_eq_ok.2 (Or.inl ⟨hle, action, rfl, hc⟩), hr, rfl⟩, ht.trans ht₁⟩

/-- If what a trial says of a request can be carried out, a live session does just that. -/
theorem CarriesOut.combine (live : s.trial = false) (hj : s.journal = none) {now : Tree}
    {file1 file2 : String} {action : Action}
    (hread : ∀ name ∈ [file1, file2], ∃ bytes, p.tree.read (s.pathOf name) = .ok bytes)
    (hc : (s.onTrial.combine .merged [file1, file2] none).perform p = (.ok action, p'))
    (h : s.CarriesOut p.planned now (action :: rest)) :
    ∃ now', (s.combine .merged [file1, file2] none).perform { p with tree := now } =
        (.ok action, { p' with tree := now' }) ∧ s.CarriesOut p'.planned now' rest := by
  rcases s.onTrial.combine_cases .merged [file1, file2] none p with
    ⟨name, hused, he⟩ | ⟨hused, _, he⟩ | ⟨_, _, name, f, hr, _⟩ | ⟨hused, _, docs, _, he⟩
  · rw [he] at hc
    cases hc
    cases h with
    | skipConsumed _ _ next =>
      exact ⟨now, perform_combine_of_consumed (p := { p with tree := now }) hused, next⟩
  · rw [he] at hc
    cases hc
    cases h with
    | skipCollision _ taken next =>
      exact ⟨now, perform_combine_of_taken (p := { p with tree := now }) hused taken, next⟩
  · obtain ⟨name, hn, hnot⟩ := ne_ok_of_readInputs_error hr
    obtain ⟨bytes, hb⟩ := hread name hn
    exact absurd hb (hnot bytes)
  · rw [he, perform_carryOut_of_trial rfl] at hc
    cases hc
    cases h with
    | merge free readable written next =>
      have hlive : (s.combine .merged [file1, file2] none).perform { p with tree := now } = _ :=
        perform_combine_of_read hused free readable
      rw [perform_carryOut_of_none live hj] at hlive
      exact ⟨_, hlive.trans (by simp only [claimed, written]), next⟩

/-- **If what a trial says of pairs can be carried out, a live session does just that.** -/
theorem CarriesOut.mergePairs (live : s.trial = false) (hj : s.journal = none) {now : Tree}
    (hread : ∀ pair ∈ pairs, ∀ name ∈ [pair.file1, pair.file2],
      ∃ bytes, p.tree.read (s.pathOf name) = .ok bytes)
    (hd : (s.onTrial.mergePairs pairs).perform p = (.ok actions, p'))
    (h : s.CarriesOut p.planned now actions) :
    ∃ p'', (s.mergePairs pairs).perform { p with tree := now } = (.ok actions, p'') := by
  unfold Session.mergePairs at hd ⊢
  induction pairs generalizing p now actions with
  | nil =>
    cases hd
    exact ⟨_, rfl⟩
  | cons pair rest ih =>
    obtain ⟨a, p₁, as, hstep, hrest, rfl⟩ := perform_forEach_cons_eq_ok.1 hd
    obtain ⟨hreadpair, hreadrest⟩ := List.forall_mem_cons.1 hread
    rcases perform_mergePair_eq_ok.1 hstep with ⟨hle, action, rfl, hc⟩ | ⟨hle, rfl, rfl⟩
    · have hkept : p₁.tree = p.tree := by
        obtain ⟨_, _, hok, ht⟩ := s.exists_ok_combine_onTrial .merged
          [pair.file1, pair.file2] none p
        rw [hok] at hc
        cases hc
        exact ht
      obtain ⟨now', hc', hnext⟩ := h.combine live hj hreadpair hc
      obtain ⟨p'', hm⟩ := ih (by rwa [hkept]) hrest hnext
      exact ⟨p'', perform_forEach_cons_eq_ok.2 ⟨some action, _, as,
        perform_mergePair_eq_ok.2 (Or.inl ⟨hle, action, rfl, hc'⟩), hm, rfl⟩⟩
    · obtain ⟨p'', hm⟩ := ih hreadrest hrest h
      exact ⟨p'', perform_forEach_cons_eq_ok.2 ⟨none, _, as,
        perform_mergePair_eq_ok.2 (Or.inr ⟨hle, rfl, rfl⟩), hm, rfl⟩⟩

end Session

end NearDup.Merge
