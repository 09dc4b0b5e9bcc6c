import NearDup.Proofs.Merge.Copies

/-!
# What the actions of a run say

The actions of a run tell which files were removed, and whether anything was changed at all.

* `Outcome.removes` — the names that a run says it removed
* `Session.candidates` — the pairs that a run may merge
* `Session.removeCopies_skips_iff`, `Session.mergePairs_skips_iff` — when nothing changes
-/

namespace NearDup.Merge

open NearDup.Tree Effect

/-- The names that an action says were removed. -/
def Action.removes : Action → List String
  | deduplicate _ removed => removed
  | merge file1 file2 _ => [file1, file2]
  | fold inputs _ => inputs
  | _ => []

/-- The names that a run says it removed. -/
def Outcome.removes (o : Outcome) : List String := o.actions.flatMap Action.removes

theorem changed_eq_false_iff {o : Outcome} :
    o.changed = false ↔ ∀ a ∈ o.actions, a.changesFiles = false := by
  simp [Outcome.changed]

namespace Session

variable {s : Session} {r : Report} {p p' : Progress} {groups : List GroupEntry}
  {pairs : List PairEntry}

theorem removes_madeAction (change : Change) (inputs : List String) (output : String) :
    (madeAction change inputs output).removes = inputs := by
  unfold madeAction
  split <;> rfl

/-! ## Copies -/

/-- What is said of groups tells which copies were removed. -/
theorem removes_copyActions (s : Session) (groups : List GroupEntry) (p : Progress) :
    (s.copyActions groups p).flatMap Action.removes = (s.useCopies (copiesOf groups) p).1 := by
  induction groups generalizing p with
  | nil => rfl
  | cons g rest ih =>
    rw [copiesOf_cons, useCopies_append, copyActions, List.flatMap_append, ih]
    congr 1
    unfold copyAction
    cases hg : g.files with
    | nil => rfl
    | cons kept copies =>
      by_cases hr : (s.useCopies copies p).1 = [] <;> simp [hr, Action.removes]

theorem removes_copyActions_append (s : Session) (groups : List GroupEntry) (p : Progress)
    (merges : List Action) : (Outcome.mk (s.copyActions groups p ++ merges)).removes =
      (s.useCopies (copiesOf groups) p).1 ++ merges.flatMap Action.removes := by
  rw [Outcome.removes, List.flatMap_append, removes_copyActions]

/-- A group changes no file exactly if none of its copies is removed; then nothing is recorded. -/
theorem removeCopiesOf_skips_iff {g : GroupEntry} :
    (∃ a, (s.removeCopiesOf g).perform p = (.ok a, p') ∧ ∀ b ∈ a, b.changesFiles = false) ↔
      (s.useCopies g.files.tail p).1 = [] ∧ p' = (s.useCopies g.files.tail p).2 := by
  unfold removeCopiesOf
  cases hg : g.files with
  | nil =>
    constructor
    · rintro ⟨_, ⟨⟩, -⟩
      exact ⟨rfl, rfl⟩
    · rintro ⟨-, rfl⟩
      exact ⟨none, rfl, by simp⟩
  | cons kept copies =>
    simp only [perform_bind, perform_modifyGet, List.tail_cons]
    by_cases hr : (s.useCopies copies p).1 = []
    · simp only [hr, if_true, perform_pure, true_and]
      constructor
      · rintro ⟨_, ⟨⟩, -⟩
        rfl
      · rintro rfl
        exact ⟨none, rfl, by simp⟩
    · simp only [hr, if_false, perform_bind, false_and, iff_false]
      rintro ⟨a, h, hskip⟩
      rcases hrec : (s.record .deduplicated kept (s.useCopies copies p).1).perform
        (s.useCopies copies p).2 with ⟨_ | _, p₁⟩
      · simp [hrec] at h
      · simp only [hrec, perform_pure, Prod.mk.injEq, Except.ok.injEq] at h
        obtain ⟨rfl, -⟩ := h
        cases hskip _ rfl

/-- The groups change no file exactly if no copy is removed. -/
theorem removeCopies_skips_iff :
    (∃ actions, (s.removeCopies groups).perform p = (.ok actions, p') ∧
      ∀ a ∈ actions, a.changesFiles = false) ↔
    (s.useCopies (copiesOf groups) p).1 = [] ∧ p' = (s.useCopies (copiesOf groups) p).2 := by
  unfold removeCopies
  induction groups generalizing p with
  | nil =>
    constructor
    · rintro ⟨_, ⟨⟩, -⟩
      exact ⟨rfl, rfl⟩
    · rintro ⟨-, rfl⟩
      exact ⟨[], rfl, by simp⟩
  | cons g rest ih =>
    rw [copiesOf_cons, useCopies_append, List.append_eq_nil_iff, and_assoc]
    constructor
    · rintro ⟨actions, h, hskip⟩
      obtain ⟨a, p₁, as, hstep, hrest, rfl⟩ := perform_forEach_cons_eq_ok.1 h
      obtain ⟨hnone, rfl⟩ := removeCopiesOf_skips_iff.1
        ⟨a, hstep, fun b hb => hskip b (List.mem_append_left _ (Option.mem_toList.2 hb))⟩
      exact ⟨hnone, ih.1 ⟨as, hrest, fun b hb => hskip b (List.mem_append_right _ hb)⟩⟩
    · rintro ⟨hnone, hrest⟩
      obtain ⟨a, hstep, ha⟩ := removeCopiesOf_skips_iff.2 ⟨hnone, rfl⟩
      obtain ⟨as, hm, has⟩ := ih.2 hrest
      refine ⟨_, perform_forEach_cons_eq_ok.2 ⟨a, _, as, hstep, hm, rfl⟩, fun b hb => ?_⟩
      exact (List.mem_append.1 hb).elim (fun hb => ha b (Option.mem_toList.1 hb)) (has b)

/-! ## Pairs -/

/-- Merging changes nothing exactly if every pair with enough overlap is skipped. -/
theorem mergePairs_skips_iff :
    (∃ actions, (s.mergePairs pairs).perform p = (.ok actions, p') ∧
      ∀ a ∈ actions, a.changesFiles = false) ↔
    p' = p ∧ ∀ pair ∈ pairs, s.leastOverlap.le pair.overlap = true →
      s.Skips p [pair.file1, pair.file2] (outputName pair.file1) := by
  unfold mergePairs
  induction pairs with
  | nil =>
    constructor
    · rintro ⟨_, ⟨⟩, -⟩
      simp
    · rintro ⟨rfl, -⟩
      exact ⟨[], rfl, by simp⟩
  | cons pair rest ih =>
    rw [List.forall_mem_cons, and_left_comm]
    constructor
    · rintro ⟨actions, h, hskip⟩
      obtain ⟨a, p₁, as, hstep, hrest, rfl⟩ := perform_forEach_cons_eq_ok.1 h
      rcases perform_mergePair_eq_ok.1 hstep with ⟨-, action, rfl, hc⟩ | ⟨hle, rfl, rfl⟩
      · obtain ⟨rfl, hs⟩ := skips_of_combine hc (hskip action (by simp))
        exact ⟨fun _ => hs, ih.1 ⟨as, hrest, fun b hb => hskip b (by simp [hb])⟩⟩
      · exact ⟨by simp [hle], ih.1 ⟨as, hrest, fun b hb => hskip b (by simp [hb])⟩⟩
    · rintro ⟨hs, hrest⟩
      obtain ⟨as, hm, has⟩ := ih.2 hrest
      obtain ⟨rfl, -⟩ := hrest
      cases hle : s.leastOverlap.le pair.overlap with
      | true =>
        have hskips := hs hle
        rw [← outputFor_none pair.file1 [pair.file2]] at hskips
        obtain ⟨a, ha, hc⟩ := hskips.combine .merged
        refine ⟨a :: as, perform_forEach_cons_eq_ok.2 ⟨some a, p', as,
          perform_mergePair_eq_ok.2 (Or.inl ⟨hle, a, rfl, hc⟩), hm, rfl⟩, ?_⟩
        exact List.forall_mem_cons.2 ⟨ha, has⟩
      | false =>
        exact ⟨as, perform_forEach_cons_eq_ok.2 ⟨none, p', as,
          perform_mergePair_eq_ok.2 (Or.inr ⟨hle, rfl, rfl⟩), hm, rfl⟩, has⟩

/-- The pairs that a run may merge: those with enough overlap, neither file of which is a copy. -/
def candidates (s : Session) (r : Report) : List PairEntry :=
  r.similar.filter fun pair => s.leastOverlap.le pair.overlap &&
    (decide (pair.file1 ∉ copiesOf r.exact) && decide (pair.file2 ∉ copiesOf r.exact))

theorem mem_candidates {pair : PairEntry} : pair ∈ s.candidates r ↔
    pair ∈ r.similar ∧ s.leastOverlap.le pair.overlap = true ∧
      ∀ n ∈ [pair.file1, pair.file2], n ∉ copiesOf r.exact := by
  simp [candidates]

/-! The output of a pair can have the name of a copy. -/

/-- Two equal documents, and two that share a line. -/
def outputFree : Tree :=
  ⟨[(["in"], .dir), (["in", "0.md"], .file [0x7A, 0x0A]), (["in", "1.md"], .file [0x7A, 0x0A]),
    (["in", "a.md"], .file [0x70, 0x0A, 0x71, 0x0A]),
    (["in", "b.md"], .file [0x70, 0x0A, 0x72, 0x0A])]⟩

/-- The same, but the second of the equal documents has the name of the output. -/
def outputIsCopy : Tree :=
  ⟨[(["in"], .dir), (["in", "0.md"], .file [0x7A, 0x0A]),
    (["in", "a-merged.md"], .file [0x7A, 0x0A]), (["in", "a.md"], .file [0x70, 0x0A, 0x71, 0x0A]),
    (["in", "b.md"], .file [0x70, 0x0A, 0x72, 0x0A])]⟩

end Session

end NearDup.Merge
