import NearDup.Proofs.Journal
import NearDup.Proofs.Merge.Rounds
import NearDup.Proofs.Merge.Step

/-!
# Merging loses no line

Whatever is asked of a live session, and however often, every line of every file is still a line of
some file. The reason is the order of a request: what is removed has been read in the same request,
and the new document, which holds all that was read, stands at a location that was free.

The journal is no document, so it is left out of account: `H` holds the locations where it stands.

* `LinesKept` — every line of a file is still a line of some file
* `linesKept_combine` — one request loses no line
* `linesKept_answers` — no sequence of requests loses a line
-/

namespace NearDup.Merge

open NearDup.Tree Effect Text

variable {s : Session} {H : Location → Prop} {t t' : Tree} {p : Progress}

/-! ## Lines in files -/

/-- The lines that are read from a file, without carriage returns at their ends. -/
def linesOf (bytes : List UInt8) : List String := bareLines (Utf8.decodeLenient bytes)

/-- Every line of every file is a line of some file afterwards. Locations of `H` do not count,
before or after. -/
def LinesKept (H : Location → Prop) (t t' : Tree) : Prop :=
  ∀ loc bytes, t.get? loc = some (.file bytes) → ¬H loc → ∀ line ∈ linesOf bytes,
    ∃ loc' bytes', t'.get? loc' = some (.file bytes') ∧ ¬H loc' ∧ line ∈ linesOf bytes'

theorem LinesKept.refl (H : Location → Prop) (t : Tree) : LinesKept H t t :=
  fun loc bytes hg hH _ hl => ⟨loc, bytes, hg, hH, hl⟩

theorem LinesKept.trans {t₁ t₂ t₃ : Tree} (h₁ : LinesKept H t₁ t₂) (h₂ : LinesKept H t₂ t₃) :
    LinesKept H t₁ t₃ := by
  intro loc bytes hg hH line hl
  obtain ⟨loc', bytes', hg', hH', hl'⟩ := h₁ loc bytes hg hH line hl
  exact h₂ loc' bytes' hg' hH' line hl'

/-! ## One request -/

/-- A request for one new document: how far the session is when it is taken up, the name of the
output, and how far it is afterwards. -/
structure Moment where
  before : Progress
  output : String
  after : Progress

/-- The output does not lead to the journal, and the journal stands at locations of `H`. -/
structure Moment.Apart (s : Session) (H : Location → Prop) (m : Moment) : Prop where
  output : ∀ loc, m.before.tree.resolve .followed (s.pathOf m.output) = .ok (.vacant loc) → ¬H loc
  journal : ∀ path, s.journal = some path →
    ∀ loc x, m.after.tree.find path = .ok (loc, x) → H loc

namespace Session

/-- A request as the session takes it up. -/
def moment (s : Session) (change : Change) (inputs : List String) (asked : Option String)
    (p : Progress) : Moment :=
  ⟨p, outputFor inputs asked, ((s.combine change inputs asked).perform p).2⟩

/-- A file is not changed by a record, unless it is the journal. -/
theorem get?_record {change : Change} {retained : String} {removed : List String}
    {loc : Location} {x : Entry} (hx : p.tree.get? loc = some x) :
    (∃ path y, s.journal = some path ∧
      ((s.record change retained removed).perform p).2.tree.find path = .ok (loc, y)) ∨
    ((s.record change retained removed).perform p).2.tree.get? loc = some x := by
  unfold record
  split
  · next path _ hj =>
    rcases Journal.get?_append ⟨s.now, change, retained, removed⟩ hx with ⟨y, hy⟩ | h
    · exact Or.inl ⟨path, y, hj, hy⟩
    · exact Or.inr h
  · exact Or.inr hx

/-- The page holds the lines of all that was read for it. -/
theorem linesOf_subset_pageOf {inputs : List String} {docs : List Document} {name : String}
    {loc : Location} {bytes : List UInt8} (h : s.readInputs t inputs = .ok docs)
    (hn : name ∈ inputs) (hf : t.find (s.pathOf name) = .ok (loc, .file bytes)) :
    linesOf bytes ⊆ linesOf (pageOf inputs docs) := by
  obtain ⟨d, hd, loc', bytes', hf', hc⟩ := exists_doc_of_readInputs h hn
  rw [hf] at hf'
  cases hf'
  rw [linesOf, linesOf, pageOf, Utf8.decodeLenient_encode, ← hc]
  exact mem_bareLines_mergedText (readInputs_ok h).1 (lines_of_readInputs h) hd

/-- The page takes over the lines of what is removed. -/
theorem linesKept_replace {inputs : List String} {docs : List Document} {new : Location}
    (hr : s.readInputs t inputs = .ok docs) (hnew : t.get? new = none) (hH : ¬H new) :
    LinesKept H t (s.replace inputs docs new t) := by
  intro loc bytes hg hloc line hl
  have hne : loc ≠ new := by
    rintro rfl
    rw [hnew] at hg
    cases hg
  rcases get?_replace_cases hr hnew ((get?_put_ne t _ hne).trans hg) with hg' | ⟨name, hn, hf⟩
  · exact ⟨loc, bytes, hg', hloc, hl⟩
  · -- the file is removed, but it was read in the same request
    exact ⟨new, _, get?_replace_page hr hnew, hH, linesOf_subset_pageOf hr hn hf hl⟩

/-- A record changes no file but the journal. -/
theorem linesKept_record {change : Change} {retained : String} {removed : List String}
    (journal : ∀ path, s.journal = some path → ∀ loc x,
      ((s.record change retained removed).perform p).2.tree.find path = .ok (loc, x) → H loc) :
    LinesKept H p.tree ((s.record change retained removed).perform p).2.tree := by
  intro loc bytes hg hloc line hl
  rcases get?_record hg with ⟨path, x, hj, hx⟩ | hg'
  · exact absurd (journal path hj loc x hx) hloc
  · exact ⟨loc, bytes, hg', hloc, hl⟩

/-- **One request loses no line.** -/
theorem linesKept_combine (live : s.trial = false) {change : Change} {inputs : List String}
    {asked : Option String} (apart : (s.moment change inputs asked p).Apart s H) :
    LinesKept H p.tree ((s.combine change inputs asked).perform p).2.tree := by
  rcases s.combine_cases change inputs asked p with
    ⟨_, _, h⟩ | ⟨_, _, h⟩ | ⟨_, _, _, _, _, h⟩ | ⟨_, hfree, docs, hr, h⟩
  · rw [h]
    exact .refl H p.tree
  · rw [h]
    exact .refl H p.tree
  · rw [h]
    exact .refl H p.tree
  · have hjournal := apart.journal
    simp only [moment, h] at hjournal
    rw [h]
    rw [perform_carryOut_of_live live] at hjournal ⊢
    cases hw : p.tree.write (s.pathOf (outputFor inputs asked))
        (Utf8.encode (mergedText inputs docs)) with
    | error f =>
      simp only [claimed, hw]
      exact .refl H p.tree
    | ok t₁ =>
      simp only [claimed, hw] at hjournal ⊢
      -- the page is written before anything is removed, and the record comes last
      obtain ⟨new, hv, rfl⟩ := exists_put_of_write hw (has_of_isTaken_eq_false hfree)
      have hkept : LinesKept H p.tree (s.replace inputs docs new p.tree) :=
        linesKept_replace hr (meets_of_vacant hv).2 (apart.output new hv)
      exact hkept.trans (linesKept_record hjournal)

end Session

/-! ## Sequences of requests -/

/-- What a caller may ask for: similar pairs to be merged, or files to be folded into one. -/
inductive Call
  | mergePairs (pairs : List PairEntry)
  | fold (files : List String) (output : Option String)

namespace Session

/-- How far a session is after a call, whether it fails or not. -/
def answer (s : Session) (p : Progress) : Call → Progress
  | .mergePairs pairs => ((s.mergePairs pairs).perform p).2
  | .fold files output => ((s.fold files output).perform p).2

/-- How far a session is after several calls. -/
def answers (s : Session) (calls : List Call) (p : Progress) : Progress := calls.foldl s.answer p

/-- The requests taken up when pairs are merged: those with enough overlap, until one fails. -/
def momentsOfPairs (s : Session) : List PairEntry → Progress → List Moment
  | [], _ => []
  | pair :: rest, p =>
    if s.leastOverlap.le pair.overlap then
      let inputs := [pair.file1, pair.file2]
      s.moment .merged inputs none p ::
        match (s.combine .merged inputs none).perform p with
        | (.ok _, p') => s.momentsOfPairs rest p'
        | (.error _, _) => []
    else s.momentsOfPairs rest p

/-- The requests taken up in the course of several calls. -/
def moments (s : Session) : List Call → Progress → List Moment
  | [], _ => []
  | .mergePairs pairs :: rest, p =>
    s.momentsOfPairs pairs p ++ s.moments rest (s.answer p (.mergePairs pairs))
  | .fold files output :: rest, p =>
    s.moment .folded files output p :: s.moments rest (s.answer p (.fold files output))

theorem linesKept_mergePairs (live : s.trial = false) {pairs : List PairEntry}
    (apart : ∀ m ∈ s.momentsOfPairs pairs p, m.Apart s H) :
    LinesKept H p.tree ((s.mergePairs pairs).perform p).2.tree := by
  induction pairs generalizing p with
  | nil => exact .refl H p.tree
  | cons pair rest ih =>
    rw [mergePairs, perform_forEach_cons, mergePair]
    rw [momentsOfPairs] at apart
    split at apart
    · next hle =>
      rw [if_pos hle, perform_map]
      have hstep : LinesKept H p.tree
          ((s.combine .merged [pair.file1, pair.file2] none).perform p).2.tree :=
        linesKept_combine live (apart _ List.mem_cons_self)
      rcases hc : (s.combine .merged [pair.file1, pair.file2] none).perform p with ⟨_ | a, p'⟩
      · rw [hc] at hstep
        exact hstep
      · rw [hc] at hstep
        refine hstep.trans (ih fun m hm => apart m ?_)
        simp only [hc]
        exact List.mem_cons_of_mem _ hm
    · next hle =>
      rw [if_neg hle, perform_pure]
      exact ih apart

/-- **No sequence of merges and folds loses a line.** -/
theorem linesKept_answers (live : s.trial = false) (calls : List Call)
    (apart : ∀ m ∈ s.moments calls p, m.Apart s H) :
    LinesKept H p.tree (s.answers calls p).tree := by
  induction calls generalizing p with
  | nil => exact .refl H p.tree
  | cons call rest ih =>
    have hrest : (∀ m ∈ s.moments rest (s.answer p call), m.Apart s H) →
        LinesKept H (s.answer p call).tree (s.answers (call :: rest) p).tree := ih
    cases call with
    | mergePairs pairs =>
      rw [moments] at apart
      have hcall : LinesKept H p.tree (s.answer p (.mergePairs pairs)).tree :=
        linesKept_mergePairs live fun m hm => apart m (List.mem_append_left _ hm)
      exact hcall.trans (hrest fun m hm => apart m (List.mem_append_right _ hm))
    | fold files output =>
      rw [moments] at apart
      have hcall : LinesKept H p.tree (s.answer p (.fold files output)).tree :=
        linesKept_combine live (apart _ List.mem_cons_self)
      exact hcall.trans (hrest fun m hm => apart m (List.mem_cons_of_mem _ hm))

/-! Two documents are merged and the page is folded with a third one; the journal is kept outside
the inbox. -/

/-- Three documents in an inbox. -/
def threeDocuments : Tree :=
  ⟨[(["in"], .dir), (["in", "a.md"], .file [0x78, 0x0A]), (["in", "b.md"], .file [0x79, 0x0A]),
    (["in", "c.md"], .file [0x7A, 0x0D, 0x0A])]⟩

/-- A live session with a journal. -/
def withJournal : Session := ⟨"in", .ofRatio 40 100, false, some "log", "now"⟩

/-- A pair that overlaps enough, and a fold of its page. -/
def mergeThenFold : List Call :=
  [.mergePairs [⟨"a.md", "b.md", .ofRatio 1 1, .ofRatio 1 1, 1, 1, 1, 1⟩],
   .fold ["a-merged.md", "c.md"] (some "all.md")]

theorem linesKept_mergeThenFold :
    (∀ m ∈ withJournal.moments mergeThenFold (.start threeDocuments),
      m.Apart withJournal (· = ["log"])) ∧
    LinesKept (· = ["log"]) threeDocuments
      (withJournal.answers mergeThenFold (.start threeDocuments)).tree := by
  have leads : ∀ m ∈ withJournal.moments mergeThenFold (.start threeDocuments),
      m.before.tree.resolve .followed (withJournal.pathOf m.output) =
        .ok (.vacant ["in", m.output]) ∧ (m.after.tree.find "log").map (·.1) = .ok ["log"] := by
    decide +kernel
  have apart : ∀ m ∈ withJournal.moments mergeThenFold (.start threeDocuments),
      m.Apart withJournal (· = ["log"]) := by
    intro m hm
    obtain ⟨ho, hj⟩ := leads m hm
    constructor
    · intro loc h
      rw [ho] at h
      cases h
      simp
    · rintro path ⟨⟩ loc x h
      rw [h] at hj
      simpa [Except.map] using hj
  exact ⟨apart, linesKept_answers rfl mergeThenFold apart⟩

end Session

end NearDup.Merge
