import NearDup.Proofs.Analysis
import NearDup.Proofs.Inbox
import NearDup.Proofs.Merge.Conservation
import NearDup.Proofs.Merge.Silent

/-!
# What is left to read after a run

A run removes the copies of each exact group and keeps its first file. The first file can be a link,
and then a copy can be what the link leads to. So the text of a group is left exactly where no copy
is removed from under the first file; everything else that a run removes is left in a page that it
writes.

* `Session.Spared` — no copy of a group is removed from under its first file
* `Session.readable_mergePairs` — merging leaves every line readable
* `Session.readable_run` — what is left after a whole run, and what is not
-/

namespace NearDup.Merge

open NearDup.Tree Effect Text

/-- Some file that can be found holds a line. Locations of `H` do not count. -/
def Readable (H : Location → Prop) (t : Tree) (line : String) : Prop :=
  ∃ path loc bytes, t.find path = .ok (loc, .file bytes) ∧ ¬H loc ∧ line ∈ linesOf bytes

namespace Session

variable {s : Session} {H : Location → Prop} {t : Tree} {p : Progress} {line : String}

/-! ## Merging -/

/-- One request leaves every line readable: under the same path, or in the page, which does not
stand at a location of `H`. -/
theorem readable_combine (live : s.trial = false) (hj : s.journal = none) {change : Change}
    {inputs : List String} {asked : Option String}
    (hout : ∀ loc, p.tree.resolve .followed (s.pathOf (outputFor inputs asked)) =
      .ok (.vacant loc) → ¬H loc) (h : Readable H p.tree line) :
    Readable H ((s.combine change inputs asked).perform p).2.tree line := by
  rcases s.combine_live_cases live hj change inputs asked p with
    ⟨_, _, he⟩ | ⟨_, he⟩ | ⟨docs, new, hr, hv, he⟩
  · rw [he]
    exact h
  · rw [he]
    exact h
  · rw [he]
    obtain ⟨path, loc, bytes, hf, hH, hl⟩ := h
    have hnew := (meets_of_vacant hv).2
    rcases find_replace_cases hr hnew (find_put hnew hf _) with hf' | ⟨name, hn, hname⟩
    · exact ⟨path, loc, bytes, hf', hH, hl⟩
    · -- the file was an input, so its lines are in the page
      exact ⟨_, new, _, find_replace_page hr hv, hout new hv,
        linesOf_subset_pageOf hr hn hname hl⟩

/-- A request makes no path lead on where it ended before. -/
theorem shorter_combine (live : s.trial = false) (hj : s.journal = none) (change : Change)
    (inputs : List String) (asked : Option String) (p : Progress) :
    Shorter p.tree ((s.combine change inputs asked).perform p).2.tree := by
  rcases s.combine_live_cases live hj change inputs asked p with
    ⟨_, _, he⟩ | ⟨_, he⟩ | ⟨docs, new, hr, hv, he⟩
  · rw [he]
    exact .refl p.tree
  · rw [he]
    exact .refl p.tree
  · rw [he]
    exact shorter_replace (meets_of_vacant hv).2

/-- **Merging pairs leaves every line readable**, if no output leads to a location of `H`. -/
theorem readable_mergePairs (live : s.trial = false) (hj : s.journal = none)
    {pairs : List PairEntry} (hs : Shorter t p.tree)
    (hout : ∀ pair ∈ pairs, t.Avoids H (s.pathOf (outputName pair.file1)))
    (h : Readable H p.tree line) : Readable H ((s.mergePairs pairs).perform p).2.tree line := by
  have hboth : Shorter t ((s.mergePairs pairs).perform p).2.tree ∧
      Readable H ((s.mergePairs pairs).perform p).2.tree line := by
    refine mergePairs_preserves (P := fun p => Shorter t p.tree ∧ Readable H p.tree line) ?_
      ⟨hs, h⟩
    intro pair hp q hq
    refine ⟨hq.1.trans (shorter_combine live hj _ _ _ q), readable_combine live hj ?_ hq.2⟩
    intro loc hv
    exact (hq.1.avoids (hout pair hp)).not_of_vacant hv
  exact hboth.2

/-- A line of the page of two documents is one of theirs, or belongs to the frame. -/
theorem mem_linesOf_pageOf {file1 file2 : String} {docs : List Document}
    (hr : s.readInputs t [file1, file2] = .ok docs) (hl : line ∈ linesOf (pageOf [file1, file2] docs)) :
    (∃ name ∈ [file1, file2], ∃ loc bytes, t.find (s.pathOf name) = .ok (loc, .file bytes) ∧
      line ∈ linesOf bytes) ∨ line ∈ frameOfTwo file1 file2 := by
  rw [linesOf, pageOf, Utf8.decodeLenient_encode] at hl
  obtain ⟨d1, d2, rfl⟩ := List.length_eq_two.1 (readInputs_ok hr).1.symm
  refine (mem_bareLines_mergedText_two (lines_of_readInputs hr) hl).imp_left ?_
  rintro ⟨d, hd, hline⟩
  obtain ⟨name, hn, hdoc⟩ := (readInputs_ok hr).2.2 d hd
  obtain ⟨bytes, hb, rfl⟩ := readDocument_ok hdoc
  obtain ⟨loc, hf⟩ := read_eq_ok_iff.1 hb
  exact ⟨name, hn, loc, bytes, hf, hline⟩

/-- One request for two documents makes no line readable but those of the frame of its page. -/
theorem readable_of_combine (live : s.trial = false) (hj : s.journal = none) {file1 file2 : String}
    (hin : ∀ name ∈ [file1, file2], p.tree.Avoids H (s.pathOf name))
    (h : Readable H ((s.combine .merged [file1, file2] none).perform p).2.tree line) :
    Readable H p.tree line ∨ line ∈ frameOfTwo file1 file2 := by
  rcases s.combine_live_cases live hj .merged [file1, file2] none p with
    ⟨_, _, he⟩ | ⟨_, he⟩ | ⟨docs, new, hr, hv, he⟩
  · rw [he] at h
    exact Or.inl h
  · rw [he] at h
    exact Or.inl h
  · rw [he] at h
    obtain ⟨path, loc, bytes, hf, hH, hl⟩ := h
    rcases find_of_find_replace (meets_of_vacant hv).2 hf with ⟨-, rfl⟩ | hf'
    · refine (mem_linesOf_pageOf hr hl).imp_left ?_
      rintro ⟨name, hn, loc', bytes, hname, hline⟩
      exact ⟨_, loc', bytes, hname, (hin name hn).not_of_file hname, hline⟩
    · exact Or.inl ⟨path, loc, bytes, hf', hH, hl⟩

/-- Merging pairs makes no other lines readable, if no file of them leads to a location of `H`. -/
theorem readable_of_mergePairs (live : s.trial = false) (hj : s.journal = none)
    {pairs : List PairEntry} (hs : Shorter t p.tree)
    (hin : ∀ pair ∈ pairs, ∀ name ∈ [pair.file1, pair.file2], t.Avoids H (s.pathOf name))
    (h : Readable H ((s.mergePairs pairs).perform p).2.tree line) :
    Readable H p.tree line ∨ ∃ pair ∈ pairs, line ∈ frameOfTwo pair.file1 pair.file2 := by
  have hall : Shorter t ((s.mergePairs pairs).perform p).2.tree ∧
      (Readable H ((s.mergePairs pairs).perform p).2.tree line →
        Readable H p.tree line ∨ ∃ pair ∈ pairs, line ∈ frameOfTwo pair.file1 pair.file2) := by
    refine mergePairs_preserves (P := fun q => Shorter t q.tree ∧ (Readable H q.tree line →
      Readable H p.tree line ∨ ∃ pair ∈ pairs, line ∈ frameOfTwo pair.file1 pair.file2)) ?_
      ⟨hs, Or.inl⟩
    intro pair hp q hq
    refine ⟨hq.1.trans (shorter_combine live hj _ _ _ q), ?_⟩
    intro h
    rcases readable_of_combine live hj (fun name hn => hq.1.avoids (hin pair hp name hn)) h with
      h | h
    · exact hq.2 h
    · exact Or.inr ⟨pair, hp, h⟩
  exact hall.2 h

/-! ## Groups -/

/-- No copy of a group is removed from under the first file: without the copy, that file is still
found. -/
def Spared (s : Session) (t : Tree) (g : GroupEntry) : Prop :=
  ∀ kept ∈ g.files.head?, ∀ copy ∈ g.files.tail,
    (s.removeFile copy t).2.has (s.pathOf kept) = true

variable {settings : AnalysisSettings} {docs : List Document} {g : GroupEntry}

/-- Every name of a document leads to a file with its text. -/
def Stored (s : Session) (t : Tree) (docs : List Document) : Prop :=
  ∀ d ∈ docs, ∃ loc bytes, t.find (s.pathOf d.id) = .ok (loc, .file bytes) ∧
    d.content = Utf8.decodeLenient bytes ∧ d.digest = .of d.content

theorem Stored.files_of_docs (h : s.Stored t docs) : s.Files t (docs.map (·.id)) := by
  intro name hn
  obtain ⟨d, hd, rfl⟩ := List.mem_map.1 hn
  obtain ⟨loc, bytes, hf, -⟩ := h d hd
  exact ⟨loc, bytes, hf⟩

/-- The copies of a report are documents. -/
theorem copies_subset_docs :
    copiesOf (Report.ofAnalysis (analyze settings docs)).exact ⊆ docs.map (·.id) := by
  intro name hn
  obtain ⟨g, hg, htail⟩ := List.mem_flatMap.1 hn
  obtain ⟨d, hd, rfl⟩ := exists_doc_of_mem_files hg (List.mem_of_mem_tail htail)
  exact List.mem_map_of_mem hd

/-- The files of a pair are documents. -/
theorem pair_subset_docs {pair : PairEntry}
    (hp : pair ∈ (Report.ofAnalysis (analyze settings docs)).similar) :
    [pair.file1, pair.file2] ⊆ docs.map (·.id) := by
  obtain ⟨⟨d₁, hd₁, h₁⟩, d₂, hd₂, h₂⟩ := exists_docs_of_mem_similar hp
  intro name hn
  simp only [List.mem_cons, List.not_mem_nil, or_false] at hn
  rcases hn with rfl | rfl
  · exact h₁ ▸ List.mem_map_of_mem hd₁
  · exact h₂ ▸ List.mem_map_of_mem hd₂

theorem Stored.files (h : s.Stored t docs) :
    s.Files t (copiesOf (Report.ofAnalysis (analyze settings docs)).exact) :=
  h.files_of_docs.mono copies_subset_docs

theorem Stored.files_of_mem_similar (h : s.Stored t docs) {pair : PairEntry}
    (hp : pair ∈ (Report.ofAnalysis (analyze settings docs)).similar) :
    s.Files t [pair.file1, pair.file2] :=
  h.files_of_docs.mono (pair_subset_docs hp)

/-- Documents that lead to one file have one digest. -/
theorem Stored.digest_eq (h : s.Stored t docs) {d d' : Document} (hd : d ∈ docs) (hd' : d' ∈ docs)
    (hf : t.find (s.pathOf d.id) = t.find (s.pathOf d'.id)) : d.digest = d'.digest := by
  obtain ⟨loc, bytes, hfd, hc, hdig⟩ := h d hd
  obtain ⟨loc', bytes', hfd', hc', hdig'⟩ := h d' hd'
  rw [hfd, hfd'] at hf
  cases hf
  rw [hdig, hdig', hc, hc']

/-- A document that leads to the same file as one of a group belongs to the group. -/
theorem Stored.mem_files (h : s.Stored t docs) {d : Document} (hd : d ∈ docs)
    (hg : g ∈ (Report.ofAnalysis (analyze settings docs)).exact) {name : String}
    (hn : name ∈ g.files) (hf : t.find (s.pathOf d.id) = t.find (s.pathOf name)) :
    d.id ∈ g.files ∧ ∀ n ∈ g.files, ∃ d' ∈ docs, d'.id = n ∧ d'.digest = d.digest := by
  obtain ⟨digest, group, hof, rfl⟩ := exists_digest_of_mem_exact hg
  obtain ⟨d', hd', hdig, rfl⟩ := (mem_files_iff hof).1 hn
  have heq : d.digest = digest := (h.digest_eq hd hd' hf).trans hdig
  refine ⟨(mem_files_iff hof).2 ⟨d, hd, heq, rfl⟩, ?_⟩
  intro n hn
  obtain ⟨d'', hd'', hdig'', hid⟩ := (mem_files_iff hof).1 hn
  exact ⟨d'', hd'', hid, hdig''.trans heq.symm⟩

/-- Groups with files that lead to one place are one group. -/
theorem Stored.group_eq (h : s.Stored t docs) {g' : GroupEntry}
    (hg : g ∈ (Report.ofAnalysis (analyze settings docs)).exact)
    (hg' : g' ∈ (Report.ofAnalysis (analyze settings docs)).exact) {name name' : String}
    (hn : name ∈ g.files) (hn' : name' ∈ g'.files)
    (hf : t.find (s.pathOf name) = t.find (s.pathOf name')) : g = g' := by
  obtain ⟨digest, group, hof, rfl⟩ := exists_digest_of_mem_exact hg
  obtain ⟨digest', group', hof', rfl⟩ := exists_digest_of_mem_exact hg'
  obtain ⟨d, hd, hdig, rfl⟩ := (mem_files_iff hof).1 hn
  obtain ⟨d', hd', hdig', rfl⟩ := (mem_files_iff hof').1 hn'
  have heq : digest = digest' := by rw [← hdig, ← hdig', h.digest_eq hd hd' hf]
  subst heq
  rw [hof] at hof'
  cases hof'
  rfl

/-- What is cut off by removing a copy leads to the same file as the copy. -/
theorem Stored.find_of_cut (h : s.Stored t docs) {copy path : String}
    (hc : copy ∈ copiesOf (Report.ofAnalysis (analyze settings docs)).exact) {loc : Location}
    {bytes : List UInt8} (hp : t.find path = .ok (loc, .file bytes))
    (hcut : ¬(s.removeFile copy t).2.has path = true) :
    t.find (s.pathOf copy) = .ok (loc, .file bytes) := by
  have hfiles : s.Files t [copy] := h.files.mono (by simpa using hc)
  rcases (s.clears_removeFile copy t).find_eq_or_cut hfiles hp with hp' | ⟨name, hn, hf, -, -⟩
  · exact absurd (has_of_find hp') hcut
  · rwa [List.mem_singleton.1 hn] at hf

/-- The first file of a group is still found without any one copy of any group, if that holds for
the copies of its own group. -/
theorem Spared.has (hstored : s.Stored t docs)
    (hg : g ∈ (Report.ofAnalysis (analyze settings docs)).exact) (h : s.Spared t g)
    {kept : String} (hk : kept ∈ g.files.head?) {copy : String}
    (hc : copy ∈ copiesOf (Report.ofAnalysis (analyze settings docs)).exact) :
    (s.removeFile copy t).2.has (s.pathOf kept) = true := by
  have hkept : kept ∈ g.files := List.mem_of_mem_head? hk
  obtain ⟨d, hd, rfl⟩ := exists_doc_of_mem_files hg hkept
  obtain ⟨loc, bytes, hf, -⟩ := hstored d hd
  by_cases hcut : (s.removeFile copy t).2.has (s.pathOf d.id) = true
  · exact hcut
  · -- it leads to the same file as the copy, so both are in one group
    have hfc := hstored.find_of_cut hc hf hcut
    obtain ⟨g', hg', htail⟩ := List.mem_flatMap.1 hc
    obtain rfl := hstored.group_eq hg hg' hkept (List.mem_of_mem_tail htail) (hf.trans hfc.symm)
    exact h _ hk copy htail

/-! ## Lines -/

/-- Some file other than the journal holds a line, and is still found when any one of these names is
removed alone. -/
def Outlives (s : Session) (t : Tree) (copies : List String) (line : String) : Prop :=
  ∃ path loc bytes, t.find path = .ok (loc, .file bytes) ∧ ¬s.JournalAt t loc ∧
    line ∈ linesOf bytes ∧ ∀ copy ∈ copies, (s.removeFile copy t).2.has path = true

/-- **Removing files leaves just the lines that outlive each single removal.** -/
theorem readable_useCopies_iff (live : s.trial = false) {copies : List String}
    (hf : s.Files t copies) :
    Readable (s.JournalAt t) (s.useCopies copies (.start t)).2.tree line ↔
      s.Outlives t copies line := by
  have hused := (s.usedUp_start t).useCopies live hf
  have hfiles := hf.mono fun n hn => (mem_consumed_afterCopies (s := s) (t := t)).1 hn
  constructor
  · rintro ⟨path, loc, bytes, hfind, hat, hl⟩
    have hfind₀ := hused.clears.thinner.find_eq hfind
    refine ⟨path, loc, bytes, hfind₀, hat, hl, ?_⟩
    intro copy hc
    by_cases hcut : (s.removeFile copy t).2.has path = true
    · exact hcut
    · have hnot := hused.has_eq_false hfiles (mem_consumed_afterCopies.2 hc) hfind₀
        (by simpa using hcut)
      rw [has_of_find hfind] at hnot
      cases hnot
  · rintro ⟨path, loc, bytes, hfind, hat, hl, hsafe⟩
    rcases hused.clears.find_eq_or_cut hfiles hfind with hfind' | ⟨copy, hc, -, hcut, -⟩
    · exact ⟨path, loc, bytes, hfind', hat, hl⟩
    · rw [hsafe copy (mem_consumed_afterCopies.1 hc)] at hcut
      cases hcut

/-- The lines of a document outlive the removals if the first file of its group does. -/
theorem outlives_of_spared (hstored : s.Stored t docs) {d : Document} (hd : d ∈ docs)
    (hspared : ∀ g ∈ (Report.ofAnalysis (analyze settings docs)).exact, d.id ∈ g.files →
      s.Spared t g)
    (hsame : ∀ d' ∈ docs, d'.digest = d.digest → d'.content = d.content)
    (hoff : ∀ d ∈ docs, t.Avoids (s.JournalAt t) (s.pathOf d.id))
    (hl : line ∈ bareLines d.content) :
    s.Outlives t (copiesOf (Report.ofAnalysis (analyze settings docs)).exact) line := by
  obtain ⟨loc, bytes, hf, hc, -⟩ := hstored d hd
  by_cases hsafe : ∀ copy ∈ copiesOf (Report.ofAnalysis (analyze settings docs)).exact,
      (s.removeFile copy t).2.has (s.pathOf d.id) = true
  · exact ⟨_, loc, bytes, hf, (hoff d hd).not_of_file hf, by rwa [linesOf, ← hc], hsafe⟩
  · -- a copy is the same file, so the document is in its group, and the first file has its text
    simp only [not_forall] at hsafe
    obtain ⟨copy, hcopy, hcut⟩ := hsafe
    have hfc := hstored.find_of_cut hcopy hf hcut
    obtain ⟨g, hg, htail⟩ := List.mem_flatMap.1 hcopy
    obtain ⟨hmem, hall⟩ := hstored.mem_files hd hg (List.mem_of_mem_tail htail) (hf.trans hfc.symm)
    obtain ⟨kept, hk⟩ : ∃ kept, kept ∈ g.files.head? := by
      cases hfiles : g.files with
      | nil => simp [hfiles] at hmem
      | cons kept rest => exact ⟨kept, rfl⟩
    obtain ⟨d', hd', rfl, hdig⟩ := hall kept (List.mem_of_mem_head? hk)
    obtain ⟨loc', bytes', hf', hc', -⟩ := hstored d' hd'
    refine ⟨_, loc', bytes', hf', (hoff d' hd').not_of_file hf', ?_, ?_⟩
    · rwa [linesOf, ← hc', hsame d' hd' hdig]
    · intro copy hcopy
      exact (hspared g hg hmem).has hstored hg hk hcopy

/-! ## Whole runs -/

/-- The names of the documents, and of the outputs of pairs: all that a run reads, removes or
writes, but for the journal. -/
def namesOf (docs : List Document) (r : Report) : List String :=
  docs.map (·.id) ++ r.similar.map fun pair => outputName pair.file1

/-- A run of a session with a journal goes on as one without. -/
theorem Stored.parallel_run (live : s.trial = false) (h : s.Stored t docs)
    (hd : t.isDir s.inbox = true)
    (ha : s.JournalAside t (namesOf docs (Report.ofAnalysis (analyze settings docs)))) :
    ((s.run (Report.ofAnalysis (analyze settings docs))).perform (.start t)).1 =
        ((s.silent.run (Report.ofAnalysis (analyze settings docs))).perform (.start t)).1 ∧
      s.Abreast (docs.map (·.id)) t
        ((s.run (Report.ofAnalysis (analyze settings docs))).perform (.start t)).2
        ((s.silent.run (Report.ofAnalysis (analyze settings docs))).perform (.start t)).2 := by
  refine Session.parallel_run live ha h.files_of_docs (List.subset_append_left _ _) hd
    copies_subset_docs ?_
  intro pair hp
  exact ⟨pair_subset_docs hp, List.mem_append_right _ (List.mem_map_of_mem hp)⟩

/-- **A run leaves a line readable exactly if it outlives the removal of each single copy**, but for
the frames of the pages that it makes. All lines of a document are among them if no copy is removed
from under the first file of its group. The journal is left out of account. -/
theorem readable_run (live : s.trial = false) (hw : Inbox.WellNamed t)
    (hl : Inbox.load t s.inbox settings.extensions = .ok docs)
    (ha : s.JournalAside t (namesOf docs (Report.ofAnalysis (analyze settings docs)))) :
    let r := Report.ofAnalysis (analyze settings docs)
    (∀ line, s.Outlives t (copiesOf r.exact) line →
      Readable (s.JournalAt t) ((s.run r).perform (.start t)).2.tree line) ∧
    (∀ line, Readable (s.JournalAt t) ((s.run r).perform (.start t)).2.tree line →
      s.Outlives t (copiesOf r.exact) line ∨
        ∃ pair ∈ r.similar, line ∈ frameOfTwo pair.file1 pair.file2) ∧
    ∀ d ∈ docs, (∀ g ∈ r.exact, d.id ∈ g.files → s.Spared t g) →
      (∀ d' ∈ docs, d'.digest = d.digest → d'.content = d.content) →
      ∀ line ∈ bareLines d.content, s.Outlives t (copiesOf r.exact) line := by
  intro r
  have hstored : s.Stored t docs := fun d hd => Inbox.find_of_mem_load hw hl hd
  have hdir := (Inbox.load_eq_ok_iff.1 hl).1
  have hcopies : s.Files t (copiesOf r.exact) := hstored.files
  have hoff : ∀ name ∈ docs.map (·.id), t.Avoids (s.JournalAt t) (s.pathOf name) :=
    fun name hn => ha.avoid name (List.mem_append_left _ hn)
  have hsame : ∀ line, Readable (s.JournalAt t) ((s.run r).perform (.start t)).2.tree line ↔
      Readable (s.JournalAt t) ((s.silent.run r).perform (.start t)).2.tree line := by
    intro line
    have htrees := (hstored.parallel_run live hdir ha).2.trees
    constructor
    · rintro ⟨path, loc, bytes, hf, hat, hline⟩
      exact ⟨path, loc, bytes, (htrees.find_iff hat).1 hf, hat, hline⟩
    · rintro ⟨path, loc, bytes, hf, hat, hline⟩
      exact ⟨path, loc, bytes, (htrees.find_iff hat).2 hf, hat, hline⟩
  have hshorter : Shorter t (s.useCopies (copiesOf r.exact) (.start t)).2.tree :=
    ((s.usedUp_start t).useCopies live hcopies).clears.thinner.shorter
  simp only [hsame, perform_run (s := s.silent) (p := .start t) (Or.inr rfl) hdir,
    useCopies_silent]
  refine ⟨?_, ?_, ?_⟩
  · intro line h
    refine readable_mergePairs (s := s.silent) live rfl hshorter ?_
      ((readable_useCopies_iff live hcopies).2 h)
    intro pair hp
    exact ha.avoid _ (List.mem_append_right _ (List.mem_map_of_mem hp))
  · intro line h
    exact (readable_of_mergePairs (s := s.silent) live rfl hshorter
      (fun pair hp name hn => hoff name (pair_subset_docs hp hn)) h).imp_left
      (readable_useCopies_iff live hcopies).1
  · intro d hd hspared hsame line hline
    exact outlives_of_spared hstored hd hspared hsame
      (fun d hd => hoff _ (List.mem_map_of_mem hd)) hline

/-! A copy that is a link to the kept file is removed without loss. A kept file that is a link to a
copy is not: the text of both is lost. -/

/-- A live session that keeps no journal. -/
def plain : Session := ⟨"in", .ofRatio 40 100, false, none, "now"⟩

/-- The second document is a link to the first one. -/
def linkToKept : Tree :=
  ⟨[(["in"], .dir), (["in", "a.md"], .file [0x78, 0x0A]), (["in", "b.md"], .link "a.md")]⟩

/-- The first document is a link to the second one. -/
def linkToCopy : Tree :=
  ⟨[(["in"], .dir), (["in", "a.md"], .link "b.md"), (["in", "b.md"], .file [0x78, 0x0A])]⟩

/-- The documents of the inbox `in`. -/
def documentsOf (t : Tree) : List Document := Inbox.documents t "in" ["md", "txt"]

/-- What the analysis reports of the inbox `in`. -/
def reportOf (t : Tree) : Report := Report.ofAnalysis (analyze .default (documentsOf t))

theorem ofAnalysis_documentsOf (t : Tree) :
    Report.ofAnalysis (analyze .default (documentsOf t)) = reportOf t := rfl

theorem load_documentsOf (h : t.isDir "in" = true) :
    Inbox.load t "in" ["md", "txt"] = .ok (documentsOf t) := Inbox.load_eq_ok_iff.2 ⟨h, rfl⟩

theorem readable_run_linkToKept :
    Inbox.load linkToKept "in" ["md", "txt"] = .ok (documentsOf linkToKept) ∧
      (documentsOf linkToKept).length = 2 ∧
      withJournal.JournalAside linkToKept (namesOf (documentsOf linkToKept) (reportOf linkToKept)) ∧
      ∀ d ∈ documentsOf linkToKept, ∀ line ∈ bareLines d.content,
        Readable (withJournal.JournalAt linkToKept)
          ((withJournal.run (reportOf linkToKept)).perform (.start linkToKept)).2.tree line := by
  have hload := load_documentsOf (t := linkToKept) (by decide +kernel)
  obtain ⟨hlength, hnames, hspared, hsame⟩ : (documentsOf linkToKept).length = 2 ∧
      (∀ name ∈ namesOf (documentsOf linkToKept) (reportOf linkToKept),
        (linkToKept.resolve .followed (withJournal.pathOf name)).toOption ≠ none ∧
        (linkToKept.resolve .followed (withJournal.pathOf name)).toOption ≠
          some (linkToKept.placeAt ["log"])) ∧
      (∀ g ∈ (reportOf linkToKept).exact, ∀ kept ∈ g.files.head?, ∀ copy ∈ g.files.tail,
        (withJournal.removeFile copy linkToKept).2.has (withJournal.pathOf kept) = true) ∧
      ∀ d ∈ documentsOf linkToKept, ∀ d' ∈ documentsOf linkToKept,
        d'.digest = d.digest → d'.content = d.content := by
    decide +kernel
  have hlog : linkToKept.openFile "log" = .ok (["log"], []) := by decide +kernel
  have haside := journalAside_of_resolve (s := withJournal) rfl (by decide +kernel) hlog hnames
  have h := @readable_run withJournal linkToKept .default _ rfl (by decide +kernel) hload haside
  simp only [ofAnalysis_documentsOf] at h
  obtain ⟨hleft, -, hall⟩ := h
  exact ⟨hload, hlength, haside, fun d hd line hline =>
    hleft line (hall d hd (fun g hg _ => hspared g hg) (hsame d hd) line hline)⟩

/-- **A line is lost where the kept file is a link to a copy.** -/
theorem not_readable_run_linkToCopy :
    Inbox.load linkToCopy "in" ["md", "txt"] = .ok (documentsOf linkToCopy) ∧
      ∃ outcome p, (plain.run (reportOf linkToCopy)).perform (.start linkToCopy) =
        (.ok outcome, p) ∧
      ∃ d ∈ documentsOf linkToCopy, ∃ line ∈ bareLines d.content,
        ∀ path bytes, p.tree.read path = .ok bytes → line ∉ linesOf bytes := by
  refine ⟨load_documentsOf (by decide +kernel), ⟨[.deduplicate "a.md" ["b.md"]]⟩,
    ⟨["b.md"], [], ⟨[(["in"], .dir), (["in", "a.md"], .link "b.md")]⟩⟩, by decide +kernel, ?_⟩
  have hline : ∃ d ∈ documentsOf linkToCopy, "x" ∈ bareLines d.content := by
    decide +kernel
  obtain ⟨d, hd, hx⟩ := hline
  refine ⟨d, hd, "x", hx, ?_⟩
  intro path bytes hread
  -- nothing is left that could be read
  exfalso
  obtain ⟨loc, hf⟩ := read_eq_ok_iff.1 hread
  have hg := (meets_of_entry (find_eq_ok_iff.1 hf) (by simp)).2
  unfold get? at hg
  split at hg
  · cases hg
  · simp only [lookUp] at hg
    split at hg
    · cases hg
    · split at hg <;> cases hg

end Session

end NearDup.Merge
