import NearDup.Proofs.Journal.Way
import NearDup.Proofs.Merge.Course

/-!
# What the journal says of a request

A live session that keeps a journal writes one record of every change, and the journal says what was
done: its records are those of before with one for each change behind them, and the files that they
say were removed are those that were deleted. For that the files of the request have to be off the
way to the journal. A file or a link on the way can be removed, and then the journal is another one,
and so can a document be written where the journal is to be made.

* `Session.OffWay` — these names are off the way to the journal
* `Session.Steady` — the journal is ready, and these names are off the way to it
* `Steady.erase`, `Steady.append` — what is removed and what is recorded leaves it so
* `Course.journal_grows` — the journal grows by the records of the events
* `records_serve` — what the journal says of a request
-/

namespace NearDup.Merge

open NearDup.Tree Effect Journal

variable {s : Session} {path name : String} {names : List String} {t t' t₀ : Tree}
  {own new loc : Location} {bytes : List UInt8} {r : Record} {p p' : Progress} {es : List Event}

/-! ## Off the way -/

theorem readText_congr (h : t'.resolve .followed path = t.resolve .followed path) :
    t'.readText path = t.readText path := by
  unfold readText Tree.read find
  rw [h]

theorem has_congr (h : t'.resolve .followed path = t.resolve .followed path) :
    t'.has path = t.has path := by
  unfold has find
  rw [h]

namespace Session

/-- These names are off the way to the journal, as it is once the directories above the journal are
made: no file and no link under one of them is on the way, and none of them leads to the free place
where the journal is to be made. -/
structure OffWay (s : Session) (path : String) (names : List String) (t : Tree) : Prop where
  own : ∀ name ∈ names, ∀ own, (t.withParents path).Owns (s.pathOf name) own →
    ∀ rest, ¬(t.withParents path).Meets .followed path own rest
  free : ∀ name ∈ names, ∀ new,
    (t.withParents path).resolve .followed (s.pathOf name) = .ok (.vacant new) →
      ¬(t.withParents path).Meets .followed path new []

/-- The journal is ready, and these names are off the way to it. -/
structure Steady (s : Session) (path : String) (names : List String) (t : Tree) : Prop extends
    s.OffWay path names t where
  ready : Ready t path

theorem Steady.not_meets_own (h : s.Steady path names t) (hn : name ∈ names)
    (ho : t.Owns (s.pathOf name) own) (rest : List String) :
    ¬(t.withParents path).Meets .followed path own rest := by
  obtain ⟨_, -, hadds⟩ := adds_ensureParent path t
  exact h.own name hn own (hadds.owns ho) rest

/-- A file or a link that is off the way is no matter to the journal. -/
theorem ready_iff_of_lacks {u u' : Tree} (hu : Lacks loc u u')
    (hw : Lacks loc (u.withParents path) (u'.withParents path))
    (hway : ∀ rest, ¬((u.withParents path).Meets .followed path loc rest ∧
      (u'.withParents path).Meets .followed path loc rest)) :
    (Ready u path ↔ Ready u' path) ∧ records u' path = records u path := by
  obtain ⟨_, -, hadds⟩ := adds_ensureParent path u
  obtain ⟨_, -, hadds'⟩ := adds_ensureParent path u'
  have hplain : u'.resolve .followed path = u.resolve .followed path :=
    (resolve_eq_or_meets_at hu.same .followed path).resolve_right
      fun ⟨rest, hm, hm'⟩ => hway rest ⟨hadds.meets hm, hadds'.meets hm'⟩
  have hmade : (u'.withParents path).resolve .followed path =
      (u.withParents path).resolve .followed path :=
    (resolve_eq_or_meets_at hw.same .followed path).resolve_right
      fun ⟨rest, hm, hm'⟩ => hway rest ⟨hm, hm'⟩
  have htext := readText_congr hplain
  constructor
  · unfold Ready
    rw [has_congr hmade, htext]
  · unfold records
    rw [htext]

/-- **Removing a file or a link of these names is no matter to the journal.** -/
theorem Steady.erase (h : s.Steady path names t) (hc : checkPath path = .ok ()) (hn : name ∈ names)
    (ho : t.Owns (s.pathOf name) own) :
    s.Steady path names (t.erase own) ∧ records (t.erase own) path = records t path := by
  have hway := h.not_meets_own hn ho
  have hw := ho.lacks.withParents hc fun rest _ => hway rest
  obtain ⟨hready, hrecords⟩ := ready_iff_of_lacks ho.lacks hw fun rest hm => hway rest hm.1
  have hthin := hw.thinner
  refine ⟨⟨⟨?_, ?_⟩, hready.1 h.ready⟩, hrecords⟩
  · intro name' hn' own' ho' rest hm
    exact h.own name' hn' own' (hthin.owns ho') rest (hthin.shorter.meets hm)
  · intro name' hn' new hv hm
    rcases resolve_eq_or_meets_at hw.same .followed (s.pathOf name') with he | ⟨rest, -, hm'⟩
    · exact h.free name' hn' new (he.symm.trans hv) (hthin.shorter.meets hm)
    · -- the path leads to where the file was, and that is off the way
      rw [hm'.resolve_free hw.gone] at hv
      split at hv
      · cases hv
        exact hway [] (hthin.shorter.meets hm)
      · cases hv

/-- A document was written at a free place, which is not that of the journal, and is not recorded
yet. -/
structure Unrecorded (s : Session) (path : String) (names : List String) (t₀ t : Tree)
    (new : Location) (bytes : List UInt8) : Prop where
  steady : s.Steady path names t₀
  vacant : t₀.get? new = none
  put : t = t₀.put new (.file bytes)
  apart : (t₀.withParents path).get? new = none →
    ¬(t₀.withParents path).Meets .followed path new []

theorem Steady.unrecorded (h : s.Steady path names t) (hn : name ∈ names)
    (hv : t.resolve .followed (s.pathOf name) = .ok (.vacant new)) (bytes : List UInt8) :
    s.Unrecorded path names t (t.put new (.file bytes)) new bytes := by
  obtain ⟨hm, hg⟩ := meets_of_vacant hv
  refine ⟨h, hg, rfl, fun hnone => h.free name hn new ?_⟩
  obtain ⟨_, -, hadds⟩ := adds_ensureParent path t
  exact (hadds.meets hm).resolve_vacant hnone

/-- Removing a file or a link of these names leaves the document, or removes just it. -/
theorem Unrecorded.erase (h : s.Unrecorded path names t₀ t new bytes)
    (hc : checkPath path = .ok ()) (hn : name ∈ names) (ho : t.Owns (s.pathOf name) own) :
    t.erase own = t₀ ∨ s.Unrecorded path names (t₀.erase own) (t.erase own) new bytes ∧
      records (t₀.erase own) path = records t₀ path := by
  obtain ⟨hsteady, hg, rfl, hapart⟩ := h
  have hself := get?_put_self t₀ (.file bytes) (isAbove_of_get?_eq_none hg)
  rcases (lacks_put hg bytes).owns_of_file hself ho with rfl | ho'
  · exact Or.inl (erase_put_self hg _)
  · obtain ⟨hsteady', hrecords⟩ := hsteady.erase hc hn ho'
    have hne : own ≠ new := by
      rintro rfl
      obtain ⟨x, hx, -⟩ := ho'.get?_ne
      rw [hg] at hx
      cases hx
    have hw := ho'.lacks.withParents hc fun rest _ => hsteady.not_meets_own hn ho' rest
    refine Or.inr ⟨⟨hsteady', ?_, erase_put_ne hne _, ?_⟩, hrecords⟩
    · rw [get?_erase_ne t₀ hne.symm, hg]
    · intro hnone hm
      rw [hw.same new hne.symm] at hnone
      exact hapart hnone (hw.thinner.shorter.meets hm)

/-- **If the record can be written, the document is off the way to the journal**, and no matter to
it. -/
theorem Unrecorded.steady_of_append (h : s.Unrecorded path names t₀ t new bytes)
    (hc : checkPath path = .ok ()) (happend : (append path r).perform t = (.ok (), t')) :
    s.Steady path names t ∧ records t path = records t₀ path := by
  obtain ⟨hsteady, hg, rfl, hapart⟩ := h
  have hlacks := lacks_put hg bytes
  have hself := get?_put_self t₀ (.file bytes) (isAbove_of_get?_eq_none hg)
  obtain ⟨_, -, hadds⟩ := adds_ensureParent path (t₀.put new (.file bytes))
  have hfile : ((t₀.put new (.file bytes)).withParents path).get? new = some (.file bytes) :=
    hadds.get? hself
  -- the journal is opened, so its path does not go on behind the document
  have hopen : ∃ place, ((t₀.put new (.file bytes)).withParents path).resolve .followed path =
      .ok place := by
    obtain ⟨place, before, ho, -⟩ := append_eq_ok happend
    obtain ⟨hm, hfree | hold⟩ := openFile_ok ho
    · exact ⟨_, hm.followed.resolve_vacant hfree⟩
    · exact ⟨_, find_eq_ok_iff.1 (hm.find_file hold)⟩
  obtain ⟨place, hplace⟩ := hopen
  have hlast : ∀ rest, ((t₀.put new (.file bytes)).withParents path).Meets .followed path new rest →
      rest = [] := by
    intro rest hm
    rw [hm.resolve_file hfile] at hplace
    split at hplace
    · assumption
    · cases hplace
  have hw := hlacks.withParents hc fun rest hne hm => hne (hlast rest hm)
  have hshort := hw.shorter_of_file hfile
  have hway : ∀ rest,
      ¬((t₀.put new (.file bytes)).withParents path).Meets .followed path new rest := by
    intro rest hm
    obtain rfl := hlast rest hm
    exact hapart hw.gone (hshort.meets hm)
  obtain ⟨hready, hrecords⟩ := ready_iff_of_lacks hlacks hw fun rest hm => hway rest hm.1
  refine ⟨⟨⟨?_, ?_⟩, hready.2 hsteady.ready⟩, hrecords.symm⟩
  · intro name hn own ho rest hm
    rcases hw.owns_of_file hfile ho with rfl | ho'
    · exact hway rest hm
    · exact hsteady.own name hn own ho' rest (hshort.meets hm)
  · intro name hn v hv hm
    rcases resolve_eq_or_meets_at hw.same .followed (s.pathOf name) with he | ⟨rest, hm', -⟩
    · exact hsteady.free name hn v (he.trans hv) (hshort.meets hm)
    · rw [hm'.resolve_file hfile] at hv
      split at hv <;> cases hv

/-- What is written to the journal puts no file of these names on the way to it. -/
theorem OffWay.append (h : s.OffWay path names t)
    (happend : (append path r).perform t = (.ok (), t')) : s.OffWay path names t' := by
  have hsame := withParents_of_append happend
  obtain ⟨place, before, ho, rfl⟩ := append_eq_ok happend
  obtain ⟨hm, hg⟩ := openFile_ok ho
  have ha := isAbove_of_free_or_file (hg.imp_right fun hg => ⟨before, hg⟩)
  have hself := get?_put_self (t.withParents path) (.file (before ++ lineBytes r)) ha
  have hshort := shorter_put (t := t.withParents path) ha (before ++ lineBytes r)
  -- where a path leads elsewhere now, it comes to the journal
  have hcome := resolve_put_eq_or_meets (t.withParents path) place (.file (before ++ lineBytes r))
  constructor
  · intro name hn own hown rest hmeets
    rw [hsame] at hown hmeets
    obtain ⟨x, hx, hdir⟩ := hown
    rcases hcome .kept (s.pathOf name) with he | ⟨rest', hold, hnew⟩
    · exact h.own name hn own ⟨x, he.symm.trans hx, hdir⟩ rest (hshort.meets hmeets)
    · rw [hnew.resolve_file hself] at hx
      split at hx
      · next hrest =>
        subst hrest
        rcases hg with hg | hg
        · exact h.free name hn place (hold.followed.resolve_vacant hg) hm.followed
        · exact h.own name hn place (hold.owns hg (by simp)) [] hm.followed
      · cases hx
  · intro name hn new hv hmeets
    rw [hsame] at hv hmeets
    rcases hcome .followed (s.pathOf name) with he | ⟨rest', -, hnew⟩
    · exact h.free name hn new (he.symm.trans hv) (hshort.meets hmeets)
    · rw [hnew.resolve_file hself] at hv
      split at hv <;> cases hv

/-- **A record that is written stands behind those of before, and the journal is steady again.** -/
theorem Steady.append (h : s.Steady path names t)
    (happend : (append path r).perform t = (.ok (), t')) :
    s.Steady path names t' ∧ ∃ before, records t path = .ok before ∧
      records t' path = .ok (before ++ [r]) := by
  obtain ⟨text, hends, hbefore, loc, hf⟩ := h.ready.exists_text happend
  have hafter : records t' path = .ok (recordsOf text ++ [r]) := by
    rw [records_of_find hf, recordsOf_append hends, recordsOf_line]
  exact ⟨⟨h.toOffWay.append happend, h.ready.append happend⟩, _, hbefore, hafter⟩

/-! ## Events -/

/-- How things stand with the journal, whose records are these: it is steady, or it was when a
document was written that is not recorded yet, and a record is due. -/
inductive Standing (s : Session) (path : String) (names : List String) :
    Bool → Tree → Except Failure (List Record) → Prop
  | steady {due : Bool} {t : Tree} (h : s.Steady path names t) :
      Standing s path names due t (records t path)
  | due {t₀ t : Tree} {new : Location} {bytes : List UInt8}
      (h : s.Unrecorded path names t₀ t new bytes) :
      Standing s path names true t (records t₀ path)

theorem map_append_nil (rs : Except Failure (List Record)) : rs.map (· ++ []) = rs := by
  cases rs <;> simp [Except.map]

theorem Standing.of_steady {rs : Except Failure (List Record)} (h : s.Steady path names t)
    (hrs : records t path = rs) (due : Bool) :
    s.Standing path names due t (rs.map (· ++ [])) := by
  rw [map_append_nil, ← hrs]
  exact .steady h

theorem Standing.recorded (h : s.Steady path names t)
    (happend : (append path r).perform t = (.ok (), t')) (due : Bool) :
    s.Standing path names due t' ((records t path).map (· ++ [r])) := by
  obtain ⟨hsteady, before, hbefore, hafter⟩ := h.append happend
  rw [hbefore, Except.map, ← hafter]
  exact .steady hsteady

/-- What an event makes of a journal that is steady: its record stands behind those of before. -/
theorem Steady.step {e : Event} {due : Bool} (hc : checkPath path = .ok ())
    (hj : s.journal = some path) (h : s.Happens e p p') (hnames : e.names ⊆ names)
    (hall : ∀ r f, e ≠ .unrecorded r f) (hfollow : Event.RecordsFollow due (e :: es))
    (hst : s.Steady path names p.tree) :
    ∃ due', Event.RecordsFollow due' es ∧
      s.Standing path names due' p'.tree ((records p.tree path).map (· ++ e.record?.toList)) := by
  cases h with
  | removed hnew hp ho =>
    obtain ⟨hst', hrs⟩ := hst.erase hc (hnames (by simp [Event.names])) ho
    cases due with
    | false => exact ⟨false, hfollow, .of_steady hst' hrs _⟩
    | true => exact hfollow.elim
  | cleared hp ho =>
    obtain ⟨hst', hrs⟩ := hst.erase hc (hnames (by simp [Event.names])) ho
    cases due with
    | false => exact ⟨false, hfollow, .of_steady hst' hrs _⟩
    | true => exact ⟨true, hfollow, .of_steady hst' hrs _⟩
  | written _ hfree hr hv =>
    cases due with
    | false =>
      refine ⟨true, hfollow, ?_⟩
      show s.Standing path names true _ ((records p.tree path).map (· ++ []))
      rw [map_append_nil]
      exact .due (hst.unrecorded (hnames List.mem_cons_self) hv _)
    | true => exact hfollow.elim
  | recorded hj' happend =>
    rw [hj] at hj'
    cases hj'
    cases due with
    | false => exact ⟨false, hfollow, .recorded hst happend _⟩
    | true => exact ⟨false, hfollow, .recorded hst happend _⟩
  | unrecorded => exact absurd rfl (hall _ _)
  | missed | unwritten | skipped | refused =>
    cases due with
    | false => exact ⟨false, hfollow, .of_steady hst rfl _⟩
    | true => exact hfollow.elim

/-- The same while a record is due: the document it is of does not matter until it is written. -/
theorem Unrecorded.step {e : Event} (hc : checkPath path = .ok ()) (hj : s.journal = some path)
    (h : s.Happens e p p') (hnames : e.names ⊆ names) (hall : ∀ r f, e ≠ .unrecorded r f)
    (hfollow : Event.RecordsFollow true (e :: es))
    (hst : s.Unrecorded path names t₀ p.tree new bytes) :
    ∃ due', Event.RecordsFollow due' es ∧
      s.Standing path names due' p'.tree ((records t₀ path).map (· ++ e.record?.toList)) := by
  cases h with
  | cleared hp ho =>
    refine ⟨true, hfollow, ?_⟩
    show s.Standing path names true _ ((records t₀ path).map (· ++ []))
    rcases hst.erase hc (hnames (by simp [Event.names])) ho with he | ⟨hst', hrs⟩
    · refine .of_steady (t := _) ?_ ?_ _
      · exact he.symm ▸ hst.steady
      · exact congrArg (records · path) he
    · rw [map_append_nil, ← hrs]
      exact .due hst'
  | recorded hj' happend =>
    rw [hj] at hj'
    cases hj'
    obtain ⟨hsteady, hrs⟩ := hst.steady_of_append hc happend
    rw [← hrs]
    exact ⟨false, hfollow, .recorded hsteady happend _⟩
  | unrecorded => exact absurd rfl (hall _ _)
  | removed | missed | written | unwritten | skipped | refused => exact hfollow.elim

/-- **The journal grows by the records of the events**, in their order. -/
theorem Course.journal_grows {due : Bool} {rs : Except Failure (List Record)}
    (hc : checkPath path = .ok ()) (hj : s.journal = some path) (h : s.Course es p p')
    (hnames : ∀ e ∈ es, e.names ⊆ names) (hall : ∀ r f, .unrecorded r f ∉ es)
    (hfollow : Event.RecordsFollow due es) (hst : s.Standing path names due p.tree rs) :
    records p'.tree path = rs.map (· ++ es.filterMap Event.record?) := by
  induction h generalizing due rs with
  | nil =>
    obtain rfl : due = false := hfollow
    cases hst
    exact (map_append_nil _).symm
  | @cons e es p p₁ p' he _ ih =>
    have hne : ∀ r f, e ≠ .unrecorded r f := by
      rintro r f rfl
      exact hall r f List.mem_cons_self
    have hstep : ∃ due', Event.RecordsFollow due' es ∧
        s.Standing path names due' p₁.tree (rs.map (· ++ e.record?.toList)) := by
      cases hst with
      | steady hst => exact hst.step hc hj he (hnames e List.mem_cons_self) hne hfollow
      | due hst => exact hst.step hc hj he (hnames e List.mem_cons_self) hne hfollow
    obtain ⟨due', hfollow', hst'⟩ := hstep
    rw [ih (fun e he => hnames e (List.mem_cons_of_mem _ he))
      (fun r f hm => hall r f (List.mem_cons_of_mem _ hm)) hfollow' hst']
    cases rs with
    | error f => rfl
    | ok old =>
      cases hr : e.record? with
      | none => simp [Except.map, hr]
      | some r => simp [Except.map, hr]

/-! ## Requests -/

/-- Every event of a course has happened. -/
theorem Course.exists_happens (h : s.Course es p p') {e : Event} (he : e ∈ es) :
    ∃ p₁ p₂, s.Happens e p₁ p₂ := by
  induction h with
  | nil => cases he
  | cons hfirst _ ih =>
    rcases List.mem_cons.1 he with rfl | he
    · exact ⟨_, _, hfirst⟩
    · exact ih he

/-- Nothing is written to a journal whose path is refused, and nothing is read of it. -/
theorem Course.records_of_refused {f : Fault} (hc : checkPath path = .error f)
    (hj : s.journal = some path) (h : s.Course es p p') :
    es.filterMap Event.record? = [] ∧ records p'.tree path = records p.tree path := by
  constructor
  · refine List.filterMap_eq_nil_iff.2 fun e he => ?_
    obtain ⟨p₁, p₂, hhappens⟩ := h.exists_happens he
    cases hhappens with
    | recorded hj' happend =>
      rw [hj] at hj'
      cases hj'
      obtain ⟨place, before, ho, -⟩ := append_eq_ok happend
      rw [(openFile_ok ho).1.1] at hc
      cases hc
    | removed | missed | written | unwritten | cleared | unrecorded | skipped | refused => rfl
  · unfold records
    rw [readText_congr ((resolve_of_refused hc).trans (resolve_of_refused hc).symm)]

/-- Where no event failed, or just the writing of a document, every record was written. -/
theorem not_unrecorded {f : Option Failure} (hf : es.filterMap Event.failure? = f.toList)
    (h : f = none ∨ ∃ inputs output g, .unwritten inputs output g ∈ es) (r : Record)
    (g : Failure) : .unrecorded r g ∉ es := by
  intro hmem
  rcases h with rfl | ⟨inputs, output, g', hunwritten⟩
  · have hin : g ∈ es.filterMap Event.failure? := List.mem_filterMap.2 ⟨_, hmem, rfl⟩
    rw [hf] at hin
    cases hin
  · -- there is one failure only, and it is that of the document
    obtain ⟨front, back, rfl⟩ := List.append_of_mem hunwritten
    have hmid : (.unwritten inputs output g' :: back).filterMap Event.failure? =
        g' :: back.filterMap Event.failure? := rfl
    have hone : (front ++ back).filterMap Event.failure? = [] := by
      have hlen := congrArg List.length hf
      have hle : f.toList.length ≤ 1 := by cases f <;> simp
      rw [List.filterMap_append, hmid, List.length_append, List.length_cons] at hlen
      rw [← List.length_eq_zero_iff, List.filterMap_append, List.length_append]
      omega
    have hother : Event.unrecorded r g ∈ front ++ back := by
      rcases List.mem_append.1 hmem with hm | hm
      · exact List.mem_append_left _ hm
      · rcases List.mem_cons.1 hm with he | hm
        · cases he
        · exact List.mem_append_right _ hm
    have hin : g ∈ (front ++ back).filterMap Event.failure? := List.mem_filterMap.2 ⟨_, hother, rfl⟩
    rw [hone] at hin
    cases hin

/-- **The journal says what was done.** Of a request that ends well, or fails since a document
cannot be written, the journal says one record for each action that changed files, in their order,
behind the records of before; and the files that these records say were removed are those that were
deleted, in their order. The files of the request have to be off the way to the journal. -/
theorem records_serve (live : s.trial = false) (hj : s.journal = some path) {request : Request}
    (hst : s.Steady path (requestNames request) p.tree) :
    ∃ es, s.Course es p ((s.serve request).perform p).2 ∧
      es.filterMap Event.failure? = (failure? ((s.serve request).perform p).1).toList ∧
      (((∃ as, ((s.serve request).perform p).1 = .ok as) ∨
          ∃ inputs output f, .unwritten inputs output f ∈ es) →
        records ((s.serve request).perform p).2.tree path =
          (records p.tree path).map (· ++ es.filterMap Event.record?) ∧
        s.Logs es (s.done request p)) ∧
      ∀ as, ((s.serve request).perform p).1 = .ok as → s.done request p = as := by
  obtain ⟨es, haccount⟩ := exists_account_serve live request p
  refine ⟨es, haccount.course, haccount.failures, fun hresult => ?_, fun as has => ?_⟩
  · have hall : ∀ r f, .unrecorded r f ∉ es := by
      refine not_unrecorded haccount.failures (hresult.imp_left ?_)
      rintro ⟨as, has⟩
      rw [has]
      rfl
    have hkept : s.journal ≠ none := by simp [hj]
    refine ⟨?_, haccount.logs hkept hall⟩
    cases hc : checkPath path with
    | error f =>
      obtain ⟨hnone, hsame⟩ := haccount.course.records_of_refused hc hj
      rw [hnone, hsame, map_append_nil]
    | ok _ =>
      exact haccount.course.journal_grows hc hj haccount.names hall (haccount.follow hkept)
        (.steady hst)
  · exact done_of_ok (Prod.ext has rfl)

/-- Names of files, and of free places elsewhere, are off the way to a journal that is to be made.
-/
theorem steady_of_vacant {place : Location}
    (hv : (t.withParents path).resolve .followed path = .ok (.vacant place))
    (h : ∀ name ∈ names,
      (∃ loc, (t.withParents path).resolve .kept (s.pathOf name) = .ok (.vacant loc) ∧
        loc ≠ place) ∨
      ∃ loc bytes, (t.withParents path).resolve .kept (s.pathOf name) =
        .ok (.entry loc (.file bytes))) : s.Steady path names t := by
  have hmissing : Ready t path := by
    obtain ⟨hm, hg⟩ := meets_of_vacant hv
    exact Or.inl (hm.has_eq_false hg)
  refine ⟨⟨?_, ?_⟩, hmissing⟩
  · rintro name hn own ⟨x, hx, -⟩ rest hm
    rcases h name hn with ⟨loc, hloc, -⟩ | ⟨loc, bytes, hloc⟩
    · rw [hloc] at hx
      cases hx
    · rw [hloc] at hx
      cases hx
      rw [hm.resolve_file (meets_of_entry hloc (by simp)).2] at hv
      split at hv <;> cases hv
  · intro name hn new hnew hm
    rcases h name hn with ⟨loc, hloc, hne⟩ | ⟨loc, bytes, hloc⟩
    · obtain ⟨hmeets, hg⟩ := meets_of_vacant hloc
      rw [hmeets.followed.resolve_vacant hg] at hnew
      cases hnew
      rw [hm.resolve_vacant hg] at hv
      cases hv
      exact hne rfl
    · obtain ⟨hmeets, hg⟩ := meets_of_entry hloc (by simp)
      rw [hmeets.followed.resolve_file hg, if_pos rfl] at hnew
      cases hnew

/-! Two documents are folded, and the journal is to stand in a directory that is not there yet. -/

/-- Two documents in an inbox. -/
def twoDocuments : Tree :=
  ⟨[(["in"], .dir), (["in", "a.md"], .file [0x78, 0x0A]), (["in", "b.md"], .file [0x79, 0x0A])]⟩

/-- A live session with a journal at this path. -/
def keeping (path : String) : Session := ⟨"in", .ofRatio 40 100, false, some path, "now"⟩

/-- The two are to become one. -/
def foldTwo : Request := .fold ["a.md", "b.md"] (some "c.md")

theorem records_serve_foldTwo :
    (keeping "in/log/journal").Steady "in/log/journal" (requestNames foldTwo) twoDocuments ∧
    ∃ es, (keeping "in/log/journal").Course es (.start twoDocuments)
        (((keeping "in/log/journal").serve foldTwo).perform (.start twoDocuments)).2 ∧
      records (((keeping "in/log/journal").serve foldTwo).perform (.start twoDocuments)).2.tree
          "in/log/journal" =
        (records twoDocuments "in/log/journal").map (· ++ es.filterMap Event.record?) ∧
      (keeping "in/log/journal").Logs es [.fold ["a.md", "b.md"] "c.md"] := by
  have hmade : (twoDocuments.withParents "in/log/journal").resolve .followed "in/log/journal" =
      .ok (.vacant ["in", "log", "journal"]) := by decide +kernel
  have hfree : (twoDocuments.withParents "in/log/journal").resolve .kept "in/c.md" =
      .ok (.vacant ["in", "c.md"]) := by decide +kernel
  have hfiles : ∀ n ∈ [("a.md", 0x78), ("b.md", 0x79)],
      (twoDocuments.withParents "in/log/journal").resolve .kept ("in/" ++ n.1) =
        .ok (.entry ["in", n.1] (.file [n.2, 0x0A])) := by decide +kernel
  have hst : (keeping "in/log/journal").Steady "in/log/journal" (requestNames foldTwo)
      twoDocuments := by
    refine steady_of_vacant hmade fun name hn => ?_
    rcases List.mem_cons.1 hn with rfl | hn
    · exact Or.inl ⟨_, hfree, by decide⟩
    · rcases List.mem_cons.1 hn with rfl | hn
      · exact Or.inr ⟨_, _, hfiles ("a.md", 0x78) (by simp)⟩
      · obtain rfl := List.mem_singleton.1 hn
        exact Or.inr ⟨_, _, hfiles ("b.md", 0x79) (by simp)⟩
  have hok : (((keeping "in/log/journal").serve foldTwo).perform (.start twoDocuments)).1 =
      .ok [.fold ["a.md", "b.md"] "c.md"] := by decide +kernel
  obtain ⟨es, hcourse, -, hsays, hdone⟩ :=
    records_serve (p := .start twoDocuments) rfl rfl hst
  obtain ⟨hrecords, hlogs⟩ := hsays (Or.inl ⟨_, hok⟩)
  rw [hdone _ hok] at hlogs
  exact ⟨hst, es, hcourse, hrecords, hlogs⟩

/-! Copies that lead elsewhere than to the journal can be on the way to it all the same, and a
journal that is missing can be there once directories are made. -/

/-- The record of another session. -/
def older : Record := ⟨"t", .merged, "o", []⟩

/-- A journal in a directory to which a link leads. -/
def journalBehindLink : Tree :=
  ⟨[(["in"], .dir), (["in", "a.md"], .file [0x78, 0x0A]), (["in", "d"], .dir),
    (["in", "d", "h"], .file (lineBytes older)), (["in", "l"], .link "d")]⟩

/-- A journal beside two equal documents. -/
def journalBeside : Tree :=
  ⟨[(["in"], .dir), (["in", "a.md"], .file [0x78, 0x0A]), (["in", "x"], .file [0x78, 0x0A]),
    (["in", "h"], .file (lineBytes older))]⟩

/-- A live session with a journal at this path removes a copy of `a.md`. -/
def removeCopy (path copy : String) (t : Tree) : Except Failure (List Action) × Progress :=
  ((keeping path).serve (.copies [⟨"0", ["a.md", copy], 2⟩])).perform (.start t)

/-- The journal has these records, and no name leads to it. A copy is removed and recorded, but its
record does not stand behind those of before. -/
def LosesPlace (t : Tree) (path copy : String) (before : List Record) : Prop :=
  records t path = .ok before ∧
  (∀ name ∈ ["a.md", copy], t.find ("in/" ++ name) ≠ t.find path) ∧
  (removeCopy path copy t).1 = .ok [.deduplicate "a.md" [copy]] ∧
  ∀ r, records (removeCopy path copy t).2.tree path ≠ .ok (before ++ [r])

/-- It is enough that there are more records, or fewer. -/
theorem losesPlace_of_length {copy : String} {before : List Record}
    (h : records t path = .ok before ∧
      (∀ name ∈ ["a.md", copy], t.find ("in/" ++ name) ≠ t.find path) ∧
      (removeCopy path copy t).1 = .ok [.deduplicate "a.md" [copy]] ∧
      (records (removeCopy path copy t).2.tree path).map List.length ≠ .ok (before.length + 1)) :
    LosesPlace t path copy before := by
  obtain ⟨hbefore, hapart, hok, hlength⟩ := h
  refine ⟨hbefore, hapart, hok, fun r hr => hlength ?_⟩
  rw [hr]
  simp [Except.map]

/-- So the record of a copy can be lost to the journal: where a link on the way was removed; where a
directory was made from which the path goes up to a journal; and where a file was removed that had
been in the way. -/
theorem not_records_serve_onWay :
    LosesPlace journalBehindLink "in/l/h" "l" [older] ∧
    LosesPlace journalBeside "in/new/../h" "x" [] ∧
    LosesPlace journalBeside "in/new/../x/../h" "x" [] :=
  ⟨losesPlace_of_length (by decide +kernel), losesPlace_of_length (by decide +kernel),
    losesPlace_of_length (by decide +kernel)⟩

end Session

end NearDup.Merge
