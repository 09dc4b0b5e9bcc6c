import NearDup.Proofs.Journal
import NearDup.Proofs.Merge.Copies

/-!
# A journal that stands aside

A session with a journal decides as one without, and leaves the same tree but for the journal, as
long as nothing that it reads, removes or writes leads to the journal or through it.

* `Session.JournalAside` — nothing leads to the journal
* `Session.Beside` — two trees that differ in the journal alone
* `Parallel` — steps that go on alike
* `Session.parallel_run` — a run with a journal and one without
-/

namespace NearDup.Merge

open NearDup.Tree Effect

/-! ## Steps that go on alike -/

section Parallel

variable {α β : Type} {R : Progress → Progress → Prop}

/-- Two steps give the same result, and leave related what was related. -/
def Parallel (R : Progress → Progress → Prop) (x y : Step α) : Prop :=
  ∀ p q, R p q → (x.perform p).1 = (y.perform q).1 ∧ R (x.perform p).2 (y.perform q).2

theorem parallel_pure (a : α) : Parallel R (pure a) (pure a) := fun _ _ h => ⟨rfl, h⟩

theorem Parallel.bind {x y : Step α} {f g : α → Step β} (hx : Parallel R x y)
    (hf : ∀ a, Parallel R (f a) (g a)) : Parallel R (x >>= f) (y >>= g) := by
  intro p q h
  obtain ⟨hresult, hnext⟩ := hx p q h
  rw [perform_bind, perform_bind]
  rcases hp : x.perform p with ⟨_ | a, p'⟩
  · rcases hq : y.perform q with ⟨_ | b, q'⟩
    · rw [hp, hq] at hresult hnext
      cases hresult
      exact ⟨rfl, hnext⟩
    · rw [hp, hq] at hresult
      cases hresult
  · rcases hq : y.perform q with ⟨_ | b, q'⟩
    · rw [hp, hq] at hresult
      cases hresult
    · rw [hp, hq] at hresult hnext
      cases hresult
      exact hf a p' q' hnext

theorem Parallel.map {x y : Step α} (f : α → β) (h : Parallel R x y) :
    Parallel R (f <$> x) (f <$> y) := by
  intro p q hpq
  obtain ⟨hresult, hnext⟩ := h p q hpq
  rw [perform_map, perform_map]
  exact ⟨congrArg (Except.map f) hresult, hnext⟩

theorem parallel_forEach {f g : α → Step (Option Action)} {xs : List α}
    (h : ∀ x ∈ xs, Parallel R (f x) (g x)) : Parallel R (forEach f xs) (forEach g xs) := by
  induction xs with
  | nil => exact parallel_pure []
  | cons x rest ih =>
    rw [List.forall_mem_cons] at h
    exact h.1.bind fun a => (ih h.2).bind fun as => parallel_pure _

end Parallel

namespace Session

variable {s : Session} {t u v : Tree} {loc : Location} {path name : String}
  {files inputs names : List String}

/-! ## The journal -/

/-- The same session without a journal. -/
def silent (s : Session) : Session := { s with journal := none }

/-- The journal stands here, or will when it is written. -/
def JournalAt (s : Session) (t : Tree) (loc : Location) : Prop :=
  ∃ path before, s.journal = some path ∧ t.openFile path = .ok (loc, before)

/-- The journal can be written, its directory is there, and none of these names leads to it or
through it. -/
structure JournalAside (s : Session) (t : Tree) (names : List String) : Prop where
  parent : ∀ path, s.journal = some path → ∀ dir, Path.parent? path = some dir →
    dir = "" ∨ t.isDir dir = true
  opens : ∀ path, s.journal = some path → ∃ loc before, t.openFile path = .ok (loc, before)
  avoid : ∀ name ∈ names, t.Avoids (s.JournalAt t) (s.pathOf name)

theorem JournalAt.halts (h : s.JournalAt t loc) :
    t.get? loc = none ∨ ∃ bytes, t.get? loc = some (.file bytes) := by
  obtain ⟨path, before, -, ho⟩ := h
  exact (openFile_ok ho).2.imp_right fun hg => ⟨before, hg⟩

/-- A path that leads elsewhere than the journal does not come by it. -/
theorem avoids_of_resolve {place : Place} (hp : t.resolve .followed path = .ok place)
    (h : ∀ loc, s.JournalAt t loc → place ≠ t.placeAt loc) : t.Avoids (s.JournalAt t) path := by
  intro loc hat rest hm
  have hne := h loc hat
  unfold placeAt at hne
  rcases hat.halts with hg | ⟨bytes, hg⟩
  · rw [hm.resolve_free hg] at hp
    split at hp
    · cases hp
      rw [hg] at hne
      exact hne rfl
    · cases hp
  · rw [hm.resolve_file hg] at hp
    split at hp
    · cases hp
      rw [hg] at hne
      exact hne rfl
    · cases hp

/-- Names that lead elsewhere than the journal leave it aside. -/
theorem journalAside_of_resolve {before : List UInt8} (hj : s.journal = some path)
    (hd : ∀ dir ∈ Path.parent? path, dir = "" ∨ t.isDir dir = true)
    (ho : t.openFile path = .ok (loc, before))
    (hn : ∀ name ∈ names, (t.resolve .followed (s.pathOf name)).toOption ≠ none ∧
      (t.resolve .followed (s.pathOf name)).toOption ≠ some (t.placeAt loc)) :
    s.JournalAside t names := by
  refine ⟨?_, ?_, fun name hname => ?_⟩
  · rintro path' hj' dir hdir
    rw [hj] at hj'
    cases hj'
    exact hd dir hdir
  · rintro path' hj'
    rw [hj] at hj'
    cases hj'
    exact ⟨loc, before, ho⟩
  · obtain ⟨hsome, hne⟩ := hn name hname
    cases hp : t.resolve .followed (s.pathOf name) with
    | error f =>
      rw [hp] at hsome
      exact absurd rfl hsome
    | ok place =>
      refine avoids_of_resolve hp ?_
      rintro loc' ⟨path', before', hj', ho'⟩ rfl
      rw [hj] at hj'
      cases hj'
      rw [ho] at ho'
      cases ho'
      rw [hp] at hne
      exact hne rfl

/-! ## Trees that differ in the journal -/

/-- Two trees in the course of runs that began with `t`, one with a journal and one without. They
differ in the journal alone, and since the beginning only own entries of these files and locations
where nothing was have changed. -/
structure Beside (s : Session) (files : List String) (t u v : Tree) : Prop where
  same : ∀ loc, ¬s.JournalAt t loc → u.get? loc = v.get? loc
  halts : ∀ loc, s.JournalAt t loc → v.get? loc = none ∨ ∃ bytes, v.get? loc = some (.file bytes)
  shorter : Shorter t u
  owned : ∀ loc, u.get? loc ≠ t.get? loc →
    s.JournalAt t loc ∨ t.get? loc = none ∨ ∃ name ∈ files, t.Owns (s.pathOf name) loc

theorem beside_start (s : Session) (files : List String) (t : Tree) : s.Beside files t t t :=
  ⟨fun _ _ => rfl, fun _ h => h.halts, .refl t, fun _ h => absurd rfl h⟩

/-- A path that does not come by the journal leads to the same place in both. -/
theorem Beside.resolve_eq (h : s.Beside files t u v) (hp : t.Avoids (s.JournalAt t) path)
    (e : Ending) : u.resolve e path = v.resolve e path := by
  rcases resolve_eq_or_meets u v e path with he | ⟨cut, rest, hd, hm⟩
  · exact he.symm
  · by_cases hat : s.JournalAt t cut
    · exact absurd (h.shorter.meets (hm u (.left u v)).followed) (hp cut hat rest)
    · exact absurd (h.same cut hat).symm hd

theorem Beside.find_eq (h : s.Beside files t u v) (hp : t.Avoids (s.JournalAt t) path) :
    u.find path = v.find path := by
  unfold find
  rw [h.resolve_eq hp]

theorem Beside.has_eq (h : s.Beside files t u v) (hp : t.Avoids (s.JournalAt t) path) :
    u.has path = v.has path := by
  unfold Tree.has
  rw [h.find_eq hp]

theorem Beside.read_eq (h : s.Beside files t u v) (hp : t.Avoids (s.JournalAt t) path) :
    u.read path = v.read path := by
  unfold Tree.read
  rw [h.find_eq hp]

theorem Beside.readInputs_eq (h : s.Beside files t u v)
    (hp : ∀ name ∈ inputs, t.Avoids (s.JournalAt t) (s.pathOf name)) :
    s.readInputs u inputs = s.readInputs v inputs := by
  induction inputs with
  | nil => simp only [readInputs, List.mapM_nil]
  | cons name rest ih =>
    rw [List.forall_mem_cons] at hp
    have hdoc : Inbox.readDocument u s.inbox (s.pathOf name) =
        Inbox.readDocument v s.inbox (s.pathOf name) := by
      rw [Inbox.readDocument, Inbox.readDocument, h.read_eq hp.1]
    rw [readInputs_cons, readInputs_cons, hdoc, ih hp.2]

theorem Beside.owns_iff (h : s.Beside files t u v) (hp : t.Avoids (s.JournalAt t) path) :
    u.Owns path loc ↔ v.Owns path loc := by
  unfold Owns
  rw [h.resolve_eq hp]

theorem Beside.halts_left (h : s.Beside files t u v) (hat : s.JournalAt t loc) :
    u.get? loc = none ∨ ∃ bytes, u.get? loc = some (.file bytes) := by
  rcases h.shorter loc with he | he
  · rw [he]
    exact hat.halts
  · exact he

/-- What is found elsewhere than at the journal is found in both. -/
theorem Beside.find_iff (h : s.Beside files t u v) (hat : ¬s.JournalAt t loc) {x : Entry} :
    u.find path = .ok (loc, x) ↔ v.find path = .ok (loc, x) := by
  have hdiffer : ∀ l, u.get? l ≠ v.get? l → s.JournalAt t l := by
    intro l hne
    by_cases hl : s.JournalAt t l
    · exact hl
    · exact absurd (h.same l hl) hne
  constructor
  · intro hf
    refine find_eq_of_elsewhere hf fun l hne => ?_
    have hl := hdiffer l hne.symm
    exact ⟨fun he => hat (he ▸ hl), h.halts_left hl⟩
  · intro hf
    refine find_eq_of_elsewhere hf fun l hne => ?_
    have hl := hdiffer l hne
    exact ⟨fun he => hat (he ▸ hl), h.halts l hl⟩

/-! ## What a session does to both -/

/-- What has changed at the own entry of a file was a free location or an own entry before. -/
theorem Beside.owned_of_owns (h : s.Beside files t u v) (hn : name ∈ files)
    (ho : u.Owns (s.pathOf name) loc) :
    s.JournalAt t loc ∨ t.get? loc = none ∨ ∃ name ∈ files, t.Owns (s.pathOf name) loc := by
  obtain ⟨x, hx, hd⟩ := ho
  rcases resolve_eq_or_meets t u .kept (s.pathOf name) with he | ⟨cut, rest, hne, hm⟩
  · exact Or.inr (Or.inr ⟨name, hn, x, he.symm.trans hx, hd⟩)
  · -- the path ends where the tree has changed, so this is a file made since the beginning
    have hnow := hm u (.right t u)
    rcases h.shorter cut with he | he | ⟨bytes, he⟩
    · exact absurd he hne
    · rw [hnow.resolve_free he] at hx
      split at hx <;> cases hx
    · rw [hnow.resolve_file he] at hx
      split at hx
      · cases hx
        exact h.owned _ hne
      · cases hx

/-- One file is removed in both, or in neither. -/
theorem Beside.removeFile (h : s.Beside files t u v) (hn : name ∈ files)
    (hp : t.Avoids (s.JournalAt t) (s.pathOf name)) :
    (s.removeFile name u).1 = (s.removeFile name v).1 ∧
      s.Beside files t (s.removeFile name u).2 (s.removeFile name v).2 := by
  rcases s.removeFile_cases name u with ⟨own, hhas, ho, he⟩ | ⟨he, hnot⟩
  · have hhas' := (h.has_eq hp).symm.trans hhas
    have ho' := (h.owns_iff hp).1 ho
    rcases s.removeFile_cases name v with ⟨own', -, ho'', he'⟩ | ⟨-, hnot⟩
    · obtain rfl := ho''.unique ho'
      have hu : ∀ l, l ≠ own' → (u.erase own').get? l = u.get? l := fun l hl => get?_erase_ne u hl
      have hv : ∀ l, l ≠ own' → (v.erase own').get? l = v.get? l := fun l hl => get?_erase_ne v hl
      rw [he, he']
      refine ⟨rfl, fun l hat => ?_, fun l hat => ?_, ?_, fun l hne => ?_⟩
      · by_cases hl : l = own'
        · subst hl
          exact (get?_erase_self u ho.isAbove).trans (get?_erase_self v ho.isAbove).symm
        · exact (hu l hl).trans ((h.same l hat).trans (hv l hl).symm)
      · by_cases hl : l = own'
        · subst hl
          exact Or.inl (get?_erase_self v ho.isAbove)
        · rw [show (true, v.erase own').2.get? l = v.get? l from hv l hl]
          exact h.halts l hat
      · exact h.shorter.trans (thinner_erase ho.isAbove).shorter
      · by_cases hl : l = own'
        · subst hl
          exact h.owned_of_owns hn ho
        · exact h.owned l fun heq => hne ((hu l hl).trans heq)
    · exact absurd ho' (hnot hhas' own)
  · rcases s.removeFile_cases name v with ⟨own', hhas', ho', -⟩ | ⟨he', -⟩
    · exact absurd ((h.owns_iff hp).2 ho') (hnot ((h.has_eq hp).trans hhas') own')
    · rw [he, he']
      exact ⟨rfl, h⟩

theorem Beside.removeFiles (h : s.Beside files t u v) (hn : names ⊆ files)
    (hp : ∀ name ∈ names, t.Avoids (s.JournalAt t) (s.pathOf name)) :
    (s.removeFiles names u).1 = (s.removeFiles names v).1 ∧
      s.Beside files t (s.removeFiles names u).2 (s.removeFiles names v).2 := by
  induction names generalizing u v with
  | nil => exact ⟨rfl, h⟩
  | cons name rest ih =>
    obtain ⟨hname, hrest⟩ := List.cons_subset.1 hn
    rw [List.forall_mem_cons] at hp
    obtain ⟨hgone, h'⟩ := h.removeFile hname hp.1
    obtain ⟨hremoved, h''⟩ := ih h' hrest hp.2
    simp only [Session.removeFiles]
    exact ⟨by rw [hgone, hremoved], h''⟩

/-- A new file is written in both, or in neither. -/
theorem Beside.write (h : s.Beside files t u v) (hp : t.Avoids (s.JournalAt t) path)
    (hfree : u.has path = false) (bytes : List UInt8) :
    (∃ f, u.write path bytes = .error f ∧ v.write path bytes = .error f) ∨
    ∃ u' v', u.write path bytes = .ok u' ∧ v.write path bytes = .ok v' ∧
      s.Beside files t u' v' := by
  have hopen : u.openFile path = v.openFile path := by
    unfold Tree.openFile
    rw [h.resolve_eq hp]
  unfold Tree.write
  rw [← hopen]
  cases ho : u.openFile path with
  | error f => exact Or.inl ⟨f, rfl, rfl⟩
  | ok r =>
    obtain ⟨new, before⟩ := r
    refine Or.inr ⟨_, _, rfl, rfl, ?_⟩
    obtain ⟨hm, hg | hg⟩ := openFile_ok ho
    · have hnew : ¬s.JournalAt t new :=
        fun hat => hp new hat [] (h.shorter.meets hm.followed)
      have ha := isAbove_of_get?_eq_none hg
      refine ⟨fun l hat => ?_, fun l hat => ?_, ?_, fun l hne => ?_⟩
      · by_cases hl : l = new
        · subst hl
          rw [get?_put_self u _ ha, get?_put_self v _ ha]
        · rw [get?_put_ne u _ hl, get?_put_ne v _ hl, h.same l hat]
      · have hl : l ≠ new := by
          rintro rfl
          exact hnew hat
        rw [get?_put_ne v _ hl]
        exact h.halts l hat
      · exact h.shorter.trans (shorter_put ha bytes)
      · by_cases hl : l = new
        · subst hl
          by_cases he : u.get? l = t.get? l
          · exact Or.inr (Or.inl (he.symm.trans hg))
          · exact h.owned l he
        · rw [get?_put_ne u _ hl] at hne
          exact h.owned l hne
    · rw [has_of_find (hm.find_file hg)] at hfree
      cases hfree

/-! ## The journal can always be written -/

/-- The journal stands where it stood, or would have stood. -/
theorem Beside.openFile (h : s.Beside files t u v) (hf : s.Files t files)
    (hp : ∀ name ∈ files, t.Avoids (s.JournalAt t) (s.pathOf name)) {before : List UInt8}
    (hj : s.journal = some path) (ho : t.openFile path = .ok (loc, before)) :
    ∃ before', u.openFile path = .ok (loc, before') := by
  obtain ⟨hm, hg⟩ := openFile_ok ho
  rcases resolve_eq_or_meets t u .opened path with he | ⟨cut, rest, hne, hmeets⟩
  · refine ⟨before, ?_⟩
    rw [openFile_eq_ok_iff, he]
    exact openFile_eq_ok_iff.1 ho
  · have hthen := hmeets t (.left t u)
    -- the walk ended where the tree has changed, since it would have failed otherwise
    have hend : (t.get? cut = none ∨ ∃ bytes, t.get? cut = some (.file bytes)) →
        rest = [] ∧ cut = loc := by
      rintro (hnone | ⟨bytes, hfile⟩)
      · rw [openFile_eq_ok_iff, hthen.resolve_free hnone] at ho
        split at ho
        · next hr =>
          simp only [Except.ok.injEq, reduceCtorEq, Place.vacant.injEq, false_or] at ho
          exact ⟨hr, ho.1⟩
        · simp at ho
      · rw [openFile_eq_ok_iff, hthen.resolve_file hfile] at ho
        split at ho
        · next hr =>
          simp only [Except.ok.injEq, Place.entry.injEq, reduceCtorEq, false_and, or_false] at ho
          exact ⟨hr, ho.1⟩
        · simp at ho
    have hcut : rest = [] ∧ cut = loc := by
      rcases h.owned cut hne with hat | hnone | ⟨name, hn, hown⟩
      · exact hend hat.halts
      · exact hend (Or.inl hnone)
      · -- the own entry of a file leads to the file, and that is not the journal
        exfalso
        obtain ⟨l, bytes, hfind⟩ := hf name hn
        have hplace : t.resolve .followed path = .ok (t.placeAt loc) :=
          hm.followed.resolve_end (not_link_of_free_or_file (hg.imp_right fun h => ⟨before, h⟩))
        obtain ⟨-, hl⟩ := hown.find_eq hfind hthen.followed hplace
        have hloc : loc = l := by
          unfold placeAt at hl
          split at hl <;> cases hl
          rfl
        subst hloc
        exact (hp name hn).not_of_file hfind ⟨path, before, hj, ho⟩
    obtain ⟨rfl, rfl⟩ := hcut
    have hnow := hmeets u (.right t u)
    rcases h.shorter cut with he | he | ⟨bytes, he⟩
    · exact absurd he hne
    · exact ⟨[], openFile_eq_ok_iff.2 (Or.inr ⟨hnow.resolve_vacant he, rfl⟩)⟩
    · exact ⟨bytes, openFile_eq_ok_iff.2 (Or.inl ((hnow.resolve_file he).trans (if_pos rfl)))⟩

/-- A directory that was there is there. -/
theorem Beside.isDir (h : s.Beside files t u v) (hf : s.Files t files)
    (hd : t.isDir path = true) : u.isDir path = true := by
  obtain ⟨l, hfind⟩ := isDir_iff.1 hd
  rcases find_eq_or_meets hfind u with hfind' | ⟨cut, rest, hg, hne, hm⟩
  · exact isDir_iff.2 ⟨l, hfind'⟩
  · exfalso
    have hthen := hm t (.left t u)
    rw [find_eq_ok_iff] at hfind
    rcases h.owned cut hne with hat | hnone | ⟨name, hn, hown⟩
    · rcases hat.halts with hnone | ⟨bytes, hfile⟩
      · exact hg hnone
      · rw [hthen.resolve_file hfile] at hfind
        split at hfind <;> cases hfind
    · exact hg hnone
    · obtain ⟨l', bytes, hname⟩ := hf name hn
      obtain ⟨-, hl⟩ := hown.find_eq hname hthen hfind
      cases hl

/-- Writing the journal changes the journal alone. -/
theorem Beside.put_journal (h : s.Beside files t u v) (hat : s.JournalAt t loc)
    (bytes : List UInt8) : s.Beside files t (u.put loc (.file bytes)) v := by
  have ha := isAbove_of_free_or_file (h.halts_left hat)
  refine ⟨fun l hl => ?_, h.halts, h.shorter.trans (shorter_put ha bytes), fun l hne => ?_⟩
  · have hne : l ≠ loc := by
      rintro rfl
      exact hl hat
    exact (get?_put_ne u _ hne).trans (h.same l hl)
  · by_cases hl : l = loc
    · subst hl
      exact Or.inl hat
    · rw [get?_put_ne u _ hl] at hne
      exact h.owned l hne

/-- Two progresses that differ in the journal alone. -/
structure Abreast (s : Session) (files : List String) (t : Tree) (p q : Progress) : Prop where
  consumed : p.consumed = q.consumed
  planned : p.planned = q.planned
  trees : s.Beside files t p.tree q.tree

/-! ## Sessions -/

variable {p q : Progress} {g : GroupEntry} {asked : Option String}

theorem useCopies_silent (names : List String) (p : Progress) :
    s.silent.useCopies names p = s.useCopies names p := by
  refine useCopies_congr ?_ ?_ names p
  · rfl
  · rfl

theorem readInputs_silent : s.silent.readInputs t inputs = s.readInputs t inputs := rfl

theorem removeFiles_silent (names : List String) (t : Tree) :
    s.silent.removeFiles names t = s.removeFiles names t := by
  refine removeFiles_congr ?_ names t
  rfl

/-- Copies are used up alike. -/
theorem Abreast.useCopies (live : s.trial = false) (h : s.Abreast files t p q)
    (hn : names ⊆ files) (hp : ∀ name ∈ names, t.Avoids (s.JournalAt t) (s.pathOf name)) :
    (s.useCopies names p).1 = (s.useCopies names q).1 ∧
      s.Abreast files t (s.useCopies names p).2 (s.useCopies names q).2 := by
  induction names generalizing p q with
  | nil => exact ⟨rfl, h⟩
  | cons name rest ih =>
    obtain ⟨hname, hrest⟩ := List.cons_subset.1 hn
    rw [List.forall_mem_cons] at hp
    have hone : (s.useCopy name p).1 = (s.useCopy name q).1 ∧
        s.Abreast files t (s.useCopy name p).2 (s.useCopy name q).2 := by
      unfold useCopy
      rw [h.consumed]
      split
      · exact ⟨rfl, h⟩
      · rw [if_neg (by simp [live]), if_neg (by simp [live])]
        obtain ⟨hgone, htrees⟩ := h.trees.removeFile hname hp.1
        exact ⟨hgone, rfl, h.planned, htrees⟩
    obtain ⟨hremoved, hall⟩ := ih hone.2 hrest hp.2
    simp only [Session.useCopies]
    exact ⟨by rw [hone.1, hremoved], hall⟩

/-- A record is written, or there is none to be written. -/
theorem parallel_record (live : s.trial = false) (ha : s.JournalAside t names)
    (hf : s.Files t files) (hs : files ⊆ names) (change : Change) (retained : String)
    (removed : List String) :
    Parallel (s.Abreast files t) (s.record change retained removed)
      (s.silent.record change retained removed) := by
  intro p q h
  rw [perform_record_of_none (s := s.silent) rfl]
  cases hj : s.journal with
  | none =>
    rw [perform_record_of_none hj]
    exact ⟨rfl, h⟩
  | some path =>
    obtain ⟨loc, before, ho⟩ := ha.opens path hj
    obtain ⟨before', ho'⟩ := h.trees.openFile hf (fun name hn => ha.avoid name (hs hn)) hj ho
    have hd : ∀ dir, Path.parent? path = some dir → dir = "" ∨ p.tree.isDir dir = true :=
      fun dir hdir => (ha.parent path hj dir hdir).imp_right (h.trees.isDir hf)
    simp only [record, live, hj, Step.onTree, perform_within, Journal.perform_append _ hd ho']
    exact ⟨trivial, h.consumed, h.planned, h.trees.put_journal ⟨path, before, hj, ho⟩ _⟩

/-- The copies of a group are removed alike. -/
theorem parallel_removeCopiesOf (live : s.trial = false) (ha : s.JournalAside t names)
    (hf : s.Files t files) (hs : files ⊆ names) (hg : g.files.tail ⊆ files) :
    Parallel (s.Abreast files t) (s.removeCopiesOf g) (s.silent.removeCopiesOf g) := by
  unfold removeCopiesOf
  split
  · exact parallel_pure none
  · next kept copies hfiles =>
    rw [hfiles, List.tail_cons] at hg
    refine Parallel.bind (fun p q h => ?_) fun removed => ?_
    · rw [perform_modifyGet, perform_modifyGet, useCopies_silent]
      obtain ⟨hgone, hnext⟩ := h.useCopies live hg fun name hn => ha.avoid name (hs (hg hn))
      exact ⟨by rw [hgone], hnext⟩
    · split
      · exact parallel_pure none
      · exact (parallel_record live ha hf hs _ _ _).bind fun _ => parallel_pure _

/-- What is done for a request is done alike. -/
theorem parallel_carryOut (live : s.trial = false) (ha : s.JournalAside t names)
    (hf : s.Files t files) (hs : files ⊆ names) (hi : inputs ⊆ files) {output : String}
    (ho : t.Avoids (s.JournalAt t) (s.pathOf output)) {change : Change} {docs : List Document}
    (h : s.Abreast files t p q) (hfree : p.tree.has (s.pathOf output) = false) :
    ((s.carryOut change inputs output docs).perform p).1 =
        ((s.silent.carryOut change inputs output docs).perform q).1 ∧
      s.Abreast files t ((s.carryOut change inputs output docs).perform p).2
        ((s.silent.carryOut change inputs output docs).perform q).2 := by
  rw [perform_carryOut_of_live live, perform_carryOut_of_live (s := s.silent) live]
  rcases h.trees.write ho hfree (Text.Utf8.encode (mergedText inputs docs)) with
    ⟨f, hu, hv⟩ | ⟨u, v, hu, hv, huv⟩
  · rw [hu, show q.tree.write (s.silent.pathOf output) _ = _ from hv]
    exact ⟨rfl, h⟩
  · rw [hu, show q.tree.write (s.silent.pathOf output) _ = _ from hv]
    obtain ⟨hgone, htrees⟩ := huv.removeFiles hi fun name hn => ha.avoid name (hs (hi hn))
    simp only [removeFiles_silent, ← hgone]
    obtain ⟨hresult, hnext⟩ := parallel_record live ha hf hs change output
      (s.removeFiles inputs u).1 { p with tree := (s.removeFiles inputs u).2 }
      { q with tree := (s.removeFiles inputs v).2 } ⟨h.consumed, h.planned, htrees⟩
    exact ⟨by rw [hresult], hnext⟩

/-- A request is answered alike. -/
theorem parallel_combine (live : s.trial = false) (ha : s.JournalAside t names)
    (hf : s.Files t files) (hs : files ⊆ names) (hi : inputs ⊆ files)
    (ho : outputFor inputs asked ∈ names) (change : Change) :
    Parallel (s.Abreast files t) (s.combine change inputs asked)
      (s.silent.combine change inputs asked) := by
  intro p q h
  have hoff := ha.avoid _ ho
  have hconsumed : consumedInput? q inputs = consumedInput? p inputs := by
    unfold consumedInput?
    rw [h.consumed]
  have htaken : s.silent.isTaken q (outputFor inputs asked) =
      s.isTaken p (outputFor inputs asked) := by
    unfold isTaken
    rw [h.planned, h.trees.has_eq hoff]
    rfl
  have hread : s.silent.readInputs q.tree inputs = s.readInputs p.tree inputs :=
    readInputs_silent.trans (h.trees.readInputs_eq fun name hn => ha.avoid name (hs (hi hn))).symm
  rcases s.combine_cases change inputs asked p with
    ⟨name, hc, he⟩ | ⟨hc, ht, he⟩ | ⟨hc, ht, name, f, hr, he⟩ | ⟨hc, ht, docs, hr, he⟩
  · rw [he, perform_combine_of_consumed (hconsumed.trans hc)]
    exact ⟨rfl, h⟩
  · rw [he, perform_combine_of_taken (hconsumed.trans hc) (htaken.trans ht)]
    exact ⟨rfl, h⟩
  · rw [he, perform_combine_of_unreadable (hconsumed.trans hc) (htaken.trans ht) (hread.trans hr)]
    exact ⟨rfl, h⟩
  · rw [he, perform_combine_of_read (hconsumed.trans hc) (htaken.trans ht) (hread.trans hr)]
    have hclaimed : s.Abreast files t (claimed p inputs (outputFor inputs asked))
        (claimed q inputs (outputFor inputs asked)) := by
      refine ⟨?_, ?_, h.trees⟩
      · simp only [claimed, h.consumed]
      · simp only [claimed, h.planned]
    refine parallel_carryOut live ha hf hs hi hoff hclaimed ?_
    simp only [isTaken, Bool.or_eq_false_iff] at ht
    exact ht.2

/-! ## Trials -/

/-- A trial answers a request in the same way whatever journal it would keep. -/
theorem perform_combine_silent (h : s.trial = true) (change : Change) (inputs : List String)
    (asked : Option String) (p : Progress) :
    (s.silent.combine change inputs asked).perform p =
      (s.combine change inputs asked).perform p := by
  rcases s.combine_cases change inputs asked p with
    ⟨name, hc, he⟩ | ⟨hc, ht, he⟩ | ⟨hc, ht, name, f, hr, he⟩ | ⟨hc, ht, docs, hr, he⟩
  · rw [he, perform_combine_of_consumed hc]
  · rw [he, perform_combine_of_taken (s := s.silent) hc ht]
  · rw [he, perform_combine_of_unreadable (s := s.silent) hc ht (readInputs_silent.trans hr)]
  · rw [he, perform_combine_of_read (s := s.silent) hc ht (readInputs_silent.trans hr),
      perform_carryOut_of_trial h, perform_carryOut_of_trial (s := s.silent) h]

/-- A pair is merged alike where the request for it is answered alike. -/
theorem parallel_mergePair {R : Progress → Progress → Prop} {s' : Session} {pair : PairEntry}
    (hle : s'.leastOverlap = s.leastOverlap)
    (h : Parallel R (s.combine .merged [pair.file1, pair.file2] none)
      (s'.combine .merged [pair.file1, pair.file2] none)) :
    Parallel R (s.mergePair pair) (s'.mergePair pair) := by
  unfold mergePair
  rw [hle]
  split
  · exact h.map some
  · exact parallel_pure none

theorem perform_mergePairs_silent (h : s.trial = true) (pairs : List PairEntry) (p : Progress) :
    (s.silent.mergePairs pairs).perform p = (s.mergePairs pairs).perform p := by
  have hpairs : Parallel (· = ·) (s.silent.mergePairs pairs) (s.mergePairs pairs) := by
    refine parallel_forEach fun pair _ => parallel_mergePair rfl fun p q hpq => ?_
    rw [hpq, perform_combine_silent h]
    exact ⟨rfl, rfl⟩
  obtain ⟨hresult, hnext⟩ := hpairs p p rfl
  exact Prod.ext hresult hnext

/-- **A trial keeps no journal.** -/
theorem perform_run_silent {r : Report} (h : s.trial = true) (hd : p.tree.isDir s.inbox = true) :
    (s.silent.run r).perform p = (s.run r).perform p := by
  have hactions : ∀ groups p, s.silent.copyActions groups p = s.copyActions groups p := by
    intro groups
    induction groups with
    | nil => exact fun _ => rfl
    | cons g rest ih =>
      intro p
      simp only [copyActions, useCopies_silent, ih]
  rw [perform_run (Or.inl h) hd, perform_run (s := s.silent) (Or.inl h) hd]
  simp only [useCopies_silent, perform_mergePairs_silent h, hactions]

/-! ## Runs -/

/-- **A run with a journal goes on as one without**, if it removes only these files and no output
leads to the journal. -/
theorem parallel_run {r : Report} (live : s.trial = false) (ha : s.JournalAside t names)
    (hf : s.Files t files) (hs : files ⊆ names) (hd : t.isDir s.inbox = true)
    (hcopies : copiesOf r.exact ⊆ files)
    (hpairs : ∀ pair ∈ r.similar,
      [pair.file1, pair.file2] ⊆ files ∧ outputName pair.file1 ∈ names) :
    ((s.run r).perform (.start t)).1 = ((s.silent.run r).perform (.start t)).1 ∧
      s.Abreast files t ((s.run r).perform (.start t)).2
        ((s.silent.run r).perform (.start t)).2 := by
  have hgroups : Parallel (s.Abreast files t) (s.removeCopies r.exact)
      (s.silent.removeCopies r.exact) := by
    refine parallel_forEach fun g hg => parallel_removeCopiesOf live ha hf hs fun name hn => ?_
    exact hcopies (List.mem_flatMap.2 ⟨g, hg, hn⟩)
  have hmerges : Parallel (s.Abreast files t) (s.mergePairs r.similar)
      (s.silent.mergePairs r.similar) := by
    refine parallel_forEach fun pair hp => ?_
    obtain ⟨hfiles, hout⟩ := hpairs pair hp
    have hout' : outputFor [pair.file1, pair.file2] none ∈ names := hout
    exact parallel_mergePair rfl (parallel_combine live ha hf hs hfiles hout' .merged)
  rw [perform_run_of_isDir hd, perform_run_of_isDir (s := s.silent) (p := .start t) hd]
  exact (hgroups.bind fun copies => hmerges.bind fun merges => parallel_pure _)
    (.start t) (.start t) ⟨rfl, rfl, s.beside_start files t⟩

end Session

end NearDup.Merge
