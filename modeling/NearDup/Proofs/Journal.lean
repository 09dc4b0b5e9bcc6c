import NearDup.Journal
import NearDup.Proofs.Path
import NearDup.Proofs.Text.Lines
import NearDup.Proofs.Tree.Paths

/-!
# What a record changes

Writing a record makes the directories that are missing on the way to the journal, and then the
journal longer. Every other file stays as it is.

* `adds_ensureParent` — only directories above a path are made for it
* `perform_ensureParent_of_isDir` — nothing is made where the directory is there
* `Journal.get?_append` — a file is not changed, unless it is the journal
* `Journal.writes_append` — a record that is written changes the journal, makes directories above
  it, and nothing else
-/

namespace NearDup

open NearDup.Tree Effect

variable {t t' : Tree} {path : String} {dirs : List String} {loc : Location}

namespace Tree

/-! ## Directories -/

/-- Directories are added where nothing was, those with these paths, and nothing else is changed. -/
def Adds (dirs : List String) (t t' : Tree) : Prop :=
  ∀ loc, t'.get? loc = t.get? loc ∨
    t.get? loc = none ∧ t'.get? loc = some .dir ∧ ∃ dir ∈ dirs, t'.find dir = .ok (loc, .dir)

theorem Adds.refl (dirs : List String) (t : Tree) : Adds dirs t t := fun _ => Or.inl rfl

theorem Adds.mono {more : List String} (h : Adds dirs t t') (hs : dirs ⊆ more) :
    Adds more t t' := by
  intro loc
  rcases h loc with he | ⟨hg, hg', dir, hd, hf⟩
  · exact Or.inl he
  · exact Or.inr ⟨hg, hg', dir, hs hd, hf⟩

theorem Adds.get? {x : Entry} (h : Adds dirs t t') (hx : t.get? loc = some x) :
    t'.get? loc = some x := by
  rcases h loc with he | ⟨hg, -⟩
  · rw [he, hx]
  · rw [hx] at hg
    cases hg

/-- What is found is found beside new directories. -/
theorem Adds.find {x : Entry} (h : Adds dirs t t') (hf : t.find path = .ok (loc, x)) :
    t'.find path = .ok (loc, x) := by
  rcases find_eq_or_meets hf t' with hf' | ⟨cut, rest, hg, hne, -⟩
  · exact hf'
  · obtain ⟨y, hy⟩ := Option.ne_none_iff_exists'.1 hg
    exact absurd ((h.get? hy).trans hy.symm) hne

theorem Adds.trans {t₁ t₂ t₃ : Tree} (h₁ : Adds dirs t₁ t₂) (h₂ : Adds dirs t₂ t₃) :
    Adds dirs t₁ t₃ := by
  intro loc
  rcases h₂ loc with he | ⟨hg, hg', hdir⟩
  · rcases h₁ loc with he' | ⟨hg, hg', dir, hd, hf⟩
    · exact Or.inl (he.trans he')
    · exact Or.inr ⟨hg, he.trans hg', dir, hd, h₂.find hf⟩
  · rcases h₁ loc with he' | ⟨-, hg₁, -⟩
    · exact Or.inr ⟨he'.symm.trans hg, hg', hdir⟩
    · rw [hg₁] at hg
      cases hg

/-- A directory is made at a free location. -/
theorem exists_put_of_makeDir (hp : withoutSlashes path = path) (h : t.makeDir path = .ok t') :
    ∃ loc, t.resolve .kept path = .ok (.vacant loc) ∧ t' = t.put loc .dir := by
  unfold makeDir at h
  rw [hp] at h
  cases hc : checkPath path with
  | error f => simp [hc, bind, Except.bind] at h
  | ok _ =>
    cases hr : t.resolve .kept path with
    | error f => simp [hc, hr, bind, Except.bind] at h
    | ok place =>
      cases place with
      | entry loc x => simp [hc, hr, bind, Except.bind, throw, throwThe, MonadExceptOf.throw] at h
      | vacant loc =>
        simp only [hc, hr, bind, Except.bind, pure, Except.pure, Except.ok.injEq] at h
        exact ⟨loc, rfl, h.symm⟩

theorem adds_makeDir (hp : withoutSlashes path = path) (h : t.makeDir path = .ok t') :
    Adds [path] t t' := by
  obtain ⟨loc, hr, rfl⟩ := exists_put_of_makeDir hp h
  obtain ⟨hm, hg⟩ := meets_of_vacant hr
  intro l
  by_cases hl : l = loc
  · subst hl
    refine Or.inr ⟨hg, get?_put_self t _ (isAbove_of_get?_eq_none hg), path, by simp, ?_⟩
    exact find_put_dir hm.followed hg
  · exact Or.inl (get?_put_ne t .dir hl)

theorem adds_ensureDir (hp : withoutSlashes path = path) (h : t.ensureDir path = .ok t') :
    Adds [path] t t' := by
  unfold ensureDir at h
  split at h
  · next t₁ hm =>
    cases h
    exact adds_makeDir hp hm
  · split at h
    · cases h
      exact .refl _ t
    · cases h

theorem adds_changeAt {op : Tree → Except Fault Tree} (h : ∀ t', op t = .ok t' → Adds dirs t t') :
    Adds dirs t ((Effect.change op).perform t).2 := by
  rw [Effect.change, perform_ofPerform]
  cases ho : op t with
  | ok t' => exact h t' ho
  | error f => exact .refl dirs t

theorem adds_ensureDirs (hp : ∀ dir ∈ dirs, withoutSlashes dir = dir) (t : Tree) :
    Adds dirs t ((ensureDirs dirs).perform t).2 := by
  induction dirs generalizing t with
  | nil => exact .refl [] t
  | cons dir above ih =>
    have hone : ∀ t t', t.ensureDir dir = .ok t' → Adds (dir :: above) t t' := by
      intro t t' h
      exact (adds_ensureDir (hp dir List.mem_cons_self) h).mono (by simp)
    rw [ensureDirs]
    by_cases he : dir = ""
    · simp only [he, if_true]
      exact .refl _ t
    · simp only [he, if_false, perform_bind, perform_get]
      split
      · -- the directories above come first
        rw [if_pos rfl, perform_bind]
        have hup := (ih (fun d hd => hp d (List.mem_cons_of_mem _ hd)) t).mono
          (List.subset_cons_self dir above)
        rcases hr : (ensureDirs above).perform t with ⟨_ | u, t₁⟩
        · rw [hr] at hup
          exact hup
        · rw [hr] at hup
          exact hup.trans (adds_changeAt (hone t₁))
      · rw [if_neg Bool.false_ne_true]
        exact adds_changeAt (hone t)

/-- There are no slashes to be taken off the path of a directory above another. -/
theorem withoutSlashes_of_above {dir : String} (h : Path.Above dir path) :
    withoutSlashes dir = dir := by
  obtain ⟨below, hp⟩ : ∃ below, Path.parent? below = some dir := by
    cases h with
    | parent hp => exact ⟨_, hp⟩
    | further hp _ => exact ⟨_, hp⟩
  rcases Path.parent?_cases hp with rfl | rfl | ⟨front, last, hlast, hd⟩
  · rfl
  · rfl
  · have hkept : (dir.toList.reverse.dropWhile (· = '/')).reverse = dir.toList := by
      simp [hd, hlast]
    unfold withoutSlashes
    simp only [hkept]
    rw [if_neg (by simp [hd]), String.ofList_toList]

theorem above_of_mem_upward {dir mid : String} {n : Nat} (hm : Path.Above mid path)
    (hd : dir ∈ upward n mid) : Path.Above dir path := by
  induction n generalizing mid with
  | zero => simp [upward] at hd
  | succ n ih =>
    rw [upward] at hd
    rcases List.mem_cons.1 hd with rfl | hd
    · exact hm
    · split at hd
      · next up hup => exact ih (.further hup hm) hd
      · simp at hd

/-- Only directories above a path are made for it. -/
theorem adds_ensureParent (path : String) (t : Tree) : ∃ dirs,
    (∀ dir ∈ dirs, Path.Above dir path) ∧ Adds dirs t ((ensureParent path).perform t).2 := by
  unfold ensureParent
  split
  · exact ⟨[], by simp, .refl [] t⟩
  · next parent hp =>
    have habove : ∀ dir ∈ upward (parent.length + 1) parent, Path.Above dir path := by
      intro dir hd
      exact above_of_mem_upward (.parent hp) hd
    refine ⟨_, habove, ?_⟩
    have h := adds_ensureDirs (fun dir hd => withoutSlashes_of_above (habove dir hd)) t
    rw [mapError, perform_ofPerform, ensureDirAll]
    rcases hr : (ensureDirs (upward (parent.length + 1) parent)).perform t with ⟨_ | u, t₁⟩
    · rw [hr] at h
      exact h
    · rw [hr] at h
      exact h

/-! ## Directories that are there -/

theorem checkPath_eq_ok_iff : checkPath path = .ok () ↔
    '\x00' ∉ path.toList ∧ path ≠ "" ∧ ¬pathLimit < Text.Utf8.size path := by
  unfold checkPath
  by_cases h₁ : '\x00' ∈ path.toList
  · simp [h₁, bind, Except.bind, throw, throwThe, MonadExceptOf.throw]
  · by_cases h₂ : path = ""
    · simp [h₂, bind, Except.bind, throw, throwThe, MonadExceptOf.throw]
    · by_cases h₃ : pathLimit < Text.Utf8.size path
      · simp [h₁, h₂, h₃, throw, throwThe, MonadExceptOf.throw]
      · simp [h₁, h₂, h₃, pure, Except.pure]

/-- The slashes at the end of a path begin with a slash, and something stands before them. -/
theorem withoutSlashes_cases (path : String) :
    withoutSlashes path = path ∨ withoutSlashes path ≠ "" ∧
      ∃ rest, path.toList = (withoutSlashes path).toList ++ '/' :: rest := by
  have hsplit : path.toList =
      path.toList.rdropWhile (· = '/') ++ path.toList.rtakeWhile (· = '/') :=
    List.rdropWhile_append_rtakeWhile.symm
  have hkept : withoutSlashes path = if path.toList.rdropWhile (· = '/') = [] then path
    else String.ofList (path.toList.rdropWhile (· = '/')) := rfl
  by_cases hk : path.toList.rdropWhile (· = '/') = []
  · exact Or.inl (by rw [hkept, if_pos hk])
  · rw [hkept, if_neg hk, String.toList_ofList]
    cases hr : path.toList.rtakeWhile (· = '/') with
    | nil =>
      rw [hr, List.append_nil] at hsplit
      exact Or.inl (by rw [← hsplit, String.ofList_toList])
    | cons c rest =>
      have hc : c = '/' := by
        have hmem : c ∈ path.toList.rtakeWhile (· = '/') := by simp [hr]
        simpa using List.mem_rtakeWhile_imp hmem
      rw [hr, hc] at hsplit
      refine Or.inr ⟨?_, rest, hsplit⟩
      intro he
      exact hk (by simpa using congrArg String.toList he)

section

variable {front : String} {rest : List Char}

/-- What stands before a slash is a path when the whole is one. -/
theorem checkPath_front (hs : path.toList = front.toList ++ '/' :: rest) (hne : front ≠ "")
    (hc : checkPath path = .ok ()) : checkPath front = .ok () := by
  obtain ⟨h₁, -, h₃⟩ := checkPath_eq_ok_iff.1 hc
  refine checkPath_eq_ok_iff.2 ⟨?_, hne, ?_⟩
  · intro hm
    rw [hs] at h₁
    exact h₁ (List.mem_append_left _ hm)
  · intro hl
    unfold Text.Utf8.size Text.Utf8.encode Text.Utf8.encodeChars at hl h₃
    rw [hs, List.flatMap_append, List.length_append] at h₃
    omega

/-- A path and what stands before a slash of it are walked from one place. -/
theorem origin_front (hs : path.toList = front.toList ++ '/' :: rest) (hne : front ≠ "")
    (here : Location) : origin here path = origin here front := by
  have hnil : front.toList ≠ [] := by simpa using hne
  unfold origin
  rw [hs, List.head?_append_of_ne_nil _ hnil]

/-- A path leads on from what stands before a slash of it. -/
theorem pathNames_front (hs : path.toList = front.toList ++ '/' :: rest) :
    pathNames path = pathNames front ++ (Text.pieces '/' rest).map String.ofList := by
  rw [pathNames, hs, Text.pieces_append_separator, List.map_append]
  rfl

end

/-- Where a directory is, there is something at the path without the slashes at its end. -/
theorem resolve_withoutSlashes_of_isDir (h : t.isDir path = true) :
    ∃ loc x, t.resolve .kept (withoutSlashes path) = .ok (.entry loc x) := by
  obtain ⟨loc, hf⟩ := isDir_iff.1 h
  rw [find_eq_ok_iff] at hf
  cases hc : checkPath path with
  | error f =>
    rw [resolve_of_refused hc] at hf
    cases hf
  | ok _ =>
    rw [resolve_of_checkPath hc] at hf
    rcases withoutSlashes_cases path with he | ⟨hne, rest, hs⟩
    · rw [he, resolve_of_checkPath hc]
      rw [← List.append_nil (pathNames path)] at hf
      exact walk_kept_of_dir hf
    · rw [pathNames_front hs, origin_front hs hne] at hf
      rw [resolve_of_checkPath (checkPath_front hs hne hc)]
      exact walk_kept_of_dir hf

/-- A directory that is there is not made. -/
theorem makeDir_of_isDir (h : t.isDir path = true) :
    t.makeDir path = .error .alreadyThere := by
  obtain ⟨loc, hf⟩ := isDir_iff.1 h
  obtain ⟨loc', x, hr⟩ := resolve_withoutSlashes_of_isDir h
  cases hc : checkPath path with
  | error f =>
    rw [find_eq_ok_iff, resolve_of_refused hc] at hf
    cases hf
  | ok _ => simp [makeDir, hc, hr, bind, Except.bind, throw, throwThe, MonadExceptOf.throw]

/-- Nothing is made for a path whose directory is there. -/
theorem perform_ensureParent_of_isDir
    (h : ∀ dir, Path.parent? path = some dir → dir = "" ∨ t.isDir dir = true) :
    (ensureParent path).perform t = (.ok (), t) := by
  unfold ensureParent
  split
  · rfl
  · next dir hp =>
    rw [mapError, perform_ofPerform, ensureDirAll, upward, ensureDirs]
    by_cases he : dir = ""
    · simp [he]
    · have hd : t.isDir dir = true := (h dir hp).resolve_left he
      simp [he, perform_bind, makeDir_of_isDir hd, change, ensureDir, hd]

/-! ## The journal -/

/-- Lengthening a file changes that file alone, and it is found at the path. -/
theorem get?_append {bytes : List UInt8} (h : t.append path bytes = .ok t') (loc : Location) :
    (∃ x, t'.find path = .ok (loc, x)) ∨ t'.get? loc = t.get? loc := by
  unfold append at h
  cases ho : t.openFile path with
  | error f => simp [ho, bind, Except.bind] at h
  | ok r =>
    obtain ⟨l, before⟩ := r
    simp only [ho, bind, Except.bind, pure, Except.pure, Except.ok.injEq] at h
    subst h
    obtain ⟨hm, hg⟩ := openFile_ok ho
    by_cases hl : loc = l
    · subst hl
      exact Or.inl ⟨_, find_put_self hm.followed (hg.imp_right fun h => ⟨before, h⟩) _⟩
    · exact Or.inr (get?_put_ne t _ hl)

/-- The tree once the directories above a path are made, as far as they can be. -/
def withParents (path : String) (t : Tree) : Tree := ((ensureParent path).perform t).2

end Tree

/-- The line of a record with its end. -/
def Journal.lineBytes (r : Record) : List UInt8 := Text.Utf8.encode (r.line ++ "\n")

/-- A record is written where a file can be opened once the directories are made. -/
theorem Journal.append_eq_ok {r : Record} (h : (append path r).perform t = (.ok (), t')) :
    ∃ loc before, (t.withParents path).openFile path = .ok (loc, before) ∧
      t' = (t.withParents path).put loc (.file (before ++ lineBytes r)) := by
  obtain ⟨_, t₁, hp, h⟩ := perform_bind_eq_ok.1 h
  have hparents : t.withParents path = t₁ := by rw [withParents, hp]
  rw [hparents]
  simp only [changeAt, change, perform_ofPerform, withPath, Tree.append] at h
  cases ho : t₁.openFile path with
  | error f => simp [ho, bind, Except.bind, Except.mapError] at h
  | ok opened =>
    obtain ⟨loc, before⟩ := opened
    simp only [ho, bind, Except.bind, pure, Except.pure, Except.mapError, Prod.mk.injEq,
      true_and] at h
    exact ⟨loc, before, rfl, h.symm⟩

/-- A record is written at the end of a journal whose directory is there. -/
theorem Journal.perform_append {before : List UInt8} (r : Record)
    (hd : ∀ dir, Path.parent? path = some dir → dir = "" ∨ t.isDir dir = true)
    (ho : t.openFile path = .ok (loc, before)) :
    (append path r).perform t =
      (.ok (), t.put loc (.file (before ++ Text.Utf8.encode (r.line ++ "\n")))) := by
  rw [append, perform_bind, perform_ensureParent_of_isDir hd]
  simp [changeAt, change, Tree.append, ho, withPath, bind, Except.bind, pure, Except.pure,
    Except.mapError]

/-- **A file is not changed by a record, unless it is the journal.** -/
theorem Journal.get?_append {x : Entry} (r : Record) (hx : t.get? loc = some x) :
    (∃ y, ((append path r).perform t).2.find path = .ok (loc, y)) ∨
      ((append path r).perform t).2.get? loc = some x := by
  obtain ⟨dirs, -, hadds⟩ := adds_ensureParent path t
  rw [append, perform_bind]
  rcases hp : (ensureParent path).perform t with ⟨_ | u, t₁⟩
  · rw [hp] at hadds
    exact Or.inr (hadds.get? hx)
  · rw [hp] at hadds
    simp only [changeAt, change, perform_ofPerform]
    cases ha : t₁.append path (Text.Utf8.encode (r.line ++ "\n")) with
    | error f => exact Or.inr (hadds.get? hx)
    | ok t₂ =>
      rcases Tree.get?_append ha loc with h | h
      · exact Or.inl h
      · exact Or.inr (h.trans (hadds.get? hx))

/-- A record is written at the end of the journal, a file at `place` that held `before`. The journal
is made if nothing was there, and so are directories above it. Nothing else changes. -/
structure Journal.Writes (path : String) (r : Record) (place : Location) (before : List UInt8)
    (t t' : Tree) : Prop where
  old : t.get? place = some (.file before) ∨ t.get? place = none ∧ before = []
  new : t'.find path = .ok (place, .file (before ++ Text.Utf8.encode (r.line ++ "\n")))
  kept : ∀ loc, loc ≠ place → t'.get? loc = t.get? loc ∨
    t.get? loc = none ∧ t'.get? loc = some .dir ∧
      ∃ dir, Path.Above dir path ∧ t'.find dir = .ok (loc, .dir)

/-- **Writing a record changes the journal, makes directories above it, and does nothing else.** -/
theorem Journal.writes_append {r : Record} (h : (append path r).perform t = (.ok (), t')) :
    ∃ place before, Journal.Writes path r place before t t' := by
  obtain ⟨dirs, habove, hadds⟩ := adds_ensureParent path t
  change Adds dirs t (t.withParents path) at hadds
  obtain ⟨place, before, ho, rfl⟩ := append_eq_ok h
  obtain ⟨hm, -⟩ := openFile_ok ho
  generalize t.withParents path = t₁ at hadds ho hm ⊢
  have hplace : t₁.get? place = some (.file before) ∨ t₁.get? place = none ∧ before = [] := by
    rcases openFile_eq_ok_iff.1 ho with ho | ⟨ho, hb⟩
    · exact Or.inl (meets_of_entry ho (by simp)).2
    · exact Or.inr ⟨(meets_of_vacant ho).2, hb⟩
  have hopen : t₁.get? place = none ∨ ∃ before, t₁.get? place = some (.file before) :=
    hplace.symm.imp And.left fun hg => ⟨before, hg⟩
  -- no directory was made where the journal is
  have hsame : t₁.get? place = t.get? place := by
    rcases hadds place with he | ⟨-, hg, -⟩
    · exact he
    · rw [hg] at hopen
      simp at hopen
  refine ⟨place, before, hsame ▸ hplace, find_put_self hm.followed hopen _, ?_⟩
  intro loc hl
  rw [get?_put_ne t₁ _ hl]
  rcases hadds loc with he | ⟨hg, hg', dir, hd, hf⟩
  · exact Or.inl he
  · refine Or.inr ⟨hg, hg', dir, habove dir hd, ?_⟩
    apply find_eq_of_elsewhere hf
    intro l hne
    by_cases hlp : l = place
    · exact ⟨fun he => hl (he.symm.trans hlp), hlp ▸ hopen⟩
    · exact absurd (get?_put_ne t₁ _ hlp) hne

end NearDup
