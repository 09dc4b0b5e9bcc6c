import NearDup.Proofs.Journal.Appended

/-!
# What a path leads to once its text is replaced

The text is written into a file beside the path, and that file is then moved over it. Where neither
of the two paths is a symbolic link, the way to the path is the same before and after, and it ends
at the file with the text.

* `move_eq_ok` — what a move takes off one path and puts at another
* `replace_cases` — how far the replacement of a text has come
* `read_replace` — the path leads to a file with the text
-/

namespace NearDup.Tree

open Effect Text.Utf8

variable {t t' : Tree} {path source text : String} {loc : Location} {x : Entry}
  {bytes : List UInt8}

/-- Is there a symbolic link at the last name of a path? -/
def isLink (t : Tree) (path : String) : Bool :=
  match t.resolve .kept path with
  | .ok (.entry _ (.link _)) => true
  | _ => false

theorem isLink_of_resolve {target : String}
    (h : t.resolve .kept path = .ok (.entry loc (.link target))) : t.isLink path = true := by
  rw [isLink, h]

/-- A file that is put makes no links. -/
theorem isLink_put_file (h : t.isLink path = false) (hloc : isAbove loc = false)
    (bytes : List UInt8) : (t.put loc (.file bytes)).isLink path = false := by
  rcases resolve_put_eq_or_meets t loc (.file bytes) .kept path with he | ⟨rest, -, hm⟩
  · rw [isLink, he]
    exact h
  · rw [isLink, hm.resolve_file (get?_put_self t _ hloc)]
    split
    · next hif =>
      split at hif <;> cases hif
    · rfl

theorem withoutSlashes_of_getLast? (h : path.toList.getLast? ≠ some '/') :
    withoutSlashes path = path := by
  have hkept : (path.toList.reverse.dropWhile (· = '/')).reverse = path.toList := by
    cases hrev : path.toList.reverse with
    | nil => simpa using hrev.symm
    | cons c cs =>
      have hc : c ≠ '/' := by
        rintro rfl
        rw [← List.head?_reverse, hrev] at h
        exact h rfl
      rw [List.dropWhile_cons_of_neg (by simpa using hc), ← hrev, List.reverse_reverse]
  unfold withoutSlashes
  simp only [hkept, String.ofList_toList, ite_self]

/-- A file or a link is taken off its path and put at another one, where nothing is or a file or a
link. -/
theorem move_eq_ok (h : t.move source path = .ok t') :
    ∃ src x other, t.resolve .kept source = .ok (.entry src x) ∧
      (t.resolve .kept path = .ok (.vacant other) ∨
        ∃ y, y ≠ .dir ∧ t.resolve .kept path = .ok (.entry other y)) ∧
      t' = (t.erase src).put other x := by
  unfold move at h
  cases hc : checkPath path with
  | error f => simp [hc, bind, Except.bind] at h
  | ok _ =>
  cases hs : t.resolve .kept source with
  | error f => simp [hc, hs, bind, Except.bind] at h
  | ok place =>
  cases ht : t.resolve .kept (withoutSlashes path) with
  | error f => simp [hc, hs, ht, bind, Except.bind] at h
  | ok target =>
  simp only [hc, hs, ht, bind, Except.bind, pure, Except.pure, throw, throwThe,
    MonadExceptOf.throw] at h
  split at h
  · cases h
  split at h
  · cases h
  · cases h
  · next src x _ =>
    split at h
    · cases h
    next hlast =>
    rw [withoutSlashes_of_getLast? hlast] at ht
    split at h
    · cases h
    · next other y hdir =>
      cases h
      exact ⟨src, x, other, rfl, Or.inr ⟨y, hdir, ht⟩, rfl⟩
    · next other =>
      cases h
      exact ⟨src, x, other, rfl, Or.inl ht, rfl⟩

/-- What is moved to a path that is no link is found there. -/
theorem find_move (h : t.move source path = .ok t') (hlink : t.isLink path = false)
    (hsource : t.resolve .kept source = .ok (.entry loc (.file bytes))) :
    ∃ other, t'.find path = .ok (other, .file bytes) := by
  obtain ⟨src, x, other, hs, ht, rfl⟩ := move_eq_ok h
  rw [hsource] at hs
  cases hs
  obtain ⟨hm, hg⟩ : t.Meets .kept path other [] ∧
      (t.get? other = none ∨ ∃ before, t.get? other = some (.file before)) := by
    rcases ht with ht | ⟨y, hy, ht⟩
    · obtain ⟨hm, hg⟩ := meets_of_vacant ht
      exact ⟨hm, Or.inl hg⟩
    · obtain ⟨hm, hg⟩ := meets_of_entry ht hy
      cases y with
      | dir => exact absurd rfl hy
      | file before => exact ⟨hm, Or.inr ⟨before, hg⟩⟩
      | link target =>
        rw [isLink_of_resolve ht] at hlink
        cases hlink
  have hfile := (meets_of_entry hsource (by simp)).2
  have hother := isAbove_of_free_or_file hg
  have hmeets : ((t.erase loc).put other (.file bytes)).Meets .kept path other [] := by
    refine hm.mono fun l y hl hnot => ?_
    have hne : l ≠ other := ne_of_free_or_file hg hl hnot
    have hne' : l ≠ loc := ne_of_free_or_file (Or.inr ⟨bytes, hfile⟩) hl hnot
    rw [get?_put_ne _ _ hne, get?_erase_ne _ hne', hl]
  exact ⟨other, hmeets.find_file (get?_put_self _ _ hother)⟩

/-- What is written at a path that is no link is there at its last name. -/
theorem resolve_write (h : t.write path bytes = .ok t') (hlink : t.isLink path = false) :
    ∃ loc, t' = t.put loc (.file bytes) ∧ isAbove loc = false ∧
      t'.resolve .kept path = .ok (.entry loc (.file bytes)) := by
  obtain ⟨loc, before, ho, rfl⟩ := write_eq_ok h
  obtain ⟨hm, hg⟩ := openFile_ok ho
  have hloc := isAbove_of_free_or_file (hg.imp_right fun hg => ⟨before, hg⟩)
  have hfind := Journal.find_put_opened ho bytes
  obtain ⟨own, x, hr, hdir⟩ := exists_owns hfind
  refine ⟨loc, rfl, hloc, ?_⟩
  cases x with
  | dir => exact absurd rfl hdir
  | file b =>
    have hown := Owns.find_of_file ⟨_, hr, hdir⟩ (meets_of_entry hr hdir).2
    rw [hfind] at hown
    cases hown
    exact hr
  | link target =>
    have hnot := isLink_put_file hlink hloc bytes
    rw [isLink_of_resolve hr] at hnot
    cases hnot

/-- How far the replacement of a text has come: the directories were made, as far as they can be; or
the temporary file was written, too; or it was moved as well. -/
theorem replace_cases {r : Except Failure Unit}
    (h : (replace path text).perform t = (r, t')) :
    ((∃ f, r = .error f) ∧ t' = t.withParents path) ∨
    ∃ u, (t.withParents path).write (temporary path) (encode text) = .ok u ∧
      (((∃ f, r = .error f) ∧ t' = u) ∨
        r = .ok () ∧ u.move (temporary path) path = .ok t') := by
  rw [replace, perform_bind] at h
  unfold withParents
  rcases hp : (ensureParent path).perform t with ⟨f | _, t₁⟩
  · rw [hp] at h
    cases h
    exact Or.inl ⟨⟨f, rfl⟩, rfl⟩
  rw [hp] at h
  simp only [perform_bind, changeAt, change, perform_ofPerform, withPath] at h
  cases hw : t₁.write (temporary path) (encode text) with
  | error f =>
    simp only [hw, Except.mapError, Prod.mk.injEq] at h
    exact Or.inl ⟨⟨_, h.1.symm⟩, h.2.symm⟩
  | ok u =>
    right
    refine ⟨u, rfl, ?_⟩
    cases hmove : u.move (temporary path) path with
    | error f =>
      simp only [hw, hmove, Except.mapError, Prod.mk.injEq] at h
      exact Or.inl ⟨⟨_, h.1.symm⟩, h.2.symm⟩
    | ok v =>
      simp only [hw, hmove, Except.mapError, Prod.mk.injEq] at h
      exact Or.inr ⟨h.1.symm, by rw [h.2]⟩

/-- **A path whose text is replaced leads to a file with the text**, unless the path or the one of
the temporary file is a link. -/
theorem read_replace (h : (replace path text).perform t = (.ok (), t'))
    (hlink : (t.withParents path).isLink path = false)
    (htemp : (t.withParents path).isLink (temporary path) = false) :
    t'.read path = .ok (encode text) := by
  rcases replace_cases h with ⟨⟨f, hr⟩, -⟩ | ⟨u, hw, ⟨⟨f, hr⟩, -⟩ | ⟨-, hmove⟩⟩
  · cases hr
  · cases hr
  · obtain ⟨loc, rfl, hloc, hr⟩ := resolve_write hw htemp
    obtain ⟨other, hfind⟩ := find_move hmove (isLink_put_file hlink hloc _) hr
    exact read_eq_ok_iff.2 ⟨other, hfind⟩

end NearDup.Tree
