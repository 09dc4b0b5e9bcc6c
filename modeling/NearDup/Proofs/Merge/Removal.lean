import NearDup.Merge.Session
import NearDup.Proofs.Tree.Paths

/-!
# Removing files

A session removes a file by clearing the entry under its very name, a file or a link. So a removal
can cut other paths off, those that lead through the entry, but it changes nothing else.

* `Session.Clears` — only own entries of files asked for are removed
* `Session.Clears.find_eq_or_cut` — a file is still found, or one removal alone cuts it off
-/

namespace NearDup.Merge

open NearDup.Tree Effect

namespace Session

variable {s : Session} {t t' : Tree} {name path : String} {names : List String} {loc : Location}
  {bytes : List UInt8}

/-- These names lead to files. -/
def Files (s : Session) (t : Tree) (names : List String) : Prop :=
  ∀ name ∈ names, ∃ loc bytes, t.find (s.pathOf name) = .ok (loc, .file bytes)

theorem Files.mono {names' : List String} (h : s.Files t names') (hs : names ⊆ names') :
    s.Files t names := fun name hn => h name (hs hn)

/-! ## Removing files -/

/-- A file is removed by clearing its own entry, or it is not removed and nothing changes. -/
theorem removeFile_cases (s : Session) (name : String) (t : Tree) :
    (∃ own, t.has (s.pathOf name) = true ∧ t.Owns (s.pathOf name) own ∧
      s.removeFile name t = (true, t.erase own)) ∨
    (s.removeFile name t = (false, t) ∧
      (t.has (s.pathOf name) = true → ∀ own, ¬t.Owns (s.pathOf name) own)) := by
  unfold removeFile
  split
  · next hp =>
    cases hr : t.remove (s.pathOf name) with
    | ok t' =>
      obtain ⟨own, ho, rfl⟩ := remove_eq_ok_iff.1 hr
      exact Or.inl ⟨own, hp, ho, rfl⟩
    | error f =>
      refine Or.inr ⟨rfl, ?_⟩
      intro _ own ho
      rw [remove_eq_ok_iff.2 ⟨own, ho, rfl⟩] at hr
      cases hr
  · next hp => exact Or.inr ⟨rfl, fun h => absurd h hp⟩

/-- What is removed depends on the inbox, and on nothing else of a session. -/
theorem removeFiles_congr {s' : Session} (h : s'.inbox = s.inbox) (names : List String)
    (t : Tree) : s'.removeFiles names t = s.removeFiles names t := by
  have hone : ∀ name t, s'.removeFile name t = s.removeFile name t := by
    intro name t
    unfold removeFile pathOf
    rw [h]
  induction names generalizing t with
  | nil => rfl
  | cons name rest ih => simp only [removeFiles, hone, ih]

/-- Entries are removed, and only own entries of files among these. -/
structure Clears (s : Session) (names : List String) (t t' : Tree) : Prop where
  thinner : Thinner t t'
  owned : ∀ loc, t'.get? loc ≠ t.get? loc →
    ∃ name ∈ names, t.has (s.pathOf name) = true ∧ t.Owns (s.pathOf name) loc

theorem Clears.refl (s : Session) (t : Tree) : s.Clears [] t t :=
  ⟨.refl t, fun _ h => absurd rfl h⟩

theorem Clears.trans {names' : List String} {t₁ t₂ t₃ : Tree} (h : s.Clears names t₁ t₂)
    (h' : s.Clears names' t₂ t₃) : s.Clears (names ++ names') t₁ t₃ := by
  refine ⟨h.thinner.trans h'.thinner, ?_⟩
  intro loc hd
  by_cases he : t₂.get? loc = t₁.get? loc
  · obtain ⟨name, hn, hp, ho⟩ := h'.owned loc (by rwa [he])
    exact ⟨name, List.mem_append_right _ hn, h.thinner.has hp, h.thinner.owns ho⟩
  · obtain ⟨name, hn, hp, ho⟩ := h.owned loc he
    exact ⟨name, List.mem_append_left _ hn, hp, ho⟩

theorem Clears.mono {names' : List String} (h : s.Clears names t t') (hs : names ⊆ names') :
    s.Clears names' t t' := by
  refine ⟨h.thinner, ?_⟩
  intro loc hd
  obtain ⟨name, hn, hp, ho⟩ := h.owned loc hd
  exact ⟨name, hs hn, hp, ho⟩

theorem clears_removeFile (s : Session) (name : String) (t : Tree) :
    s.Clears [name] t (s.removeFile name t).2 := by
  rcases s.removeFile_cases name t with ⟨own, hp, ho, he⟩ | ⟨he, -⟩
  · rw [he]
    refine ⟨thinner_erase ho.isAbove, ?_⟩
    intro loc hd
    by_cases hl : loc = own
    · exact ⟨name, by simp, hp, hl ▸ ho⟩
    · exact absurd (get?_erase_ne t hl) hd
  · rw [he]
    exact (Clears.refl s t).mono (by simp)

/-- Removing one file alone clears its own entry, and leaves all else as it is. -/
theorem agrees_removeFile {own : Location} (hp : t.has (s.pathOf name) = true)
    (ho : t.Owns (s.pathOf name) own) (hd : t'.get? own ≠ t.get? own) :
    AgreesWhere t t' (s.removeFile name t).2 ∧ (s.removeFile name t).2.get? own = none := by
  rcases s.removeFile_cases name t with ⟨own', -, ho', he⟩ | ⟨-, hnot⟩
  · obtain rfl := ho'.unique ho
    rw [he]
    refine ⟨?_, get?_erase_self t ho.isAbove⟩
    intro l hl
    refine get?_erase_ne t ?_
    intro hlo
    rw [hlo] at hl
    exact hd hl
  · exact absurd ho (hnot hp own)

theorem clears_removeFiles (s : Session) (names : List String) (t : Tree) :
    s.Clears names t (s.removeFiles names t).2 := by
  induction names generalizing t with
  | nil => exact .refl s t
  | cons name rest ih => exact (s.clears_removeFile name t).trans (ih _)

/-- A file that is there is removed. -/
theorem removeFile_of_find (h : t.find (s.pathOf name) = .ok (loc, .file bytes)) :
    ∃ t', s.removeFile name t = (true, t') := by
  rcases s.removeFile_cases name t with ⟨own, -, -, he⟩ | ⟨-, hnot⟩
  · exact ⟨t.erase own, he⟩
  · obtain ⟨own, ho⟩ := exists_owns h
    exact absurd ho (hnot (has_of_find h) own)

/-- A removed file is gone. -/
theorem has_removeFile
    (h : ∀ loc x, t.find (s.pathOf name) = .ok (loc, x) → ∃ bytes, x = .file bytes) :
    (s.removeFile name t).2.has (s.pathOf name) = false := by
  rcases s.removeFile_cases name t with ⟨own, hp, ho, he⟩ | ⟨he, hnot⟩
  · rw [he]
    -- in the tree without the entry, the path comes to the same place and finds nothing
    cases hf : (t.erase own).has (s.pathOf name) with
    | false => rfl
    | true =>
      have ht := thinner_erase (t := t) ho.isAbove
      obtain ⟨loc, x, hf⟩ := has_iff.1 hf
      obtain ⟨bytes, rfl⟩ := h loc x (ht.find_eq hf)
      obtain ⟨own', ho'⟩ := exists_owns hf
      obtain rfl := (ht.owns ho').unique ho
      obtain ⟨y, hy, -⟩ := ho'.get?_ne
      rw [get?_erase_self t ho.isAbove] at hy
      cases hy
  · rw [he]
    cases hp : t.has (s.pathOf name) with
    | false => rfl
    | true =>
      obtain ⟨loc, x, hf⟩ := has_iff.1 hp
      obtain ⟨bytes, rfl⟩ := h loc x hf
      obtain ⟨own, ho⟩ := exists_owns hf
      exact absurd ho (hnot hp own)

/-- Removed files are gone. -/
theorem has_removeFiles (hn : name ∈ names) (h : s.Files t names) :
    (s.removeFiles names t).2.has (s.pathOf name) = false := by
  have hall : ∀ n ∈ names, ∀ loc x, t.find (s.pathOf n) = .ok (loc, x) →
      ∃ bytes, x = .file bytes := by
    intro n hn loc x hx
    obtain ⟨loc', bytes, hf⟩ := h n hn
    rw [hf] at hx
    cases hx
    exact ⟨bytes, rfl⟩
  clear h
  -- a name can lead through the entry of an earlier one, so only what is still found is a file
  induction names generalizing t with
  | nil => simp at hn
  | cons first rest ih =>
    have hthin := (s.clears_removeFile first t).thinner
    have hrest := s.clears_removeFiles rest (s.removeFile first t).2
    show (s.removeFiles rest (s.removeFile first t).2).2.has (s.pathOf name) = false
    rcases List.mem_cons.1 hn with rfl | hn
    · have hgone := has_removeFile (hall name List.mem_cons_self)
      rw [← Bool.not_eq_true] at hgone ⊢
      intro hhas
      exact hgone (hrest.thinner.has hhas)
    · refine ih hn ?_
      intro n hn loc x hx
      exact hall n (List.mem_cons_of_mem _ hn) loc x (hthin.find_eq hx)

/-! ## What is cut off -/

/-- **A file is still found, or one of the removals alone cuts it off.** The file removed leads to
the same place. -/
theorem Clears.find_eq_or_cut (h : s.Clears names t t') (hf : s.Files t names)
    (hp : t.find path = .ok (loc, .file bytes)) :
    t'.find path = .ok (loc, .file bytes) ∨ ∃ name ∈ names,
      t.find (s.pathOf name) = .ok (loc, .file bytes) ∧
      (s.removeFile name t).2.has path = false ∧ t'.has path = false := by
  rcases h.thinner.find_eq_or_cut hp with hp' | ⟨cut, rest, hg, hnone, hm⟩
  · exact Or.inl hp'
  · obtain ⟨name, hn, hhas, ho⟩ := h.owned cut (by rw [hnone]; exact hg.symm)
    obtain ⟨loc', bytes', hname⟩ := hf name hn
    obtain ⟨-, hplace⟩ := ho.find_eq hname (hm t (.left t t')) (find_eq_ok_iff.1 hp)
    cases hplace
    obtain ⟨hagree, hfree⟩ := agrees_removeFile hhas ho (by rw [hnone]; exact hg.symm)
    exact Or.inr ⟨name, hn, hname, (hm _ hagree).has_eq_false hfree,
      (hm t' (.right t t')).has_eq_false hnone⟩

/-- The own entry of a file stays its own entry as long as it is there. -/
theorem Clears.owns (h : s.Clears names t t') (hf : s.Files t names)
    (hp : t.find path = .ok (loc, .file bytes)) {own : Location} (ho : t.Owns path own)
    (hg : t'.get? own ≠ none) : t'.Owns path own := by
  obtain ⟨x, hx, hd⟩ := id ho
  rcases resolve_eq_or_meets t t' .kept path with he | ⟨cut, rest, hne, hm⟩
  · exact ⟨x, he.trans hx, hd⟩
  · -- what is met is the own entry of a file, so it is met last and is this one
    obtain ⟨name, hn, -, hown⟩ := h.owned cut hne
    obtain ⟨loc', bytes', hname⟩ := hf name hn
    obtain ⟨y, hy, hyd⟩ := hown.get?_ne
    have hmt := hm t (.left t t')
    obtain ⟨rfl, -⟩ := hown.find_eq hname hmt.followed (find_eq_ok_iff.1 hp)
    obtain rfl := (hmt.owns hy hyd).unique ho
    exact absurd ((h.thinner cut).resolve_left hne) hg

/-- A file that is still found through the own entry of another still has that entry. -/
theorem Clears.meets_of_find (h : s.Clears names t t') {own : Location} {x : Entry}
    (hp : t'.find path = .ok (loc, x)) (hg : t.get? own ≠ none)
    (hcut : (t.erase own).has path = false) (ha : isAbove own = false) :
    t'.get? own ≠ none ∧ ∃ rest, t.Meets .followed path own rest ∧
      t'.Meets .followed path own rest := by
  have hthin : Thinner (t.erase own) (t'.erase own) := by
    intro l
    by_cases hl : l = own
    · subst hl
      exact Or.inr (get?_erase_self t' ha)
    · rw [get?_erase_ne t hl, get?_erase_ne t' hl]
      exact h.thinner l
  rcases find_eq_or_meets (h.thinner.find_eq hp) (t'.erase own) with he | ⟨cut, rest, hc, hne, hm⟩
  · have hhas := hthin.has (has_of_find he)
    rw [hcut] at hhas
    cases hhas
  · have hagree : AgreesWhere t (t'.erase own) t' := by
      intro l hl
      by_cases hlo : l = own
      · subst hlo
        rw [get?_erase_self t' ha] at hl
        exact absurd hl.symm hg
      · rwa [get?_erase_ne t' hlo] at hl
    have hm' := hm t' hagree
    -- what the path meets in the tree as it is now must be there
    have hthere : t'.get? cut ≠ none := by
      intro hnone
      have hhas := hm'.has_eq_false hnone
      rw [has_of_find hp] at hhas
      cases hhas
    have hcutown : cut = own := by
      by_cases hco : cut = own
      · exact hco
      · rw [get?_erase_ne t' hco] at hne
        exact absurd ((h.thinner cut).resolve_right hthere) hne
    subst hcutown
    exact ⟨hthere, rest, hm t (.left t _), hm'⟩

end Session

end NearDup.Merge
