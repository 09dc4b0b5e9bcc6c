import NearDup.Proofs.Merge.Copies

/-!
# A tree in the course of a run

A run removes own entries of files and makes files where nothing was. While it does not remove what
the name of an output leads to or through, nothing that it removed comes back: a file that is gone
stays gone, and an output that is taken stays taken.

* `Since` — what has become of a tree in the course of a run
* `Undisturbed` — no single removal changes where a path leads
* `Since.resolve_cases` — where an undisturbed path leads now
* `Later` — gone stays gone, and taken stays taken
* `Since.later` — every request keeps this
-/

namespace NearDup.Merge

open NearDup.Tree

namespace Session

variable {s : Session} {names inputs : List String} {t t₁ t₂ t' : Tree} {path : String}
  {loc own new : Location} {x : Entry} {bytes text : List UInt8}

/-! ## What has changed -/

/-- Since the tree was `t`, only own entries of files among `names` were removed, and nothing was
made but files where nothing was. -/
def Since (s : Session) (names : List String) (t t' : Tree) : Prop :=
  ∀ loc, t'.get? loc ≠ t.get? loc →
    (t'.get? loc = none ∧
      ∃ name ∈ names, t.has (s.pathOf name) = true ∧ t.Owns (s.pathOf name) loc) ∨
    (t.get? loc = none ∧ ∃ bytes, t'.get? loc = some (.file bytes))

theorem Clears.since (h : s.Clears names t t') : s.Since names t t' :=
  fun loc hne => Or.inl ⟨(h.thinner loc).resolve_left hne, h.owned loc hne⟩

theorem Since.mono {names' : List String} (h : s.Since names t t') (hs : names ⊆ names') :
    s.Since names' t t' := by
  intro loc hne
  rcases h loc hne with ⟨hnone, name, hn, ho⟩ | hnew
  · exact Or.inl ⟨hnone, name, hs hn, ho⟩
  · exact Or.inr hnew

/-- What was found is still found at the same place, or not at all. -/
theorem Since.find_eq_or_gone (h : s.Since names t t') (hp : t.find path = .ok (loc, x)) :
    t'.find path = .ok (loc, x) ∨ t'.has path = false := by
  rcases find_eq_or_meets hp t' with hp' | ⟨cut, rest, hg, hne, hm⟩
  · exact Or.inl hp'
  · right
    rcases h cut hne with ⟨hnone, -⟩ | ⟨hnone, -⟩
    · exact (hm t' (.right t t')).has_eq_false hnone
    · exact absurd hnone hg

/-- What is found however one of the files alone is removed is still found. -/
theorem Since.find_eq_of_kept (h : s.Since names t t') (hp : t.find path = .ok (loc, x))
    (hk : ∀ name ∈ names, (s.removeFile name t).2.has path = true) :
    t'.find path = .ok (loc, x) := by
  rcases find_eq_or_meets hp t' with hp' | ⟨cut, rest, hg, hne, hm⟩
  · exact hp'
  · rcases h cut hne with ⟨-, name, hn, hhas, ho⟩ | ⟨hnone, -⟩
    · obtain ⟨hagree, hfree⟩ := agrees_removeFile hhas ho hne
      have hcut := (hm _ hagree).has_eq_false hfree
      rw [hk name hn] at hcut
      cases hcut
    · exact absurd hnone hg

/-- The own entry of a file that is still found is the same as before. -/
theorem Since.owns (h : s.Since names t t') (hp : t.has path = true) (hp' : t'.has path = true)
    (ho : t'.Owns path own) : t.Owns path own := by
  obtain ⟨x, hx, hd⟩ := ho
  rcases resolve_eq_or_meets t t' .kept path with he | ⟨cut, rest, hne, hm⟩
  · exact ⟨x, he.symm.trans hx, hd⟩
  · rcases h cut hne with ⟨hnone, -⟩ | ⟨hnone, -⟩
    · rw [(hm t' (.right t t')).followed.has_eq_false hnone] at hp'
      cases hp'
    · rw [(hm t (.left t t')).followed.has_eq_false hnone] at hp
      cases hp

theorem Since.put (h : s.Since names t t₁) (hnew : t.get? new = none) (text : List UInt8) :
    s.Since names t (t₁.put new (.file text)) := by
  intro l hne
  by_cases hl : l = new
  · subst hl
    exact Or.inr ⟨hnew, text, get?_put_self t₁ _ (isAbove_of_get?_eq_none hnew)⟩
  · rw [get?_put_ne t₁ _ hl] at hne ⊢
    exact h l hne

/-- A location that was free is not cleared when files are removed that were there before. -/
theorem Since.get?_of_free (h : s.Since names t t₁) (hc : s.Clears inputs t₁ t₂)
    (hf : s.Files t inputs) (hnone : t.get? loc = none) : t₂.get? loc = t₁.get? loc := by
  by_cases hne : t₂.get? loc = t₁.get? loc
  · exact hne
  · obtain ⟨name, hn, hhas, ho⟩ := hc.owned loc hne
    obtain ⟨l, b, hfind⟩ := hf name hn
    obtain ⟨x, hx, -⟩ := (h.owns (has_of_find hfind) hhas ho).get?_ne
    rw [hnone] at hx
    cases hx

theorem Since.clear (h : s.Since names t t₁) (hc : s.Clears inputs t₁ t₂) (hi : inputs ⊆ names)
    (hf : s.Files t inputs) : s.Since names t t₂ := by
  intro l hne
  by_cases he : t₂.get? l = t₁.get? l
  · rw [he] at hne ⊢
    exact h l hne
  · obtain ⟨name, hn, hhas, ho⟩ := hc.owned l he
    obtain ⟨l', b, hfind⟩ := hf name hn
    exact Or.inl ⟨(hc.thinner l).resolve_left he, name, hi hn, has_of_find hfind,
      h.owns (has_of_find hfind) hhas ho⟩

/-! ## Undisturbed paths -/

/-- No removal of one of these files alone changes where a path leads. -/
def Undisturbed (s : Session) (t : Tree) (names : List String) (path : String) : Prop :=
  ∀ name ∈ names, ((s.removeFile name t).2.resolve .followed path).toOption =
    (t.resolve .followed path).toOption

/-- An undisturbed path leads where it led, or to a new file at the free location where it led, or
nowhere, as before. -/
theorem Since.resolve_cases (h : s.Since names t t') (hu : s.Undisturbed t names path) :
    t'.resolve .followed path = t.resolve .followed path ∨
    (∃ l bytes, t.resolve .followed path = .ok (.vacant l) ∧
      t'.find path = .ok (l, .file bytes)) ∨
    ((∃ f, t.resolve .followed path = .error f) ∧ ∃ f, t'.resolve .followed path = .error f) := by
  rcases resolve_eq_or_meets t t' .followed path with he | ⟨cut, rest, hne, hm⟩
  · exact Or.inl he
  · right
    rcases h cut hne with ⟨hnone, name, hn, hhas, ho⟩ | ⟨hnone, bytes, hfile⟩
    · -- the removal alone would lead the path to a free name or nowhere
      obtain ⟨hagree, hfree⟩ := agrees_removeFile hhas ho hne
      have hsingle := (hm _ hagree).resolve_free hfree
      have hsame := hu name hn
      have hnow := (hm t' (.right t t')).resolve_free hnone
      rw [hsingle] at hsame
      obtain ⟨y, hy, -⟩ := ho.get?_ne
      split at hsame
      · cases hr : t.resolve .followed path with
        | error f =>
          rw [hr] at hsame
          cases hsame
        | ok place =>
          rw [hr] at hsame
          cases hsame
          rw [(meets_of_vacant hr).2] at hy
          cases hy
      · next hrest =>
        rw [if_neg hrest] at hnow
        cases hr : t.resolve .followed path with
        | error f => exact Or.inr ⟨⟨f, rfl⟩, _, hnow⟩
        | ok place =>
          rw [hr] at hsame
          cases hsame
    · have hthen := (hm t (.left t t')).resolve_free hnone
      have hnow := (hm t' (.right t t')).resolve_file hfile
      by_cases hrest : rest = []
      · rw [if_pos hrest] at hthen hnow
        exact Or.inl ⟨cut, bytes, hthen, find_eq_ok_iff.2 hnow⟩
      · rw [if_neg hrest] at hthen hnow
        exact Or.inr ⟨⟨_, hthen⟩, _, hnow⟩

/-- A free name that an undisturbed path leads to was free from the beginning. -/
theorem Since.resolve_vacant (h : s.Since names t t') (hu : s.Undisturbed t names path)
    (hv : t'.resolve .followed path = .ok (.vacant loc)) :
    t.resolve .followed path = .ok (.vacant loc) := by
  rcases h.resolve_cases hu with he | ⟨l, bytes, -, hf⟩ | ⟨-, f, hf⟩
  · exact he.symm.trans hv
  · rw [find_eq_ok_iff.1 hf] at hv
    cases hv
  · rw [hf] at hv
    cases hv

/-! ## Later -/

/-- From one moment of a run to a later one: a file that is gone stays gone, and an undisturbed path
under which something is stays taken. -/
structure Later (s : Session) (names : List String) (t t₁ t₂ : Tree) : Prop where
  gone : ∀ path loc bytes, t.find path = .ok (loc, .file bytes) → t₁.has path = false →
    t₂.has path = false
  taken : ∀ path, s.Undisturbed t names path → t₁.has path = true → t₂.has path = true

theorem Later.refl (s : Session) (names : List String) (t t₁ : Tree) : s.Later names t t₁ t₁ :=
  ⟨fun _ _ _ _ h => h, fun _ _ h => h⟩

theorem Later.trans {t₃ : Tree} (h : s.Later names t t₁ t₂) (h' : s.Later names t t₂ t₃) :
    s.Later names t t₁ t₃ :=
  ⟨fun path loc bytes hp hg => h'.gone path loc bytes hp (h.gone path loc bytes hp hg),
    fun path hu ht => h'.taken path hu (h.taken path hu ht)⟩

/-- **A request that writes at a free location and removes files keeps what is gone and what is
taken.** -/
theorem Since.later (h : s.Since names t t₁) (hnew : t.get? new = none) (hfree : t₁.get? new = none)
    (hc : s.Clears inputs (t₁.put new (.file text)) t₂) (hi : inputs ⊆ names)
    (hf : s.Files t inputs) : s.Later names t t₁ t₂ := by
  have hput := h.put hnew text
  have h₂ := hput.clear hc hi hf
  constructor
  · intro path loc bytes hp hgone
    rcases h₂.find_eq_or_gone hp with hp₂ | hgone₂
    · rcases find_of_find_put hfree (hc.thinner.find_eq hp₂) with hl | hp₁
      · -- the path led to a file, and the new one stands where nothing was
        rw [hl] at hp
        rw [(meets_of_entry (find_eq_ok_iff.1 hp) (by simp)).2] at hnew
        cases hnew
      · rw [has_of_find hp₁] at hgone
        cases hgone
    · exact hgone₂
  · intro path hu htaken
    obtain ⟨l, x, hp₁⟩ := has_iff.1 htaken
    rw [find_eq_ok_iff] at hp₁
    rcases h.resolve_cases hu with he | ⟨l', b, hv, hp₁'⟩ | ⟨-, f, hf'⟩
    · rcases h₂.resolve_cases hu with he₂ | ⟨l', b, hv, -⟩ | ⟨⟨f, hf'⟩, -⟩
      · exact has_of_find (find_eq_ok_iff.2 (he₂.trans (he.symm.trans hp₁)))
      · rw [← he, hp₁] at hv
        cases hv
      · rw [← he, hp₁] at hf'
        cases hf'
    · -- the file was made in the course of the run, and such files stay
      have hfile := (meets_of_entry (find_eq_ok_iff.1 hp₁') (by simp)).2
      have hnone := (meets_of_vacant hv).2
      have hl : l' ≠ new := fun he => by rw [he, hfree] at hfile; cases hfile
      have hstay := hput.get?_of_free hc hf hnone
      rw [get?_put_ne t₁ _ hl, hfile] at hstay
      rcases h₂.resolve_cases hu with he₂ | ⟨l₂, b₂, -, hp₂⟩ | ⟨⟨f, hf'⟩, -⟩
      · rw [(meets_of_vacant (he₂.trans hv)).2] at hstay
        cases hstay
      · exact has_of_find hp₂
      · rw [hv] at hf'
        cases hf'
    · rw [hp₁] at hf'
      cases hf'

end Session

end NearDup.Merge
