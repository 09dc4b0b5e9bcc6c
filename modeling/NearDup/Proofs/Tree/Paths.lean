import NearDup.Proofs.Tree.Walk
import NearDup.Tree.Change

/-!
# Paths in changing trees

What a path leads to before and after a change of the tree. Only the locations that the walk of the
path meets matter.

* `resolve_eq_or_meets` — a path leads to the same place, or meets a location that has changed
* `find_eq_or_meets` — what is there is still found, or its path meets an entry that has changed
* `Thinner.find_eq` — nothing new is found where entries are only removed
* `Shorter.meets` — nothing new is met where only files are made as well
* `Owns.find_eq` — a path that meets the own entry of a file leads to that file
* `remove_eq_ok_iff`, `exists_put_of_write` — what removing and writing do
* `write_eq_ok_iff_leads` — when a new file can be written
-/

namespace NearDup.Tree

variable {t t' : Tree} {e : Ending} {path other : String} {loc own : Location} {x : Entry}
  {bytes : List UInt8} {place : Place} {rest : List String}

/-! ## What is found -/

theorem find_eq_ok_iff :
    t.find path = .ok (loc, x) ↔ t.resolve .followed path = .ok (.entry loc x) := by
  unfold find
  cases h : t.resolve .followed path with
  | error f => simp [bind, Except.bind]
  | ok place => cases place <;> simp [bind, Except.bind, pure, Except.pure, throw, throwThe,
      MonadExceptOf.throw]

theorem has_iff : t.has path = true ↔ ∃ loc x, t.find path = .ok (loc, x) := by
  unfold has
  cases t.find path with
  | error f => simp
  | ok r => exact ⟨fun _ => ⟨r.1, r.2, rfl⟩, fun _ => rfl⟩

theorem has_of_find (h : t.find path = .ok (loc, x)) : t.has path = true := has_iff.2 ⟨loc, x, h⟩

theorem isDir_iff : t.isDir path = true ↔ ∃ loc, t.find path = .ok (loc, .dir) := by
  unfold isDir
  constructor
  · intro h
    split at h
    · next loc hf => exact ⟨loc, hf⟩
    · cases h
  · rintro ⟨loc, hf⟩
    rw [hf]

theorem read_eq_ok_iff : t.read path = .ok bytes ↔ ∃ loc, t.find path = .ok (loc, .file bytes) := by
  unfold read
  cases h : t.find path with
  | error f => simp [bind, Except.bind]
  | ok r =>
    obtain ⟨loc, x⟩ := r
    cases x <;> simp [bind, Except.bind, pure, Except.pure, throw, throwThe, MonadExceptOf.throw]

/-! ## Meeting a location -/

/-- The walk of a path comes to look up a location, with these names behind it. -/
def Meets (t : Tree) (e : Ending) (path : String) (loc : Location) (rest : List String) : Prop :=
  checkPath path = .ok () ∧ ∃ m dir name, LooksUp e name rest ∧ dir ++ [name] = loc ∧
    t.Reaches e ⟨linkLimit, origin [] path, pathNames path⟩ ⟨m, dir, name :: rest⟩

theorem resolve_of_checkPath (h : checkPath path = .ok ()) :
    t.resolve e path = t.walk e linkLimit (origin [] path) (pathNames path) := by
  simp [resolve, h, bind, Except.bind]

theorem resolve_of_refused {f : Fault} (h : checkPath path = .error f) :
    t.resolve e path = .error f := by
  simp [resolve, h, bind, Except.bind]

theorem Meets.followed (h : t.Meets e path loc rest) : t.Meets .followed path loc rest := by
  obtain ⟨hc, m, dir, name, hl, rfl, hr⟩ := h
  exact ⟨hc, m, dir, name, hl.followed rest, rfl, hr.followed⟩

/-- A path that meets a free location leads to it or nowhere. -/
theorem Meets.resolve_free (h : t.Meets e path loc rest) (hg : t.get? loc = none) :
    t.resolve e path = if rest = [] then .ok (.vacant loc) else .error .noEntry := by
  obtain ⟨hc, m, dir, name, hl, rfl, hr⟩ := h
  rw [resolve_of_checkPath hc]
  exact (walk_eq_of_reaches hr).trans (walk_free hl hg)

/-- A path that meets a file leads to it or nowhere. -/
theorem Meets.resolve_file (h : t.Meets e path loc rest) (hg : t.get? loc = some (.file bytes)) :
    t.resolve e path =
      if rest = [] then .ok (.entry loc (.file bytes)) else .error .notDirectory := by
  obtain ⟨hc, m, dir, name, hl, rfl, hr⟩ := h
  rw [resolve_of_checkPath hc]
  exact (walk_eq_of_reaches hr).trans (walk_file hl hg)

/-- A path that meets a directory last leads to it. -/
theorem Meets.resolve_dir (h : t.Meets e path loc []) (hg : t.get? loc = some .dir) :
    t.resolve e path = .ok (.entry loc .dir) := by
  obtain ⟨hc, m, dir, name, hl, rfl, hr⟩ := h
  rw [resolve_of_checkPath hc]
  refine (walk_eq_of_reaches hr).trans ?_
  show t.walk e m dir [name] = .ok (.entry (dir ++ [name]) .dir)
  rw [walk_dir hl hg, walk_nil]

theorem Meets.resolve_vacant (h : t.Meets e path loc []) (hg : t.get? loc = none) :
    t.resolve e path = .ok (.vacant loc) :=
  (h.resolve_free hg).trans (if_pos rfl)

theorem Meets.find_file (h : t.Meets e path loc []) (hg : t.get? loc = some (.file bytes)) :
    t.find path = .ok (loc, .file bytes) :=
  find_eq_ok_iff.2 ((h.followed.resolve_file hg).trans (if_pos rfl))

/-- A path leads to where it ends, if that is no link. -/
theorem Meets.resolve_end (h : t.Meets e path loc [])
    (hl : ∀ target, t.get? loc ≠ some (.link target)) :
    t.resolve e path = .ok (t.placeAt loc) := by
  unfold placeAt
  cases hg : t.get? loc with
  | none => exact h.resolve_vacant hg
  | some x =>
    cases x with
    | file bytes => exact (h.resolve_file hg).trans (if_pos rfl)
    | dir => exact h.resolve_dir hg
    | link target => exact absurd hg (hl target)

theorem Meets.has_eq_false (h : t.Meets .followed path loc rest) (hg : t.get? loc = none) :
    t.has path = false := by
  rw [← Bool.not_eq_true, has_iff]
  rintro ⟨loc', x, hf⟩
  rw [find_eq_ok_iff, h.resolve_free hg] at hf
  split at hf <;> cases hf

/-- A path leads to the same place in two trees, or meets the first location where they differ, also
in every tree that differs from the first only where the second does. -/
theorem resolve_eq_or_meets (t t' : Tree) (e : Ending) (path : String) :
    t'.resolve e path = t.resolve e path ∨ ∃ loc rest, t'.get? loc ≠ t.get? loc ∧
      ∀ u, AgreesWhere t t' u → u.Meets e path loc rest := by
  cases hc : checkPath path with
  | error f => exact Or.inl (by rw [resolve_of_refused hc, resolve_of_refused hc])
  | ok _ =>
    rcases first_difference t t' e linkLimit (origin [] path) (pathNames path) with
      h | ⟨m, dir, name, rest, hl, hd, hr⟩
    · left
      rw [resolve_of_checkPath hc, resolve_of_checkPath hc]
      exact h t' (.right t t')
    · exact Or.inr ⟨dir ++ [name], rest, hd, fun u hu => ⟨hc, m, dir, name, hl, rfl, hr u hu⟩⟩

/-- In a tree that differs at one location only, a path leads to the same place, or meets that
location in both. -/
theorem resolve_eq_or_meets_at (h : ∀ l, l ≠ loc → t'.get? l = t.get? l) (e : Ending)
    (path : String) : t'.resolve e path = t.resolve e path ∨
      ∃ rest, t.Meets e path loc rest ∧ t'.Meets e path loc rest := by
  rcases resolve_eq_or_meets t t' e path with he | ⟨l, rest, hne, hm⟩
  · exact Or.inl he
  · have hl : l = loc := by
      by_cases hl : l = loc
      · exact hl
      · exact absurd (h l hl) hne
    subst hl
    exact Or.inr ⟨rest, hm t (.left t t'), hm t' (.right t t')⟩

/-- What a path meets it meets in every tree with the same directories and links, and more. -/
theorem Meets.mono (hm : t.Meets e path loc rest)
    (h : ∀ l x, t.get? l = some x → (∀ bytes, x ≠ .file bytes) → t'.get? l = some x) :
    t'.Meets e path loc rest := by
  obtain ⟨hc, m, dir, name, hl, rfl, hr⟩ := hm
  have hstep : ∀ a b, t.Advances e a b → t'.Advances e a b := by
    intro a b hab
    cases hab with
    | skip hs => exact .skip hs
    | up hs => exact .up hs
    | dir hs hg => exact .dir hs (h _ _ hg (by simp))
    | link hs hg hk => exact .link hs (h _ _ hg (by simp)) hk
  exact ⟨hc, m, dir, name, hl, rfl, Relation.ReflTransGen.mono hstep _ _ hr⟩

/-- A path that leads to something other than a directory meets it last. -/
theorem resolve_ends (h : t.resolve e path = .ok place) :
    (∃ loc, place = .entry loc .dir) ∨ ∃ loc, t.Meets e path loc [] ∧ place = t.placeAt loc := by
  cases hc : checkPath path with
  | error f =>
    rw [resolve_of_refused hc] at h
    cases h
  | ok _ =>
    rw [resolve_of_checkPath hc] at h
    rcases walk_ends (a := ⟨linkLimit, origin [] path, pathNames path⟩) h with
      hdir | ⟨m, dir, name, hl, hp, hr⟩
    · exact Or.inl hdir
    · exact Or.inr ⟨dir ++ [name], ⟨hc, m, dir, name, hl, rfl, hr⟩, hp⟩

theorem meets_of_entry (h : t.resolve e path = .ok (.entry loc x)) (hx : x ≠ .dir) :
    t.Meets e path loc [] ∧ t.get? loc = some x := by
  rcases resolve_ends h with ⟨loc', hp⟩ | ⟨loc', hm, hp⟩
  · cases hp
    exact absurd rfl hx
  · simp only [placeAt] at hp
    split at hp
    · next hg =>
      cases hp
      exact ⟨hm, hg⟩
    · cases hp

theorem meets_of_vacant (h : t.resolve e path = .ok (.vacant loc)) :
    t.Meets e path loc [] ∧ t.get? loc = none := by
  rcases resolve_ends h with ⟨loc', hp⟩ | ⟨loc', hm, hp⟩
  · cases hp
  · simp only [placeAt] at hp
    split at hp
    · cases hp
    · next hg =>
      cases hp
      exact ⟨hm, hg⟩

/-- What is found in a tree is also found in another, or its path meets an entry that the other does
not have. -/
theorem find_eq_or_meets (h : t.find path = .ok (loc, x)) (t' : Tree) :
    t'.find path = .ok (loc, x) ∨ ∃ cut rest, t.get? cut ≠ none ∧ t'.get? cut ≠ t.get? cut ∧
      ∀ u, AgreesWhere t t' u → u.Meets .followed path cut rest := by
  rw [find_eq_ok_iff] at h ⊢
  rcases resolve_eq_or_meets t t' .followed path with he | ⟨cut, rest, hd, hm⟩
  · exact Or.inl (he.trans h)
  · refine Or.inr ⟨cut, rest, fun hg => ?_, hd, hm⟩
    have hnot := (hm t (.left t t')).has_eq_false hg
    rw [has_of_find (find_eq_ok_iff.2 h)] at hnot
    cases hnot

/-- What is found stays found where only files elsewhere change, or are made. -/
theorem find_eq_of_elsewhere (h : t.find path = .ok (loc, x))
    (hd : ∀ l, t'.get? l ≠ t.get? l →
      l ≠ loc ∧ (t.get? l = none ∨ ∃ bytes, t.get? l = some (.file bytes))) :
    t'.find path = .ok (loc, x) := by
  rcases find_eq_or_meets h t' with h' | ⟨cut, rest, hg, hne, hm⟩
  · exact h'
  · obtain ⟨hloc, hnone | ⟨bytes, hfile⟩⟩ := hd cut hne
    · exact absurd hnone hg
    · rw [find_eq_ok_iff, (hm t (.left t t')).resolve_file hfile] at h
      split at h
      · cases h
        exact absurd rfl hloc
      · cases h

/-! ## Fewer entries -/

/-- A tree with some of the entries of another, and no others. -/
def Thinner (t t' : Tree) : Prop := ∀ loc, t'.get? loc = t.get? loc ∨ t'.get? loc = none

theorem Thinner.refl (t : Tree) : Thinner t t := fun _ => Or.inl rfl

theorem Thinner.trans {t₁ t₂ t₃ : Tree} (h₁ : Thinner t₁ t₂) (h₂ : Thinner t₂ t₃) :
    Thinner t₁ t₃ := by
  intro loc
  rcases h₂ loc with h | h
  · rw [h]
    exact h₁ loc
  · exact Or.inr h

theorem thinner_erase (h : isAbove loc = false) : Thinner t (t.erase loc) := by
  intro l
  by_cases hl : l = loc
  · subst hl
    exact Or.inr (get?_erase_self t h)
  · exact Or.inl (get?_erase_ne t hl)

/-- Nothing new is found where entries are only removed. -/
theorem Thinner.resolve_eq (h : Thinner t t') (hr : t'.resolve e path = .ok (.entry loc x)) :
    t.resolve e path = .ok (.entry loc x) := by
  rcases resolve_eq_or_meets t' t e path with he | ⟨cut, rest, hd, hm⟩
  · exact he.trans hr
  · rcases h cut with he | he
    · exact absurd he.symm hd
    · rw [(hm t' (.left t' t)).resolve_free he] at hr
      split at hr <;> cases hr

theorem Thinner.find_eq (h : Thinner t t') (hf : t'.find path = .ok (loc, x)) :
    t.find path = .ok (loc, x) := by
  rw [find_eq_ok_iff] at hf ⊢
  exact h.resolve_eq hf

theorem Thinner.has (h : Thinner t t') (hp : t'.has path = true) : t.has path = true := by
  obtain ⟨loc, x, hf⟩ := has_iff.1 hp
  exact has_of_find (h.find_eq hf)

/-- Where entries are removed, a path still leads where it led, or one of the removed entries alone
is enough to cut it off. -/
theorem Thinner.find_eq_or_cut (h : Thinner t t') (hf : t.find path = .ok (loc, x)) :
    t'.find path = .ok (loc, x) ∨ ∃ cut rest, t.get? cut ≠ none ∧ t'.get? cut = none ∧
      (∀ u, AgreesWhere t t' u → u.Meets .followed path cut rest) := by
  rcases find_eq_or_meets hf t' with hf' | ⟨cut, rest, hg, hd, hm⟩
  · exact Or.inl hf'
  · rcases h cut with he | he
    · exact absurd he hd
    · exact Or.inr ⟨cut, rest, hg, he, hm⟩

/-! ## Shorter walks -/

/-- Where a tree has changed there is nothing now, or a file, so a walk ends there. -/
def Shorter (t t' : Tree) : Prop :=
  ∀ loc, t'.get? loc = t.get? loc ∨ t'.get? loc = none ∨ ∃ bytes, t'.get? loc = some (.file bytes)

theorem Shorter.refl (t : Tree) : Shorter t t := fun _ => Or.inl rfl

theorem Shorter.trans {t₁ t₂ t₃ : Tree} (h₁ : Shorter t₁ t₂) (h₂ : Shorter t₂ t₃) :
    Shorter t₁ t₃ := by
  intro loc
  rcases h₂ loc with h | h
  · rw [h]
    exact h₁ loc
  · exact Or.inr h

theorem Thinner.shorter (h : Thinner t t') : Shorter t t' := fun loc => (h loc).imp_right Or.inl

theorem shorter_put (h : isAbove loc = false) (bytes : List UInt8) :
    Shorter t (t.put loc (.file bytes)) := by
  intro l
  by_cases hl : l = loc
  · subst hl
    exact Or.inr (Or.inr ⟨bytes, get?_put_self t _ h⟩)
  · exact Or.inl (get?_put_ne t _ hl)

/-- What a path meets now it met before. -/
theorem Shorter.meets (h : Shorter t t') (hm : t'.Meets e path loc rest) :
    t.Meets e path loc rest := by
  refine hm.mono fun l x hx hnot => ?_
  rcases h l with he | he | ⟨bytes, he⟩
  · rw [← he, hx]
  · rw [hx] at he
    cases he
  · rw [hx] at he
    cases he
    exact absurd rfl (hnot bytes)

/-- The walk of a path comes by none of these locations. -/
def Avoids (t : Tree) (H : Location → Prop) (path : String) : Prop :=
  ∀ loc, H loc → ∀ rest, ¬t.Meets .followed path loc rest

theorem Shorter.avoids {H : Location → Prop} (h : Shorter t t') (ha : t.Avoids H path) :
    t'.Avoids H path := fun loc hl rest hm => ha loc hl rest (h.meets hm)

theorem Avoids.not_of_file {H : Location → Prop} (h : t.Avoids H path)
    (hf : t.find path = .ok (loc, .file bytes)) : ¬H loc :=
  fun hl => h loc hl [] (meets_of_entry (find_eq_ok_iff.1 hf) (by simp)).1

theorem Avoids.not_of_vacant {H : Location → Prop} (h : t.Avoids H path)
    (hv : t.resolve .followed path = .ok (.vacant loc)) : ¬H loc :=
  fun hl => h loc hl [] (meets_of_vacant hv).1

theorem isAbove_of_get?_ne (h : t.get? loc ≠ some .dir) : isAbove loc = false := by
  cases ha : isAbove loc with
  | false => rfl
  | true => exact absurd (get?_of_isAbove t ha) h

theorem isAbove_of_get?_eq_none (h : t.get? loc = none) : isAbove loc = false :=
  isAbove_of_get?_ne (t := t) (by simp [h])

theorem isAbove_of_get?_eq_file (h : t.get? loc = some (.file bytes)) : isAbove loc = false :=
  isAbove_of_get?_ne (t := t) (by simp [h])

theorem isAbove_of_free_or_file
    (h : t.get? loc = none ∨ ∃ bytes, t.get? loc = some (.file bytes)) : isAbove loc = false := by
  rcases h with hnone | ⟨bytes, hfile⟩
  · exact isAbove_of_get?_eq_none hnone
  · exact isAbove_of_get?_eq_file hfile

theorem not_link_of_free_or_file
    (h : t.get? loc = none ∨ ∃ bytes, t.get? loc = some (.file bytes)) (target : String) :
    t.get? loc ≠ some (.link target) := by
  rcases h with hnone | ⟨bytes, hfile⟩
  · simp [hnone]
  · simp [hfile]

/-- Where nothing or a file is, no walk goes on. -/
theorem ne_of_free_or_file {l : Location}
    (h : t.get? loc = none ∨ ∃ bytes, t.get? loc = some (.file bytes)) (hl : t.get? l = some x)
    (hnot : ∀ bytes, x ≠ .file bytes) : l ≠ loc := by
  rintro rfl
  rcases h with hnone | ⟨bytes, hfile⟩
  · rw [hnone] at hl
    cases hl
  · rw [hfile] at hl
    cases hl
    exact hnot bytes rfl

/-! ## Own entries -/

/-- The entry under the very name of a path, a file or a link. -/
def Owns (t : Tree) (path : String) (own : Location) : Prop :=
  ∃ x, t.resolve .kept path = .ok (.entry own x) ∧ x ≠ .dir

theorem Owns.unique {own' : Location} (h : t.Owns path own) (h' : t.Owns path own') :
    own = own' := by
  obtain ⟨x, hx, -⟩ := h
  obtain ⟨x', hx', -⟩ := h'
  rw [hx] at hx'
  cases hx'
  rfl

theorem Thinner.owns (h : Thinner t t') (ho : t'.Owns path own) : t.Owns path own := by
  obtain ⟨x, hx, hd⟩ := ho
  exact ⟨x, h.resolve_eq hx, hd⟩

theorem Owns.meets (h : t.Owns path own) : t.Meets .followed path own [] := by
  obtain ⟨x, hx, hd⟩ := h
  exact (meets_of_entry hx hd).1.followed

theorem Owns.get?_ne (h : t.Owns path own) : ∃ x, t.get? own = some x ∧ x ≠ .dir := by
  obtain ⟨x, hx, hd⟩ := h
  exact ⟨x, (meets_of_entry hx hd).2, hd⟩

theorem Owns.isAbove (h : t.Owns path own) : isAbove own = false := by
  obtain ⟨x, hx, hd⟩ := h.get?_ne
  exact isAbove_of_get?_ne (t := t) (by simpa [hx] using hd)

/-- A path whose own entry is a file leads to that file. -/
theorem Owns.find_of_file (h : t.Owns path own) (hg : t.get? own = some (.file bytes)) :
    t.find path = .ok (own, .file bytes) :=
  h.meets.find_file hg

/-- A file or a link that a path meets last is its own entry. -/
theorem Meets.owns (h : t.Meets .kept path own []) (hg : t.get? own = some x) (hx : x ≠ .dir) :
    t.Owns path own := by
  obtain ⟨hc, m, dir, name, hl, rfl, hr⟩ := h
  refine ⟨x, ?_, hx⟩
  rw [resolve_of_checkPath hc]
  refine (walk_eq_of_reaches hr).trans ?_
  cases x with
  | dir => exact absurd rfl hx
  | file b => exact (walk_file hl hg).trans (if_pos rfl)
  | link target => exact walk_keptLink hl hg

/-- A path that leads to a file has an entry of its own. -/
theorem exists_owns (h : t.find path = .ok (loc, .file bytes)) : ∃ own, t.Owns path own := by
  rw [find_eq_ok_iff] at h
  cases hc : checkPath path with
  | error f =>
    rw [resolve_of_refused hc] at h
    cases h
  | ok _ =>
    rw [resolve_of_checkPath hc] at h
    obtain ⟨m, dir, name, x, hg, hx, hl, hr⟩ :=
      walk_kept_of_file (a := ⟨linkLimit, origin [] path, pathNames path⟩) h
    exact ⟨dir ++ [name], Meets.owns ⟨hc, m, dir, name, hl, rfl, hr⟩ hg hx⟩

/-- A path that meets the own entry of a file leads to that file or nowhere. -/
theorem Owns.find_eq (ho : t.Owns other own) (hf : t.find other = .ok (loc, .file bytes))
    (hm : t.Meets .followed path own rest) {place : Place}
    (h : t.resolve .followed path = .ok place) :
    rest = [] ∧ place = .entry loc (.file bytes) := by
  obtain ⟨hc, m, dir, name, hl, hn, hr⟩ := hm
  obtain ⟨hc', m', dir', name', hl', hn', hr'⟩ := ho.meets
  obtain ⟨rfl, hnames⟩ := List.append_inj' (hn.trans hn'.symm) rfl
  cases hnames
  rw [find_eq_ok_iff, resolve_of_checkPath hc'] at hf
  rw [resolve_of_checkPath hc] at h
  have hf' := (walk_eq_of_reaches hr').symm.trans hf
  have h' := (walk_eq_of_reaches hr).symm.trans h
  exact walk_behind_file (a := ⟨m', dir, [name]⟩) hf' h'

/-- Two paths that meet a location last lead to the same place, unless one follows too many
links. -/
theorem Meets.resolve_eq (h : t.Meets .followed path loc []) (h' : t.Meets .followed other loc [])
    (hp : t.resolve .followed path = .ok place) :
    t.resolve .followed other = .ok place ∨ t.resolve .followed other = .error .tooManyLinks := by
  obtain ⟨hc, m, dir, name, hl, hn, hr⟩ := h
  obtain ⟨hc', m', dir', name', hl', hn', hr'⟩ := h'
  obtain ⟨rfl, hnames⟩ := List.append_inj' (hn.trans hn'.symm) rfl
  cases hnames
  rw [resolve_of_checkPath hc] at hp
  rw [resolve_of_checkPath hc', walk_eq_of_reaches hr']
  exact walk_refuel (a := ⟨m, dir, [name]⟩) ((walk_eq_of_reaches hr).symm.trans hp) m'

/-- Removing a path that leads to a file or a link clears its own entry. -/
theorem remove_eq_ok_iff : t.remove path = .ok t' ↔ ∃ own, t.Owns path own ∧ t' = t.erase own := by
  unfold remove Owns
  cases h : t.resolve .kept path with
  | error f => simp [bind, Except.bind]
  | ok place =>
    cases place with
    | vacant loc => simp [bind, Except.bind, throw, throwThe, MonadExceptOf.throw]
    | entry loc x =>
      have hx : x ≠ .dir → ((.ok (t.erase loc) : Except Fault Tree) = .ok t' ↔
          ∃ own, (∃ x', (.ok (.entry loc x) : Except Fault Place) = .ok (.entry own x') ∧
            x' ≠ .dir) ∧ t' = t.erase own) := by
        intro hd
        constructor
        · rintro ⟨⟩
          exact ⟨loc, ⟨x, rfl, hd⟩, rfl⟩
        · rintro ⟨own, ⟨x', ⟨⟩, -⟩, rfl⟩
          rfl
      cases x with
      | dir => simp [bind, Except.bind, throw, throwThe, MonadExceptOf.throw]
      | file b => exact hx (by simp)
      | link target => exact hx (by simp)

/-! ## New files -/

/-- A file is opened where it is, or where it can be made. -/
theorem openFile_eq_ok_iff {before : List UInt8} : t.openFile path = .ok (loc, before) ↔
    t.resolve .opened path = .ok (.entry loc (.file before)) ∨
      t.resolve .opened path = .ok (.vacant loc) ∧ before = [] := by
  unfold openFile
  cases ho : t.resolve .opened path with
  | error f => simp [bind, Except.bind]
  | ok place =>
    cases place with
    | vacant loc' => simp [bind, Except.bind, pure, Except.pure, eq_comm]
    | entry loc' x =>
      cases x <;>
        simp [bind, Except.bind, pure, Except.pure, throw, throwThe, MonadExceptOf.throw]

/-- A file is opened at the location that its path meets last. -/
theorem openFile_ok {before : List UInt8} (h : t.openFile path = .ok (loc, before)) :
    t.Meets .opened path loc [] ∧ (t.get? loc = none ∨ t.get? loc = some (.file before)) := by
  rcases openFile_eq_ok_iff.1 h with ho | ⟨ho, -⟩
  · obtain ⟨hm, hg⟩ := meets_of_entry ho (by simp)
    exact ⟨hm, Or.inr hg⟩
  · obtain ⟨hm, hg⟩ := meets_of_vacant ho
    exact ⟨hm, Or.inl hg⟩

theorem write_eq_ok (h : t.write path bytes = .ok t') :
    ∃ loc before, t.openFile path = .ok (loc, before) ∧ t' = t.put loc (.file bytes) := by
  unfold write at h
  cases ho : t.openFile path with
  | error f => simp [ho, bind, Except.bind] at h
  | ok r =>
    simp only [ho, bind, Except.bind, pure, Except.pure, Except.ok.injEq] at h
    exact ⟨r.1, r.2, rfl, h.symm⟩

/-- Writing where nothing is found puts a file at a free location, the one the path leads to. -/
theorem exists_put_of_write (h : t.write path bytes = .ok t') (hfree : t.has path = false) :
    ∃ loc, t.resolve .followed path = .ok (.vacant loc) ∧ t' = t.put loc (.file bytes) := by
  obtain ⟨loc, before, ho, rfl⟩ := write_eq_ok h
  obtain ⟨hm, hg | hg⟩ := openFile_ok ho
  · exact ⟨loc, hm.followed.resolve_vacant hg, rfl⟩
  · rw [has_of_find (hm.find_file hg)] at hfree
    cases hfree

/-- A path leads to an entry or to a free name. -/
def Leads (t : Tree) (path : String) : Prop := ∃ place, t.resolve .followed path = .ok place

/-- Where nothing is found, a file can be written exactly if the path leads to a free name. -/
theorem write_eq_ok_iff_leads (hfree : t.has path = false) (bytes : List UInt8) :
    (∃ t', t.write path bytes = .ok t') ↔ t.Leads path := by
  constructor
  · rintro ⟨t', h⟩
    obtain ⟨loc, hv, -⟩ := exists_put_of_write h hfree
    exact ⟨_, hv⟩
  · rintro ⟨place, h⟩
    cases place with
    | entry loc x =>
      rw [has_of_find (find_eq_ok_iff.2 h)] at hfree
      cases hfree
    | vacant loc =>
      have hc : checkPath path = .ok () := (meets_of_vacant h).1.1
      rw [resolve_of_checkPath hc] at h
      have hopened : t.resolve .opened path = .ok (.vacant loc) := by
        rw [resolve_of_checkPath hc]
        exact walk_opened_of_vacant (a := ⟨linkLimit, origin [] path, pathNames path⟩) h
      refine ⟨t.put loc (.file bytes), ?_⟩
      simp [write, openFile_eq_ok_iff.2 (Or.inr ⟨hopened, rfl⟩), bind, Except.bind, pure,
        Except.pure]

/-- Where one entry is put, a path leads to the same place, or meets that location before and after.
-/
theorem resolve_put_eq_or_meets (t : Tree) (loc : Location) (x : Entry) (e : Ending)
    (path : String) : (t.put loc x).resolve e path = t.resolve e path ∨
      ∃ rest, t.Meets e path loc rest ∧ (t.put loc x).Meets e path loc rest :=
  resolve_eq_or_meets_at (fun _ hl => get?_put_ne t x hl) e path

/-- A new file hides nothing. -/
theorem find_put (hg : t.get? own = none) (h : t.find path = .ok (loc, x)) (y : Entry) :
    (t.put own y).find path = .ok (loc, x) := by
  rw [find_eq_ok_iff] at h ⊢
  rcases resolve_put_eq_or_meets t own y .followed path with he | ⟨rest, hm, -⟩
  · exact he.trans h
  · rw [hm.resolve_free hg] at h
    split at h <;> cases h

/-- Beside something new, a path has the entry of its own that it had. -/
theorem owns_put (hg : t.get? loc = none) (h : t.Owns path own) (y : Entry) :
    (t.put loc y).Owns path own := by
  obtain ⟨x, hx, hd⟩ := h
  refine ⟨x, ?_, hd⟩
  rcases resolve_put_eq_or_meets t loc y .kept path with he | ⟨rest, hm, -⟩
  · exact he.trans hx
  · rw [hm.resolve_free hg] at hx
    split at hx <;> cases hx

/-- What is found beside a new file was found before. -/
theorem find_of_find_put (hg : t.get? own = none)
    (h : (t.put own (.file bytes)).find path = .ok (loc, x)) :
    loc = own ∨ t.find path = .ok (loc, x) := by
  rw [find_eq_ok_iff] at h ⊢
  rcases resolve_put_eq_or_meets t own (.file bytes) .followed path with he | ⟨rest, -, hm⟩
  · exact Or.inr (he.symm.trans h)
  · left
    rw [hm.resolve_file (get?_put_self t _ (isAbove_of_get?_eq_none hg))] at h
    split at h
    · cases h
      rfl
    · cases h

/-- What is put where a path ends, in place of nothing or of a file, is met by that path. -/
theorem Meets.put (hm : t.Meets .followed path loc [])
    (hg : t.get? loc = none ∨ ∃ before, t.get? loc = some (.file before)) (x : Entry) :
    (t.put loc x).Meets .followed path loc [] := by
  have hself := get?_put_self t x (isAbove_of_free_or_file hg)
  rcases resolve_put_eq_or_meets t loc x .followed path with he | ⟨rest, hold, hnew⟩
  · -- the walk goes as before, so it still ends there
    rcases hg with hg | ⟨before, hg⟩
    · have hv := he.trans (hm.resolve_vacant hg)
      rw [(meets_of_vacant hv).2] at hself
      cases hself
    · have hv := he.trans ((hm.resolve_file hg).trans (if_pos rfl))
      exact (meets_of_entry hv (by simp)).1
  · have hrest : rest = [] := by
      by_cases hrest : rest = []
      · exact hrest
      · rcases hg with hg | ⟨before, hg⟩
        · have h := (hold.resolve_free hg).symm.trans (hm.resolve_free hg)
          simp [hrest] at h
        · have h := (hold.resolve_file hg).symm.trans (hm.resolve_file hg)
          simp [hrest] at h
    exact hrest ▸ hnew

/-- A file that is put where a path leads is found at that path. -/
theorem find_put_self (hm : t.Meets .followed path loc [])
    (hg : t.get? loc = none ∨ ∃ before, t.get? loc = some (.file before)) (bytes : List UInt8) :
    (t.put loc (.file bytes)).find path = .ok (loc, .file bytes) := by
  have hself := get?_put_self t (.file bytes) (isAbove_of_free_or_file hg)
  rw [find_eq_ok_iff, (hm.put hg _).resolve_file hself]
  rfl

/-- A directory that is made where a path leads is found at that path. -/
theorem find_put_dir (hm : t.Meets .followed path loc []) (hg : t.get? loc = none) :
    (t.put loc .dir).find path = .ok (loc, .dir) := by
  have hself := get?_put_self t .dir (isAbove_of_get?_eq_none hg)
  rw [find_eq_ok_iff, (hm.put (Or.inl hg) .dir).resolve_dir hself]

end NearDup.Tree
