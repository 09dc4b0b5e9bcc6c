import NearDup.Proofs.Tree.Replace

/-!
# The names of a path, one after the other

The names in front lead to a directory, with all links followed, and what is left is walked from
there. So a path that leads anywhere leads through its directory, and the last name is looked up
there under itself, unless it is a link that is followed.

* `Tree.own?` — what stands under the last name of a path, and where
* `exists_reaches_front` — a walk that leads somewhere comes through a directory at every name
* `Reaches.infront` — a walk goes on with more names as it goes without them
* `getLast?_of_meets` — the own entry of a path has its last name
* `withParents_of_resolve` — nothing is made for a path that leads somewhere
* `Tree.Rooted` — every entry stands in a directory
-/

namespace NearDup.Tree

open Effect

variable {t t' : Tree} {e : Ending} {path : String} {dirs : List String} {loc : Location}
  {x : Entry} {place : Place} {more rest : List String} {a b : Stage}

/-! ## Own entries -/

/-- What stands under the last name of a path, and where; links are not followed there. -/
def own? (path : String) (t : Tree) : Option (Location × Entry) :=
  match t.resolve .kept path with
  | .ok (.entry loc x) => some (loc, x)
  | _ => none

theorem own?_eq_some_iff :
    t.own? path = some (loc, x) ↔ t.resolve .kept path = .ok (.entry loc x) := by
  unfold own?
  split
  · next l y h => simp [h]
  · next h =>
    constructor
    · simp
    · exact fun hr => absurd hr (h loc x)

theorem own?_eq_none_iff :
    t.own? path = none ↔ ∀ loc x, t.resolve .kept path ≠ .ok (.entry loc x) := by
  constructor
  · intro h loc x hr
    rw [own?_eq_some_iff.2 hr] at h
    cases h
  · intro h
    cases ho : t.own? path with
    | none => rfl
    | some own => exact absurd (own?_eq_some_iff.1 ho) (h own.1 own.2)

theorem own?_of_resolve_eq (h : t'.resolve .kept path = t.resolve .kept path) :
    t'.own? path = t.own? path := by
  rw [own?, own?, h]

theorem isLink_iff_own? :
    t.isLink path = true ↔ ∃ loc target, t.own? path = some (loc, .link target) := by
  simp only [own?_eq_some_iff]
  constructor
  · intro h
    unfold isLink at h
    split at h
    · next l target hr => exact ⟨l, target, hr⟩
    · cases h
  · rintro ⟨l, target, hr⟩
    exact isLink_of_resolve hr

theorem isLink_of_own?_eq (h : t'.own? path = t.own? path) : t'.isLink path = t.isLink path := by
  rw [Bool.eq_iff_iff, isLink_iff_own?, isLink_iff_own?, h]

/-! ## Names in front -/

/-- A walk comes by the same stages with more names behind, of which one at least is not empty. -/
theorem Reaches.infront (h : t.Reaches .followed a b) (hmore : ∃ name ∈ more, name ≠ "") :
    t.Reaches e ⟨a.links, a.here, a.names ++ more⟩ ⟨b.links, b.here, b.names ++ more⟩ := by
  obtain ⟨name, hmem, hname⟩ := hmore
  have hslash (rest : List String) : ¬(e = .opened ∧ endsInSlash (rest ++ more) = true) := by
    rintro ⟨-, h⟩
    simp only [endsInSlash, Bool.and_eq_true, List.all_eq_true, decide_eq_true_eq] at h
    exact hname (h.2 name (List.mem_append_right _ hmem))
  have hne (rest : List String) : rest ++ more ≠ [] := by
    intro h
    rw [List.append_eq_nil_iff] at h
    rw [h.2] at hmem
    cases hmem
  induction h with
  | refl => exact .refl
  | tail _ hs ih =>
    refine ih.tail ?_
    cases hs with
    | skip h => exact .skip h
    | up h => exact .up h
    | dir h hg => exact .dir ⟨h.significant, h.not_up, hslash _, h.short⟩ hg
    | @link n here name target rest h hg hk =>
      rw [List.append_assoc]
      exact .link ⟨h.significant, h.not_up, hslash _, h.short⟩ hg fun h => hne rest h.1

/-- **A walk that leads somewhere comes through a directory at every name**, and goes on from there
with the names that are left. -/
theorem exists_reaches_front (hmore : more ≠ [])
    (h : t.walk e a.links a.here (a.names ++ more) = .ok place) :
    ∃ m dir, t.Reaches .followed a ⟨m, dir, []⟩ ∧ t.walk e m dir more = .ok place := by
  induction a using stage_induction (t := t) (e := .followed) with
  | step a ih =>
    obtain ⟨n, here, names⟩ := a
    cases names with
    | nil => exact ⟨n, here, .refl, h⟩
    | cons name rest =>
      have hrest : rest ++ more ≠ [] := by simp [hmore]
      have onward : ∀ b, t.Advances .followed ⟨n, here, name :: rest⟩ b →
          t.walk e b.links b.here (b.names ++ more) = .ok place →
          ∃ m dir, t.Reaches .followed ⟨n, here, name :: rest⟩ ⟨m, dir, []⟩ ∧
            t.walk e m dir more = .ok place := by
        intro b hb hw
        obtain ⟨m, dir, hr, hend⟩ := ih b hb hw
        exact ⟨m, dir, hr.head hb, hend⟩
      simp only [List.cons_append] at h
      by_cases h₁ : name = "" ∨ name = "."
      · rw [walk_skip h₁] at h
        exact onward _ (.skip h₁) h
      by_cases h₂ : name = ".."
      · rw [walk_up h₂] at h
        exact onward _ (.up h₂) h
      by_cases hl : ¬LooksUp e name (rest ++ more)
      · obtain ⟨f, hf⟩ := walk_refused h₁ h₂ hl
        rw [hf] at h
        cases h
      have hl : LooksUp e name (rest ++ more) := Classical.not_not.1 hl
      cases hg : t.get? (here ++ [name]) with
      | none =>
        rw [walk_free hl hg, if_neg hrest] at h
        cases h
      | some x =>
        cases x with
        | file bytes =>
          rw [walk_file hl hg, if_neg hrest] at h
          cases h
        | dir =>
          rw [walk_dir hl hg] at h
          exact onward _ (.dir (hl.followed _) hg) h
        | link target =>
          rw [walk_link hl hg fun h => hrest h.1, ← List.append_assoc] at h
          cases n with
          | zero => cases h
          | succ n => exact onward _ (.link (hl.followed _) hg (by simp)) h

/-- A walk that takes a link at the last name as it stands looks up the last name last. -/
theorem getLast?_of_reaches (h : t.Reaches .kept a b) (hne : b.names ≠ []) :
    b.names.getLast? = a.names.getLast? := by
  induction h with
  | refl => rfl
  | tail _ hs ih =>
    cases hs with
    | skip h => rw [← ih (by simp), List.getLast?_cons_of_ne_nil hne]
    | up h => rw [← ih (by simp), List.getLast?_cons_of_ne_nil hne]
    | dir h hg => rw [← ih (by simp), List.getLast?_cons_of_ne_nil hne]
    | @link n here name target rest h hg hk =>
      have hrest : rest ≠ [] := fun hr => hk ⟨hr, rfl⟩
      rw [← ih (by simp), List.getLast?_append_of_ne_nil _ hrest,
        List.getLast?_cons_of_ne_nil hrest]

/-- The own entry of a path has its last name. -/
theorem getLast?_of_meets (h : t.Meets .kept path loc []) :
    loc.getLast? = (pathNames path).getLast? := by
  obtain ⟨-, m, dir, name, -, rfl, hr⟩ := h
  have hlast := getLast?_of_reaches hr (List.cons_ne_nil name [])
  rw [List.getLast?_append_of_ne_nil _ (List.cons_ne_nil name []), hlast]

/-- Where a path leads, there is a directory at every directory above it. -/
theorem isDir_of_above {dir : String} (ha : Path.Above dir path)
    (h : t.resolve e path = .ok place) : dir = "" ∨ t.isDir dir = true := by
  rcases ha.front with hempty | rfl | ⟨rest, hs⟩
  · exact Or.inl hempty
  · exact Or.inr rfl
  · by_cases hne : dir = ""
    · exact Or.inl hne
    right
    cases hc : checkPath path with
    | error f =>
      rw [resolve_of_refused hc] at h
      cases h
    | ok _ =>
      rw [resolve_of_checkPath hc, pathNames_front hs, origin_front hs hne] at h
      have hbehind : (Text.pieces '/' rest).map String.ofList ≠ [] := by
        simpa using Text.pieces_ne_nil '/' rest
      obtain ⟨m, here, hr, -⟩ :=
        exists_reaches_front (a := ⟨linkLimit, origin [] dir, pathNames dir⟩) hbehind h
      refine isDir_iff.2 ⟨here, find_eq_ok_iff.2 ?_⟩
      rw [resolve_of_checkPath (checkPath_front hs hne hc)]
      exact (walk_eq_of_reaches hr).trans walk_nil

/-- **Nothing is made for a path that leads somewhere.** -/
theorem withParents_of_resolve (h : t.resolve e path = .ok place) : t.withParents path = t := by
  unfold withParents
  rw [perform_ensureParent_of_isDir fun dir hdir => isDir_of_above (.parent hdir) h]

/-! ## Trees of which every entry stands in a directory -/

/-- Every entry stands in a directory. -/
def Rooted (t : Tree) : Prop := ∀ e ∈ t.entries, t.get? e.1.dropLast = some .dir

instance (t : Tree) : Decidable t.Rooted := inferInstanceAs (Decidable (∀ e ∈ t.entries, _))

theorem Rooted.get? {name : String} (h : t.Rooted) (hx : t.get? (loc ++ [name]) = some x) :
    t.get? loc = some .dir := by
  cases ha : isAbove (loc ++ [name]) with
  | true =>
    refine get?_of_isAbove t ?_
    simp only [isAbove, Bool.or_eq_true, decide_eq_true_eq] at ha ⊢
    rcases ha with ha | ha
    · right
      have hnil : loc = [] := by
        have hlen := congrArg List.length ha
        simp only [root, List.length_append, List.length_cons, List.length_nil] at hlen
        exact List.length_eq_zero_iff.1 (by omega)
      simp [hnil]
    · right
      rw [List.all_append, Bool.and_eq_true] at ha
      exact ha.1
  | false =>
    simp only [Tree.get?, ha, Bool.false_eq_true, if_false] at hx
    obtain ⟨entry, hmem, hloc⟩ := lookUp_isSome_iff.1 (Option.isSome_iff_exists.2 ⟨x, hx⟩)
    have hdir := h entry hmem
    rwa [hloc, List.dropLast_concat] at hdir

/-- Nothing stands below a free location. -/
theorem Rooted.get?_below {name : String} (h : t.Rooted) (hg : t.get? loc = none) :
    t.get? (loc ++ [name]) = none := by
  cases hx : t.get? (loc ++ [name]) with
  | none => rfl
  | some x =>
    rw [h.get? hx] at hg
    cases hg

/-- Above a directory there is a directory. -/
theorem Rooted.get?_up (h : t.Rooted) (hg : t.get? loc = some .dir) :
    t.get? (up loc) = some .dir := by
  unfold up
  split
  · exact get?_of_isAbove t (by simp [isAbove])
  · next hroot =>
    split
    · next ha =>
      refine get?_of_isAbove t ?_
      simp only [isAbove, Bool.or_eq_true, decide_eq_true_eq] at ha ⊢
      right
      rw [List.all_append, ha.resolve_left hroot]
      rfl
    · next ha =>
      have hne : loc ≠ [] := by
        rintro rfl
        exact ha rfl
      rw [← List.dropLast_append_getLast hne] at hg
      exact h.get? hg

/-- A walk that begins in a directory stays in directories. -/
theorem Rooted.get?_here (h : t.Rooted) (hr : t.Reaches e a b)
    (ha : t.get? a.here = some .dir) : t.get? b.here = some .dir := by
  induction hr with
  | refl => exact ha
  | tail _ hs ih =>
    cases hs with
    | skip => exact ih
    | up => exact h.get?_up ih
    | dir _ hg => exact hg
    | link =>
      unfold origin
      split
      · exact get?_of_isAbove t (by simp [isAbove])
      · exact ih

/-- A free name that a path leads to is one in a directory. -/
theorem Rooted.get?_front {name : String} (h : t.Rooted)
    (hm : t.Meets e path (loc ++ [name]) rest) : t.get? loc = some .dir := by
  obtain ⟨-, m, dir, name', -, hloc, hr⟩ := hm
  obtain ⟨rfl, -⟩ := List.append_inj' hloc rfl
  refine h.get?_here hr (get?_of_isAbove t ?_)
  unfold origin
  split
  · simp [isAbove]
  · rfl

/-- A directory that is made at a free name stands in a directory. -/
theorem Rooted.put_dir (h : t.Rooted) (hm : t.Meets e path loc rest) (hg : t.get? loc = none) :
    (t.put loc .dir).Rooted := by
  obtain ⟨dir, name, rfl⟩ : ∃ dir name, loc = dir ++ [name] := by
    obtain ⟨-, m, dir, name, -, hloc, -⟩ := hm
    exact ⟨dir, name, hloc.symm⟩
  have hself := get?_put_self t .dir (isAbove_of_get?_eq_none hg)
  have hkept : ∀ l, t.get? l = some .dir → (t.put (dir ++ [name]) .dir).get? l = some .dir := by
    intro l hl
    by_cases heq : l = dir ++ [name]
    · rw [heq, hself]
    · rw [get?_put_ne t _ heq, hl]
  intro entry hmem
  rcases List.mem_cons.1 hmem with rfl | hmem
  · rw [List.dropLast_concat]
    exact hkept dir (h.get?_front hm)
  · exact hkept _ (h entry (List.mem_filter.1 hmem).1)

end NearDup.Tree
