import NearDup.Proofs.Journal.Appended

/-!
# The way to the journal

Before a record is written, the directories above the journal are made. So the way to the journal is
that in the tree where they are made. It goes on from the ways to the directories above, and where
two trees are the same on it, the same directories are made in both.

* `Meets.further` — the way to a path comes by what is on the way to a directory above it
* `ensureDirs_alike` — directories are made alike in two trees, or a way comes to where they differ
* `withParents_alike` — the same for the directories above a path
* `withParents_of_append` — nothing is made any more once a record is written
* `Lacks.withParents` — the same directories are made without a file or link that is off the way
-/

namespace NearDup.Tree

open Effect

variable {t t' u u' : Tree} {e : Ending} {path dir : String} {dirs : List String}
  {loc : Location} {rest : List String} {x : Entry}

/-! ## Ways that go on -/

/-- A walk comes by the same stages when there are further names. -/
theorem Reaches.behind {a b : Stage} (h : t.Reaches .followed a b) (more : List String) :
    t.Reaches .followed ⟨a.links, a.here, a.names ++ more⟩ ⟨b.links, b.here, b.names ++ more⟩ := by
  induction h with
  | refl => exact .refl
  | tail _ hs ih =>
    refine ih.tail ?_
    cases hs with
    | skip h => exact .skip h
    | up h => exact .up h
    | dir h hg => exact .dir (h.followed _) hg
    | link h hg hk =>
      rw [List.append_assoc]
      exact .link (h.followed _) hg (by simp)

/-- Where all names are empty, nothing is looked up. -/
theorem not_reaches_of_empty {a b : Stage} (h : t.Reaches e a b) (ha : ∀ n ∈ a.names, n = "") :
    ∀ n ∈ b.names, n = "" := by
  induction h with
  | refl => exact ha
  | tail _ hs ih =>
    cases hs with
    | skip h => exact fun n hn => ih n (List.mem_cons_of_mem _ hn)
    | up h => exact fun n hn => ih n (List.mem_cons_of_mem _ hn)
    | dir h hg => exact absurd (Or.inl (ih _ List.mem_cons_self)) h.significant
    | link h hg hk => exact absurd (Or.inl (ih _ List.mem_cons_self)) h.significant

/-- The way to a path comes by what is on the way to a directory above it, and goes on. -/
theorem Meets.further (h : t.Meets .followed dir loc rest) (ha : Path.Above dir path)
    (hc : checkPath path = .ok ()) : ∃ rest', rest' ≠ [] ∧ t.Meets .followed path loc rest' := by
  obtain ⟨hcd, m, here, name, hl, hloc, hr⟩ := h
  rcases ha.front with rfl | rfl | ⟨more, hs⟩
  · cases hcd
  · have hnone := not_reaches_of_empty hr (by decide) name List.mem_cons_self
    exact absurd (Or.inl hnone) hl.significant
  · have hne : dir ≠ "" := by
      rintro rfl
      cases hcd
    have hmore : (Text.pieces '/' more).map String.ofList ≠ [] := by
      simpa using Text.pieces_ne_nil '/' more
    refine ⟨rest ++ (Text.pieces '/' more).map String.ofList, by simp [hmore],
      hc, m, here, name, hl.followed _, hloc, ?_⟩
    rw [origin_front hs hne, pathNames_front hs]
    exact hr.behind _

/-! ## More directories -/

/-- What a path meets it meets beside new directories. -/
theorem Adds.meets (h : Adds dirs t t') (hm : t.Meets e path loc rest) :
    t'.Meets e path loc rest := hm.mono fun _ _ hx _ => h.get? hx

/-- A path leads to the entry that it led to beside new directories. -/
theorem Adds.resolve (h : Adds dirs t t') (hr : t.resolve e path = .ok (.entry loc x)) :
    t'.resolve e path = .ok (.entry loc x) := by
  rcases resolve_eq_or_meets t t' e path with he | ⟨cut, rest, hne, hm⟩
  · exact he.trans hr
  · rcases h cut with he | ⟨hg, -⟩
    · exact absurd he hne
    · rw [(hm t (.left t t')).resolve_free hg] at hr
      split at hr <;> cases hr

theorem Adds.owns {own : Location} (h : Adds dirs t t') (ho : t.Owns path own) :
    t'.Owns path own := by
  obtain ⟨x, hx, hd⟩ := ho
  exact ⟨x, h.resolve hx, hd⟩

/-! ## Two trees -/

/-- Two trees have come out alike of two others: where they differ, they are as those were. -/
def Alike (t t' u u' : Tree) : Prop :=
  ∀ loc, u'.get? loc = u.get? loc ∨ u'.get? loc = t'.get? loc ∧ u.get? loc = t.get? loc

/-- A path comes to a location where two trees differ. -/
def Parts (t t' u : Tree) (path : String) : Prop :=
  ∃ loc rest, t'.get? loc ≠ t.get? loc ∧ u.Meets .followed path loc rest

/-- The same fault, or trees that have come out alike. -/
def AlikeResults (t t' : Tree) : Except Fault Tree → Except Fault Tree → Prop
  | .ok u, .ok u' => Alike t t' u u'
  | .error f, .error f' => f' = f
  | _, _ => False

theorem Alike.refl (t t' : Tree) : Alike t t' t t' := fun _ => Or.inr ⟨rfl, rfl⟩

theorem Alike.resolve (h : Alike t t' u u') (e : Ending) (path : String) :
    u'.resolve e path = u.resolve e path ∨ Parts t t' u path := by
  rcases resolve_eq_or_meets u u' e path with he | ⟨loc, rest, hne, hm⟩
  · exact Or.inl he
  · rcases h loc with he | ⟨h', h⟩
    · exact absurd he hne
    · exact Or.inr ⟨loc, rest, by rwa [← h', ← h], (hm u (.left u u')).followed⟩

theorem Alike.put (h : Alike t t' u u') (ha : isAbove loc = false) (x : Entry) :
    Alike t t' (u.put loc x) (u'.put loc x) := by
  intro l
  by_cases hl : l = loc
  · subst hl
    exact Or.inl (by rw [get?_put_self u x ha, get?_put_self u' x ha])
  · rw [get?_put_ne u x hl, get?_put_ne u' x hl]
    exact h l

theorem Alike.makeDir (hp : withoutSlashes dir = dir) (h : Alike t t' u u') :
    AlikeResults t t' (u.makeDir dir) (u'.makeDir dir) ∨ Parts t t' u dir := by
  refine (h.resolve .kept dir).imp_left fun he => ?_
  unfold Tree.makeDir
  rw [hp, he]
  cases checkPath dir with
  | error f => exact rfl
  | ok _ =>
    cases hr : u.resolve .kept dir with
    | error f => exact rfl
    | ok place =>
      cases place with
      | entry l y => exact rfl
      | vacant l =>
        exact h.put (isAbove_of_get?_eq_none (meets_of_vacant hr).2) .dir

theorem Alike.isDir (h : Alike t t' u u') (dir : String) :
    u'.isDir dir = u.isDir dir ∨ Parts t t' u dir := by
  refine (h.resolve .followed dir).imp_left fun he => ?_
  unfold Tree.isDir find
  rw [he]

theorem Alike.ensureDir (hp : withoutSlashes dir = dir) (h : Alike t t' u u') :
    AlikeResults t t' (u.ensureDir dir) (u'.ensureDir dir) ∨ Parts t t' u dir := by
  rcases h.makeDir hp with hm | hparts
  · refine (h.isDir dir).imp_left fun hd => ?_
    unfold Tree.ensureDir
    revert hm
    rcases u.makeDir dir with f | v <;> rcases u'.makeDir dir with f' | v' <;> intro hm
    · obtain rfl : f' = f := hm
      simp only [hd]
      split
      · exact h
      · exact rfl
    · exact hm.elim
    · exact hm.elim
    · exact hm
  · exact Or.inr hparts

theorem AlikeResults.error_iff {r r' : Except Fault Tree} {f : Fault}
    (h : AlikeResults t t' r r') : r' = .error f ↔ r = .error f := by
  revert h
  rcases r with g | v <;> rcases r' with g' | v' <;> intro h
  · obtain rfl : g' = g := h
    rfl
  · exact h.elim
  · exact h.elim
  · simp

/-! ## Making directories -/

/-- If something on the way to a directory is missing, then those above it are made first. -/
theorem perform_ensureDirs_of_missing {above : List String} (hne : dir ≠ "")
    (h : t.makeDir dir = .error .noEntry) :
    (ensureDirs (dir :: above)).perform t = match ((ensureDirs above).perform t).1 with
      | .ok _ => (Effect.change (ensureDir dir)).perform ((ensureDirs above).perform t).2
      | .error f => (.error f, ((ensureDirs above).perform t).2) := by
  rw [ensureDirs, if_neg hne]
  simp only [perform_bind, perform_get, h, if_true]
  rcases (ensureDirs above).perform t with ⟨_ | u, t₁⟩ <;> rfl

theorem perform_ensureDirs_of_not_missing {above : List String} (hne : dir ≠ "")
    (h : t.makeDir dir ≠ .error .noEntry) :
    (ensureDirs (dir :: above)).perform t = (Effect.change (ensureDir dir)).perform t := by
  rw [ensureDirs, if_neg hne]
  simp only [perform_bind, perform_get]
  rfl

/-- What an operation makes of two trees is alike if its results are. -/
theorem AlikeResults.change {op : Tree → Except Fault Tree} (h : Alike t t' u u')
    (hop : AlikeResults t t' (op u) (op u')) :
    ((Effect.change op).perform u').1 = ((Effect.change op).perform u).1 ∧
      Alike t t' ((Effect.change op).perform u).2 ((Effect.change op).perform u').2 := by
  rw [Effect.change, perform_ofPerform, perform_ofPerform]
  revert hop
  rcases op u with f | v <;> rcases op u' with f' | v' <;> intro hop
  · obtain rfl : f' = f := hop
    exact ⟨rfl, h⟩
  · exact hop.elim
  · exact hop.elim
  · exact ⟨rfl, hop⟩

/-- **Directories are made alike in two trees**, or the way to one of them comes to where the trees
differ. -/
theorem ensureDirs_alike (hp : ∀ dir ∈ dirs, withoutSlashes dir = dir) (t t' : Tree) :
    (((ensureDirs dirs).perform t').1 = ((ensureDirs dirs).perform t).1 ∧
      Alike t t' ((ensureDirs dirs).perform t).2 ((ensureDirs dirs).perform t').2) ∨
    ∃ dir ∈ dirs, Parts t t' ((ensureDirs dirs).perform t).2 dir := by
  induction dirs with
  | nil => exact Or.inl ⟨rfl, .refl t t'⟩
  | cons dir above ih =>
    have hdir := hp dir List.mem_cons_self
    have habove := fun d hd => hp d (List.mem_cons_of_mem dir hd)
    have hone : ∀ u v, u.ensureDir dir = .ok v → Adds (dir :: above) u v := by
      intro u v h
      exact (adds_ensureDir hdir h).mono (by simp)
    -- what the way came by before a directory is made it comes by afterwards
    have hlater : ∀ {u v d}, Adds (dir :: above) u v → d ∈ dir :: above → Parts t t' u d →
        ∃ d ∈ dir :: above, Parts t t' v d := by
      rintro u v d hadds hd ⟨loc, rest, hne, hm⟩
      exact ⟨d, hd, loc, rest, hne, hadds.meets hm⟩
    by_cases hempty : dir = ""
    · subst hempty
      exact Or.inl ⟨rfl, .refl t t'⟩
    rcases (Alike.refl t t').makeDir hdir with hm | hparts
    · by_cases hmiss : t.makeDir dir = .error .noEntry
      · have hmiss' : t'.makeDir dir = .error .noEntry := hm.error_iff.2 hmiss
        have hfirst := adds_ensureDirs habove t
        rw [perform_ensureDirs_of_missing hempty hmiss, perform_ensureDirs_of_missing hempty hmiss']
        rcases ih habove with ⟨he, h⟩ | ⟨d, hd, hparts⟩
        · rw [he]
          cases ((ensureDirs above).perform t).1 with
          | error f => exact Or.inl ⟨rfl, h⟩
          | ok _ =>
            rcases h.ensureDir hdir with hd | hparts
            · exact Or.inl (hd.change h)
            · exact Or.inr (hlater (adds_changeAt (hone _)) List.mem_cons_self hparts)
        · right
          cases ((ensureDirs above).perform t).1 with
          | error f => exact hlater (.refl _ _) (List.mem_cons_of_mem _ hd) hparts
          | ok _ => exact hlater (adds_changeAt (hone _)) (List.mem_cons_of_mem _ hd) hparts
      · have hmiss' : t'.makeDir dir ≠ .error .noEntry := fun he => hmiss (hm.error_iff.1 he)
        rw [perform_ensureDirs_of_not_missing hempty hmiss,
          perform_ensureDirs_of_not_missing hempty hmiss']
        rcases (Alike.refl t t').ensureDir hdir with hd | hparts
        · exact Or.inl (hd.change (.refl t t'))
        · exact Or.inr (hlater (adds_changeAt (hone t)) List.mem_cons_self hparts)
    · exact Or.inr (hlater (adds_ensureDirs hp t) List.mem_cons_self hparts)

/-! ## The directories above -/

theorem withParents_of_parent {parent : String} (h : Path.parent? path = some parent) (t : Tree) :
    t.withParents path = ((ensureDirs (upward (parent.length + 1) parent)).perform t).2 := by
  unfold withParents ensureParent
  rw [h]
  simp only [mapError, perform_ofPerform, ensureDirAll]
  rcases (ensureDirs (upward (parent.length + 1) parent)).perform t with ⟨_ | _, t₁⟩ <;> rfl

/-- **The directories above a path are made alike in two trees**, or the way to the path comes to
where the trees differ, and goes on. -/
theorem withParents_alike (hc : checkPath path = .ok ()) (t t' : Tree) :
    Alike t t' (t.withParents path) (t'.withParents path) ∨ ∃ loc rest, rest ≠ [] ∧
      t'.get? loc ≠ t.get? loc ∧ (t.withParents path).Meets .followed path loc rest := by
  cases hp : Path.parent? path with
  | none =>
    have hsame : ∀ u : Tree, u.withParents path = u := by
      intro u
      unfold withParents ensureParent
      rw [hp]
      rfl
    rw [hsame, hsame]
    exact Or.inl (.refl t t')
  | some parent =>
    have habove : ∀ dir ∈ upward (parent.length + 1) parent, Path.Above dir path :=
      fun dir hd => above_of_mem_upward (.parent hp) hd
    rw [withParents_of_parent hp, withParents_of_parent hp]
    rcases ensureDirs_alike (fun dir hd => withoutSlashes_of_above (habove dir hd)) t t' with
      ⟨-, h⟩ | ⟨dir, hd, loc, rest, hne, hm⟩
    · exact Or.inl h
    · obtain ⟨rest', hrest, hm'⟩ := hm.further (habove dir hd) hc
      exact Or.inr ⟨loc, rest', hrest, hne, hm'⟩

theorem isDir_of_ensureDir (hp : withoutSlashes dir = dir) (h : t.ensureDir dir = .ok t') :
    t'.isDir dir = true := by
  unfold ensureDir at h
  split at h
  · next t₁ hm =>
    cases h
    obtain ⟨loc, hr, rfl⟩ := exists_put_of_makeDir hp hm
    obtain ⟨hmeets, hg⟩ := meets_of_vacant hr
    exact isDir_iff.2 ⟨loc, find_put_dir hmeets.followed hg⟩
  · split at h
    · next hd =>
      cases h
      exact hd
    · cases h

/-- A directory is there once it and those above it are made. -/
theorem isDir_of_ensureDirs {above : List String} (hp : withoutSlashes dir = dir)
    (hne : dir ≠ "") (h : (ensureDirs (dir :: above)).perform t = (.ok (), t')) :
    t'.isDir dir = true := by
  have hchange : ∀ u, (Effect.change (ensureDir dir)).perform u = (.ok (), t') →
      t'.isDir dir = true := by
    intro u hu
    rw [Effect.change, perform_ofPerform] at hu
    cases ho : u.ensureDir dir with
    | error f => simp [ho] at hu
    | ok v =>
      simp only [ho, Prod.mk.injEq, true_and] at hu
      exact isDir_of_ensureDir hp (hu ▸ ho)
  by_cases hmiss : t.makeDir dir = .error .noEntry
  · rw [perform_ensureDirs_of_missing hne hmiss] at h
    split at h
    · exact hchange _ h
    · cases h
  · rw [perform_ensureDirs_of_not_missing hne hmiss] at h
    exact hchange t h

/-- The directory that a path stands in is there once the directories above are made. -/
theorem isDir_of_ensureParent (h : (ensureParent path).perform t = (.ok (), t'))
    (hdir : Path.parent? path = some dir) : dir = "" ∨ t'.isDir dir = true := by
  by_cases hempty : dir = ""
  · exact Or.inl hempty
  · right
    unfold ensureParent at h
    rw [hdir] at h
    simp only [mapError, perform_ofPerform, ensureDirAll, upward] at h
    split at h
    · next hs =>
      cases h
      exact isDir_of_ensureDirs (withoutSlashes_of_above (.parent hdir)) hempty hs
    · cases h

/-- A directory stays where a file is written. -/
theorem isDir_put {bytes : List UInt8}
    (hg : t.get? loc = none ∨ ∃ before, t.get? loc = some (.file before))
    (h : t.isDir dir = true) : (t.put loc (.file bytes)).isDir dir = true := by
  obtain ⟨place, hf⟩ := isDir_iff.1 h
  rw [find_eq_ok_iff] at hf
  rcases resolve_put_eq_or_meets t loc (.file bytes) .followed dir with he | ⟨rest, hm, -⟩
  · exact isDir_iff.2 ⟨place, find_eq_ok_iff.2 (he.trans hf)⟩
  · rcases hg with hfree | ⟨before, hfile⟩
    · rw [hm.resolve_free hfree] at hf
      split at hf <;> cases hf
    · rw [hm.resolve_file hfile] at hf
      split at hf <;> cases hf

/-- **Nothing more is made once a record is written.** -/
theorem withParents_of_append {r : Record}
    (h : (Journal.append path r).perform t = (.ok (), t')) : t'.withParents path = t' := by
  have hmade : (ensureParent path).perform t = (.ok (), t.withParents path) := by
    obtain ⟨_, t₁, hp, -⟩ := perform_bind_eq_ok.1 h
    rw [withParents, hp]
  obtain ⟨place, before, ho, rfl⟩ := Journal.append_eq_ok h
  have hg : (t.withParents path).get? place = none ∨
      ∃ b, (t.withParents path).get? place = some (.file b) :=
    (openFile_ok ho).2.imp_right fun hg => ⟨before, hg⟩
  unfold withParents
  rw [perform_ensureParent_of_isDir]
  intro dir hdir
  exact (isDir_of_ensureParent hmade hdir).imp_right (isDir_put hg)

/-! ## One file or link less -/

section Lacks

variable {own : Location} {bytes : List UInt8}

theorem erase_of_get?_eq_none (h : t.get? loc = none) : t.erase loc = t := by
  have ha := isAbove_of_get?_eq_none h
  have hnone : lookUp loc t.entries = none := by simpa [get?, ha] using h
  have hall : t.entries.filter (fun e => e.1 ≠ loc) = t.entries := by
    refine List.filter_eq_self.2 fun e he => decide_eq_true fun hl => ?_
    have hsome := lookUp_isSome_iff.2 ⟨e, he, hl⟩
    rw [hnone] at hsome
    cases hsome
  rw [erase, hall]

theorem erase_put_self (h : t.get? loc = none) (x : Entry) : (t.put loc x).erase loc = t := by
  have hself : (t.put loc x).erase loc = (t.erase loc).erase loc := by
    simp [erase, put]
  rw [hself, erase_of_get?_eq_none h, erase_of_get?_eq_none h]

theorem erase_put_ne (h : own ≠ loc) (x : Entry) :
    (t.put loc x).erase own = (t.erase own).put loc x := by
  simp [erase, put, h.symm, List.filter_filter, Bool.and_comm]

/-- A tree lacks one file or link of another, and is the same otherwise. -/
structure Lacks (loc : Location) (t t' : Tree) : Prop where
  there : ∃ x, t.get? loc = some x ∧ x ≠ .dir
  gone : t'.get? loc = none
  same : ∀ l, l ≠ loc → t'.get? l = t.get? l

theorem Owns.lacks (h : t.Owns path own) : Lacks own t (t.erase own) :=
  ⟨h.get?_ne, get?_erase_self t h.isAbove, fun _ hl => get?_erase_ne t hl⟩

theorem lacks_put (h : t.get? loc = none) (bytes : List UInt8) :
    Lacks loc (t.put loc (.file bytes)) t :=
  ⟨⟨_, get?_put_self t _ (isAbove_of_get?_eq_none h), by simp⟩, h,
    fun _ hl => (get?_put_ne t _ hl).symm⟩

theorem Lacks.thinner (h : Lacks loc t t') : Thinner t t' := by
  intro l
  by_cases hl : l = loc
  · exact Or.inr (hl ▸ h.gone)
  · exact Or.inl (h.same l hl)

/-- The directories above a path are made alike without a file or link that is not on the way. -/
theorem Lacks.withParents (h : Lacks loc t t') (hc : checkPath path = .ok ())
    (hway : ∀ rest, rest ≠ [] → ¬(t.withParents path).Meets .followed path loc rest) :
    Lacks loc (t.withParents path) (t'.withParents path) := by
  obtain ⟨x, hx, hdir⟩ := h.there
  obtain ⟨_, -, hadds⟩ := adds_ensureParent path t
  obtain ⟨_, -, hadds'⟩ := adds_ensureParent path t'
  have hthere : (t.withParents path).get? loc = some x := hadds.get? hx
  rcases withParents_alike hc t t' with halike | ⟨l, rest, hrest, hne, hm⟩
  · refine ⟨⟨x, hthere, hdir⟩, ?_, fun l hl => ?_⟩
    · -- only directories are made, so what is lacking is not made again
      rcases halike loc with he | ⟨he, -⟩
      · rcases hadds' loc with he' | ⟨-, he', -⟩
        · exact he'.trans h.gone
        · rw [show ((ensureParent path).perform t').2 = t'.withParents path from rfl, he, hthere]
            at he'
          cases he'
          exact absurd rfl hdir
      · exact he.trans h.gone
    · rcases halike l with he | ⟨he', he⟩
      · exact he
      · rw [he', he, h.same l hl]
  · have hl : l = loc := by
      by_cases hl : l = loc
      · exact hl
      · exact absurd (h.same l hl) hne
    exact absurd (hl ▸ hm) (hway rest hrest)

theorem Lacks.shorter_of_file (h : Lacks loc t t') (hg : t.get? loc = some (.file bytes)) :
    Shorter t' t := by
  intro l
  by_cases hl : l = loc
  · exact Or.inr (Or.inr ⟨bytes, hl ▸ hg⟩)
  · exact Or.inl (h.same l hl).symm

/-- Beside a file that is lacking, a path has the same entry of its own, or that file. -/
theorem Lacks.owns_of_file (h : Lacks loc t t') (hg : t.get? loc = some (.file bytes))
    (ho : t.Owns path own) : own = loc ∨ t'.Owns path own := by
  obtain ⟨x, hx, hdir⟩ := ho
  rcases resolve_eq_or_meets_at h.same .kept path with he | ⟨rest, hm, -⟩
  · exact Or.inr ⟨x, he.trans hx, hdir⟩
  · rw [hm.resolve_file hg] at hx
    split at hx
    · cases hx
      exact Or.inl rfl
    · cases hx

end Lacks

end NearDup.Tree
