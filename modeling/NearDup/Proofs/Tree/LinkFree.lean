import NearDup.Proofs.Tree.Names

/-!
# Trees without links

Where no entry is a link, a path is gone as it is written: the location it leads to can be read off
its names, and a name behind a directory leads to what stands under that name there.

* `resolve_join` — a name behind a directory leads to the entry of that name
* `resolve_join_congr` — in two trees with the same entry there it leads to the same place
* `LinkFree.foldl_follow_of_find` — the location of a directory can be read off its path
* `LinkFree.find_of_not_up` — a path without `..` depends on no entry below the one it leads to
-/

namespace NearDup.Tree

open NearDup.Path

variable {t t' : Tree} {e : Ending} {path dir name : String} {here loc : Location} {x : Entry}
  {names : List String} {n : Nat}

/-! ## No links -/

/-- No entry is a link. -/
def LinkFree (t : Tree) : Prop := ∀ e ∈ t.entries, (e.2 matches .link _) = false

instance (t : Tree) : Decidable t.LinkFree :=
  inferInstanceAs (Decidable (∀ e ∈ t.entries, (e.2 matches .link _) = false))

theorem mem_of_lookUp {es : List (Location × Entry)} (h : lookUp loc es = some x) :
    (loc, x) ∈ es := by
  induction es with
  | nil => cases h
  | cons e rest ih =>
    obtain ⟨l, y⟩ := e
    simp only [lookUp] at h
    split at h
    · next hl =>
      cases h
      rw [hl]
      exact List.mem_cons_self
    · exact List.mem_cons_of_mem _ (ih h)

theorem mem_entries_of_get? (ha : isAbove loc = false) (h : t.get? loc = some x) :
    (loc, x) ∈ t.entries := by
  rw [get?, ha] at h
  exact mem_of_lookUp h

theorem LinkFree.get?_ne (h : t.LinkFree) (loc : Location) (target : String) :
    t.get? loc ≠ some (.link target) := by
  intro hg
  have ha : isAbove loc = false := isAbove_of_get?_ne (t := t) (by simp [hg])
  have hmem := h _ (mem_entries_of_get? ha hg)
  cases hmem

/-- Where no directory stands, there is nothing or a file. -/
theorem LinkFree.free_or_file (h : t.LinkFree) (hg : t.get? loc ≠ some .dir) :
    t.get? loc = none ∨ ∃ bytes, t.get? loc = some (.file bytes) := by
  cases hx : t.get? loc with
  | none => exact Or.inl rfl
  | some x =>
    cases x with
    | file bytes => exact Or.inr ⟨bytes, rfl⟩
    | dir => exact absurd hx hg
    | link target => exact absurd hx (h.get?_ne loc target)

theorem LinkFree.erase (h : t.LinkFree) (loc : Location) : (t.erase loc).LinkFree :=
  fun e he => h e (List.mem_filter.1 he).1

theorem LinkFree.put (h : t.LinkFree) (loc : Location) (hx : (x matches .link _) = false) :
    (t.put loc x).LinkFree := by
  intro e he
  rcases List.mem_cons.1 he with rfl | he
  · exact hx
  · exact h.erase loc e he

/-! ## A name behind a directory -/

theorem isAbove_append_ordinary (hn : Ordinary name) (here : Location) :
    isAbove (here ++ [name]) = false := by
  rw [← Bool.not_eq_true, isAbove, Bool.or_eq_true, decide_eq_true_eq, List.all_append,
    Bool.and_eq_true]
  rintro (hroot | ⟨-, hup⟩)
  · have hname : name = "/" := by
      have hlast := congrArg List.getLast? hroot
      simpa [Tree.root] using hlast
    subst hname
    exact hn.no_slash (List.mem_singleton_self '/')
  · exact hn.ne_up (by simpa using hup)

theorem exists_reaches_dir {a : Stage}
    (h : t.walk .followed a.links a.here a.names = .ok (.entry loc .dir)) :
    ∃ m, t.Reaches .followed a ⟨m, loc, []⟩ := by
  induction a using stage_induction (t := t) (e := .followed) with
  | step a ih =>
    rcases stage_cases t .followed a with ⟨b, hb⟩ | hnil | ⟨f, hf⟩ | ⟨name, hn, hl, hw⟩
    · rw [walk_eq_of_advances hb] at h
      obtain ⟨m, hr⟩ := ih b hb h
      exact ⟨m, hr.head hb⟩
    · obtain ⟨m, here, names⟩ := a
      subst hnil
      rw [walk_nil] at h
      cases h
      exact ⟨m, .refl⟩
    · rw [hf] at h
      cases h
    · obtain ⟨m, here, names⟩ := a
      subst hn
      rw [hw, placeAt] at h
      split at h
      · next x hg =>
        cases h
        exact ⟨m, .single (.dir hl hg)⟩
      · cases h

theorem ne_empty_of_find (h : t.find path = .ok (loc, x)) : path ≠ "" := by
  rintro rfl
  rw [find_eq_ok_iff, resolve_of_refused (show checkPath "" = .error .noEntry from rfl)] at h
  cases h

/-- The names of a path below a directory are those of the directory, up to an empty one at the end,
and the name. -/
theorem pathNames_join (hd : dir ≠ "") (hn : Ordinary name) : ∃ front,
    pathNames (join dir name) = front ++ [name] ∧
      (pathNames dir = front ∨ pathNames dir = front ++ [""]) := by
  have hname : (Text.pieces '/' name.toList).map String.ofList = [name] := by
    rw [Text.pieces_of_not_mem hn.no_slash]
    simp
  rw [join_eq hd hn.head?, slashAfter]
  split
  · next hl =>
    obtain ⟨before, hbefore⟩ := List.getLast?_eq_some_iff.1 hl
    have hdir : dir.toList = (String.ofList before).toList ++ '/' :: [] := by simp [hbefore]
    have hjoin : (dir ++ "" ++ name).toList =
        (String.ofList before).toList ++ '/' :: name.toList := by simp [hbefore]
    refine ⟨pathNames (String.ofList before), ?_, Or.inr ?_⟩
    · rw [pathNames_front hjoin, hname]
    · rw [pathNames_front hdir]
      rfl
  · have hjoin : (dir ++ "/" ++ name).toList = dir.toList ++ '/' :: name.toList := by simp
    refine ⟨pathNames dir, ?_, Or.inl rfl⟩
    rw [pathNames_front hjoin, hname]

/-- The walk to a name behind a directory comes to the directory, with the name left. -/
theorem exists_reaches_join (hf : t.find dir = .ok (here, .dir)) (hn : Ordinary name) :
    ∃ m, ∀ e, t.Reaches e
      ⟨linkLimit, origin [] (join dir name), pathNames (join dir name)⟩ ⟨m, here, [name]⟩ := by
  have hne := ne_empty_of_find hf
  have hdir : dir.toList ≠ [] := fun h => hne (String.toList_eq_nil_iff.1 h)
  have horigin : origin [] (join dir name) = origin [] dir := by
    unfold origin
    rw [join_eq hne hn.head?, String.toList_append, String.toList_append, List.append_assoc,
      List.head?_append_of_ne_nil _ hdir]
  rw [find_eq_ok_iff] at hf
  cases hc : checkPath dir with
  | error f =>
    rw [resolve_of_refused hc] at hf
    cases hf
  | ok _ =>
    rw [resolve_of_checkPath hc] at hf
    obtain ⟨front, hjoin, hnames⟩ := pathNames_join hne hn
    obtain ⟨m, hr⟩ : ∃ m, t.Reaches .followed ⟨linkLimit, origin [] dir, front⟩ ⟨m, here, []⟩ := by
      rcases hnames with hnames | hnames
      · rw [hnames] at hf
        exact exists_reaches_dir (a := ⟨linkLimit, origin [] dir, front⟩) hf
      · -- the empty name behind a slash is passed over
        rw [hnames] at hf
        obtain ⟨m, here', hr, hend⟩ := exists_reaches_front
          (a := ⟨linkLimit, origin [] dir, front⟩) (List.cons_ne_nil "" []) hf
        rw [walk_skip (Or.inl rfl), walk_nil] at hend
        cases hend
        exact ⟨m, hr⟩
    refine ⟨m, fun e => ?_⟩
    rw [horigin, hjoin]
    exact hr.infront ⟨name, List.mem_singleton_self name, hn.ne_empty⟩

section

variable (hf : t.find dir = .ok (here, .dir)) (hn : Ordinary name)
include hf hn

/-- A path goes on from a directory to a name that is short enough. -/
theorem meets_join (hc : checkPath (join dir name) = .ok ())
    (hs : Text.Utf8.size name ≤ nameLimit) (e : Ending) :
    t.Meets e (join dir name) (here ++ [name]) [] := by
  obtain ⟨m, hr⟩ := exists_reaches_join hf hn
  have hlook : LooksUp e name [] :=
    ⟨by simp [hn.ne_empty, hn.ne_here], hn.ne_up, by simp [endsInSlash], Nat.not_lt.2 hs⟩
  exact ⟨hc, m, here, name, hlook, rfl, hr e⟩

/-- **A name behind a directory leads to the entry of that name**, if that is no link. -/
theorem resolve_join (hl : ∀ target, t.get? (here ++ [name]) ≠ some (.link target))
    (hc : checkPath (join dir name) = .ok ()) (hs : Text.Utf8.size name ≤ nameLimit)
    (e : Ending) : t.resolve e (join dir name) = .ok (t.placeAt (here ++ [name])) :=
  (meets_join hf hn hc hs e).resolve_end hl

omit hf in
/-- Behind a directory a text is a name, or it is refused in every tree. -/
theorem checkPath_join_cases (dir : String) (e : Ending) :
    checkPath (join dir name) = .ok () ∧ Text.Utf8.size name ≤ nameLimit ∨
      ∃ f, ∀ (t : Tree) here, t.find dir = .ok (here, .dir) →
        t.resolve e (join dir name) = .error f := by
  cases hc : checkPath (join dir name) with
  | error f => exact Or.inr ⟨f, fun t here hf => resolve_of_refused hc⟩
  | ok _ =>
    by_cases hs : Text.Utf8.size name ≤ nameLimit
    · exact Or.inl ⟨rfl, hs⟩
    · have hsignificant : ¬(name = "" ∨ name = ".") := by simp [hn.ne_empty, hn.ne_here]
      obtain ⟨f, hrefused⟩ := walk_refused hsignificant hn.ne_up
        fun h : LooksUp e name [] => hs (Nat.not_lt.1 h.short)
      refine Or.inr ⟨f, fun t here hf => ?_⟩
      obtain ⟨m, hr⟩ := exists_reaches_join hf hn
      rw [resolve_of_checkPath hc, walk_eq_of_reaches (hr e)]
      exact hrefused t m here

theorem eq_placeAt_of_resolve_join {place : Place}
    (hl : ∀ target, t.get? (here ++ [name]) ≠ some (.link target))
    (h : t.resolve e (join dir name) = .ok place) : place = t.placeAt (here ++ [name]) := by
  rcases checkPath_join_cases hn dir e with ⟨hc, hs⟩ | ⟨f, hrefused⟩
  · rw [resolve_join hf hn hl hc hs] at h
    exact (Except.ok.inj h).symm
  · rw [hrefused t here hf] at h
    cases h

/-- In another tree with the same entry there, it leads to the same place. -/
theorem resolve_join_congr (hf' : t'.find dir = .ok (here, .dir))
    (hl : ∀ target, t.get? (here ++ [name]) ≠ some (.link target))
    (hg : t'.get? (here ++ [name]) = t.get? (here ++ [name])) (e : Ending) :
    t'.resolve e (join dir name) = t.resolve e (join dir name) := by
  rcases checkPath_join_cases hn dir e with ⟨hc, hs⟩ | ⟨f, hrefused⟩
  · have hl' : ∀ target, t'.get? (here ++ [name]) ≠ some (.link target) := by
      intro target
      rw [hg]
      exact hl target
    rw [resolve_join hf hn hl hc hs, resolve_join hf' hn hl' hc hs, placeAt, placeAt, hg]
  · rw [hrefused t here hf, hrefused t' here hf']

end

/-! ## The location of a directory -/

/-- Where a name leads from a directory, if no link stands there. -/
def follow (here : Location) (name : String) : Location :=
  if name = "" ∨ name = "." then here else if name = ".." then up here else here ++ [name]

theorem follow_of_lookUp {rest : List String} (h : LooksUp e name rest) (here : Location) :
    follow here name = here ++ [name] :=
  (if_neg h.significant).trans (if_neg h.not_up)

/-- A walk to a directory passes over the first name, or goes up or down there. -/
theorem LinkFree.walk_cases {rest : List String} (hl : t.LinkFree)
    (h : t.walk .followed n here (name :: rest) = .ok (.entry loc .dir)) :
    (name = "" ∨ name = ".") ∧ t.walk .followed n here rest = .ok (.entry loc .dir) ∨
    name = ".." ∧ t.walk .followed n (up here) rest = .ok (.entry loc .dir) ∨
    LooksUp .followed name rest ∧ t.get? (here ++ [name]) = some .dir ∧
      t.walk .followed n (here ++ [name]) rest = .ok (.entry loc .dir) := by
  by_cases h₁ : name = "" ∨ name = "."
  · rw [walk_skip h₁] at h
    exact Or.inl ⟨h₁, h⟩
  by_cases h₂ : name = ".."
  · rw [walk_up h₂] at h
    exact Or.inr (Or.inl ⟨h₂, h⟩)
  by_cases hlook : ¬LooksUp .followed name rest
  · obtain ⟨f, hf⟩ := walk_refused h₁ h₂ hlook
    rw [hf] at h
    cases h
  have hlook : LooksUp .followed name rest := Classical.not_not.1 hlook
  cases hg : t.get? (here ++ [name]) with
  | none =>
    rw [walk_free hlook hg] at h
    split at h <;> cases h
  | some x =>
    cases x with
    | file bytes =>
      rw [walk_file hlook hg] at h
      split at h <;> cases h
    | dir =>
      rw [walk_dir hlook hg] at h
      exact Or.inr (Or.inr ⟨hlook, rfl, h⟩)
    | link target => exact absurd hg (hl.get?_ne _ target)

theorem LinkFree.foldl_follow_of_walk (hl : t.LinkFree)
    (h : t.walk .followed n here names = .ok (.entry loc .dir)) :
    names.foldl follow here = loc := by
  induction names generalizing here with
  | nil =>
    rw [walk_nil] at h
    cases h
    rfl
  | cons name rest ih =>
    rw [List.foldl_cons]
    rcases hl.walk_cases h with ⟨hskip, hrest⟩ | ⟨rfl, hrest⟩ | ⟨hlook, -, hrest⟩
    · rw [follow, if_pos hskip]
      exact ih hrest
    · exact ih hrest
    · rw [follow_of_lookUp hlook]
      exact ih hrest

/-- **The location of a directory can be read off its path.** -/
theorem LinkFree.foldl_follow_of_find (hl : t.LinkFree) (h : t.find path = .ok (loc, .dir)) :
    (pathNames path).foldl follow (origin [] path) = loc := by
  rw [find_eq_ok_iff] at h
  cases hc : checkPath path with
  | error f =>
    rw [resolve_of_refused hc] at h
    cases h
  | ok _ =>
    rw [resolve_of_checkPath hc] at h
    exact hl.foldl_follow_of_walk h

/-- Without `..` names lead down. -/
theorem prefix_foldl_follow (hup : ".." ∉ names) (here : Location) :
    here <+: names.foldl follow here := by
  induction names generalizing here with
  | nil => exact List.prefix_rfl
  | cons name rest ih =>
    rw [List.mem_cons, not_or] at hup
    rw [List.foldl_cons]
    have hstep : here <+: follow here name := by
      unfold follow
      rw [if_neg (Ne.symm hup.1)]
      split
      · exact List.prefix_rfl
      · exact List.prefix_append here [name]
    exact hstep.trans (ih hup.2 _)

theorem LinkFree.walk_of_not_up (hl : t.LinkFree) (hup : ".." ∉ names)
    (h : t.walk .followed n here names = .ok (.entry loc .dir))
    (hsame : ∀ l, l <+: loc → t'.get? l = t.get? l) :
    t'.walk .followed n here names = .ok (.entry loc .dir) := by
  induction names generalizing here with
  | nil => simpa using h
  | cons name rest ih =>
    rw [List.mem_cons, not_or] at hup
    rcases hl.walk_cases h with ⟨hskip, hrest⟩ | ⟨rfl, -⟩ | ⟨hlook, hg, hrest⟩
    · rw [walk_skip hskip]
      exact ih hup.2 hrest
    · exact absurd rfl hup.1
    · -- the entry that is looked up stands above the end
      have hgoes : here ++ [name] <+: loc :=
        hl.foldl_follow_of_walk hrest ▸ prefix_foldl_follow hup.2 _
      rw [walk_dir hlook ((hsame _ hgoes).trans hg)]
      exact ih hup.2 hrest

/-- **A path without `..` leads to a directory also in another tree with the same entries above
it.** -/
theorem LinkFree.find_of_not_up (hl : t.LinkFree) (hup : ".." ∉ pathNames path)
    (h : t.find path = .ok (loc, .dir)) (hsame : ∀ l, l <+: loc → t'.get? l = t.get? l) :
    t'.find path = .ok (loc, .dir) := by
  rw [find_eq_ok_iff] at h ⊢
  cases hc : checkPath path with
  | error f =>
    rw [resolve_of_refused hc] at h
    cases h
  | ok _ =>
    rw [resolve_of_checkPath hc] at h ⊢
    exact hl.walk_of_not_up hup h hsame

end NearDup.Tree
