import NearDup.Proofs.Journal.Way
import NearDup.Proofs.Tree.Names

/-!
# A text is replaced as a whole

The text goes into a temporary file beside the path, and the file is then moved over the path. Until
then nothing is changed under the name of the path. The directories that are made cannot bring
anything to light there, since nothing stands below a directory that was missing; and the temporary
file has another name. So a reader of the path sees what was there before, or the whole text.

What comes to stand under the name of the path is a file. If there was a link before, and the way to
the directory of the path goes through that very link, the file cuts the path off.

* `MadeOfNames` — a path of ordinary names
* `own?_withParents`, `own?_write_temporary` — what stands under the path does not change before
* `Replaced` — what has changed after
* `Replaced.read_cases` — the text is read under the path, unless a link stood there
* `replace_whole` — the stages of replacing a text
-/

namespace NearDup.Tree

open Effect Text.Utf8

variable {t t' u : Tree} {e : Ending} {path dir contents : String} {dirs : List String}
  {loc own temp : Location} {x : Entry} {bytes : List UInt8} {rest : List Char}

/-! ## Paths of ordinary names -/

/-- A path is made of ordinary names, from the root on or not. -/
def MadeOfNames (path : String) : Prop :=
  ∃ names, names ≠ [] ∧ (∀ name ∈ names, Path.Ordinary name) ∧
    (pathNames path = names ∨ pathNames path = "" :: names)

/-- A path goes on with a slash behind another, unless that is empty or the root. -/
def Front (dir path : String) : Prop :=
  dir = "" ∨ dir = "/" ∨ ∃ rest, path.toList = dir.toList ++ '/' :: rest

/-- The names of a path behind a slash are ordinary. -/
theorem MadeOfNames.behind (h : MadeOfNames path) (hs : path.toList = dir.toList ++ '/' :: rest) :
    ∀ name ∈ (Text.pieces '/' rest).map String.ofList, Path.Ordinary name := by
  obtain ⟨names, -, hall, hnames⟩ := h
  intro name hmem
  obtain ⟨first, others, hdir⟩ : ∃ first others, pathNames dir = first :: others := by
    cases hd : pathNames dir with
    | nil => exact absurd (List.map_eq_nil_iff.1 hd) (Text.pieces_ne_nil '/' _)
    | cons first others => exact ⟨first, others, rfl⟩
  rw [pathNames_front hs, hdir, List.cons_append] at hnames
  rcases hnames with hnames | hnames
  · exact hall name (by simp [← hnames, hmem])
  · exact hall name (by simp [← (List.cons.inj hnames).2, hmem])

/-- The path of the temporary file has the same names in front, and another last name. -/
theorem exists_pathNames_temporary (path : String) : ∃ front last,
    pathNames path = front ++ [last] ∧ pathNames (temporary path) = front ++ [last ++ ".tmp"] := by
  have hslash : '/' ∉ ".tmp".toList := by decide
  obtain ⟨front, last, hshort, hlong⟩ := Text.pieces_append_of_not_mem hslash path.toList
  refine ⟨front.map String.ofList, String.ofList last, ?_, ?_⟩
  · rw [pathNames, hshort, List.map_append]
    rfl
  · rw [pathNames, temporary, String.toList_append, hlong, List.map_append]
    simp

theorem ne_temporaryName (name : String) : name ≠ name ++ ".tmp" := by
  intro h
  have hlen := congrArg String.length h
  rw [String.length_append] at hlen
  have htmp : ".tmp".length = 4 := rfl
  omega

theorem last_ne_temporary (path : String) :
    (pathNames (temporary path)).getLast? ≠ (pathNames path).getLast? := by
  obtain ⟨front, last, hpath, htemp⟩ := exists_pathNames_temporary path
  rw [hpath, htemp, List.getLast?_concat, List.getLast?_concat]
  exact fun h => ne_temporaryName last (Option.some.inj h).symm

theorem ordinary_temporary {name : String} (h : Path.Ordinary name) :
    Path.Ordinary (name ++ ".tmp") := by
  have hlen : 4 ≤ (name ++ ".tmp").length := by
    rw [String.length_append]
    exact Nat.le_add_left 4 name.length
  have hne : ∀ short : String, short.length < 4 → name ++ ".tmp" ≠ short := by
    rintro short hshort rfl
    exact absurd hlen (Nat.not_le.2 hshort)
  refine ⟨hne "" (by decide), hne "." (by decide), hne ".." (by decide), ?_⟩
  rw [String.toList_append, List.mem_append, not_or]
  exact ⟨h.no_slash, by decide⟩

theorem MadeOfNames.temporary (h : MadeOfNames path) : MadeOfNames (temporary path) := by
  obtain ⟨names, hne, hall, hnames⟩ := h
  obtain ⟨front, last, hpath, htemp⟩ := exists_pathNames_temporary path
  have hlonger : ∀ front, names = front ++ [last] →
      ∀ name ∈ front ++ [last ++ ".tmp"], Path.Ordinary name := by
    rintro front rfl name hmem
    rcases List.mem_append.1 hmem with hmem | hmem
    · exact hall name (List.mem_append_left _ hmem)
    · rw [List.mem_singleton.1 hmem]
      exact ordinary_temporary (hall last (by simp))
  rw [hpath] at hnames
  rcases hnames with hnames | hnames
  · exact ⟨_, by simp, hlonger front hnames.symm, Or.inl htemp⟩
  · cases front with
    | nil =>
      obtain ⟨-, hnil⟩ := List.cons.inj hnames
      exact absurd hnil.symm hne
    | cons first front =>
      obtain ⟨rfl, hrest⟩ := List.cons.inj hnames
      exact ⟨_, by simp, hlonger front hrest.symm, Or.inr htemp⟩

theorem Front.temporary (h : Front dir path) : Front dir (temporary path) := by
  rcases h with hempty | hroot | ⟨rest, hs⟩
  · exact Or.inl hempty
  · exact Or.inr (Or.inl hroot)
  · refine Or.inr (Or.inr ⟨rest ++ ".tmp".toList, ?_⟩)
    rw [Tree.temporary, String.toList_append, hs, List.append_assoc, List.cons_append]

/-! ## Making directories -/

/-- Below a directory that was missing, nothing comes to light. -/
theorem own?_put_dir (hrooted : t.Rooted) (hpath : MadeOfNames path) (hne : dir ≠ "")
    (hs : path.toList = dir.toList ++ '/' :: rest) (hm : t.Meets .followed dir loc [])
    (hg : t.get? loc = none) : (t.put loc .dir).own? path = none := by
  have hself := get?_put_self t .dir (isAbove_of_get?_eq_none hg)
  obtain ⟨-, m, here, name, hl, hloc, hr⟩ := hm.put (Or.inl hg) .dir
  have hmade : (t.put loc .dir).Reaches .followed
      ⟨linkLimit, origin [] dir, pathNames dir⟩ ⟨m, loc, []⟩ := by
    subst hloc
    exact hr.tail (.dir hl hself)
  have hnames := hpath.behind hs
  have hmore : (Text.pieces '/' rest).map String.ofList ≠ [] := by
    simpa using Text.pieces_ne_nil '/' rest
  rw [own?_eq_none_iff]
  intro loc' x hres
  cases hc : checkPath path with
  | error f =>
    rw [resolve_of_refused hc] at hres
    cases hres
  | ok _ =>
    rw [resolve_of_checkPath hc, pathNames_front hs, origin_front hs hne] at hres
    generalize (Text.pieces '/' rest).map String.ofList = more at hnames hmore hres
    cases more with
    | nil => exact hmore rfl
    | cons first others =>
      have hfirst := hnames first List.mem_cons_self
      have hway := hmade.infront (e := .kept)
        ⟨first, List.mem_cons_self (l := others), hfirst.ne_empty⟩
      rw [walk_eq_of_reaches hway] at hres
      simp only [List.nil_append] at hres
      by_cases hlook : LooksUp .kept first others
      · have hfree : (t.put loc .dir).get? (loc ++ [first]) = none := by
          rw [get?_put_ne t _ (by simp), hrooted.get?_below hg]
        rw [walk_free hlook hfree] at hres
        split at hres <;> cases hres
      · obtain ⟨f, hf⟩ := walk_refused (by simp [hfirst.ne_empty, hfirst.ne_here])
          hfirst.ne_up hlook
        rw [hf] at hres
        cases hres

/-- A directory that is made in front of a path brings nothing to light there. -/
theorem own?_ensureDir (hrooted : t.Rooted) (hpath : MadeOfNames path) (hne : dir ≠ "")
    (hp : withoutSlashes dir = dir) (hfront : Front dir path) (hown : t.own? path = none)
    (h : t.ensureDir dir = .ok t') : t'.own? path = none ∧ t'.Rooted := by
  unfold ensureDir at h
  split at h
  · next t₁ hmake =>
    cases h
    obtain ⟨loc, hr, rfl⟩ := exists_put_of_makeDir hp hmake
    obtain ⟨hm, hg⟩ := meets_of_vacant hr
    refine ⟨?_, hrooted.put_dir hm hg⟩
    rcases hfront with hempty | rfl | ⟨rest, hs⟩
    · exact absurd hempty hne
    · -- the root is there
      cases hr
    · exact own?_put_dir hrooted hpath hne hs hm.followed hg
  · split at h
    · cases h
      exact ⟨hown, hrooted⟩
    · cases h

theorem own?_changeAt {op : Tree → Except Fault Tree} (hrooted : t.Rooted)
    (hown : t.own? path = none)
    (h : ∀ t', op t = .ok t' → t'.own? path = none ∧ t'.Rooted) :
    ((Effect.change op).perform t).2.own? path = none ∧
      ((Effect.change op).perform t).2.Rooted := by
  rw [Effect.change, perform_ofPerform]
  cases ho : op t with
  | ok t' => exact h t' ho
  | error f => exact ⟨hown, hrooted⟩

theorem own?_ensureDirs (hpath : MadeOfNames path) (hp : ∀ dir ∈ dirs, withoutSlashes dir = dir)
    (hfront : ∀ dir ∈ dirs, Front dir path) (hrooted : t.Rooted) (hown : t.own? path = none) :
    ((ensureDirs dirs).perform t).2.own? path = none ∧ ((ensureDirs dirs).perform t).2.Rooted := by
  induction dirs generalizing t with
  | nil => exact ⟨hown, hrooted⟩
  | cons dir above ih =>
    have hone : ∀ u : Tree, u.Rooted → u.own? path = none → dir ≠ "" →
        ((Effect.change (ensureDir dir)).perform u).2.own? path = none ∧
          ((Effect.change (ensureDir dir)).perform u).2.Rooted := by
      intro u hu hou hne
      exact own?_changeAt hu hou fun _ =>
        own?_ensureDir hu hpath hne (hp dir List.mem_cons_self) (hfront dir List.mem_cons_self) hou
    by_cases hempty : dir = ""
    · rw [ensureDirs, if_pos hempty]
      exact ⟨hown, hrooted⟩
    by_cases hmiss : t.makeDir dir = .error .noEntry
    · obtain ⟨ho, hr⟩ := ih (fun d hd => hp d (List.mem_cons_of_mem _ hd))
        (fun d hd => hfront d (List.mem_cons_of_mem _ hd)) hrooted hown
      rw [perform_ensureDirs_of_missing hempty hmiss]
      split
      · exact hone _ hr ho hempty
      · exact ⟨ho, hr⟩
    · rw [perform_ensureDirs_of_not_missing hempty hmiss]
      exact hone t hrooted hown hempty

/-- **What stands under a path does not change when its directories are made**, nor what stands
under the path of its temporary file. -/
theorem own?_withParents {other : String} (hrooted : t.Rooted) (hother : MadeOfNames other)
    (hfront : ∀ dir, Path.Above dir path → Front dir other) :
    (t.withParents path).own? other = t.own? other := by
  obtain ⟨_, -, hadds⟩ := adds_ensureParent path t
  cases hown : t.own? other with
  | some own =>
    rw [own?_eq_some_iff] at hown ⊢
    exact hadds.resolve hown
  | none =>
    cases hp : Path.parent? path with
    | none =>
      have hsame : t.withParents path = t := by
        unfold withParents ensureParent
        rw [hp]
        rfl
      rw [hsame, hown]
    | some parent =>
      have habove : ∀ dir ∈ upward (parent.length + 1) parent, Path.Above dir path :=
        fun dir hd => above_of_mem_upward (.parent hp) hd
      rw [withParents_of_parent hp]
      exact (own?_ensureDirs hother (fun dir hd => withoutSlashes_of_above (habove dir hd))
        (fun dir hd => hfront dir (habove dir hd)) hrooted hown).1

/-! ## The temporary file -/

/-- A temporary file that is no link is written under its own name. -/
theorem exists_put_temporary (h : t.write (temporary path) bytes = .ok t')
    (hlink : t.isLink (temporary path) = false) :
    ∃ temp, t' = t.put temp (.file bytes) ∧ t.Meets .kept (temporary path) temp [] ∧
      (t.get? temp = none ∨ ∃ before, t.get? temp = some (.file before)) ∧
      t'.resolve .kept (temporary path) = .ok (.entry temp (.file bytes)) := by
  obtain ⟨temp, hput, htemp, hr⟩ := resolve_write h hlink
  obtain ⟨loc, before, ho, hput'⟩ := write_eq_ok h
  obtain ⟨-, hg⟩ := openFile_ok ho
  have hloc : loc = temp := by
    have hentries := congrArg Tree.entries (hput'.symm.trans hput)
    exact congrArg Prod.fst (List.cons.inj hentries).1
  have hm := (meets_of_entry hr (by simp)).1
  rw [hput] at hm
  subst hloc
  exact ⟨loc, hput, (shorter_put htemp bytes).meets hm, hg.imp_right fun hg => ⟨before, hg⟩, hr⟩

/-- Where the own entry of the temporary file is, the path does not end. -/
theorem ne_nil_of_meets_temporary {more : List String}
    (htemp : t.Meets .kept (temporary path) loc []) (hm : u.Meets .kept path loc more) :
    more ≠ [] := by
  rintro rfl
  exact last_ne_temporary path ((getLast?_of_meets htemp).symm.trans (getLast?_of_meets hm))

/-- A path leads to the same place beside its temporary file, or to no entry. -/
theorem resolve_put_temporary (htemp : t.Meets .kept (temporary path) temp [])
    (hg : t.get? temp = none ∨ ∃ before, t.get? temp = some (.file before)) :
    (t.put temp (.file bytes)).resolve .kept path = t.resolve .kept path ∨
      (∃ f, (t.put temp (.file bytes)).resolve .kept path = .error f) ∧
        ∃ f, t.resolve .kept path = .error f := by
  rcases resolve_put_eq_or_meets t temp (.file bytes) .kept path with he | ⟨more, hold, hnew⟩
  · exact Or.inl he
  · -- the path goes on behind the temporary file, where nothing is
    have hmore := ne_nil_of_meets_temporary htemp hold
    have hnew := hnew.resolve_file (get?_put_self t _ (isAbove_of_free_or_file hg))
    rw [if_neg hmore] at hnew
    refine Or.inr ⟨⟨_, hnew⟩, ?_⟩
    rcases hg with hg | ⟨before, hg⟩
    · exact ⟨_, (hold.resolve_free hg).trans (if_neg hmore)⟩
    · exact ⟨_, (hold.resolve_file hg).trans (if_neg hmore)⟩

/-- **What stands under a path does not change when its temporary file is written.** -/
theorem own?_write_temporary (h : t.write (temporary path) bytes = .ok t')
    (hlink : t.isLink (temporary path) = false) : t'.own? path = t.own? path := by
  obtain ⟨temp, rfl, hm, hg, -⟩ := exists_put_temporary h hlink
  rcases resolve_put_temporary hm hg with he | ⟨⟨f, hf⟩, f', hf'⟩
  · exact own?_of_resolve_eq he
  · rw [own?, own?, hf, hf']

/-! ## The whole text -/

/-- What has changed once a text is replaced. At `own`, where the path ends, stands a file with the
text, and at `temp`, where the temporary file was, nothing; the directories above the path that were
missing are there, and all else is as before. The path leads to the file, if it leads to a free name
without what stood there; if not, it leads through the file, and nowhere. Only a link can have stood
there then, as `Replaced.read_cases` says. -/
structure Replaced (path : String) (bytes : List UInt8) (t t' : Tree) (own temp : Location) :
    Prop where
  place : (t.withParents path).resolve .kept path = .ok ((t.withParents path).placeAt own)
  beside : (t.withParents path).resolve .kept (temporary path) =
    .ok ((t.withParents path).placeAt temp)
  whole : t'.get? own = some (.file bytes)
  gone : t'.get? temp = none ∧ t'.own? (temporary path) = none
  old : ∀ loc x, t.get? loc = some x → loc ≠ own → loc ≠ temp → t'.get? loc = some x
  new : ∀ loc x, t.get? loc = none → t'.get? loc = some x → loc = own ∨
    x = .dir ∧ ∃ dir, Path.Above dir path ∧ (t.withParents path).find dir = .ok (loc, .dir)
  read : (∀ u, t.remove path = .ok u → ∃ loc, u.resolve .kept path = .ok (.vacant loc)) →
    t'.read path = .ok bytes
  cut : ∀ u, t.remove path = .ok u → (∀ loc, u.resolve .kept path ≠ .ok (.vacant loc)) →
    t'.read path = .error .notDirectory

/-- Without the file that a path leads to, the path ends where it did. -/
theorem resolve_erase_of_file (ho : t.resolve .kept path = .ok (.entry own (.file bytes))) :
    (t.erase own).resolve .kept path = .ok (.vacant own) := by
  obtain ⟨hm, hg⟩ := meets_of_entry ho (by simp)
  -- the way goes through directories and links, and they are all still there
  have hstill : (t.erase own).Meets .kept path own [] := by
    refine hm.mono fun l x hl hnot => ?_
    have hne : l ≠ own := ne_of_free_or_file (Or.inr ⟨bytes, hg⟩) hl hnot
    rw [get?_erase_ne t hne, hl]
  exact hstill.resolve_vacant (get?_erase_self t (isAbove_of_get?_eq_file hg))

/-- What can be removed under a path and is no link leaves a free name there. -/
theorem exists_vacant_of_remove (hlink : t.isLink path = false) (hr : t.remove path = .ok u) :
    ∃ loc, u.resolve .kept path = .ok (.vacant loc) := by
  obtain ⟨own, ⟨y, ho, hy⟩, rfl⟩ := remove_eq_ok_iff.1 hr
  cases y with
  | dir => exact absurd rfl hy
  | file before => exact ⟨own, resolve_erase_of_file ho⟩
  | link target =>
    rw [isLink_of_resolve ho] at hlink
    cases hlink

/-- **The text is read under its path, unless a link stood there** without which the path leads to
no free name; then the path is cut off. -/
theorem Replaced.read_cases (h : Replaced path bytes t t' own temp) :
    t'.read path = .ok bytes ∨
      t.isLink path = true ∧
        (∃ u, t.remove path = .ok u ∧ ∀ loc, u.resolve .kept path ≠ .ok (.vacant loc)) ∧
        t'.read path = .error .notDirectory := by
  cases hlink : t.isLink path with
  | false => exact Or.inl (h.read fun u => exists_vacant_of_remove hlink)
  | true =>
    by_cases hopen : ∀ u, t.remove path = .ok u → ∃ loc, u.resolve .kept path = .ok (.vacant loc)
    · exact Or.inl (h.read hopen)
    · simp only [not_forall, not_exists] at hopen
      obtain ⟨u, hr, hcut⟩ := hopen
      exact Or.inr ⟨rfl, ⟨u, hr, hcut⟩, h.cut u hr hcut⟩

theorem read_of_meets (hm : t.Meets .kept path loc []) (hg : t.get? loc = some (.file bytes)) :
    t.read path = .ok bytes :=
  read_eq_ok_iff.2 ⟨loc, hm.find_file hg⟩

/-- A path that goes on behind a file cannot be read. -/
theorem read_behind {more : List String} (hm : t.Meets .kept path loc more) (hmore : more ≠ [])
    (hg : t.get? loc = some (.file bytes)) : t.read path = .error .notDirectory := by
  have hres := hm.followed.resolve_file hg
  rw [if_neg hmore] at hres
  simp [read, find, hres, bind, Except.bind]

section Moved

variable {y : Entry}

/-- What a tree is once a temporary file is moved over a path: `own` has the text, nothing is at
`temp`, and all else is as in `t`. -/
structure Moved (bytes : List UInt8) (t t' : Tree) (own temp : Location) : Prop where
  apart : temp ≠ own
  free : t.get? temp = none ∨ ∃ before, t.get? temp = some (.file before)
  whole : t'.get? own = some (.file bytes)
  gone : t'.get? temp = none
  same : ∀ loc, loc ≠ own → loc ≠ temp → t'.get? loc = t.get? loc

theorem moved_of_put (hown : isAbove own = false) (htemp : isAbove temp = false)
    (hne : temp ≠ own) (hg : t.get? temp = none ∨ ∃ before, t.get? temp = some (.file before)) :
    Moved bytes t (((t.put temp (.file bytes)).erase temp).put own (.file bytes)) own temp := by
  refine ⟨hne, hg, get?_put_self _ _ hown, ?_, fun loc hloc hloc' => ?_⟩
  · rw [get?_put_ne _ _ hne, get?_erase_self _ htemp]
  · rw [get?_put_ne _ _ hloc, get?_erase_ne _ hloc', get?_put_ne _ _ hloc']

/-- What a path meets whose own entry is no link is met in the tree with the text, too. -/
theorem Moved.meets {more : List String} (h : Moved bytes t t' own temp)
    (hg : t.get? own = none ∨ ∃ before, t.get? own = some (.file before))
    (hm : t.Meets e path own more) : t'.Meets e path own more := by
  refine hm.mono fun l x hl hnot => ?_
  rw [h.same l (ne_of_free_or_file hg hl hnot) (ne_of_free_or_file h.free hl hnot), hl]

/-- Nothing stands under the path of the temporary file any more. -/
theorem Moved.own?_temporary (h : Moved bytes t t' own temp)
    (hm : t.Meets .kept path own []) (htemp : t.Meets .kept (temporary path) temp []) :
    t'.own? (temporary path) = none := by
  rw [own?_eq_none_iff]
  intro loc x hres
  rcases resolve_eq_or_meets t t' .kept (temporary path) with he | ⟨cut, more, hne, hmeets⟩
  · rw [he] at hres
    rcases h.free with hg | ⟨before, hg⟩
    · rw [htemp.resolve_free hg] at hres
      cases hres
    · -- what was there is gone
      rw [htemp.resolve_file hg, if_pos rfl] at hres
      cases hres
      rw [htemp.resolve_file hg, if_pos rfl] at he
      have hthere := (meets_of_entry he (by simp)).2
      rw [h.gone] at hthere
      cases hthere
  · have hnew := hmeets t' (.right t t')
    by_cases hcut : cut = temp
    · rw [hcut] at hnew
      rw [hnew.resolve_free h.gone] at hres
      split at hres <;> cases hres
    by_cases hcut' : cut = own
    · rw [hcut'] at hnew
      rw [hnew.resolve_file h.whole] at hres
      split at hres
      · next hnil =>
        rw [hnil] at hnew
        exact ne_nil_of_meets_temporary hnew hm rfl
      · cases hres
    · exact hne (h.same cut hcut' hcut)

/-- Without its own entry a path meets the location of it as it does with a file there. -/
theorem Moved.exists_meets (h : Moved bytes t t' own temp)
    (ho : t.resolve .kept path = .ok (.entry own y)) (hy : y ≠ .dir) :
    ∃ more, (t.erase own).Meets .kept path own more ∧ t'.Meets .kept path own more := by
  have hthere := (meets_of_entry ho hy).2
  have ha : isAbove own = false := isAbove_of_get?_ne (t := t) (by simpa [hthere] using hy)
  have hgone := get?_erase_self t ha
  rcases resolve_eq_or_meets t (t.erase own) .kept path with he | ⟨cut, more, hne, hmeets⟩
  · have hstill := (meets_of_entry (he.trans ho) hy).2
    rw [hgone] at hstill
    cases hstill
  · have hcut : cut = own := by
      by_cases hcut : cut = own
      · exact hcut
      · exact absurd (get?_erase_ne t hcut) hne
    subst hcut
    have hfile : (t.put cut (.file bytes)).Meets .kept path cut more := by
      refine hmeets _ fun l hl => ?_
      by_cases hown : l = cut
      · rw [hown, hgone, hthere] at hl
        cases hl
      · exact get?_put_ne t _ hown
    have hmoved : Moved bytes (t.put cut (.file bytes)) t' cut temp := by
      refine ⟨h.apart, ?_, h.whole, h.gone, fun l hl hl' => ?_⟩
      · rw [get?_put_ne t _ h.apart]
        exact h.free
      · rw [get?_put_ne t _ hl, h.same l hl hl']
    exact ⟨more, hmeets _ (.right t _),
      hmoved.meets (Or.inr ⟨bytes, get?_put_self t _ ha⟩) hfile⟩

/-- **What a path leads to once the text stands under its name**, if a file or a link stood
there. -/
theorem Moved.read_of_remove (h : Moved bytes t t' own temp)
    (ho : t.resolve .kept path = .ok (.entry own y)) (hy : y ≠ .dir) :
    ((t.erase own).resolve .kept path = .ok (.vacant own) ∧ t'.read path = .ok bytes) ∨
      (∃ f, (t.erase own).resolve .kept path = .error f) ∧
        t'.read path = .error .notDirectory := by
  obtain ⟨more, hu, hnew⟩ := h.exists_meets ho hy
  have hthere := (meets_of_entry ho hy).2
  have ha : isAbove own = false := isAbove_of_get?_ne (t := t) (by simpa [hthere] using hy)
  have hres := hu.resolve_free (get?_erase_self t ha)
  by_cases hmore : more = []
  · rw [if_pos hmore] at hres
    subst hmore
    exact Or.inl ⟨hres, read_of_meets hnew h.whole⟩
  · rw [if_neg hmore] at hres
    exact Or.inr ⟨⟨_, hres⟩, read_behind hnew hmore h.whole⟩

/-- What was there is there still, but for the places of the two files. -/
theorem Moved.old (h : Moved bytes u t' own temp) (hadds : Adds dirs t u)
    (hx : t.get? loc = some x) (hloc : loc ≠ own) (hloc' : loc ≠ temp) :
    t'.get? loc = some x := by
  rw [h.same loc hloc hloc']
  exact hadds.get? hx

/-- Besides the text, only the directories that were made are new. -/
theorem Moved.new (h : Moved bytes u t' own temp) (hadds : Adds dirs t u)
    (hx : t.get? loc = none) (hx' : t'.get? loc = some x) :
    loc = own ∨ x = .dir ∧ ∃ dir ∈ dirs, u.find dir = .ok (loc, .dir) := by
  by_cases hloc : loc = own
  · exact Or.inl hloc
  by_cases hloc' : loc = temp
  · rw [hloc', h.gone] at hx'
    cases hx'
  · rw [h.same loc hloc hloc'] at hx'
    rcases hadds loc with he | ⟨-, hdir, hmade⟩
    · rw [he, hx] at hx'
      cases hx'
    · rw [hdir] at hx'
      cases hx'
      exact Or.inr ⟨rfl, hmade⟩

/-- A file or a link that a path leads to is its own entry, which is what is removed. -/
theorem remove_of_resolve (ho : t.resolve .kept path = .ok (.entry own y)) (hy : y ≠ .dir) :
    t.remove path = .ok (t.erase own) :=
  remove_eq_ok_iff.2 ⟨own, ⟨y, ho, hy⟩, rfl⟩

/-- The text is read under its path, if the path leads somewhere without what stood there. -/
theorem Moved.read_of_open (h : Moved bytes (t.withParents path) t' own temp)
    (hown : (t.withParents path).own? path = t.own? path)
    (ht : (t.withParents path).resolve .kept path = .ok (.vacant own) ∨
      ∃ y, y ≠ .dir ∧ (t.withParents path).resolve .kept path = .ok (.entry own y))
    (hopen : ∀ u, t.remove path = .ok u → ∃ loc, u.resolve .kept path = .ok (.vacant loc)) :
    t'.read path = .ok bytes := by
  rcases ht with hv | ⟨y, hy, ho⟩
  · obtain ⟨hm, hg⟩ := meets_of_vacant hv
    exact read_of_meets (h.meets (Or.inl hg) hm) h.whole
  · have ho' : t.resolve .kept path = .ok (.entry own y) :=
      own?_eq_some_iff.1 (hown.symm.trans (own?_eq_some_iff.2 ho))
    obtain ⟨loc, hv⟩ := hopen _ (remove_of_resolve ho' hy)
    rw [withParents_of_resolve ho'] at h
    rcases h.read_of_remove ho' hy with ⟨-, hread⟩ | ⟨⟨f, hf⟩, -⟩
    · exact hread
    · rw [hf] at hv
      cases hv

/-- If it does not, the path is cut off by the file with the text. -/
theorem Moved.read_of_cut (h : Moved bytes (t.withParents path) t' own temp)
    (hplace : (t.withParents path).resolve .kept path = .ok ((t.withParents path).placeAt own))
    (hr : t.remove path = .ok u) (hcut : ∀ loc, u.resolve .kept path ≠ .ok (.vacant loc)) :
    t'.read path = .error .notDirectory := by
  obtain ⟨own', ⟨y, ho, hy⟩, rfl⟩ := remove_eq_ok_iff.1 hr
  rw [withParents_of_resolve ho] at h hplace
  have hown : own' = own := by
    rw [ho, placeAt] at hplace
    split at hplace <;> cases hplace
    rfl
  subst hown
  rcases h.read_of_remove ho hy with ⟨hv, -⟩ | ⟨-, hread⟩
  · exact absurd hv (hcut own')
  · exact hread

end Moved

/-- Where a file can be moved to, its path ends. -/
theorem meets_of_target (h : t.resolve .kept path = .ok (.vacant own) ∨
    ∃ y, y ≠ .dir ∧ t.resolve .kept path = .ok (.entry own y)) :
    t.Meets .kept path own [] ∧ t.resolve .kept path = .ok (t.placeAt own) ∧
      isAbove own = false := by
  rcases h with hv | ⟨y, hy, ho⟩
  · obtain ⟨hm, hg⟩ := meets_of_vacant hv
    exact ⟨hm, by rw [hv, placeAt, hg], isAbove_of_get?_eq_none hg⟩
  · obtain ⟨hm, hg⟩ := meets_of_entry ho hy
    exact ⟨hm, by rw [ho, placeAt, hg], isAbove_of_get?_ne (t := t) (by simpa [hg] using hy)⟩

/-- A text that was moved over its path has replaced what was there. -/
theorem replaced_of_move (hown : (t.withParents path).own? path = t.own? path)
    (hlink : (t.withParents path).isLink (temporary path) = false)
    (hw : (t.withParents path).write (temporary path) bytes = .ok u)
    (hmove : u.move (temporary path) path = .ok t') :
    ∃ own temp, Replaced path bytes t t' own temp := by
  obtain ⟨dirs, habove, hadds⟩ := adds_ensureParent path t
  change Adds dirs t (t.withParents path) at hadds
  obtain ⟨temp, rfl, htemp, hfree, hr⟩ := exists_put_temporary hw hlink
  obtain ⟨src, x, own, hs, ht, rfl⟩ := move_eq_ok hmove
  rw [hr] at hs
  cases hs
  have hsame : ((t.withParents path).put temp (.file bytes)).resolve .kept path =
      (t.withParents path).resolve .kept path := by
    rcases resolve_put_temporary htemp hfree with he | ⟨⟨f, hf⟩, -⟩
    · exact he
    · rw [hf] at ht
      rcases ht with ht | ⟨y, -, ht⟩ <;> cases ht
  rw [hsame] at ht
  obtain ⟨hm, hplace, ha⟩ := meets_of_target ht
  have hne : temp ≠ own := by
    rintro rfl
    exact ne_nil_of_meets_temporary htemp hm rfl
  have hmoved : Moved bytes (t.withParents path) _ own temp :=
    moved_of_put ha (isAbove_of_free_or_file hfree) hne hfree
  refine ⟨own, temp, ?_⟩
  exact
    { place := hplace
      beside := htemp.resolve_end (not_link_of_free_or_file hfree)
      whole := hmoved.whole
      gone := ⟨hmoved.gone, hmoved.own?_temporary hm htemp⟩
      old := fun loc x => hmoved.old hadds
      new := fun loc x hx hx' => (hmoved.new hadds hx hx').imp_right fun ⟨hdir, dir, hd, hf⟩ =>
        ⟨hdir, dir, habove dir hd, hf⟩
      read := hmoved.read_of_open hown ht
      cut := fun u => hmoved.read_of_cut hplace }

/-- **A reader of a path sees what was there before, or the whole text.** In a tree where every
entry stands in a directory, let a path be made of ordinary names and that of its temporary file be
no link. What stands under the path is the same once the directories are made and once the temporary
file is written, and also if the replacement fails. If it does not fail, the text has replaced what
was there, the temporary file is gone, and besides only missing directories above were made. -/
theorem replace_whole (hrooted : t.Rooted) (hpath : MadeOfNames path)
    (hlink : t.isLink (temporary path) = false) (contents : String) :
    (t.withParents path).own? path = t.own? path ∧
    (∀ u, (t.withParents path).write (temporary path) (encode contents) = .ok u →
      u.own? path = t.own? path) ∧
    (∀ f t', (replace path contents).perform t = (.error f, t') → t'.own? path = t.own? path) ∧
    ∀ t', (replace path contents).perform t = (.ok (), t') →
      ∃ own temp, Replaced path (encode contents) t t' own temp := by
  have hfront : ∀ dir, Path.Above dir path → Front dir path := fun dir h => h.front
  have hown : (t.withParents path).own? path = t.own? path :=
    own?_withParents hrooted hpath hfront
  have hlink' : (t.withParents path).isLink (temporary path) = false :=
    (isLink_of_own?_eq (own?_withParents hrooted hpath.temporary
      fun dir h => (hfront dir h).temporary)).trans hlink
  have hwritten : ∀ u, (t.withParents path).write (temporary path) (encode contents) = .ok u →
      u.own? path = t.own? path := fun u hu => (own?_write_temporary hu hlink').trans hown
  refine ⟨hown, hwritten, fun f t' h => ?_, fun t' h => ?_⟩
  · rcases replace_cases h with ⟨-, rfl⟩ | ⟨u, hu, ⟨-, rfl⟩ | ⟨hr, -⟩⟩
    · exact hown
    · exact hwritten _ hu
    · cases hr
  · rcases replace_cases h with ⟨⟨f, hr⟩, -⟩ | ⟨u, hu, ⟨⟨f, hr⟩, -⟩ | ⟨-, hmove⟩⟩
    · cases hr
    · cases hr
    · exact replaced_of_move hown hlink' hu hmove

/-! A note that is a link, and beside it one that is reached through that very link. -/

/-- The directory `d` with the link `d/f` to `d/sub`, and the link `l` to `d` by way of `d/f`. -/
def roundabout : Tree :=
  ⟨[(["d"], .dir), (["d", "sub"], .dir), (["d", "f"], .link "sub"), (["l"], .link "d/f/..")]⟩

/-- A text replaces the link, and is read under its name. -/
theorem replace_whole_roundabout : ∃ t' own temp,
    (replace "d/f" "x\n").perform roundabout = (.ok (), t') ∧
    Replaced "d/f" (encode "x\n") roundabout t' own temp ∧ t'.read "d/f" = .ok (encode "x\n") := by
  have hrun : ((replace "d/f" "x\n").perform roundabout).1 = .ok () := by decide +kernel
  generalize hr : (replace "d/f" "x\n").perform roundabout = r at hrun
  obtain ⟨result, t'⟩ := r
  subst hrun
  have hpath : MadeOfNames "d/f" := ⟨["d", "f"], by decide +kernel⟩
  obtain ⟨own, temp, h⟩ := (replace_whole (t := roundabout) (by decide +kernel) hpath
    (by decide +kernel) "x\n").2.2.2 t' hr
  refine ⟨t', own, temp, rfl, h, h.read fun u hu => ?_⟩
  have hremove : roundabout.remove "d/f" = .ok (roundabout.erase ["d", "f"]) := by decide +kernel
  rw [hremove] at hu
  cases hu
  exact ⟨["d", "f"], by decide +kernel⟩

/-- **Where the way to a path goes through the link that stands there, the path is cut off** by the
text that replaces the link, though the replacement did not fail. -/
theorem not_replace_read_roundabout : roundabout.Rooted ∧ MadeOfNames "l/f" ∧
    roundabout.isLink (temporary "l/f") = false ∧
    ((replace "l/f" "x\n").perform roundabout).1 = .ok () ∧
    ((replace "l/f" "x\n").perform roundabout).2.read "l/f" = .error .notDirectory := by
  refine ⟨by decide +kernel, ⟨["l", "f"], by decide +kernel⟩, ?_⟩
  decide +kernel

end NearDup.Tree
