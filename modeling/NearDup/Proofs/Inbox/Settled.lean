import NearDup.Proofs.Inbox.Output
import NearDup.Proofs.Tree.Below

/-!
# What is left in the directory for reports

Replacing a text in a directory that is made if it is missing, in a tree without links. How it ends
depends on where directories stand, and where one must not stand; and this it does not change. So
the next replacement ends in the same way, whatever became of this one.

* `endOf` — how the replacement ends, told by what stands in the way
* `Steady` — what may have changed around the place
* `Settles` — what has, where the replacement ended in this way
* `perform_replace` — a replacement ends so, and changes no more
-/

namespace NearDup.Inbox

open NearDup.Tree NearDup.Path Effect Text.Utf8

variable {t t' : Tree} {root dir name mid : String} {here inbox loc : Location} {x : Entry}
  {bytes : List UInt8} {r : Except Failure Unit}

/-! ## Well-named trees -/

theorem WellNamed.erase (hw : WellNamed t) (loc : Location) : WellNamed (t.erase loc) :=
  fun e he => hw e (List.mem_filter.1 he).1

theorem WellNamed.put (hw : WellNamed t) (hn : Ordinary name) (here : Location) (x : Entry) :
    WellNamed (t.put (here ++ [name]) x) := by
  intro e he last hlast
  rcases List.mem_cons.1 he with rfl | he
  · simp only [List.getLast?_append, List.getLast?_singleton, Option.some_or,
      Option.mem_some_iff] at hlast
    exact hlast ▸ hn
  · exact hw.erase _ e he last hlast

/-! ## How it ends -/

/-- Is there a directory at a location? -/
def hasDir (t : Tree) (loc : Location) : Bool := t.get? loc = some .dir

/-- Is there a file at a location? -/
def hasFile (t : Tree) (loc : Location) : Bool := t.get? loc matches some (.file _)

/-- How it ends to write a temporary file in the directory at `here` and to move it to a name. -/
def endOfMove (t : Tree) (here : Location) (dir name : String) : Except Failure Unit :=
  let path := join dir name
  match checkPath (temporary path) with
  | .error f => .error (.io (temporary path) f)
  | .ok _ =>
    if hasDir t (here ++ [name ++ ".tmp"]) then .error (.io (temporary path) .isDirectory)
    else if hasDir t (here ++ [name]) then .error (.io path .isDirectory)
    else .ok ()

/-- How it ends to replace the text of a name in the directory at `here`, which is made if nothing
is there. -/
def endOf (t : Tree) (here : Location) (dir name : String) : Except Failure Unit :=
  match checkPath dir with
  | .error f => .error (.io dir f)
  | .ok _ => if hasFile t here then .error (.io dir .alreadyThere) else endOfMove t here dir name

theorem checkPath_of_endOf (h : endOf t here dir name = .ok ()) :
    checkPath dir = .ok () ∧ checkPath (temporary (join dir name)) = .ok () := by
  unfold endOf at h
  split at h
  · cases h
  · next hc =>
    split at h
    · cases h
    · unfold endOfMove at h
      simp only at h
      split at h
      · cases h
      · next hc' => exact ⟨hc, hc'⟩

/-! ## What it leaves -/

/-- Only the directory at `here` and what stands directly in it has changed. The directory may have
been made, and there is none elsewhere that was none before. -/
structure Steady (here : Location) (t t' : Tree) : Prop where
  same : ∀ loc, loc ≠ here → (∀ file, loc ≠ here ++ [file]) → t'.get? loc = t.get? loc
  above : t'.get? here = t.get? here ∨ t.get? here = none ∧ t'.get? here = some .dir
  dirs : ∀ file, hasDir t' (here ++ [file]) = hasDir t (here ++ [file])
  linkFree : t'.LinkFree
  wellNamed : WellNamed t'

theorem Steady.refl (hl : t.LinkFree) (hw : WellNamed t) : Steady here t t :=
  ⟨fun _ _ _ => rfl, Or.inl rfl, fun _ => rfl, hl, hw⟩

theorem Steady.trans {t₁ t₂ t₃ : Tree} (h : Steady here t₁ t₂) (h' : Steady here t₂ t₃) :
    Steady here t₁ t₃ := by
  refine ⟨fun loc hloc hfile => ?_, ?_, fun file => ?_, h'.linkFree, h'.wellNamed⟩
  · rw [h'.same loc hloc hfile, h.same loc hloc hfile]
  · rcases h'.above with he' | ⟨hg, he'⟩
    · rw [he']
      exact h.above
    · rcases h.above with he | ⟨-, he⟩
      · exact Or.inr ⟨he ▸ hg, he'⟩
      · rw [hg] at he
        cases he
  · rw [h'.dirs, h.dirs]

/-- Every change is at the directory or below it. -/
theorem Steady.below (h : Steady here t t') (hne : t'.get? loc ≠ t.get? loc) :
    ∃ rest, loc = here ++ rest := by
  by_contra hnot
  push Not at hnot
  refine hne (h.same loc (fun he => hnot [] ?_) fun file => hnot [file])
  rw [he, List.append_nil]

/-- The next replacement ends in the same way. -/
theorem Steady.endOf_eq (h : Steady here t t') (dir name : String) :
    endOf t' here dir name = endOf t here dir name := by
  have hfile : hasFile t' here = hasFile t here := by
    rcases h.above with he | ⟨hg, he⟩
    · rw [hasFile, hasFile, he]
    · rw [hasFile, hasFile, hg, he]
  rw [endOf, endOf, hfile, endOfMove, endOfMove, h.dirs, h.dirs]

/-- No directory is lost. -/
theorem Steady.get?_dir (h : Steady here t t') (hdir : t.get? loc = some .dir) :
    t'.get? loc = some .dir := by
  by_cases hloc : loc = here
  · subst hloc
    rcases h.above with he | ⟨hg, -⟩
    · rw [he, hdir]
    · rw [hg] at hdir
      cases hdir
  by_cases hfile : ∃ file, loc = here ++ [file]
  · obtain ⟨file, rfl⟩ := hfile
    have hsame := h.dirs file
    rw [hasDir, hasDir, decide_eq_decide] at hsame
    exact hsame.2 hdir
  · rw [h.same loc hloc fun file he => hfile ⟨file, he⟩, hdir]

/-- A directory above is found where it was. -/
theorem Steady.find_dir (h : Steady here t t') (hl : t.LinkFree)
    (hf : t.find root = .ok (inbox, .dir)) (hlt : inbox.length < here.length) :
    t'.find root = .ok (inbox, .dir) := by
  refine find_eq_of_elsewhere hf fun l hne => ⟨?_, hl.free_or_file fun hdir => ?_⟩
  · rintro rfl
    obtain ⟨rest, rfl⟩ := h.below hne
    rw [List.length_append] at hlt
    omega
  · exact hne ((h.get?_dir hdir).trans hdir.symm)

/-- What is left where a text was to be replaced under a name in the directory at `here`. Nothing
else in it has changed but the temporary file, and if nothing failed the text is in the file. -/
structure Settles (here : Location) (name : String) (bytes : List UInt8)
    (r : Except Failure Unit) (t t' : Tree) : Prop extends Steady here t t' where
  others : ∀ file, file ≠ name → file ≠ name ++ ".tmp" →
    t'.get? (here ++ [file]) = t.get? (here ++ [file])
  done : r = .ok () → t'.get? here = some .dir ∧ t'.get? (here ++ [name]) = some (.file bytes)
  failed : r ≠ .ok () → t'.get? (here ++ [name]) = t.get? (here ++ [name])

theorem Settles.refl (hl : t.LinkFree) (hw : WellNamed t) (hr : r ≠ .ok ()) :
    Settles here name bytes r t t :=
  ⟨.refl hl hw, fun _ _ _ => rfl, fun h => absurd h hr, fun _ => rfl⟩

theorem get?_put_dir_below (t : Tree) (here : Location) (file : String) :
    (t.put here .dir).get? (here ++ [file]) = t.get? (here ++ [file]) :=
  get?_put_ne t _ (by simp)

theorem steady_put_dir (hl : t.LinkFree) (hw : WellNamed t) (hm : Ordinary mid)
    (hg : t.get? (inbox ++ [mid]) = none) :
    Steady (inbox ++ [mid]) t (t.put (inbox ++ [mid]) .dir) := by
  refine ⟨fun loc hloc _ => get?_put_ne t _ hloc, Or.inr ⟨hg, ?_⟩, fun file => ?_, hl.put _ rfl,
    hw.put hm inbox _⟩
  · exact get?_put_self t _ (isAbove_of_get?_eq_none hg)
  · rw [hasDir, hasDir, get?_put_dir_below]

/-- The directory may have been made before. -/
theorem Settles.of_put_dir (hsteady : Steady here t (t.put here .dir))
    (h : Settles here name bytes r (t.put here .dir) t') : Settles here name bytes r t t' := by
  refine ⟨hsteady.trans h.toSteady, fun file hfile hfile' => ?_, h.done, fun hr => ?_⟩
  · rw [h.others file hfile hfile', get?_put_dir_below]
  · rw [h.failed hr, get?_put_dir_below]

/-! ## Replacing a text -/

theorem checkPath_of_temporary {path : String} (hne : path ≠ "")
    (h : checkPath (temporary path) = .ok ()) : checkPath path = .ok () := by
  obtain ⟨hzero, -, hlong⟩ := checkPath_eq_ok_iff.1 h
  rw [temporary, String.toList_append, List.mem_append, not_or] at hzero
  rw [temporary, size, encode_append, List.length_append] at hlong
  refine checkPath_eq_ok_iff.2 ⟨hzero.1, hne, ?_⟩
  rw [size]
  omega

section

variable (hn : Ordinary name) (hl : t.LinkFree) (hw : WellNamed t)
include hn hl hw

/-- The temporary file is written, and stays. -/
theorem settles_put (htemp : hasDir t (here ++ [name ++ ".tmp"]) = false) (hr : r ≠ .ok ()) :
    Settles here name bytes r t (t.put (here ++ [name ++ ".tmp"]) (.file bytes)) := by
  have hself := get?_put_self t (.file bytes) (isAbove_append_ordinary (ordinary_temporary hn) here)
  have hother : ∀ file, file ≠ name ++ ".tmp" →
      (t.put (here ++ [name ++ ".tmp"]) (.file bytes)).get? (here ++ [file]) =
        t.get? (here ++ [file]) :=
    fun file hfile => get?_put_ne t _ (by simpa using hfile)
  refine ⟨⟨fun loc _ hfile => get?_put_ne t _ (hfile _), Or.inl (get?_put_ne t _ (by simp)),
    fun file => ?_, hl.put _ rfl, hw.put (ordinary_temporary hn) here _⟩,
    fun file _ => hother file, fun h => absurd h hr, fun _ => hother name (ne_temporaryName name)⟩
  by_cases hfile : file = name ++ ".tmp"
  · rw [hfile, htemp, hasDir, hself]
    rfl
  · rw [hasDir, hasDir, hother file hfile]

/-- The temporary file is moved over the other one. -/
theorem settles_move (hdir : t.get? here = some .dir)
    (htemp : hasDir t (here ++ [name ++ ".tmp"]) = false)
    (hfree : hasDir t (here ++ [name]) = false) :
    Settles here name bytes (.ok ()) t
      (((t.put (here ++ [name ++ ".tmp"]) (.file bytes)).erase (here ++ [name ++ ".tmp"])).put
        (here ++ [name]) (.file bytes)) := by
  have hself := get?_put_self ((t.put (here ++ [name ++ ".tmp"]) (.file bytes)).erase
    (here ++ [name ++ ".tmp"])) (.file bytes) (isAbove_append_ordinary hn here)
  have hgone := get?_erase_self (t.put (here ++ [name ++ ".tmp"]) (.file bytes))
    (isAbove_append_ordinary (ordinary_temporary hn) here)
  have hother : ∀ loc, loc ≠ here ++ [name] → loc ≠ here ++ [name ++ ".tmp"] →
      (((t.put (here ++ [name ++ ".tmp"]) (.file bytes)).erase (here ++ [name ++ ".tmp"])).put
        (here ++ [name]) (.file bytes)).get? loc = t.get? loc := by
    intro loc h h'
    rw [get?_put_ne _ _ h, get?_erase_ne _ h', get?_put_ne t _ h']
  have hhere := hother here (by simp) (by simp)
  refine ⟨⟨fun loc _ hfile => hother loc (hfile _) (hfile _), Or.inl hhere, fun file => ?_,
    ((hl.put _ rfl).erase _).put _ rfl,
    ((hw.put (ordinary_temporary hn) here _).erase _).put hn here _⟩,
    fun file hfile hfile' => hother _ (by simpa using hfile) (by simpa using hfile'),
    fun _ => ⟨hhere.trans hdir, hself⟩, fun h => absurd rfl h⟩
  by_cases hfile : file = name
  · rw [hfile, hfree, hasDir, hself]
    rfl
  by_cases hfile' : file = name ++ ".tmp"
  · rw [hfile', htemp, hasDir, get?_put_ne _ _ (by simp), hgone]
    rfl
  · rw [hasDir, hasDir, hother _ (by simpa using hfile) (by simpa using hfile')]

variable (hs : size (name ++ ".tmp") ≤ nameLimit)
include hs

/-- **Where a directory is, a text is replaced in it**, or fails to be. -/
theorem perform_move (hf : t.find dir = .ok (here, .dir)) (hdir : t.get? here = some .dir)
    (contents : String) : ∃ r t',
      (do changeAt (temporary (join dir name))
            (write (temporary (join dir name)) (encode contents))
          changeAt (join dir name) (move (temporary (join dir name)) (join dir name))).perform t =
        (r, t') ∧
      r = endOfMove t here dir name ∧ Settles here name (encode contents) r t t' := by
  have hne := ne_empty_of_find hf
  have hn' := ordinary_temporary hn
  have hs' : size name ≤ nameLimit := by
    rw [size, encode_append, List.length_append] at hs
    rw [size]
    omega
  have hwrite := write_join hf hn' hs hl (encode contents)
  rw [← temporary_join hne hn] at hwrite
  simp only [perform_bind, changeAt, change, perform_ofPerform, withPath, hwrite, endOfMove]
  cases hc : checkPath (temporary (join dir name)) with
  | error f => exact ⟨_, _, rfl, rfl, .refl hl hw (by simp)⟩
  | ok _ =>
    cases htemp : hasDir t (here ++ [name ++ ".tmp"]) with
    | true =>
      rw [if_pos (of_decide_eq_true htemp)]
      exact ⟨_, _, rfl, rfl, .refl hl hw (by simp)⟩
    | false =>
      have hput := of_decide_eq_false htemp
      rw [if_neg hput]
      -- the directory is where it was, so the move is one of two files in it
      have hf' : (t.put (here ++ [name ++ ".tmp"]) (.file (encode contents))).find dir =
          .ok (here, .dir) := by
        refine find_eq_of_elsewhere hf fun l hne => ?_
        have hloc : l = here ++ [name ++ ".tmp"] := by
          by_contra h
          exact hne (get?_put_ne t _ h)
        subst hloc
        exact ⟨by simp, hl.free_or_file hput⟩
      have hmove := move_join hf' hn hs' (hl.put _ rfl) hn' hs
        (checkPath_of_temporary (join_ne_empty hne hn.head?) hc)
        (temporary_join hne hn ▸ hc)
        (get?_put_self t (.file (encode contents)) (isAbove_append_ordinary hn' here))
      rw [← temporary_join hne hn, get?_put_ne t _ (by simpa using ne_temporaryName name)] at hmove
      simp only [Except.mapError, hmove]
      cases hfree : hasDir t (here ++ [name]) with
      | true =>
        rw [if_pos (of_decide_eq_true hfree)]
        exact ⟨_, _, rfl, rfl, settles_put hn hl hw htemp (by simp)⟩
      | false =>
        rw [if_neg (of_decide_eq_false hfree)]
        exact ⟨_, _, rfl, rfl, settles_move hn hl hw hdir htemp hfree⟩

/-- **How the replacement of a text ends, and what it leaves.** -/
theorem perform_replace (hf : t.find root = .ok (inbox, .dir)) (hm : Ordinary mid)
    (hmid : size mid ≤ nameLimit) (contents : String) : ∃ r t',
      (replace (join (join root mid) name) contents).perform t = (r, t') ∧
      r = endOf t (inbox ++ [mid]) (join root mid) name ∧
      Settles (inbox ++ [mid]) name (encode contents) r t t' := by
  rw [replace, perform_bind, perform_ensureParent_join hf hm hmid hl hn,
    ensureDir_join hf hm hmid hl, endOf]
  cases hc : checkPath (join root mid) with
  | error f => exact ⟨_, _, rfl, rfl, .refl hl hw (by simp)⟩
  | ok _ =>
    cases hg : t.get? (inbox ++ [mid]) with
    | none =>
      -- the text goes into a directory that was just made
      have hself := get?_put_self t .dir (isAbove_of_get?_eq_none hg)
      have hdir : (t.put (inbox ++ [mid]) .dir).find (join root mid) =
          .ok (inbox ++ [mid], .dir) := by
        rw [find_eq_ok_iff, resolve_join (find_put hg hf .dir) hm (by simp [hself]) hc hmid,
          placeAt, hself]
      obtain ⟨r, t', he, hr, hsettles⟩ := perform_move hn (hl.put _ rfl) (hw.put hm inbox .dir) hs
        hdir hself contents
      refine ⟨r, t', he, ?_, hsettles.of_put_dir (steady_put_dir hl hw hm hg)⟩
      rw [hr, endOfMove, endOfMove, hasDir, hasDir, get?_put_dir_below, get?_put_dir_below]
      simp [hasFile, hg, hasDir]
    | some x =>
      cases x with
      | file before =>
        refine ⟨_, _, rfl, ?_, .refl hl hw (by simp)⟩
        simp [hasFile, hg]
      | dir =>
        have hdir : t.find (join root mid) = .ok (inbox ++ [mid], .dir) := by
          rw [find_eq_ok_iff, resolve_join hf hm (hl.get?_ne _) hc hmid, placeAt, hg]
        obtain ⟨r, t', he, hr, hsettles⟩ := perform_move hn hl hw hs hdir hg contents
        refine ⟨r, t', he, ?_, hsettles⟩
        simp [hr, hasFile, hg]
      | link target => exact absurd hg (hl.get?_ne _ target)

end

end NearDup.Inbox
