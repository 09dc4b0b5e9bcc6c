import NearDup.Proofs.Tree.Atomic
import NearDup.Proofs.Tree.LinkFree

/-!
# Changes behind a directory

Where no links are, what an operation makes of a name behind a directory depends on the entry of
that name alone, and changes that entry alone.

* `write_join` — a file is written
* `move_join` — a file is moved to another name of the same directory
* `ensureDir_join`, `perform_ensureParent_join` — a directory is made if it is missing
-/

namespace NearDup.Tree

open NearDup.Path Effect Text.Utf8

variable {t : Tree} {dir name source : String} {here : Location} {bytes : List UInt8}

/-! ## One operation -/

theorem checkPath_ne_noEntry {path : String} (h : path ≠ "") :
    checkPath path ≠ .error .noEntry := by
  unfold checkPath
  by_cases h₁ : '\x00' ∈ path.toList
  · simp [h₁, bind, Except.bind, throw, throwThe, MonadExceptOf.throw]
  · by_cases h₂ : pathLimit < Text.Utf8.size path
    · simp [h₁, h, h₂, throw, throwThe, MonadExceptOf.throw]
    · simp [h₁, h, h₂, pure, Except.pure]

theorem getLast?_join_ne (hd : dir ≠ "") (hn : Ordinary name) :
    (join dir name).toList.getLast? ≠ some '/' := by
  rw [join_eq hd hn.head?, String.toList_append,
    List.getLast?_append_of_ne_nil _ fun h => hn.ne_empty (String.toList_eq_nil_iff.1 h)]
  exact fun h => hn.no_slash (List.mem_of_getLast? h)

theorem withoutSlashes_join (hd : dir ≠ "") (hn : Ordinary name) :
    withoutSlashes (join dir name) = join dir name :=
  withoutSlashes_of_getLast? (getLast?_join_ne hd hn)

theorem temporary_join (hd : dir ≠ "") (hn : Ordinary name) :
    temporary (join dir name) = join dir (name ++ ".tmp") := by
  rw [temporary, join_eq hd hn.head?, join_eq hd (ordinary_temporary hn).head?]
  simp only [String.append_assoc]

section

variable (hf : t.find dir = .ok (here, .dir)) (hn : Ordinary name)
  (hs : size name ≤ nameLimit) (hl : t.LinkFree)
include hf hn hs hl

theorem write_join (bytes : List UInt8) : t.write (join dir name) bytes =
    match checkPath (join dir name) with
    | .error f => .error f
    | .ok _ => if t.get? (here ++ [name]) = some .dir then .error .isDirectory
      else .ok (t.put (here ++ [name]) (.file bytes)) := by
  unfold write openFile
  cases hc : checkPath (join dir name) with
  | error f => simp [resolve_of_refused hc, bind, Except.bind]
  | ok _ =>
    rw [resolve_join hf hn (hl.get?_ne _) hc hs, placeAt]
    cases hg : t.get? (here ++ [name]) with
    | none => rfl
    | some x =>
      cases x with
      | file before => rfl
      | dir => rfl
      | link target => exact absurd hg (hl.get?_ne _ target)

theorem ensureDir_join : t.ensureDir (join dir name) =
    match checkPath (join dir name), t.get? (here ++ [name]) with
    | .error f, _ => .error f
    | .ok _, none => .ok (t.put (here ++ [name]) .dir)
    | .ok _, some .dir => .ok t
    | .ok _, some _ => .error .alreadyThere := by
  unfold ensureDir makeDir isDir find
  rw [withoutSlashes_join (ne_empty_of_find hf) hn]
  cases hc : checkPath (join dir name) with
  | error f => simp [resolve_of_refused hc, bind, Except.bind]
  | ok _ =>
    rw [resolve_join hf hn (hl.get?_ne _) hc hs, resolve_join hf hn (hl.get?_ne _) hc hs, placeAt]
    cases hg : t.get? (here ++ [name]) with
    | none => rfl
    | some x =>
      cases x with
      | file before => rfl
      | dir => rfl
      | link target => exact absurd hg (hl.get?_ne _ target)

theorem makeDir_join_ne : t.makeDir (join dir name) ≠ .error .noEntry := by
  have hne := ne_empty_of_find hf
  unfold makeDir
  rw [withoutSlashes_join hne hn]
  cases hc : checkPath (join dir name) with
  | error f =>
    intro h
    cases h
    exact checkPath_ne_noEntry (join_ne_empty hne hn.head?) hc
  | ok _ =>
    rw [resolve_join hf hn (hl.get?_ne _) hc hs, placeAt]
    cases t.get? (here ++ [name]) <;> simp [bind, Except.bind, pure, Except.pure, throw, throwThe,
      MonadExceptOf.throw]

theorem perform_ensureParent_join {file : String} (hfile : Ordinary file) :
    (ensureParent (join (join dir name) file)).perform t =
      match t.ensureDir (join dir name) with
      | .ok t' => (.ok (), t')
      | .error f => (.error (.io (join dir name) f), t) := by
  have hne := ne_empty_of_find hf
  unfold ensureParent
  rw [parent?_join hne hn hfile]
  show ((ensureDirAll (join dir name)).mapError (Failure.io (join dir name))).perform t = _
  rw [mapError, perform_ofPerform, ensureDirAll, upward,
    perform_ensureDirs_of_not_missing (join_ne_empty hne hn.head?) (makeDir_join_ne hf hn hs hl),
    Effect.change, perform_ofPerform]
  cases t.ensureDir (join dir name) <;> rfl

/-- A file is moved to another name in its directory. -/
theorem move_join (hn' : Ordinary source) (hs' : size source ≤ nameLimit)
    (hc : checkPath (join dir name) = .ok ()) (hc' : checkPath (join dir source) = .ok ())
    (hx : t.get? (here ++ [source]) = some (.file bytes)) :
    t.move (join dir source) (join dir name) =
      if t.get? (here ++ [name]) = some .dir then .error .isDirectory
      else .ok ((t.erase (here ++ [source])).put (here ++ [name]) (.file bytes)) := by
  have hne := ne_empty_of_find hf
  have hlast := getLast?_join_ne hne hn
  have hnamed : endsNameless (join dir name) = false := by
    obtain ⟨front, hnames, -⟩ := pathNames_join hne hn
    simp [endsNameless, withoutSlashes_join hne hn, hnames, hn.ne_empty, hn.ne_here, hn.ne_up]
  have hsource : t.resolve .kept (join dir source) =
      .ok (.entry (here ++ [source]) (.file bytes)) := by
    rw [resolve_join hf hn' (hl.get?_ne _) hc' hs', placeAt, hx]
  unfold move
  rw [hc, hsource, withoutSlashes_join hne hn, resolve_join hf hn (hl.get?_ne _) hc hs, placeAt]
  simp only [bind, Except.bind, pure, Except.pure, hnamed, hlast, Bool.false_eq_true, if_false]
  cases hg : t.get? (here ++ [name]) with
  | none => rfl
  | some y => cases y <;> rfl

end

end NearDup.Tree
