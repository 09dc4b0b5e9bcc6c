import NearDup.Inbox
import NearDup.Proofs.Path
import NearDup.Proofs.Tree.Paths

/-!
# Where the documents of an inbox are

The walk through an inbox goes down by the names of entries, so what is left of the path of a file
below the inbox leads to that file again. A document can be found by its name alone.

* `WellNamed` — every entry has a name that an entry can have
* `filesBelow_spec` — the paths of the walk lead down from the inbox to files
* `exists_file_of_mem_load` — a document is read from the file under its name
-/

namespace NearDup.Inbox

open NearDup.Tree NearDup.Path

variable {t : Tree} {root : String} {extensions : List String} {docs : List Document}
  {d : Document}

/-- Every entry has a name that an entry can have, as in every file system. -/
def WellNamed (t : Tree) : Prop := ∀ e ∈ t.entries, ∀ name ∈ e.1.getLast?, Ordinary name

instance (t : Tree) : Decidable (WellNamed t) :=
  inferInstanceAs (Decidable (∀ e ∈ t.entries, ∀ name ∈ e.1.getLast?, Ordinary name))

theorem WellNamed.ordinary (h : WellNamed t) {dir : Location} {name : String}
    (hn : name ∈ t.names dir) : Ordinary name := by
  rw [names, (sortBy_perm _ _).mem_iff, mem_distinct, List.mem_filterMap] at hn
  obtain ⟨e, he, hname⟩ := hn
  refine h e he name ?_
  rw [nameIn?_eq_some_iff.1 hname]
  simp

/-- What the walk comes to at a path: a file, or what it comes to below a directory, unless it turns
back there. -/
def filesAt (t : Tree) (turnsBack : Location → Bool) (below : String → List String)
    (path : String) : List String :=
  match t.resolve .followed path with
  | .ok (.entry _ (.file _)) => [path]
  | .ok (.entry loc .dir) => if turnsBack loc then [] else below path
  | _ => []

/-- The walk looks at each name but that of the directory for reports. -/
theorem filesBelow_cases (t : Tree) (fuel : Nat) (above : List Location) (path : String) :
    filesBelow t (fuel + 1) above path = [] ∨
      ∃ here, ∃ turnsBack : String → Location → Bool,
      filesBelow t (fuel + 1) above path = ((t.names here).filter (· ≠ analysisName)).flatMap
        fun name => filesAt t (turnsBack name) (filesBelow t fuel (here :: above))
          (join path name) := by
  rw [filesBelow]
  split
  · next here _ => exact Or.inr ⟨here, _, rfl⟩
  · exact Or.inl rfl

theorem filesAt_cases (t : Tree) (turnsBack : Location → Bool) (below : String → List String)
    (path : String) :
    filesAt t turnsBack below path = [] ∨
      (filesAt t turnsBack below path = [path] ∧
        ∃ loc bytes, t.find path = .ok (loc, .file bytes)) ∨
      filesAt t turnsBack below path = below path := by
  unfold filesAt
  split
  · next loc bytes hr => exact Or.inr (Or.inl ⟨rfl, loc, bytes, find_eq_ok_iff.2 hr⟩)
  · split
    · exact Or.inl rfl
    · exact Or.inr (Or.inr rfl)
  · exact Or.inl rfl

/-- The walk goes down from the directory where it begins, by names of entries other than that of
the directory for reports, and ends at files. -/
theorem filesBelow_spec (hw : WellNamed t) {fuel : Nat} {above : List Location}
    {path found : String} (h : found ∈ filesBelow t fuel above path) :
    ∃ name names, (∀ n ∈ name :: names, Ordinary n) ∧ analysisName ∉ name :: names ∧
      found = (name :: names).foldl join path ∧
      ∃ loc bytes, t.find found = .ok (loc, .file bytes) := by
  induction fuel generalizing above path with
  | zero => simp [filesBelow] at h
  | succ fuel ih =>
    rcases filesBelow_cases t fuel above path with hnil | ⟨here, turnsBack, hflat⟩
    · simp [hnil] at h
    · rw [hflat] at h
      obtain ⟨name, hname, hfound⟩ := List.mem_flatMap.1 h
      obtain ⟨hlisted, hne⟩ := List.mem_filter.1 hname
      have hord : Ordinary name := hw.ordinary hlisted
      have hne : analysisName ≠ name := fun he => of_decide_eq_true hne he.symm
      rcases filesAt_cases t (turnsBack name) (filesBelow t fuel (here :: above)) (join path name)
        with hnil | ⟨hone, hfile⟩ | hbelow
      · simp [hnil] at hfound
      · rw [hone, List.mem_singleton] at hfound
        subst hfound
        exact ⟨name, [], List.forall_mem_singleton.2 hord, fun hn => hne (List.mem_singleton.1 hn),
          rfl, hfile⟩
      · -- the names below come behind this one
        rw [hbelow] at hfound
        obtain ⟨next, rest, hall, hrest, rfl, hf⟩ := ih hfound
        exact ⟨name, next :: rest, List.forall_mem_cons.2 ⟨hord, hall⟩,
          List.not_mem_cons_of_ne_of_not_mem hne hrest, rfl, hf⟩

theorem ne_empty_of_isDir (h : t.isDir root = true) : root ≠ "" := by
  rintro rfl
  have hf : t.find "" = .error .noEntry := by
    simp [find, resolve_of_refused (show checkPath "" = .error .noEntry from rfl), bind,
      Except.bind]
  simp [isDir, hf] at h

/-- The documents of an inbox; none if there is no such directory. -/
def documents (t : Tree) (root : String) (extensions : List String) : List Document :=
  (load t root extensions).toOption.getD []

/-- An inbox that is a directory can be loaded, and no other can. -/
theorem load_eq_ok_iff :
    load t root extensions = .ok docs ↔
      t.isDir root = true ∧ docs = documents t root extensions := by
  unfold documents load
  split
  · next h =>
    constructor
    · rintro ⟨⟩
      exact ⟨h, rfl⟩
    · rintro ⟨-, rfl⟩
      rfl
  · next h =>
    constructor
    · intro hl
      cases hl
    · rintro ⟨hd, -⟩
      exact absurd hd h

/-- **A document is read from the file that its name leads to**, as that file stands. -/
theorem exists_file_of_mem_load (hw : WellNamed t) (h : load t root extensions = .ok docs)
    (hd : d ∈ docs) :
    ∃ loc bytes, t.find (join root d.id) = .ok (loc, .file bytes) ∧
      d = .make d.id d.path bytes.length (Text.Utf8.decodeLenient bytes) := by
  have hdir := (load_eq_ok_iff.1 h).1
  unfold load at h
  rw [if_pos hdir] at h
  cases h
  obtain ⟨path, hp, hr⟩ := List.mem_filterMap.1 hd
  obtain ⟨name, names, hall, -, rfl, loc, bytes, hf⟩ :=
    filesBelow_spec hw (List.mem_filter.1 hp).1
  have hread := read_eq_ok_iff.2 ⟨loc, hf⟩
  simp only [readDocument, hread, withPath, Except.mapError, bind, Except.bind, pure,
    Except.pure, Except.toOption, Option.some.injEq] at hr
  subst hr
  refine ⟨loc, bytes, ?_, rfl⟩
  rw [← hf]
  exact congrArg t.find (join_relativeTo (ne_empty_of_isDir hdir) hall)

/-- A document is found under its name, with the text it was read with. -/
theorem find_of_mem_load (hw : WellNamed t) (h : load t root extensions = .ok docs)
    (hd : d ∈ docs) :
    ∃ loc bytes, t.find (join root d.id) = .ok (loc, .file bytes) ∧
      d.content = Text.Utf8.decodeLenient bytes ∧ d.digest = .of d.content := by
  obtain ⟨loc, bytes, hf, hmake⟩ := exists_file_of_mem_load hw h hd
  refine ⟨loc, bytes, hf, ?_, ?_⟩
  · rw [hmake]
    rfl
  · rw [hmake]
    rfl

end NearDup.Inbox
