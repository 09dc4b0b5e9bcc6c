import NearDup.Proofs.Inbox

/-!
# The identifiers of documents

The identifier of a document is made of the names that the walk went down to it. Different ways down
have different names, so no two documents share an identifier, also when they are one file; and the
names lead down the same way again, so each document is read again from its identifier.

* `components_textJoin` — the components of names put together are the names
* `nodup_filesBelow` — the walk comes to no path twice
* `load_identifies` — the identifiers of an inbox are distinct, and the documents are read from them
-/

namespace NearDup.Path

variable {base name name' : String} {names names' : List String}

/-- The components of names put together are the names. -/
theorem components_textJoin (h : ∀ n ∈ name :: names, Ordinary n) :
    components (Text.join "/" (name :: names)) =
      (name :: names).map fun n => Component.name n.toList := by
  have hname := h name List.mem_cons_self
  have hhead := head?_textJoin hname names
  have hhere : name.toList ≠ ['.'] := fun hn => hname.ne_here (String.toList_inj.1 hn)
  have hfirst : ∀ ps, locatedFrom true 0 (name.toList :: ps) =
      locatedFrom false 0 (name.toList :: ps) := by
    intro ps
    simp only [locatedFrom, if_neg hhere]
  rw [components, located, if_neg hhead, pieces_textJoin h, List.map_cons, hfirst,
    ← List.map_cons (f := String.toList), map_locatedFrom_names h]

/-- Different names lead to different paths. -/
theorem foldl_join_inj (hb : base ≠ "") (h : ∀ n ∈ name :: names, Ordinary n)
    (h' : ∀ n ∈ name' :: names', Ordinary n)
    (heq : (name :: names).foldl join base = (name' :: names').foldl join base) :
    name :: names = name' :: names' := by
  have hparts : (name :: names).map (fun n => Component.name n.toList) =
      (name' :: names').map fun n => Component.name n.toList := by
    have hpaths : components base ++ (name :: names).map (fun n => Component.name n.toList) =
        components base ++ (name' :: names').map fun n => Component.name n.toList := by
      rw [← components_join hb h, ← components_join hb h', ← foldl_join hb h,
        ← foldl_join hb h', heq]
    exact List.append_cancel_left hpaths
  refine List.map_injective_iff.2 (fun n n' hn => ?_) hparts
  exact String.toList_inj.1 (Component.name.inj hn)

/-- A name below a directory has the same extension there as on its own. -/
theorem extension?_relativeTo (hb : base ≠ "") (h : ∀ n ∈ name :: names, Ordinary n) :
    extension? (relativeTo base ((name :: names).foldl join base)) =
      extension? ((name :: names).foldl join base) := by
  have hlast : ((name :: names).map fun n => Component.name n.toList) ≠ [] := by simp
  rw [relativeTo_foldl_join hb h, foldl_join hb h, extension?, extension?, fileName?, fileName?,
    components_textJoin h, components_join hb h, List.getLast?_append_of_ne_nil _ hlast]

end NearDup.Path

namespace NearDup.Inbox

open NearDup.Tree NearDup.Path

variable {t : Tree} {root : String} {extensions : List String} {docs : List Document}
  {d : Document}

/-! ## The walk -/

theorem nodup_names (t : Tree) (dir : Location) : (t.names dir).Nodup :=
  (sortBy_perm _ _).nodup_iff.2 (nodup_distinct _)

/-- What the walk comes to by a name has that name behind the path of the directory. -/
theorem exists_names_of_mem_filesAt (hw : WellNamed t) {turnsBack : Location → Bool} {fuel : Nat}
    {above : List Location} {path name found : String}
    (h : found ∈ filesAt t turnsBack (filesBelow t fuel above) (join path name)) :
    ∃ names, (∀ n ∈ names, Ordinary n) ∧ found = (name :: names).foldl join path := by
  rcases filesAt_cases t turnsBack (filesBelow t fuel above) (join path name) with
    hnil | ⟨hone, -⟩ | hbelow
  · simp [hnil] at h
  · rw [hone, List.mem_singleton] at h
    exact ⟨[], by simp, h⟩
  · rw [hbelow] at h
    obtain ⟨next, rest, hall, -, rfl, -⟩ := filesBelow_spec hw h
    exact ⟨next :: rest, hall, rfl⟩

/-- **The walk comes to no path twice.** -/
theorem nodup_filesBelow (hw : WellNamed t) (fuel : Nat) (above : List Location) {path : String}
    (hp : path ≠ "") : (filesBelow t fuel above path).Nodup := by
  induction fuel generalizing above path with
  | zero => exact List.nodup_nil
  | succ fuel ih =>
    rcases filesBelow_cases t fuel above path with hnil | ⟨here, turnsBack, hflat⟩
    · simp [hnil]
    · rw [hflat]
      have hord : ∀ name ∈ (t.names here).filter (· ≠ analysisName), Ordinary name :=
        fun name hname => hw.ordinary (List.mem_filter.1 hname).1
      refine List.nodup_flatMap.2 ⟨fun name hname => ?_, ?_⟩
      · rcases filesAt_cases t (turnsBack name) (filesBelow t fuel (here :: above))
          (join path name) with hnil | ⟨hone, -⟩ | hbelow
        · simp [hnil]
        · simp [hone]
        · rw [hbelow]
          exact ih _ (join_ne_empty hp (hord name hname).head?)
      · -- two names of one directory are different, and so is what stands behind them
        refine ((nodup_names t here).filter _).pairwise_of_forall_ne
          fun name hname name' hname' hne => ?_
        intro found hfound hfound'
        obtain ⟨names, hall, rfl⟩ := exists_names_of_mem_filesAt hw hfound
        obtain ⟨names', hall', heq⟩ := exists_names_of_mem_filesAt hw hfound'
        have hsame := foldl_join_inj hp (List.forall_mem_cons.2 ⟨hord name hname, hall⟩)
          (List.forall_mem_cons.2 ⟨hord name' hname', hall'⟩) heq
        exact hne (List.cons.inj hsame).1

/-! ## Identifiers -/

theorem path_of_readDocument {path : String}
    (h : (readDocument t root path).toOption = some d) :
    readDocument t root path = .ok d ∧ d.path = path ∧ d.id = relativeTo root path := by
  cases hr : readDocument t root path with
  | error f => simp [hr, Except.toOption] at h
  | ok d' =>
    have hd : d' = d := by simpa [hr, Except.toOption] using h
    subst hd
    cases hread : t.read path with
    | error f =>
      simp [readDocument, hread, withPath, Except.mapError, bind, Except.bind] at hr
    | ok bytes =>
      simp only [readDocument, hread, withPath, Except.mapError, bind, Except.bind, pure,
        Except.pure, Except.ok.injEq] at hr
      subst hr
      exact ⟨rfl, rfl, rfl⟩

theorem hasExtension_iff {path : String} : hasExtension extensions path = true ↔
    ∃ e, extension? path = some e ∧
      ∃ allowed ∈ extensions, allowed.toList.map Char.toLower = e.toList.map Char.toLower := by
  unfold hasExtension
  cases extension? path with
  | none => simp
  | some e => simp

/-- A document is read on the walk, at the path that its identifier leads to. -/
theorem exists_names_of_mem_documents (hw : WellNamed t) (hdir : t.isDir root = true)
    (hd : d ∈ documents t root extensions) :
    ∃ name names, (∀ n ∈ name :: names, Ordinary n) ∧ analysisName ∉ name :: names ∧
      d.path = (name :: names).foldl join root ∧ d.id = Text.join "/" (name :: names) ∧
      hasExtension extensions d.path = true ∧ readDocument t root d.path = .ok d := by
  simp only [documents, load, if_pos hdir, pure, Except.pure, Except.toOption,
    Option.getD_some] at hd
  obtain ⟨path, hmem, hread⟩ := List.mem_filterMap.1 hd
  obtain ⟨hfound, hext⟩ := List.mem_filter.1 hmem
  obtain ⟨hok, hpath, hid⟩ := path_of_readDocument hread
  obtain ⟨name, names, hall, hother, rfl, -⟩ := filesBelow_spec hw hfound
  rw [relativeTo_foldl_join (ne_empty_of_isDir hdir) hall] at hid
  exact ⟨name, names, hall, hother, hpath, hid, hpath ▸ hext, hpath ▸ hok⟩

/-- The paths of the documents are among those of the walk, in its order. -/
theorem paths_sublist (hdir : t.isDir root = true) :
    ((documents t root extensions).map (·.path)).Sublist (filesBelow t (walkFuel t) [] root) := by
  have hpaths : ∀ paths : List String, ((paths.filterMap fun path =>
      (readDocument t root path).toOption).map (·.path)).Sublist paths := by
    intro paths
    induction paths with
    | nil => exact .slnil
    | cons path paths ih =>
      rw [List.filterMap_cons]
      split
      · exact ih.cons _
      · next d hd =>
        rw [List.map_cons, (path_of_readDocument hd).2.1]
        exact ih.cons_cons _
  simp only [documents, load, if_pos hdir, pure, Except.pure, Except.toOption, Option.getD_some]
  exact (hpaths _).trans List.filter_sublist

/-- **Identifiers are distinct, and each names the document that is read from it.** Every directory
can be loaded, however its path is spelled. No two documents share an identifier, none has a
component with the name of the directory for reports, each has one of the extensions but for the
case of ASCII letters, and reading at the path of an identifier gives the document again, with all
that belongs to it. -/
theorem load_identifies (hw : WellNamed t) (hdir : t.isDir root = true)
    (extensions : List String) :
    ∃ docs, load t root extensions = .ok docs ∧ (docs.map (·.id)).Nodup ∧
      ∀ d ∈ docs,
        Component.name analysisName.toList ∉ components d.id ∧
        (∃ e, extension? d.id = some e ∧
          ∃ allowed ∈ extensions, allowed.toList.map Char.toLower = e.toList.map Char.toLower) ∧
        readDocument t root (join root d.id) = .ok d := by
  have hne := ne_empty_of_isDir hdir
  have hplace : ∀ d ∈ documents t root extensions, join root d.id = d.path := by
    intro d hd
    obtain ⟨name, names, hall, -, hpath, hid, -⟩ := exists_names_of_mem_documents hw hdir hd
    rw [hpath, hid, foldl_join hne hall]
  refine ⟨_, load_eq_ok_iff.2 ⟨hdir, rfl⟩, ?_, fun d hd => ?_⟩
  · -- an identifier leads to one path, and the paths are distinct
    refine List.Nodup.of_map (join root) ?_
    rw [List.map_map, Function.comp_def, List.map_congr_left hplace]
    exact (nodup_filesBelow hw _ _ hne).sublist (paths_sublist hdir)
  · obtain ⟨name, names, hall, hother, hpath, hid, hext, hread⟩ :=
      exists_names_of_mem_documents hw hdir hd
    refine ⟨?_, ?_, by rw [hplace d hd, hread]⟩
    · rw [hid, components_textJoin hall]
      intro hmem
      obtain ⟨n, hn, heq⟩ := List.mem_map.1 hmem
      rw [String.toList_inj.1 (Component.name.inj heq)] at hn
      exact hother hn
    · rw [hpath] at hext
      have hsame := extension?_relativeTo hne hall
      rw [relativeTo_foldl_join hne hall, ← hid] at hsame
      rw [hsame]
      exact hasExtension_iff.1 hext

/-- An inbox behind a link, with a file that two names and a link to the directory lead to. -/
def twiceFound : Tree :=
  ⟨[(["in"], .dir), (["in", "a.MD"], .file [0x78, 0x0A]), (["in", "b.txt"], .link "a.MD"),
    (["in", "_analysis"], .dir), (["in", "_analysis", "c.md"], .file [0x79]),
    (["in", "d"], .link "../e"), (["e"], .dir), (["e", "f.md"], .file [0xFF]),
    (["box"], .link "in")]⟩

theorem load_identifies_twiceFound :
    WellNamed twiceFound ∧ twiceFound.isDir ".//box/./" = true ∧
    ∃ docs, load twiceFound ".//box/./" ["md", "txt"] = .ok docs ∧
      docs.map (·.id) = ["a.MD", "b.txt", "d/f.md"] ∧ (docs.map (·.id)).Nodup ∧
      ∀ d ∈ docs, readDocument twiceFound ".//box/./" (join ".//box/./" d.id) = .ok d := by
  have hw : WellNamed twiceFound := by decide +kernel
  have hdir : twiceFound.isDir ".//box/./" = true := by decide +kernel
  obtain ⟨docs, hload, hdistinct, hall⟩ := load_identifies hw hdir ["md", "txt"]
  refine ⟨hw, hdir, docs, hload, ?_, hdistinct, fun d hd => (hall d hd).2.2⟩
  rw [(load_eq_ok_iff.1 hload).2]
  decide +kernel

end NearDup.Inbox
