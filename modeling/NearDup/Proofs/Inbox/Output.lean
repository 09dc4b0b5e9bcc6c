import NearDup.Proofs.Inbox.Identifiers
import NearDup.Proofs.Tree.LinkFree

/-!
# What an inbox does not see

The walk through an inbox enters no directory with the name of the one for reports, however deep it
stands. So where no links are, two trees that differ only there hold the same documents. The walks
through them need not have the same fuel, since each of them needs only as much as there are entries
below.

* `IsOutput` — what belongs to the directories for reports inside an inbox
* `names_filter_congr` — directories with the same entries list the same names
* `filesBelow_congr` — the walk comes to the same files, which are found at the same places
* `load_congr` — the same documents are loaded
-/

namespace NearDup.Inbox

open NearDup.Tree NearDup.Path

variable {t t' : Tree} {path root name : String} {here inbox loc : Location} {x : Entry}
  {rest : List String} {above : List Location} {n n' : Nat}

/-! ## Listing -/

theorem pairwise_names (t : Tree) (dir : Location) : (t.names dir).Pairwise (· ≤ ·) := by
  have trans : ∀ x y z : String, decide (x ≤ y) = true → decide (y ≤ z) = true →
      decide (x ≤ z) = true := by
    simp only [decide_eq_true_eq]
    exact fun x y z => String.le_trans
  have total : ∀ x y : String, decide (x ≤ y) = true ∨ decide (y ≤ x) = true := by
    simp only [decide_eq_true_eq]
    exact String.le_total
  exact (pairwise_sortBy trans total _).imp of_decide_eq_true

/-- **Directories with the same entries list the same names.** -/
theorem names_filter_congr (hw : WellNamed t) (hw' : WellNamed t') {keep : String → Bool}
    (h : ∀ name, keep name = true → t'.get? (here ++ [name]) = t.get? (here ++ [name])) :
    (t'.names here).filter keep = (t.names here).filter keep := by
  have hmem : ∀ name, name ∈ (t'.names here).filter keep ↔ name ∈ (t.names here).filter keep := by
    intro name
    simp only [List.mem_filter]
    refine and_congr_left fun hkeep => ?_
    constructor
    · intro hn
      have ha := isAbove_append_ordinary (hw'.ordinary hn) here
      rw [mem_names_iff ha] at hn ⊢
      rwa [← h name hkeep]
    · intro hn
      have ha := isAbove_append_ordinary (hw.ordinary hn) here
      rw [mem_names_iff ha] at hn ⊢
      rwa [h name hkeep]
  refine List.Perm.eq_of_pairwise (fun x y _ _ (hxy : x ≤ y) (hyx : y ≤ x) => ?_)
    ((pairwise_names t' here).filter keep) ((pairwise_names t here).filter keep)
    ((List.perm_ext_iff_of_nodup ((nodup_names t' here).filter keep)
      ((nodup_names t here).filter keep)).2 hmem)
  exact String.le_antisymm hxy hyx

/-! ## Fuel -/

/-- The entries below a directory. -/
def entriesBelow (t : Tree) (here : Location) : List (Location × Entry) :=
  t.entries.filter fun e => here <+: e.1 ∧ e.1 ≠ here

/-- Below an entry of a directory there are fewer entries than below the directory. -/
theorem length_entriesBelow_lt (ha : isAbove (here ++ [name]) = false)
    (hx : t.get? (here ++ [name]) = some x) :
    (entriesBelow t (here ++ [name])).length < (entriesBelow t here).length := by
  have hmem := mem_entries_of_get? ha hx
  have hfilter : entriesBelow t (here ++ [name]) =
      (entriesBelow t here).filter fun e => here ++ [name] <+: e.1 ∧ e.1 ≠ here ++ [name] := by
    rw [entriesBelow, entriesBelow, List.filter_filter]
    refine List.filter_congr fun e _ => decide_eq_decide.2 ?_ |>.trans (Bool.decide_and _ _)
    constructor
    · rintro ⟨hbelow, hne⟩
      refine ⟨⟨hbelow, hne⟩, (List.prefix_append here [name]).trans hbelow, ?_⟩
      rintro rfl
      simpa using hbelow.length_le
    · exact And.left
  rw [hfilter, List.length_filter_lt_length_iff_exists]
  refine ⟨_, List.mem_filter.2 ⟨hmem, ?_⟩, ?_⟩
  · simp
  · simp

theorem length_entriesBelow_lt_walkFuel (t : Tree) (here : Location) :
    (entriesBelow t here).length < walkFuel t := by
  have hle : (entriesBelow t here).length ≤ t.entries.length := List.length_filter_le _ _
  calc (entriesBelow t here).length < t.entries.length + 2 := by omega
    _ ≤ walkFuel t := Nat.le_mul_of_pos_left _ (Nat.succ_pos _)

/-! ## The walk -/

/-- Without links the walk turns back nowhere. -/
theorem filesBelow_of_linkFree (hl : t.LinkFree) (hf : t.find path = .ok (here, .dir)) :
    filesBelow t (n + 1) above path = ((t.names here).filter (· ≠ analysisName)).flatMap
      fun name => filesAt t (fun _ => false) (filesBelow t n (here :: above)) (join path name) := by
  rw [filesBelow, find_eq_ok_iff.1 hf]
  refine List.flatMap_congr fun name _ => ?_
  cases hg : t.get? (here ++ [name]) with
  | none => rfl
  | some x =>
    cases x with
    | file bytes => rfl
    | dir => rfl
    | link target => exact absurd hg (hl.get?_ne _ target)

/-- A walk through another tree comes to the same paths, and what stands under them is the same. -/
def SameFiles (t t' : Tree) (paths' paths : List String) : Prop :=
  paths' = paths ∧ ∀ path ∈ paths, t'.find path = t.find path

theorem SameFiles.flatMap {names : List String} {f f' : String → List String}
    (h : ∀ name ∈ names, SameFiles t t' (f' name) (f name)) :
    SameFiles t t' (names.flatMap f') (names.flatMap f) := by
  refine ⟨List.flatMap_congr fun name hname => (h name hname).1, fun path hpath => ?_⟩
  obtain ⟨name, hname, hpath⟩ := List.mem_flatMap.1 hpath
  exact (h name hname).2 path hpath

/-- Under a name with the same entry in both trees there is the same file, or there are the same
files below a directory. -/
theorem filesAt_congr {below below' : String → List String} (hf : t.find path = .ok (here, .dir))
    (hf' : t'.find path = .ok (here, .dir)) (hl : t.LinkFree) (hn : Ordinary name)
    (hg : t'.get? (here ++ [name]) = t.get? (here ++ [name]))
    (hbelow : t.get? (here ++ [name]) = some .dir →
      t.find (join path name) = .ok (here ++ [name], .dir) →
      t'.find (join path name) = .ok (here ++ [name], .dir) →
      SameFiles t t' (below' (join path name)) (below (join path name))) :
    SameFiles t t' (filesAt t' (fun _ => false) below' (join path name))
      (filesAt t (fun _ => false) below (join path name)) := by
  have hresolve := resolve_join_congr hf hn hf' (hl.get?_ne _) hg .followed
  unfold filesAt
  rw [hresolve]
  split
  · refine ⟨rfl, fun found hfound => ?_⟩
    rw [List.mem_singleton.1 hfound, find, find, hresolve]
  · next loc hr =>
    obtain ⟨rfl, hdir⟩ : loc = here ++ [name] ∧ t.get? (here ++ [name]) = some .dir := by
      have hplace := eq_placeAt_of_resolve_join hf hn (hl.get?_ne _) hr
      rw [placeAt] at hplace
      split at hplace
      · next x hx =>
        cases hplace
        exact ⟨rfl, hx⟩
      · cases hplace
    exact hbelow hdir (find_eq_ok_iff.2 hr) (find_eq_ok_iff.2 (hresolve.trans hr))
  · exact ⟨rfl, by simp⟩

/-! ## Output -/

/-- What belongs to a directory inside an inbox that has the name of the one for reports, at any
depth. -/
def IsOutput (inbox loc : Location) : Prop := ∃ rest, loc = inbox ++ rest ∧ analysisName ∈ rest

theorem not_isOutput_append (h : analysisName ∉ rest) : ¬IsOutput inbox (inbox ++ rest) := by
  rintro ⟨rest', heq, hmem⟩
  rw [List.append_cancel_left heq] at h
  exact h hmem

theorem not_isOutput_of_prefix (h : loc <+: inbox) : ¬IsOutput inbox loc := by
  rintro ⟨rest, rfl, hmem⟩
  have hnil : rest = [] := by
    have hlen := h.length_le
    rw [List.length_append] at hlen
    exact List.length_eq_zero_iff.1 (by omega)
  rw [hnil] at hmem
  cases hmem

section

variable (hl : t.LinkFree) (hl' : t'.LinkFree)
  (hd : ∀ loc, t'.get? loc ≠ t.get? loc → IsOutput inbox loc)
include hl hl' hd

/-- An inbox is one in both trees, at the same place, unless a path that goes up comes by output. -/
theorem find_inbox (hf : t.find root = .ok (inbox, .dir))
    (hdir : t'.isDir root = true ∨ ".." ∉ pathNames root) :
    t'.find root = .ok (inbox, .dir) := by
  rcases hdir with hdir | hup
  · obtain ⟨loc, hf'⟩ := isDir_iff.1 hdir
    have hloc : loc = inbox :=
      (hl'.foldl_follow_of_find hf').symm.trans (hl.foldl_follow_of_find hf)
    rw [hf', hloc]
  · refine hl.find_of_not_up hup hf fun l hprefix => ?_
    by_contra hg
    exact not_isOutput_of_prefix hprefix (hd l hg)

variable (hw : WellNamed t) (hw' : WellNamed t')
include hw hw'

/-- **The walk comes to the same files in two trees that differ only in output**, and they are found
at the same places. -/
theorem filesBelow_congr (hout : analysisName ∉ rest) (hf : t.find path = .ok (inbox ++ rest, .dir))
    (hf' : t'.find path = .ok (inbox ++ rest, .dir))
    (hn : (entriesBelow t (inbox ++ rest)).length < n)
    (hn' : (entriesBelow t' (inbox ++ rest)).length < n') :
    SameFiles t t' (filesBelow t' n' above path) (filesBelow t n above path) := by
  -- each walk has fuel for one more level than there are entries below, so neither runs out
  induction n generalizing n' above path rest with
  | zero => omega
  | succ n ih =>
    cases n' with
    | zero => omega
    | succ n' =>
      have hget : ∀ name, name ≠ analysisName →
          t'.get? (inbox ++ rest ++ [name]) = t.get? (inbox ++ rest ++ [name]) := by
        intro name hne
        by_contra hg
        refine not_isOutput_append ?_ (List.append_assoc inbox rest [name] ▸ hd _ hg)
        simp [hout, Ne.symm hne]
      rw [filesBelow_of_linkFree hl hf, filesBelow_of_linkFree hl' hf',
        names_filter_congr hw hw' fun name hkeep => hget name (of_decide_eq_true hkeep)]
      refine .flatMap fun name hname => ?_
      obtain ⟨hlisted, hkeep⟩ := List.mem_filter.1 hname
      have hne : name ≠ analysisName := of_decide_eq_true hkeep
      have hord := hw.ordinary hlisted
      refine filesAt_congr hf hf' hl hord (hget name hne) fun hg hdir hdir' => ?_
      have ha := isAbove_append_ordinary hord (inbox ++ rest)
      have hfewer := length_entriesBelow_lt ha hg
      have hfewer' := length_entriesBelow_lt ha ((hget name hne).trans hg)
      rw [List.append_assoc] at hdir hdir' hfewer hfewer'
      exact ih (by simp [hout, Ne.symm hne]) hdir hdir' (by omega) (by omega)

/-- **Two trees that differ only in output hold the same documents.** -/
theorem load_congr (hf : t.find root = .ok (inbox, .dir))
    (hdir : t'.isDir root = true ∨ ".." ∉ pathNames root) (extensions : List String) :
    load t' root extensions = load t root extensions := by
  have hf' := find_inbox hl hl' hd hf hdir
  have hroot : t.find root = .ok (inbox ++ [], .dir) := by rw [List.append_nil, hf]
  have hroot' : t'.find root = .ok (inbox ++ [], .dir) := by rw [List.append_nil, hf']
  obtain ⟨hsame, hread⟩ : SameFiles t t' (filesBelow t' (walkFuel t') [] root)
      (filesBelow t (walkFuel t) [] root) :=
    filesBelow_congr hl hl' hd hw hw' List.not_mem_nil hroot hroot'
      (length_entriesBelow_lt_walkFuel t _) (length_entriesBelow_lt_walkFuel t' _)
  unfold load
  rw [if_pos (isDir_iff.2 ⟨inbox, hf⟩), if_pos (isDir_iff.2 ⟨inbox, hf'⟩), hsame]
  refine congrArg Except.ok (List.filterMap_congr fun path hpath => ?_)
  rw [readDocument, readDocument, Tree.read, Tree.read, hread path (List.mem_filter.1 hpath).1]

end

end NearDup.Inbox
