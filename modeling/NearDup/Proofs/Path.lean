import NearDup.Path
import NearDup.Proofs.Text.Lines

/-!
# Names below a directory

A path that is made from a directory by going down, one ordinary name after the other, is that of
the directory with the names behind it. So the names are what is left of it below the directory, and
joining them to the directory gives the path again, letter by letter.

* `Ordinary` — a text that can be the name of an entry
* `components_join` — the components of a path below a directory
* `join_relativeTo` — a path below a directory is found again from what is left of it
* `Above` — a path is that of a directory above another
* `parent?_cases` — the path of a directory above ends in no slash, but for that of the root
* `Above.front` — a path goes on with a slash behind that of a directory above
* `parent?_join` — the directory of a name is the one that it was joined to
-/

namespace NearDup.Path

open Text

variable {base name : String} {names : List String}

/-- A name that an entry of a directory can have. -/
structure Ordinary (name : String) : Prop where
  ne_empty : name ≠ ""
  ne_here : name ≠ "."
  ne_up : name ≠ ".."
  no_slash : '/' ∉ name.toList

instance (name : String) : Decidable (Ordinary name) :=
  decidable_of_iff (name ≠ "" ∧ name ≠ "." ∧ name ≠ ".." ∧ '/' ∉ name.toList)
    ⟨fun ⟨h₁, h₂, h₃, h₄⟩ => ⟨h₁, h₂, h₃, h₄⟩, fun ⟨h₁, h₂, h₃, h₄⟩ => ⟨h₁, h₂, h₃, h₄⟩⟩

/-! ## Joining -/

/-- The slash that stands between a directory and a name. -/
def slashAfter (base : String) : String := if base.toList.getLast? = some '/' then "" else "/"

theorem join_eq (hb : base ≠ "") (hn : name.toList.head? ≠ some '/') :
    join base name = base ++ slashAfter base ++ name := by
  have hb' : base.toList ≠ [] := fun h => hb (String.toList_eq_nil_iff.1 h)
  unfold join slashAfter
  rw [if_neg (by simp [hn, hb'])]
  split
  · simp
  · rfl

theorem join_ne_empty (hb : base ≠ "") (hn : name.toList.head? ≠ some '/') :
    join base name ≠ "" := by
  rw [join_eq hb hn]
  intro h
  have hlen := congrArg String.toList h
  simp only [String.toList_append] at hlen
  exact hb (String.toList_eq_nil_iff.1 (by simpa using (List.append_eq_nil_iff.1
    (List.append_eq_nil_iff.1 hlen).1).1))

theorem Ordinary.head? (h : Ordinary name) : name.toList.head? ≠ some '/' := by
  intro hh
  exact h.no_slash (List.mem_of_mem_head? hh)

theorem Ordinary.slashAfter_join (h : Ordinary name) (hb : base ≠ "") :
    slashAfter (join base name) = "/" := by
  rw [join_eq hb h.head?, slashAfter, if_neg]
  rw [String.toList_append, List.getLast?_append_of_ne_nil _
    (fun hn => h.ne_empty (String.toList_eq_nil_iff.1 hn))]
  intro hl
  exact h.no_slash (List.mem_of_getLast? hl)

@[simp] theorem toList_textJoin (separator : String) (texts : List String) :
    (Text.join separator texts).toList =
      List.intercalate separator.toList (texts.map String.toList) :=
  String.toList_ofList

theorem textJoin_cons (next : String) (rest : List String) :
    Text.join "/" (name :: next :: rest) = name ++ "/" ++ Text.join "/" (next :: rest) := by
  apply String.toList_inj.1
  simp [List.intercalate]

theorem head?_textJoin (h : Ordinary name) (rest : List String) :
    (Text.join "/" (name :: rest)).toList.head? ≠ some '/' := by
  have hne : name.toList ≠ [] := fun hn => h.ne_empty (String.toList_eq_nil_iff.1 hn)
  cases rest with
  | nil => simpa [List.intercalate] using h.head?
  | cons next rest =>
    rw [textJoin_cons, String.toList_append, String.toList_append, List.append_assoc,
      List.head?_append_of_ne_nil _ hne]
    exact h.head?

/-- Going down name by name is going down all the names at once. -/
theorem foldl_join (hb : base ≠ "") (h : ∀ n ∈ name :: names, Ordinary n) :
    (name :: names).foldl join base = join base (Text.join "/" (name :: names)) := by
  induction names generalizing base name with
  | nil => simp [Text.join, List.intercalate]
  | cons next rest ih =>
    have hname := h name List.mem_cons_self
    have hrest : ∀ n ∈ next :: rest, Ordinary n := fun n hn => h n (List.mem_cons_of_mem _ hn)
    have hnext := head?_textJoin (hrest next List.mem_cons_self) rest
    calc (name :: next :: rest).foldl join base
        = join (join base name) (Text.join "/" (next :: rest)) :=
          ih (join_ne_empty hb hname.head?) hrest
      _ = join base name ++ "/" ++ Text.join "/" (next :: rest) := by
          rw [join_eq (join_ne_empty hb hname.head?) hnext, hname.slashAfter_join hb]
      _ = base ++ slashAfter base ++ Text.join "/" (name :: next :: rest) := by
          rw [join_eq hb hname.head?, textJoin_cons]
          simp only [String.append_assoc]
      _ = join base (Text.join "/" (name :: next :: rest)) :=
          (join_eq hb (head?_textJoin hname _)).symm

/-! ## Components -/

/-- Where a piece begins does not decide what it is. -/
theorem map_locatedFrom (first : Bool) (start : Nat) (ps : List (List Char)) :
    (locatedFrom first start ps).map (·.1) = (locatedFrom first 0 ps).map (·.1) := by
  induction ps generalizing first start with
  | nil => rfl
  | cons p ps ih =>
    simp only [locatedFrom]
    split
    · rw [ih, ih _ (0 + p.length + 1)]
    · split
      · split
        · rw [List.map_cons, List.map_cons, ih, ih _ (0 + p.length + 1)]
        · rw [ih, ih _ (0 + p.length + 1)]
      · split <;> rw [List.map_cons, List.map_cons, ih, ih _ (0 + p.length + 1)]

/-- Only the very first piece is read in its own way. -/
theorem map_locatedFrom_append (first : Bool) {ps : List (List Char)} (hp : ps ≠ [])
    (qs : List (List Char)) :
    (locatedFrom first 0 (ps ++ qs)).map (·.1) =
      (locatedFrom first 0 ps).map (·.1) ++ (locatedFrom false 0 qs).map (·.1) := by
  induction ps generalizing first with
  | nil => exact absurd rfl hp
  | cons p ps ih =>
    have hrest : (locatedFrom false (0 + p.length + 1) (ps ++ qs)).map (·.1) =
        (locatedFrom false (0 + p.length + 1) ps).map (·.1) ++
          (locatedFrom false 0 qs).map (·.1) := by
      rw [map_locatedFrom, map_locatedFrom _ _ ps]
      by_cases hps : ps = []
      · subst hps
        rfl
      · exact ih false hps
    simp only [List.cons_append, locatedFrom]
    split
    · exact hrest
    · split
      · split
        · rw [List.map_cons, List.map_cons, hrest, List.cons_append]
        · exact hrest
      · split <;> rw [List.map_cons, List.map_cons, hrest, List.cons_append]

theorem map_locatedFrom_names (h : ∀ n ∈ names, Ordinary n) :
    (locatedFrom false 0 (names.map String.toList)).map (·.1) =
      names.map fun n => Component.name n.toList := by
  induction names with
  | nil => rfl
  | cons name rest ih =>
    have hname := h name List.mem_cons_self
    have h₁ : name.toList ≠ [] := fun hn => hname.ne_empty (String.toList_eq_nil_iff.1 hn)
    have h₂ : name.toList ≠ ['.'] := fun hn => hname.ne_here (String.toList_inj.1 hn)
    have h₃ : name.toList ≠ ['.', '.'] := fun hn => hname.ne_up (String.toList_inj.1 hn)
    rw [List.map_cons, List.map_cons, locatedFrom, if_neg h₁, if_neg h₂, if_neg h₃, List.map_cons,
      map_locatedFrom, ih fun n hn => h n (List.mem_cons_of_mem _ hn)]

/-- Names without slashes are the pieces of the path they make. -/
theorem pieces_textJoin (h : ∀ n ∈ name :: names, Ordinary n) :
    pieces '/' (Text.join "/" (name :: names)).toList = (name :: names).map String.toList := by
  induction names generalizing name with
  | nil => simpa [List.intercalate] using pieces_of_not_mem (h name (by simp)).no_slash
  | cons next rest ih =>
    have hrest : ∀ n ∈ next :: rest, Ordinary n := fun n hn => h n (List.mem_cons_of_mem _ hn)
    rw [textJoin_cons, String.toList_append, String.toList_append, List.append_assoc]
    rw [show "/".toList ++ (Text.join "/" (next :: rest)).toList =
      '/' :: (Text.join "/" (next :: rest)).toList from rfl]
    rw [pieces_append_separator, pieces_of_not_mem (h name (by simp)).no_slash, ih hrest]
    rfl

/-- The pieces of a path below a directory are those of the directory, up to an empty one at the
end, and those of the names. -/
theorem pieces_join (hb : base ≠ "") (hn : name.toList.head? ≠ some '/') :
    ∃ ps, ps ≠ [] ∧ pieces '/' (join base name).toList = ps ++ pieces '/' name.toList ∧
      ∀ first, (locatedFrom first 0 (pieces '/' base.toList)).map (·.1) =
        (locatedFrom first 0 ps).map (·.1) := by
  rw [join_eq hb hn, slashAfter]
  split
  · next hl =>
    obtain ⟨before, hbefore⟩ := List.getLast?_eq_some_iff.1 hl
    refine ⟨pieces '/' before, pieces_ne_nil _ _, ?_, fun first => ?_⟩
    · simp only [String.toList_append, hbefore]
      rw [show (before ++ ['/'] ++ "".toList ++ name.toList) = before ++ '/' :: name.toList by simp]
      exact pieces_append_separator '/' before name.toList
    · rw [hbefore, pieces_append_separator, map_locatedFrom_append first (pieces_ne_nil _ _)]
      exact List.append_nil _
  · refine ⟨pieces '/' base.toList, pieces_ne_nil _ _, ?_, fun _ => rfl⟩
    simp only [String.toList_append]
    rw [show (base.toList ++ "/".toList ++ name.toList) = base.toList ++ '/' :: name.toList by simp]
    exact pieces_append_separator '/' base.toList name.toList

/-- The components of a path below a directory. -/
theorem components_join (hb : base ≠ "") (h : ∀ n ∈ name :: names, Ordinary n) :
    components (join base (Text.join "/" (name :: names))) =
      components base ++ (name :: names).map fun n => Component.name n.toList := by
  have hhead := head?_textJoin (h name List.mem_cons_self) names
  have hb' : base.toList ≠ [] := fun hn => hb (String.toList_eq_nil_iff.1 hn)
  obtain ⟨ps, hps, hpieces, hbase⟩ := pieces_join hb hhead
  have hsame : (join base (Text.join "/" (name :: names))).toList.head? = base.toList.head? := by
    rw [join_eq hb hhead, String.toList_append, String.toList_append, List.append_assoc,
      List.head?_append_of_ne_nil _ hb']
  have hparts : ∀ first, (locatedFrom first 0
      (pieces '/' (join base (Text.join "/" (name :: names))).toList)).map (·.1) =
      (locatedFrom first 0 (pieces '/' base.toList)).map (·.1) ++
        (name :: names).map fun n => Component.name n.toList := by
    intro first
    rw [hpieces, map_locatedFrom_append first hps, ← hbase first, pieces_textJoin h,
      map_locatedFrom_names h]
  unfold components located
  rw [hsame]
  split
  · rw [List.map_cons, List.map_cons, hparts, List.cons_append]
  · exact hparts true

/-! ## What is left below a directory -/

theorem after?_append {α : Type} [DecidableEq α] (xs ys : List α) :
    after? xs (xs ++ ys) = some ys := by
  induction xs with
  | nil => cases ys <;> rfl
  | cons x xs ih => simpa [after?] using ih

/-- What is left of a path below a directory is the names that were gone down. -/
theorem relativeTo_foldl_join (hb : base ≠ "") (h : ∀ n ∈ name :: names, Ordinary n) :
    relativeTo base ((name :: names).foldl join base) = Text.join "/" (name :: names) := by
  rw [foldl_join hb h, relativeTo, components_join hb h, after?_append, Option.getD_some,
    List.map_map]
  congr 1
  exact List.map_id'' (fun n => String.ofList_toList) _

/-- **A path below a directory is found again from what is left of it.** -/
theorem join_relativeTo (hb : base ≠ "") (h : ∀ n ∈ name :: names, Ordinary n) :
    join base (relativeTo base ((name :: names).foldl join base)) =
      (name :: names).foldl join base := by
  rw [relativeTo_foldl_join hb h, foldl_join hb h]

/-! ## Directories above -/

/-- A path without some of the components at its end. -/
inductive Above : String → String → Prop
  | parent {dir path : String} : parent? path = some dir → Above dir path
  | further {dir mid path : String} : parent? mid = some dir → Above mid path → Above dir path

/-- A component ends where its piece does, and an empty piece is none. -/
theorem mem_locatedFrom_cons {first : Bool} {start stop : Nat} {piece : List Char}
    {rest : List (List Char)} {c : Component}
    (h : (c, stop) ∈ locatedFrom first start (piece :: rest)) :
    (stop = start + piece.length ∧ piece ≠ []) ∨
      (c, stop) ∈ locatedFrom false (start + piece.length + 1) rest := by
  have here : ∀ d, (c, stop) ∈ (d, start + piece.length) ::
      locatedFrom false (start + piece.length + 1) rest → piece ≠ [] →
      (stop = start + piece.length ∧ piece ≠ []) ∨
        (c, stop) ∈ locatedFrom false (start + piece.length + 1) rest := by
    intro d hm hne
    rcases List.mem_cons.1 hm with he | hm
    · cases he
      exact Or.inl ⟨rfl, hne⟩
    · exact Or.inr hm
  simp only [locatedFrom] at h
  split at h
  · exact Or.inr h
  · next hne =>
    split at h
    · split at h
      · exact here _ h hne
      · exact Or.inr h
    · split at h
      · exact here _ h hne
      · exact here _ h hne

/-- No component ends in a slash. -/
theorem take_of_mem_locatedFrom {first : Bool} (before : List Char) {ps : List (List Char)}
    {c : Component} {stop : Nat} (hp : ∀ p ∈ ps, '/' ∉ p)
    (h : (c, stop) ∈ locatedFrom first before.length ps) :
    ∃ front last, last ≠ '/' ∧
      (before ++ List.intercalate ['/'] ps).take stop = front ++ [last] := by
  induction ps generalizing first before with
  | nil => simp [locatedFrom] at h
  | cons p rest ih =>
    rcases mem_locatedFrom_cons h with ⟨rfl, hne⟩ | h
    · obtain ⟨front, last, rfl⟩ : ∃ front last, p = front ++ [last] :=
        ⟨_, _, (List.dropLast_append_getLast hne).symm⟩
      have hlast : last ≠ '/' := by
        rintro rfl
        exact hp _ List.mem_cons_self (by simp)
      refine ⟨before ++ front, last, hlast, ?_⟩
      have hhead : ∃ tail, List.intercalate ['/'] ((front ++ [last]) :: rest) =
          (front ++ [last]) ++ tail := by
        cases rest with
        | nil => exact ⟨[], by simp [List.intercalate]⟩
        | cons q rest => exact ⟨_, by simp [List.intercalate]; rfl⟩
      obtain ⟨tail, ht⟩ := hhead
      rw [ht, ← List.append_assoc, List.take_append_of_le_length (by simp),
        List.take_of_length_le (by simp), List.append_assoc]
    · cases rest with
      | nil => simp [locatedFrom] at h
      | cons q rest =>
        have hlen : (before ++ p ++ ['/']).length = before.length + p.length + 1 := by
          simp [Nat.add_assoc]
        rw [← hlen] at h
        have hrest : ∀ p ∈ q :: rest, '/' ∉ p := fun p hm => hp p (List.mem_cons_of_mem _ hm)
        obtain ⟨front, last, hlast, ht⟩ := ih (before ++ p ++ ['/']) hrest h
        refine ⟨front, last, hlast, ?_⟩
        rw [← ht]
        simp [List.intercalate]

/-- The directory of a path is the root, or its name does not end in a slash. -/
theorem parent?_cases {path dir : String} (h : parent? path = some dir) :
    dir = "" ∨ dir = "/" ∨ ∃ front last, last ≠ '/' ∧ dir.toList = front ++ [last] := by
  unfold parent? at h
  split at h
  · cases h
  · cases h
  · cases h
    exact Or.inl rfl
  · next c stop rest hr =>
    right
    cases h
    have hm : (c, stop) ∈ located path.toList := by
      rw [← List.mem_reverse, hr]
      simp
    rw [String.toList_ofList]
    have hpiece : ∀ first, (c, stop) ∈ locatedFrom first 0 (pieces '/' path.toList) →
        ∃ front last, last ≠ '/' ∧ path.toList.take stop = front ++ [last] := by
      intro first hf
      have ht := take_of_mem_locatedFrom [] (fun p hp => not_mem_pieces hp) hf
      rwa [List.nil_append, intercalate_pieces] at ht
    unfold located at hm
    split at hm
    · next hslash =>
      rcases List.mem_cons.1 hm with he | hm
      · cases he
        obtain ⟨tail, ht⟩ := List.head?_eq_some_iff.1 hslash
        exact Or.inl (by rw [ht]; rfl)
      · exact Or.inr (hpiece false hm)
    · exact Or.inr (hpiece true hm)

/-- A piece makes one component at most, which ends where the piece does. -/
theorem exists_locatedFrom_cons (first : Bool) (start : Nat) (piece : List Char)
    (rest : List (List Char)) :
    ∃ here, (here = [] ∨ ∃ c, here = [(c, start + piece.length)]) ∧
      locatedFrom first start (piece :: rest) =
        here ++ locatedFrom false (start + piece.length + 1) rest := by
  simp only [locatedFrom]
  split
  · exact ⟨[], Or.inl rfl, rfl⟩
  · split
    · split
      · exact ⟨_, Or.inr ⟨_, rfl⟩, rfl⟩
      · exact ⟨[], Or.inl rfl, rfl⟩
    · split
      · exact ⟨_, Or.inr ⟨_, rfl⟩, rfl⟩
      · exact ⟨_, Or.inr ⟨_, rfl⟩, rfl⟩

/-- A slash stands where a component ends, if another one follows. -/
theorem exists_slash_of_locatedFrom {first : Bool} (before : List Char) {ps : List (List Char)}
    {front back : List (Component × Nat)} {c : Component} {stop : Nat} {next : Component × Nat}
    (h : locatedFrom first before.length ps = front ++ (c, stop) :: next :: back) :
    ∃ more, before ++ List.intercalate ['/'] ps =
      (before ++ List.intercalate ['/'] ps).take stop ++ '/' :: more := by
  induction ps generalizing first before front with
  | nil => simp [locatedFrom] at h
  | cons p rest ih =>
    obtain ⟨here, hhere, hl⟩ := exists_locatedFrom_cons first before.length p rest
    rw [hl] at h
    cases rest with
    | nil =>
      -- one piece makes one component at most, and there are two
      have hlen := congrArg List.length h
      rcases hhere with rfl | ⟨d, rfl⟩
      · simp [locatedFrom] at hlen
      · simp only [locatedFrom, List.append_nil, List.length_append, List.length_cons,
          List.length_nil] at hlen
        omega
    | cons q rest =>
      have htext : before ++ List.intercalate ['/'] (p :: q :: rest) =
          (before ++ p ++ ['/']) ++ List.intercalate ['/'] (q :: rest) := by
        simp [List.intercalate]
      have hlen : (before ++ p ++ ['/']).length = before.length + p.length + 1 := by
        simp [Nat.add_assoc]
      have hlater : ∀ front, locatedFrom false (before.length + p.length + 1) (q :: rest) =
          front ++ (c, stop) :: next :: back → ∃ more,
            before ++ List.intercalate ['/'] (p :: q :: rest) =
              (before ++ List.intercalate ['/'] (p :: q :: rest)).take stop ++ '/' :: more := by
        intro front hfront
        rw [htext]
        exact ih (before ++ p ++ ['/']) (hlen ▸ hfront)
      rcases hhere with rfl | ⟨d, rfl⟩
      · exact hlater front h
      · cases front with
        | nil =>
          obtain ⟨he, -⟩ := List.cons.inj h
          cases he
          refine ⟨List.intercalate ['/'] (q :: rest), ?_⟩
          rw [htext, List.append_assoc (before ++ p), ← List.length_append,
            List.take_left]
          rfl
        | cons x front => exact hlater front (List.cons.inj h).2

/-- A path goes on with a slash behind that of its directory, unless this is empty or the root. -/
theorem parent?_front {path dir : String} (h : parent? path = some dir) :
    dir = "" ∨ dir = "/" ∨ ∃ more, path.toList = dir.toList ++ '/' :: more := by
  unfold parent? at h
  split at h
  · cases h
  · cases h
  · cases h
    exact Or.inl rfl
  · next last c stop rest hr =>
    right
    cases h
    have hl : located path.toList = rest.reverse ++ (c, stop) :: [last] := by
      rw [← List.reverse_inj, hr]
      simp
    rw [String.toList_ofList]
    have hpieces : ∀ first front, locatedFrom first 0 (pieces '/' path.toList) =
        front ++ (c, stop) :: [last] →
        ∃ more, path.toList = path.toList.take stop ++ '/' :: more := by
      intro first front hf
      have hslash := exists_slash_of_locatedFrom [] hf
      rwa [List.nil_append, intercalate_pieces] at hslash
    unfold located at hl
    split at hl
    · next hslash =>
      cases hfront : rest.reverse with
      | nil =>
        rw [hfront] at hl
        obtain ⟨he, -⟩ := List.cons.inj hl
        cases he
        obtain ⟨tail, ht⟩ := List.head?_eq_some_iff.1 hslash
        exact Or.inl (by rw [ht]; rfl)
      | cons x front =>
        rw [hfront] at hl
        exact Or.inr (hpieces false front (List.cons.inj hl).2)
    · exact Or.inr (hpieces true _ hl)

/-- A path goes on with a slash behind that of a directory above, unless this is empty or the root.
-/
theorem Above.front {path dir : String} (h : Above dir path) :
    dir = "" ∨ dir = "/" ∨ ∃ more, path.toList = dir.toList ++ '/' :: more := by
  induction h with
  | parent hp => exact parent?_front hp
  | @further dir mid path hp _ ih =>
    rcases ih with rfl | rfl | ⟨more, hmore⟩
    · cases hp
    · simp [show parent? "/" = none from by decide] at hp
    · refine (parent?_front hp).imp_right (Or.imp_right ?_)
      rintro ⟨more', hmid⟩
      exact ⟨more' ++ '/' :: more, by rw [hmore, hmid]; simp⟩

/-! ## The directory of a name -/

theorem length_intercalate_cons (p q : List Char) (ps : List (List Char)) :
    (List.intercalate ['/'] (p :: q :: ps)).length =
      p.length + 1 + (List.intercalate ['/'] (q :: ps)).length := by
  rw [List.intercalate_cons_cons, List.length_append, List.length_append, List.length_singleton]

theorem length_intercalate_concat {ps : List (List Char)} (hp : ps ≠ []) (q : List Char) :
    (List.intercalate ['/'] (ps ++ [q])).length =
      (List.intercalate ['/'] ps).length + 1 + q.length := by
  induction ps with
  | nil => exact absurd rfl hp
  | cons p ps ih =>
    cases ps with
    | nil =>
      rw [List.singleton_append, length_intercalate_cons, List.intercalate_singleton,
        List.intercalate_singleton]
    | cons p' ps =>
      have hrest := ih (List.cons_ne_nil p' ps)
      rw [List.cons_append] at hrest
      rw [List.cons_append, List.cons_append, length_intercalate_cons, length_intercalate_cons,
        hrest]
      omega

/-- Pieces behind others are read from where these end. -/
theorem locatedFrom_append (first : Bool) (start : Nat) {ps : List (List Char)} (hp : ps ≠ [])
    (qs : List (List Char)) :
    locatedFrom first start (ps ++ qs) = locatedFrom first start ps ++
      locatedFrom false (start + (List.intercalate ['/'] ps).length + 1) qs := by
  induction ps generalizing first start with
  | nil => exact absurd rfl hp
  | cons p ps ih =>
    have hrest : locatedFrom false (start + p.length + 1) (ps ++ qs) =
        locatedFrom false (start + p.length + 1) ps ++
          locatedFrom false (start + (List.intercalate ['/'] (p :: ps)).length + 1) qs := by
      cases ps with
      | nil => simp [locatedFrom, List.intercalate]
      | cons q ps =>
        rw [ih false _ (List.cons_ne_nil q ps), length_intercalate_cons]
        congr 2
        omega
    simp only [List.cons_append, locatedFrom, hrest]
    split
    · rfl
    · split
      · split
        · rfl
        · rfl
      · split <;> rfl

theorem locatedFrom_ordinary (h : Ordinary name) (start : Nat) :
    locatedFrom false start [name.toList] =
      [(.name name.toList, start + name.toList.length)] := by
  have h₁ : name.toList ≠ [] := fun hn => h.ne_empty (String.toList_eq_nil_iff.1 hn)
  have h₂ : name.toList ≠ ['.'] := fun hn => h.ne_here (String.toList_inj.1 hn)
  have h₃ : name.toList ≠ ['.', '.'] := fun hn => h.ne_up (String.toList_inj.1 hn)
  simp only [locatedFrom, if_neg h₁, if_neg h₂, if_neg h₃]

/-- **The directory of a name behind a directory is that directory**, if it has a name itself. -/
theorem parent?_join {mid : String} (hb : base ≠ "") (hm : Ordinary mid) (hn : Ordinary name) :
    parent? (join (join base mid) name) = some (join base mid) := by
  obtain ⟨ps, hps, hpieces, -⟩ := pieces_join hb hm.head?
  rw [pieces_of_not_mem hm.no_slash] at hpieces
  have hdir := join_ne_empty hb hm.head?
  have hwhole : (join (join base mid) name).toList =
      (join base mid).toList ++ '/' :: name.toList := by
    rw [join_eq hdir hn.head?, hm.slashAfter_join hb]
    simp
  have hlen : (join base mid).toList.length =
      0 + (List.intercalate ['/'] ps).length + 1 + mid.toList.length := by
    rw [← intercalate_pieces '/' (join base mid).toList, hpieces,
      length_intercalate_concat hps, Nat.zero_add]
  have hlocated : ∀ first, locatedFrom first 0 (pieces '/' (join (join base mid) name).toList) =
      locatedFrom first 0 ps ++ [(.name mid.toList, (join base mid).toList.length)] ++
        [(.name name.toList, (join base mid).toList.length + 1 + name.toList.length)] := by
    intro first
    rw [hwhole, pieces_append_separator, hpieces, pieces_of_not_mem hn.no_slash,
      locatedFrom_append first 0 (by simp), locatedFrom_append first 0 hps,
      locatedFrom_ordinary hm, locatedFrom_ordinary hn, length_intercalate_concat hps, hlen]
    simp only [Nat.zero_add]
  have hfront : ∃ front, located (join (join base mid) name).toList =
      front ++ [(.name mid.toList, (join base mid).toList.length)] ++
        [(.name name.toList, (join base mid).toList.length + 1 + name.toList.length)] := by
    unfold located
    split
    · exact ⟨(.root, 1) :: locatedFrom false 0 ps, by rw [hlocated]; rfl⟩
    · exact ⟨locatedFrom true 0 ps, hlocated true⟩
  obtain ⟨front, hfront⟩ := hfront
  unfold parent?
  rw [hfront, List.reverse_append, List.reverse_append]
  show some (String.ofList ((join (join base mid) name).toList.take _)) = _
  rw [hwhole, List.take_left, String.ofList_toList]

end NearDup.Path
