import NearDup.Distinct
import NearDup.Sort

/-!
# File trees

A tree holds files, directories and symbolic links below a top directory. An entry is found by its
location: the names that lead to it from the top. The top itself is a directory, always, and so are
those above it, to which the name `..` leads, up to the root of all. How far up the root is, the
tree does not know, so locations below the root have a beginning of their own.

## Main definitions

* `Tree.get?` — the entry at a location; every other function is described by what it does to this
* `Tree.put`, `Tree.erase` — set and clear one location
* `Tree.names` — what a directory holds, in order
-/

namespace NearDup

/-- The names from the top directory to an entry; or from the root, if the first one is `/`, which
is the name of nothing else. -/
abbrev Location := List String

inductive Entry
  | file (bytes : List UInt8)
  | dir
  | link (target : String)
  deriving DecidableEq, Repr

/-- A file tree, as a list of located entries; the first one at a location counts. -/
structure Tree where
  entries : List (Location × Entry)
  deriving DecidableEq, Repr

namespace Tree

def empty : Tree := ⟨[]⟩

/-- The first entry of a list at a location. -/
def lookUp (loc : Location) : List (Location × Entry) → Option Entry
  | [] => none
  | (l, e) :: rest => if l = loc then some e else lookUp loc rest

/-- The location of the root. -/
def root : Location := ["/"]

/-- Is a location the top, or one above it? -/
def isAbove (loc : Location) : Bool := loc = root || loc.all (· = "..")

/-- The location of the directory above a directory. The root is above itself. -/
def up (loc : Location) : Location :=
  if loc = root then root
  else if isAbove loc then loc ++ [".."]
  else loc.dropLast

example : up ["a", "b"] = ["a"] ∧ up [] = [".."] ∧ up ["/", "a"] = root ∧ up root = root := by
  decide

/-- The entry at a location. -/
def get? (t : Tree) (loc : Location) : Option Entry :=
  if isAbove loc then some .dir else lookUp loc t.entries

/-- The tree without what is at a location. -/
def erase (t : Tree) (loc : Location) : Tree := ⟨t.entries.filter fun e => e.1 ≠ loc⟩

/-- The tree with an entry at a location. -/
def put (t : Tree) (loc : Location) (e : Entry) : Tree := ⟨(loc, e) :: (t.erase loc).entries⟩

/-! ## What they do to the view -/

theorem get?_of_isAbove (t : Tree) {loc : Location} (h : isAbove loc = true) :
    t.get? loc = some .dir := by
  simp [get?, h]

@[simp] theorem get?_nil (t : Tree) : t.get? [] = some .dir := get?_of_isAbove t rfl

theorem lookUp_filter_self (loc : Location) (es : List (Location × Entry)) :
    lookUp loc (es.filter fun e => e.1 ≠ loc) = none := by
  induction es with
  | nil => rfl
  | cons e rest ih =>
    obtain ⟨l, x⟩ := e
    by_cases h : l = loc
    · simpa [List.filter_cons, h] using ih
    · simpa [List.filter_cons, h, lookUp] using ih

theorem lookUp_filter_ne {loc other : Location} (h : other ≠ loc) (es : List (Location × Entry)) :
    lookUp other (es.filter fun e => e.1 ≠ loc) = lookUp other es := by
  induction es with
  | nil => rfl
  | cons e rest ih =>
    obtain ⟨l, x⟩ := e
    by_cases hl : l = loc
    · have hne : l ≠ other := fun he => h (he.symm.trans hl)
      simpa [List.filter_cons, hl, lookUp, hl ▸ hne] using ih
    · by_cases ho : l = other
      · simp [lookUp, ho, h]
      · simpa [List.filter_cons, hl, lookUp, ho] using ih

theorem get?_erase_self (t : Tree) {loc : Location} (h : isAbove loc = false) :
    (t.erase loc).get? loc = none := by
  simpa [get?, h, erase] using lookUp_filter_self loc t.entries

theorem get?_erase_ne (t : Tree) {loc other : Location} (h : other ≠ loc) :
    (t.erase loc).get? other = t.get? other := by
  cases ho : isAbove other with
  | true => simp [get?_of_isAbove, ho]
  | false => simpa [get?, ho, erase] using lookUp_filter_ne h t.entries

theorem get?_put_self (t : Tree) {loc : Location} (e : Entry) (h : isAbove loc = false) :
    (t.put loc e).get? loc = some e := by
  simp [get?, h, put, lookUp]

theorem get?_put_ne (t : Tree) {loc other : Location} (e : Entry) (h : other ≠ loc) :
    (t.put loc e).get? other = t.get? other := by
  cases ho : isAbove other with
  | true => simp [get?_of_isAbove, ho]
  | false => simpa [get?, ho, put, lookUp, h.symm, erase] using lookUp_filter_ne h t.entries

/-! ## Directories -/

/-- What follows the location of a directory in a longer location. -/
def below? : Location → Location → Option Location
  | [], loc => some loc
  | _ :: _, [] => none
  | d :: ds, n :: ns => if d = n then below? ds ns else none

/-- The name of an entry that stands directly in a directory. -/
def nameIn? (dir loc : Location) : Option String :=
  match below? dir loc with
  | some [name] => some name
  | _ => none

/-- The names in a directory, each once, in the order of their bytes. -/
def names (t : Tree) (dir : Location) : List String :=
  sortBy (fun a b => decide (a ≤ b)) (distinct (t.entries.filterMap fun e => nameIn? dir e.1))

theorem below?_eq_some_iff {dir loc rest : Location} :
    below? dir loc = some rest ↔ loc = dir ++ rest := by
  induction dir generalizing loc with
  | nil => simp [below?, eq_comm]
  | cons d ds ih =>
    cases loc with
    | nil => simp [below?]
    | cons n ns =>
      simp only [below?]
      split
      · next h => simp [h, ih]
      · next h => simp [Ne.symm h]

theorem nameIn?_eq_some_iff {dir loc : Location} {name : String} :
    nameIn? dir loc = some name ↔ loc = dir ++ [name] := by
  unfold nameIn?
  split
  · next n h =>
    rw [below?_eq_some_iff] at h
    simp [h]
  · next h =>
    constructor
    · simp
    · intro hl
      exact absurd (below?_eq_some_iff.2 hl) (h name)

theorem lookUp_isSome_iff {loc : Location} {es : List (Location × Entry)} :
    (lookUp loc es).isSome = true ↔ ∃ e ∈ es, e.1 = loc := by
  induction es with
  | nil => simp [lookUp]
  | cons e rest ih =>
    obtain ⟨l, x⟩ := e
    simp only [lookUp]
    split
    · next h => simp [h]
    · next h => simp [ih, h]

/-- A directory lists exactly the names under which something stands in it. -/
theorem mem_names_iff {t : Tree} {dir : Location} {name : String}
    (h : isAbove (dir ++ [name]) = false) :
    name ∈ t.names dir ↔ (t.get? (dir ++ [name])).isSome = true := by
  rw [names, (sortBy_perm _ _).mem_iff, mem_distinct, get?, h]
  simp only [List.mem_filterMap, nameIn?_eq_some_iff, Bool.false_eq_true, if_false,
    lookUp_isSome_iff]

/-- The tree without a location and everything below it. -/
def eraseAll (t : Tree) (loc : Location) : Tree :=
  ⟨t.entries.filter fun e => (below? loc e.1).isNone⟩

end Tree

end NearDup
