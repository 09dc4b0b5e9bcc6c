import NearDup.Text.Lines

/-!
# Paths

A path is a text whose names are separated by slashes. Repeated slashes, a slash at the end and
inner components `.` carry no meaning; a leading `.` is a component of its own, and `..` is kept.
Texts of paths are never normalised: what is joined or cut off keeps the spelling of the rest.

## Main definitions

* `components` — the components of a path
* `join`, `parent?` — one step down and up, as texts
* `fileName?`, `stem?`, `extension?` — the last name and its parts
* `relativeTo` — the components below another path
-/

namespace NearDup.Path

open Text

/-! ## Components -/

inductive Component
  | root
  | here
  | up
  | name (chars : List Char)
  deriving DecidableEq, Repr

namespace Component

def chars : Component → List Char
  | root => ['/']
  | here => ['.']
  | up => ['.', '.']
  | name cs => cs

end Component

/-- The components among the pieces between slashes, each with the place where it ends. Only the
very first piece may be a component `.`. -/
def locatedFrom (first : Bool) (start : Nat) : List (List Char) → List (Component × Nat)
  | [] => []
  | piece :: rest =>
    let stop := start + piece.length
    let more := locatedFrom false (stop + 1) rest
    if piece = [] then more
    else if piece = ['.'] then if first then (.here, stop) :: more else more
    else if piece = ['.', '.'] then (.up, stop) :: more
    else (.name piece, stop) :: more

/-- The components of a path, each with the place where it ends. -/
def located (cs : List Char) : List (Component × Nat) :=
  if cs.head? = some '/' then (.root, 1) :: locatedFrom false 0 (pieces '/' cs)
  else locatedFrom true 0 (pieces '/' cs)

def components (path : String) : List Component := (located path.toList).map (·.1)

example : components "./a//b/./../" = [.here, .name ['a'], .name ['b'], .up] := by decide

/-! ## Up and down -/

/-- The path of `name` below `base`; a `name` that begins at the root stands alone. -/
def join (base name : String) : String :=
  if name.toList.head? = some '/' || base.toList = [] then name
  else if base.toList.getLast? = some '/' then base ++ name
  else base ++ "/" ++ name

/-- The path without its last component; none for the root and for an empty path. -/
def parent? (path : String) : Option String :=
  match (located path.toList).reverse with
  | [] => none
  | [(.root, _)] => none
  | [_] => some ""
  | _ :: (_, stop) :: _ => some (String.ofList (path.toList.take stop))

example : parent? "a//b/" = some "a" ∧ parent? "a" = some "" ∧ parent? "/" = none ∧
    parent? "/a" = some "/" ∧ parent? "./.." = some "." := by decide

/-! ## Names -/

/-- The last component, if it is a name. -/
def fileName? (path : String) : Option (List Char) :=
  match (components path).getLast? with
  | some (.name cs) => some cs
  | _ => none

/-- A name cut at its last dot: what is before it and what is behind it. A dot at the very beginning
does not cut. -/
def cutAtDot (name : List Char) : List Char × Option (List Char) :=
  let behind := (name.reverse.takeWhile (· ≠ '.')).reverse
  let before := name.take (name.length - behind.length - 1)
  if '.' ∈ name && before ≠ [] then (before, some behind) else (name, none)

/-- The last name without its extension. -/
def stem? (path : String) : Option String :=
  (fileName? path).map fun name => String.ofList (cutAtDot name).1

def extension? (path : String) : Option String :=
  (fileName? path).bind fun name => (cutAtDot name).2.map String.ofList

example : stem? "a/b.tar.gz" = some "b.tar" ∧ extension? "a/b.tar.gz" = some "gz" ∧
    stem? ".md" = some ".md" ∧ extension? ".md" = none ∧ stem? "a/.." = none := by decide

/-! ## Relative paths -/

/-- What follows `head` in `xs`, if `xs` begins with it. -/
def after? {α : Type} [DecidableEq α] : List α → List α → Option (List α)
  | [], xs => some xs
  | _ :: _, [] => none
  | h :: hs, x :: xs => if h = x then after? hs xs else none

/-- The components of `path` below `base`, joined by single slashes; all of them if `path` is not
below `base`. -/
def relativeTo (base path : String) : String :=
  let cs := components path
  let below := (after? (components base) cs).getD cs
  Text.join "/" (below.map fun c => String.ofList c.chars)

example : relativeTo "in/" "in/./a//b.md" = "a/b.md" ∧ relativeTo "in" "/o/a" = "//o/a" := by decide

end NearDup.Path
