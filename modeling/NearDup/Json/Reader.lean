import NearDup.Json.Text

/-!
# Reading JSON

A reader takes a value of a known type off the front of a text. It goes from left to right and stops
at the first defect it meets, and the kind of that defect is part of the answer: the text is
malformed, it is cut short, or it is in order so far but the value has the wrong type.

## Main definitions

* `Reader` — a reader of values of one type
* `Reader.text`, `Reader.natural`, `Reader.double`, `Reader.array` — readers of values
* `skipValue` — takes any value off, whatever its type
* `readWhole` — a value that makes up the whole text
-/

namespace NearDup.Json

/-- Takes a value off the front of a text. -/
abbrev Reader (α : Type) := List Char → Except Defect (α × List Char)

/-! ## Marks -/

/-- The next character that is not blank, and the rest behind it. -/
def nextChar (cs : List Char) : Except Defect (Char × List Char) :=
  match skipBlanks cs with
  | [] => throw .cutShort
  | c :: rest => return (c, rest)

/-- The rest behind a mark that has to come next; blanks may stand in front. -/
def mark (m : Char) (cs : List Char) : Except Defect (List Char) := do
  let (c, rest) ← nextChar cs
  if c = m then return rest else throw .malformed

/-- The rest behind characters that have to come next. -/
def expect : List Char → List Char → Except Defect (List Char)
  | [], rest => return rest
  | _ :: _, [] => throw .cutShort
  | e :: es, c :: rest => if c = e then expect es rest else throw .malformed

/-! ## Wrong types

A value of the wrong type is a mismatch once it is certain what it is: a name, a number or a string
is read to its end, an array or an object only begun.
-/

/-- What follows the first character of a literal name. -/
def literalOf? (c : Char) : Option (List Char) :=
  if c = 'n' then some ['u', 'l', 'l']
  else if c = 't' then some ['r', 'u', 'e']
  else if c = 'f' then some ['a', 'l', 's', 'e']
  else none

/-- The defect of a result; a mismatch if it is none. -/
def defectOr {α : Type} : Except Defect α → Defect
  | .error d => d
  | .ok _ => .mismatch

/-- The defect of a text that begins with a value of the wrong type, or with none. -/
def wrongType : List Char → Defect
  | [] => .cutShort
  | c :: rest =>
    match literalOf? c with
    | some name => defectOr (expect name rest)
    | none =>
      if c = '-' || Number.isDigit c then defectOr (readNumber (c :: rest))
      else if c = '"' then defectOr (readString true .plain rest)
      else if c = '[' || c = '\x7b' then .mismatch
      else .malformed

/-! ## Values -/

namespace Reader

/-- A string. -/
def text : Reader String := fun cs => do
  match skipBlanks cs with
  | '"' :: rest =>
    let (s, rest) ← readString true .plain rest
    return (String.ofList s, rest)
  | other => throw (wrongType other)

/-- Any number. -/
def numeral : Reader Numeral := fun cs =>
  match skipBlanks cs with
  | [] => throw .cutShort
  | c :: rest =>
    if c = '-' || Number.isDigit c then readNumber (c :: rest) else throw (wrongType (c :: rest))

/-- A whole number from 0 to 2⁶⁴ - 1, written without sign, fraction and exponent. -/
def natural : Reader Nat := fun cs => do
  match ← numeral cs with
  | (.natural n, rest) => return (n, rest)
  | _ => throw .mismatch

/-- Any number, as a double. -/
def double : Reader Binary64 := fun cs => do
  let (n, rest) ← numeral cs
  return (n.toDouble, rest)

/-- The literal null. -/
def null : Reader Unit := fun cs => do
  match skipBlanks cs with
  | 'n' :: rest => return ((), ← expect ['u', 'l', 'l'] rest)
  | other => throw (wrongType other)

/-! ## Arrays -/

/-- Where an array goes on: at its end, or in front of the next item. A comma promises an item. -/
def nextItem (first : Bool) (cs : List Char) : Except Defect (Option (List Char)) := do
  let (c, rest) ← nextChar cs
  if c = ']' then return none
  if first then return some (c :: rest)
  if c ≠ ',' then throw .malformed
  let (c, rest) ← nextChar rest
  if c = ']' then throw .malformed
  return some (c :: rest)

/-- The items of an array up to its end, at most `fuel` of them. -/
def items {α : Type} (item : Reader α) : Nat → Bool → Reader (List α)
  | 0, _, _ => throw .cutShort
  | fuel + 1, first, cs => do
    match ← nextItem first cs with
    | none => return ([], ← mark ']' cs)
    | some cs =>
      let (a, rest) ← item cs
      let (as, rest) ← items item fuel false rest
      return (a :: as, rest)

/-- An array of values of one type. An item takes up text, so the text bounds their number. -/
def array {α : Type} (item : Reader α) : Reader (List α) := fun cs =>
  match skipBlanks cs with
  | '[' :: rest => items item (rest.length + 1) true rest
  | other => throw (wrongType other)

end Reader

/-! ## Any value -/

/-- The digits of a number that are not looked at; there has to be one. -/
def skipDigits (cs : List Char) : Except Defect (List Char) :=
  if startsWithDigit cs then return cs.dropWhile Number.isDigit else throw .malformed

/-- The whole part of a number that is not looked at: a zero, or digits without a zero in front. -/
def skipWhole (cs : List Char) : Except Defect (List Char) :=
  match cs with
  | '0' :: rest => if startsWithDigit rest then throw .malformed else return rest
  | other => skipDigits other

/-- The fraction, if there is one. -/
def skipFraction (cs : List Char) : Except Defect (List Char) :=
  match cs with
  | '.' :: rest => skipDigits rest
  | other => return other

/-- The exponent, if there is one. -/
def skipExponent (cs : List Char) : Except Defect (List Char) :=
  match cs with
  | 'e' :: rest => skipDigits (Number.takeSign rest).2
  | 'E' :: rest => skipDigits (Number.takeSign rest).2
  | other => return other

/-- A number behind its sign that is not looked at; how large it is does not matter. -/
def skipNumber (cs : List Char) : Except Defect (List Char) := do
  skipExponent (← skipFraction (← skipWhole cs))

/-- A string that is not looked at, behind its opening quote. -/
def skipString (cs : List Char) : Except Defect (List Char) := do
  let (_, rest) ← readString false .plain cs
  return rest

/-- A key and its colon, up to the value. -/
def skipKey (cs : List Char) : Except Defect (List Char) := do
  mark ':' (← skipString (← mark '"' cs))

/-- Takes a value off that begins with a character. Of an array or an object with something in it,
takes only the beginning, up to its first value, and tells whether it is an object. -/
def skipStart (c : Char) (rest : List Char) : Except Defect (Option Bool × List Char) := do
  if let some name := literalOf? c then return (none, ← expect name rest)
  if c = '"' then return (none, ← skipString rest)
  if c = '-' then return (none, ← skipNumber rest)
  if Number.isDigit c then return (none, ← skipNumber (c :: rest))
  if c = '[' then
    let (d, more) ← nextChar rest
    return if d = ']' then (none, more) else (some false, d :: more)
  if c = '\x7b' then
    let (d, more) ← nextChar rest
    if d = '\x7d' then return (none, more)
    return (some true, ← skipKey (d :: more))
  throw .malformed

/-- Takes values off while the open brackets (true for objects) are not all closed. With `ended`, a
value has just ended; otherwise one has to begin. -/
def skipFrom : Nat → List Bool → Bool → List Char → Except Defect (List Char)
  | 0, _, _, _ => throw .cutShort
  | _, [], true, cs => return cs
  | fuel + 1, isObject :: opened, true, cs => do
    let (c, rest) ← nextChar cs
    if c = ',' then
      let rest ← if isObject then skipKey rest else pure rest
      skipFrom fuel (isObject :: opened) false rest
    else if c = (if isObject then '\x7d' else ']') then skipFrom fuel opened true rest
    else throw .malformed
  | fuel + 1, opened, false, cs => do
    let (c, rest) ← nextChar cs
    match ← skipStart c rest with
    | (none, rest) => skipFrom fuel opened true rest
    | (some isObject, rest) => skipFrom fuel (isObject :: opened) false rest

/-- Takes any value off the front of a text. -/
def skipValue (cs : List Char) : Except Defect (List Char) :=
  skipFrom (2 * cs.length + 2) [] false cs

/-! ## Whole texts -/

/-- A value with nothing but blanks behind it. -/
def readWhole {α : Type} (reader : Reader α) (s : String) : Except Defect α := do
  let (a, rest) ← reader s.toList
  if skipBlanks rest = [] then return a else throw .malformed

end NearDup.Json
