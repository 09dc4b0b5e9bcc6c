import NearDup.Number.Binary64
import NearDup.Number.Digits
import NearDup.Text.Utf8

/-!
# Words of JSON

Blanks, strings and numbers.

## How it works

A string is read character by character by a small machine, which is inside plain text, behind a
backslash, inside an escape of four hexadecimal digits, or between the two halves of a surrogate
pair. A number keeps up to 64 bits of its digits; what does not fit only moves the decimal point.
Its double comes from those digits and a power of ten in at most four rounded steps.
-/

namespace NearDup.Json

/-- What is wrong with a text: it is not JSON, it ends too early, or it is of another type. -/
inductive Defect
  | malformed
  | cutShort
  | mismatch
  deriving DecidableEq, Repr

/-! ## Blanks -/

def isBlank (c : Char) : Bool := c = ' ' || c = '\n' || c = '\t' || c = '\r'

def skipBlanks (cs : List Char) : List Char := cs.dropWhile isBlank

/-! ## Strings -/

/-- Where the reading of a string stands. In an escape, so many digits are still to come after the
next one, with the value so far, and the first half of a pair if there was one. -/
inductive Inside
  | plain
  | escape
  | hex (further value : Nat) (high : Option Nat)
  | pairSlash (high : Nat)
  | pairLetter (high : Nat)

def hexValue? (c : Char) : Option Nat :=
  let n := c.toNat
  if 0x30 ≤ n && n ≤ 0x39 then some (n - 0x30)
  else if 0x41 ≤ n && n ≤ 0x46 then some (n - 0x37)
  else if 0x61 ≤ n && n ≤ 0x66 then some (n - 0x57)
  else none

/-- The character that a short escape stands for. -/
def shortEscape? (c : Char) : Option Char :=
  if c = '"' || c = '\\' || c = '/' then some c
  else if c = 'b' then some '\x08'
  else if c = 'f' then some '\x0c'
  else if c = 'n' then some '\n'
  else if c = 'r' then some '\r'
  else if c = 't' then some '\t'
  else none

/-- Does a text take at least four bytes? -/
def hasFourBytes (cs : List Char) : Bool := 4 ≤ (Text.Utf8.encodeChars (cs.take 4)).length

def isHigh (n : Nat) : Bool := 0xD800 ≤ n && n < 0xDC00

def isLow (n : Nat) : Bool := 0xDC00 ≤ n && n < 0xE000

/-- Puts a character in front of a string that was read. -/
def prepend (c : Char) (result : Except Defect (List Char × List Char)) :
    Except Defect (List Char × List Char) :=
  result.map fun (s, rest) => (c :: s, rest)

/-- The characters of a string up to its closing quote. Unless `paired`, surrogates are let pass;
the characters are then of no use. -/
def readString (paired : Bool) : Inside → List Char → Except Defect (List Char × List Char)
  | _, [] => .error .cutShort
  | .plain, c :: rest =>
    if c = '"' then .ok ([], rest)
    else if c = '\\' then readString paired .escape rest
    else if c.toNat < 0x20 then .error .malformed
    else prepend c (readString paired .plain rest)
  | .escape, c :: rest =>
    if c = 'u' then
      if hasFourBytes rest then readString paired (.hex 3 0 none) rest else .error .cutShort
    else match shortEscape? c with
      | some d => prepend d (readString paired .plain rest)
      | none => .error .malformed
  | .hex further value high, c :: rest =>
    match hexValue? c with
    | none => .error .malformed
    | some digit =>
      let value := value * 16 + digit
      match further, high with
      | k + 1, _ => readString paired (.hex k value high) rest
      | 0, none =>
        if paired && isLow value then .error .malformed
        else if paired && isHigh value then readString paired (.pairSlash value) rest
        else prepend (Char.ofNat value) (readString paired .plain rest)
      | 0, some h =>
        if isLow value then
          prepend (Char.ofNat (0x10000 + (h - 0xD800) * 1024 + (value - 0xDC00)))
            (readString paired .plain rest)
        else .error .malformed
  | .pairSlash high, c :: rest =>
    if c = '\\' then readString paired (.pairLetter high) rest else .error .malformed
  | .pairLetter high, c :: rest =>
    if c = 'u' then
      if hasFourBytes rest then readString paired (.hex 3 0 (some high)) rest else .error .cutShort
    else .error .malformed

example : (readString true .plain "a\\u00e9\\ud83d\\ude00\\n\"x".toList).toOption =
    some ("aé😀\n".toList, ['x']) := by decide

/-! ## Numbers -/

/-- A number: one without sign, fraction and exponent that fits 64 bits, one with a minus that fits
64 bits with its sign, or a double. -/
inductive Numeral
  | natural (n : Nat)
  | negative (n : Nat)
  | double (x : Binary64)
  deriving DecidableEq, Repr

def Numeral.toDouble : Numeral → Binary64
  | natural n => .ofNat n
  | negative n => (Binary64.ofNat n).neg
  | double x => x

def largestNatural : Nat := UInt64.size - 1

def largestExponent : Nat := Nat.pow 2 31 - 1

/-- Adds digits to a number as long as it does not pass a limit. Gives the number, how many digits
were added, and the rest, which begins with a digit only if that one would pass the limit. -/
def takeDigits (limit : Nat) : Nat → Nat → List Char → Nat × Nat × List Char
  | n, k, [] => (n, k, [])
  | n, k, c :: rest =>
    if Number.isDigit c && n * 10 + Number.digitValue c ≤ limit then
      takeDigits limit (n * 10 + Number.digitValue c) (k + 1) rest
    else (n, k, c :: rest)

def startsWithDigit : List Char → Bool
  | [] => false
  | c :: _ => Number.isDigit c

def signed (negative : Bool) (x : Binary64) : Binary64 := if negative then x.neg else x

/-- Multiplies by a power of ten of at most 308, or divides by one; a smaller power takes several
divisions, which end at zero. -/
def scale : Nat → Binary64 → Int → Except Defect Binary64
  | 0, x, _ => .ok x
  | fuel + 1, x, e =>
    if e.natAbs ≤ 308 then
      if 0 ≤ e then
        let y := x.mul (.ofNat (10 ^ e.natAbs))
        if y.isFinite then .ok y else .error .malformed
      else .ok (x.div (.ofNat (10 ^ e.natAbs)))
    else if x.isZero then .ok x
    else if 0 ≤ e then .error .malformed
    else scale fuel (x.div (.ofNat (10 ^ 308))) (e + 308)

/-- The double of a significand and an exponent of ten. -/
def doubleOf (negative : Bool) (significand : Nat) (e : Int) : Except Defect Binary64 := do
  return signed negative (← scale 4 (.ofNat significand) e)

/-- The exponent of a number, behind its letter. -/
def readExponent (negative : Bool) (significand : Nat) (e : Int) (cs : List Char) :
    Except Defect (Binary64 × List Char) := do
  let (down, cs) := Number.takeSign cs
  if cs = [] then throw .cutShort
  if !startsWithDigit cs then throw .malformed
  let (n, _, rest) := takeDigits largestExponent 0 0 cs
  if startsWithDigit rest then
    if significand ≠ 0 && !down then throw .malformed
    return (signed negative (.ofNat 0), rest.dropWhile Number.isDigit)
  return (← doubleOf negative significand (if down then e - n else e + n), rest)

/-- What follows the digits of a number that is a double. -/
def readTail (negative : Bool) (significand : Nat) (e : Int) (cs : List Char) :
    Except Defect (Binary64 × List Char) := do
  match cs with
  | 'e' :: rest => readExponent negative significand e rest
  | 'E' :: rest => readExponent negative significand e rest
  | other => return (← doubleOf negative significand e, other)

/-- The fraction of a number, behind its point. -/
def readFraction (negative : Bool) (significand : Nat) (e : Int) (cs : List Char) :
    Except Defect (Binary64 × List Char) :=
  let (n, k, rest) := takeDigits largestNatural significand 0 cs
  if startsWithDigit rest then readTail negative n (e - k) (rest.dropWhile Number.isDigit)
  else if k = 0 then throw (if rest = [] then .cutShort else .malformed)
  else readTail negative n (e - k) rest

/-- A point, an exponent, or the end of a number that is a double. -/
def readPoint (negative : Bool) (significand : Nat) (e : Int) (cs : List Char) :
    Except Defect (Numeral × List Char) := do
  let (x, rest) ← match cs with
    | '.' :: rest => readFraction negative significand e rest
    | other => readTail negative significand e other
  return (.double x, rest)

/-- The number of a whole part that fits 64 bits and has nothing behind it. -/
def wholeNumeral (negative : Bool) (n : Nat) : Numeral :=
  if !negative then .natural n
  else if n = 0 || Nat.pow 2 63 < n then .double (Binary64.ofNat n).neg
  else .negative n

/-- Does a number go on with a fraction or an exponent? -/
def continuesAsDouble : List Char → Bool
  | [] => false
  | c :: _ => c = '.' || c = 'e' || c = 'E'

/-- What follows the whole part of a number that fits 64 bits. -/
def readAfterWhole (negative : Bool) (n : Nat) (cs : List Char) :
    Except Defect (Numeral × List Char) :=
  if continuesAsDouble cs then readPoint negative n 0 cs else return (wholeNumeral negative n, cs)

/-- A number behind its sign. -/
def readUnsigned (negative : Bool) (cs : List Char) : Except Defect (Numeral × List Char) := do
  if cs = [] then throw .cutShort
  if !startsWithDigit cs then throw .malformed
  match cs with
  | '0' :: rest => if startsWithDigit rest then throw .malformed else readAfterWhole negative 0 rest
  | cs =>
    let (n, _, rest) := takeDigits largestNatural 0 0 cs
    if startsWithDigit rest then
      let further := rest.takeWhile Number.isDigit
      readPoint negative n further.length (rest.dropWhile Number.isDigit)
    else readAfterWhole negative n rest

/-- A number. -/
def readNumber (cs : List Char) : Except Defect (Numeral × List Char) :=
  match cs with
  | '-' :: rest => readUnsigned true rest
  | other => readUnsigned false other

example : (readNumber "18446744073709551615,".toList).toOption =
    some (.natural (2 ^ 64 - 1), [',']) := by decide +kernel
example : (readNumber "-0".toList).toOption = some (.double ⟨true, 0⟩, []) := by decide +kernel
example : (readNumber "1.5e3]".toList).toOption =
    some (.double (.ofNat 1500), [']']) := by decide +kernel

end NearDup.Json
