import NearDup.Number.Binary64
import NearDup.Number.Digits

/-!
# Reading decimals

A decimal text names the double nearest to its exact value. The text is an optional sign and then
either digits with at most one point among them and an optional exponent, or a name of infinity or
of "not a number" in letters of either case. At least one digit is needed, before or after the
point, and an exponent needs one too.
-/

namespace NearDup.Binary64

open Number

/-- The double nearest to `significand · 10^exponent`. Values beyond the range of doubles are
settled by the number of digits alone, so that no huge power is formed. -/
def ofScientific (negative : Bool) (significand : Nat) (exponent : Int) : Binary64 :=
  let scale := exponent + (digits significand).length
  if significand = 0 || scale < -330 then ⟨negative, 0⟩
  else if 320 < scale then ⟨negative, infinityRank⟩
  else if 0 ≤ exponent then ⟨negative, (ofNat (significand * Nat.pow 10 exponent.toNat)).rank⟩
  else ⟨negative, (ofRatio significand (Nat.pow 10 (-exponent).toNat)).rank⟩

/-- The leading digits of a text, and what follows them. -/
def spanDigits (cs : List Char) : List Char × List Char :=
  (cs.takeWhile isDigit, cs.dropWhile isDigit)

/-- The value of an exponent part that makes up the whole rest of a text. -/
def exponentPart? : List Char → Option Int
  | [] => some 0
  | c :: rest =>
    if c = 'e' || c = 'E' then
      let (negative, ds) := takeSign rest
      if ds = [] || !ds.all isDigit then none
      else
        let n : Int := ofDigits 0 ds
        some (if negative then -n else n)
    else none

/-- A name of a value that has no digits. -/
def namedValue? (negative : Bool) (cs : List Char) : Option Binary64 :=
  let name := String.ofList (cs.map Char.toLower)
  if name = "inf" || name = "infinity" then some ⟨negative, infinityRank⟩
  else if name = "nan" then some ⟨negative, nan.rank⟩
  else none

/-- The double a decimal text names. -/
def ofDecimalChars? (cs : List Char) : Option Binary64 :=
  let (negative, cs) := takeSign cs
  let (whole, rest) := spanDigits cs
  let (fraction, rest) := match rest with
    | '.' :: after => spanDigits after
    | other => ([], other)
  if whole = [] && fraction = [] then namedValue? negative cs
  else (exponentPart? rest).map fun e =>
    ofScientific negative (ofDigits 0 (whole ++ fraction)) (e - fraction.length)

def ofDecimal? (s : String) : Option Binary64 := ofDecimalChars? s.toList

example : ofDecimal? "0.3" = some (ofRatio 3 10) ∧ ofDecimal? "-5e-1" = some (ofRatio 1 2).neg ∧
    ofDecimal? "1." = some (ofNat 1) ∧ ofDecimal? "." = none ∧ ofDecimal? "1e" = none ∧
    ofDecimal? "1e400" = some infinity ∧ ofDecimal? "-Infinity" = some infinity.neg ∧
    ofDecimal? "+.5e+1" = some (ofNat 5) ∧ ofDecimal? "0,5" = none := by decide +kernel

end NearDup.Binary64
