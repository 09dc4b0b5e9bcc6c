import NearDup.Number.Binary64
import NearDup.Number.Digits

/-!
# The shortest decimal that reads back

A double is written with the fewest significant digits that still name it: the decimals that round
to it form an interval, and the first digit count whose grid has a point in the interval is the one
used. Of two such points the nearer one is taken, of two equally near the even one.

## How it works

With `n` digits and the decimal exponent `e` of the leading digit, the grid has steps of
10^(e + 1 - n). Only the two grid points next to the value can lie in the interval when the grid
before it had none. Seventeen digits always suffice.
-/

namespace NearDup.Binary64

open Number

/-! ## The interval of a double -/

/-- The two ends, in half units, of the interval that rounds to a rank. -/
def intervalEnds (rank : Nat) : Nat × Nat :=
  (units (rank - 1) + units rank, units rank + units (rank + 1))

/-- Does the quotient `n / d` of half units round to the rank? The ends count for even ranks. -/
def roundsTo (rank n d : Nat) : Bool :=
  let ends := intervalEnds rank
  if rank % 2 = 0 then ends.1 * d ≤ n && n ≤ ends.2 * d
  else ends.1 * d < n && n < ends.2 * d

/-! ## Digits -/

/-- The significant digits of a positive double as one number, and the exponent of its first digit.
-/
structure Significant where
  digits : Nat
  exponent : Int
  deriving DecidableEq, Repr

/-- The exponent of the leading decimal digit of a positive rank; 10⁻³²⁴ is below all of them. -/
def leadingExponent (rank : Nat) : Int :=
  ((digits (units rank * Nat.pow 10 324 / unitsPerOne)).length : Int) - 325

/-- The grid point with `n` digits that names the rank, if there is one. -/
def gridPoint (rank n : Nat) (e : Int) : Option Nat :=
  let s := e + 1 - (n : Int)
  let up := Nat.pow 10 s.toNat
  let down := Nat.pow 10 (-s).toNat
  let value := units rank * down
  let step := unitsPerOne * up
  let below := value / step
  let hit := fun c => roundsTo rank (2 * c * step) down
  match hit below, hit (below + 1) with
  | true, true => some (divideToEven value step)
  | true, false => some below
  | false, true => some (below + 1)
  | false, false => none

/-- Takes zeros off the end of a number; `fuel` bounds how many. -/
def dropTrailingZeros : Nat → Nat → Nat
  | 0, n => n
  | fuel + 1, n => if n ≠ 0 ∧ n % 10 = 0 then dropTrailingZeros fuel (n / 10) else n

/-- The shortest digits of a positive finite rank: from the first digit count that has some. -/
def shortest (rank : Nat) : Significant :=
  let e := leadingExponent rank
  let counts := (List.range 17).map (· + 1)
  match counts.findSome? fun n => (gridPoint rank n e).map fun c => (n, c) with
  | none => ⟨0, e⟩
  | some (n, c) => ⟨dropTrailingZeros 17 c, if c = Nat.pow 10 n then e + 1 else e⟩

example : shortest (ofRatio 1 10).rank = ⟨1, -1⟩ ∧ shortest 1 = ⟨5, -324⟩ ∧
    shortest (ofRatio 1 3).rank = ⟨3333333333333333, -1⟩ := by decide +kernel

/-! ## Text

Exponents from -5 to 15 are written out, others as a power of ten. A whole number has one zero
behind the point.
-/

/-- The digits with the decimal point behind `whole` of them, filled up with zeros. -/
def pointed (ds : List Char) (whole : Nat) : List Char :=
  let ds := ds ++ List.replicate (whole + 1 - ds.length) '0'
  ds.take whole ++ '.' :: ds.drop whole

/-- The text of significant digits with an exponent. -/
def significantText (s : Significant) : List Char :=
  let ds := digits s.digits
  if 0 ≤ s.exponent ∧ s.exponent ≤ 15 then pointed ds (s.exponent.toNat + 1)
  else if -5 ≤ s.exponent ∧ s.exponent < 0 then
    '0' :: '.' :: (List.replicate ((-s.exponent).toNat - 1) '0' ++ ds)
  else
    let mantissa := if ds.length = 1 then ds else ds.take 1 ++ '.' :: ds.drop 1
    let sign := if s.exponent < 0 then '-' else '+'
    mantissa ++ 'e' :: sign :: digits s.exponent.natAbs

/-- The shortest text of a finite double. -/
def shortestText (x : Binary64) : List Char :=
  (if x.negative then ['-'] else []) ++
    if x.isZero then ['0', '.', '0'] else significantText (shortest x.rank)

example : shortestText (ofNat 1) = "1.0".toList ∧ shortestText ⟨true, 0⟩ = "-0.0".toList ∧
    shortestText (ofRatio 1 100000) = "0.00001".toList ∧
    shortestText (ofRatio 3 20000000) = "1.5e-7".toList ∧
    shortestText (ofNat (10 ^ 15)) = "1000000000000000.0".toList ∧
    shortestText (ofNat (10 ^ 16)) = "1e+16".toList ∧
    shortestText (ofNat (125 * 10 ^ 19)) = "1.25e+21".toList ∧
    shortestText (ofRatio 1537 100) = "15.37".toList := by decide +kernel

end NearDup.Binary64
