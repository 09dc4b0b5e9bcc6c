/-!
# Doubles

The double-precision numbers of IEEE 754. A number is a sign and a rank: its place among the
non-negative doubles, zero being number 0 and the smallest positive double number 1. Above the last
finite rank stands infinity, and every rank above infinity is "not a number". The rank is also the
bit pattern without the sign bit, so order is order of ranks, and nothing here needs an inexact
step: every finite double is a whole number of units of 2⁻¹⁰⁷⁴.

## Main definitions

* `units` — the value of a rank, in units of 2⁻¹⁰⁷⁴
* `roundQuotient` — the rank nearest to a quotient of units, ties to the even rank
* `ofRatio`, `mul`, `div` — exact results rounded once
* `lt`, `le` — comparison as numbers; `position` — a total order of all doubles
-/

namespace NearDup

/-- A double: a sign and a rank among the non-negative doubles. -/
structure Binary64 where
  negative : Bool
  rank : Nat
  deriving DecidableEq, Repr

namespace Binary64

/-- Ranks with one exponent. -/
def ranksPerExponent : Nat := Nat.pow 2 52

/-- The units in one. -/
def unitsPerOne : Nat := Nat.pow 2 1074

def infinityRank : Nat := 0x7FF * ranksPerExponent

def infinity : Binary64 := ⟨false, infinityRank⟩

/-- The "not a number" that quiet operations give. -/
def nan : Binary64 := ⟨false, infinityRank + Nat.pow 2 51⟩

def isNaN (x : Binary64) : Bool := infinityRank < x.rank

def isFinite (x : Binary64) : Bool := x.rank < infinityRank

/-- The 64 bits: the sign above the rank. -/
def toBits (x : Binary64) : Nat := (if x.negative then Nat.pow 2 63 else 0) + x.rank

/-! ## Values -/

/-- The value of a finite rank in units. -/
def units (rank : Nat) : Nat :=
  if rank < ranksPerExponent then rank
  else (ranksPerExponent + rank % ranksPerExponent) * Nat.pow 2 (rank / ranksPerExponent - 1)

/-- The whole number nearest to `n / d`; a half goes to the even neighbour. -/
def divideToEven (n d : Nat) : Nat :=
  if 2 * (n % d) < d then n / d
  else if d < 2 * (n % d) then n / d + 1
  else n / d + n / d % 2

/-- The rank nearest to `n / d` units; a half goes to the even rank. -/
def roundQuotient (n d : Nat) : Nat :=
  let shift := (n / d).log2 - 52
  min (shift * ranksPerExponent + divideToEven n (d * Nat.pow 2 shift)) infinityRank

/-- The double nearest to `n / d`. -/
def ofRatio (n d : Nat) : Binary64 := ⟨false, roundQuotient (n * unitsPerOne) d⟩

def ofNat (n : Nat) : Binary64 := ofRatio n 1

def neg (x : Binary64) : Binary64 := ⟨!x.negative, x.rank⟩

example : (ofRatio 1 3).toBits = 0x3FD5555555555555 ∧ (ofNat 1).toBits = 0x3FF0000000000000 := by
  decide +kernel

/-! ## Arithmetic -/

def isZero (x : Binary64) : Bool := x.rank = 0

def mul (x y : Binary64) : Binary64 :=
  let sign := x.negative != y.negative
  if x.isNaN then x
  else if y.isNaN then y
  else if x.isFinite && y.isFinite then
    ⟨sign, roundQuotient (units x.rank * units y.rank) unitsPerOne⟩
  else if x.isZero || y.isZero then nan
  else ⟨sign, infinityRank⟩

def div (x y : Binary64) : Binary64 :=
  let sign := x.negative != y.negative
  if x.isNaN then x
  else if y.isNaN then y
  else if !x.isFinite then if y.isFinite then ⟨sign, infinityRank⟩ else nan
  else if !y.isFinite then ⟨sign, 0⟩
  else if y.isZero then if x.isZero then nan else ⟨sign, infinityRank⟩
  else ⟨sign, roundQuotient (units x.rank * unitsPerOne) (units y.rank)⟩

/-- The nearest whole number; a half goes away from zero. The sign stays, also on zero. -/
def roundToWhole (x : Binary64) : Binary64 :=
  if x.isFinite then
    ⟨x.negative, (ofNat ((2 * units x.rank + unitsPerOne) / (2 * unitsPerOne))).rank⟩
  else x

/-- Rounds to three decimal places, in double arithmetic throughout. -/
def roundToThousandths (x : Binary64) : Binary64 :=
  div (roundToWhole (mul x (ofNat 1000))) (ofNat 1000)

/-! ## Order -/

/-- The signed rank: both zeros are at 0. -/
def signedRank (x : Binary64) : Int := if x.negative then -(x.rank : Int) else x.rank

/-- Less as numbers; false if either is not a number. -/
def lt (x y : Binary64) : Bool := !x.isNaN && !y.isNaN && x.signedRank < y.signedRank

/-- At most as numbers; false if either is not a number. -/
def le (x y : Binary64) : Bool := !x.isNaN && !y.isNaN && x.signedRank ≤ y.signedRank

/-- The place in the total order of all doubles, in which -0 is below 0, and a number that is not
one is beyond the infinity of its sign. -/
def position (x : Binary64) : Int := if x.negative then -(x.rank : Int) - 1 else x.rank

theorem lt_irrefl (x : Binary64) : lt x x = false := by simp [lt]

theorem lt_trans {x y z : Binary64} (h₁ : lt x y = true) (h₂ : lt y z = true) : lt x z = true := by
  simp only [lt, Bool.and_eq_true, decide_eq_true_eq] at *
  exact ⟨⟨h₁.1.1, h₂.1.2⟩, by omega⟩

theorem not_lt_of_le {x y : Binary64} (h : le x y = true) : lt y x = false := by
  simp only [le, lt, Bool.and_eq_true, decide_eq_true_eq, Bool.and_eq_false_iff,
    decide_eq_false_iff_not] at *
  omega

/-- Two doubles at the same place of the total order are the same. -/
theorem position_inj {x y : Binary64} (h : x.position = y.position) : x = y := by
  rcases x with ⟨_ | _, rx⟩ <;> rcases y with ⟨_ | _, ry⟩ <;> simp [position] at h ⊢ <;> omega

end Binary64

end NearDup
