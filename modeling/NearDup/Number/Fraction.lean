import NearDup.Number.Binary64

/-!
# Fractions

Ratios are exact quotients of counts; a double is formed from one only where a ratio is compared or
written.
-/

namespace NearDup

/-- A quotient of two counts, the lower one positive. -/
structure Fraction where
  num : Nat
  den : Nat
  den_pos : 0 < den

/-- The double nearest to a fraction. -/
def Fraction.toDouble (f : Fraction) : Binary64 := Binary64.ofRatio f.num f.den

end NearDup
