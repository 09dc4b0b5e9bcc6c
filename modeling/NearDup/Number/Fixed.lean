import NearDup.Number.Binary64
import NearDup.Number.Digits

/-!
# Fixed decimal places

A double written with a given number of decimal places. The exact value is rounded once, a half to
the even digit, and the sign of a negative number stays even when only zeros are left.
-/

namespace NearDup.Binary64

open Number

/-- The text of `k` steps of 10⁻ᵖˡᵃᶜᵉˢ. -/
def placedDigits (places k : Nat) : List Char :=
  if places = 0 then digits k
  else
    let ds := digits k
    let ds := List.replicate (places + 1 - ds.length) '0' ++ ds
    ds.take (ds.length - places) ++ '.' :: ds.drop (ds.length - places)

/-- The finite magnitude of a rank in steps of 10⁻ᵖˡᵃᶜᵉˢ, a half to the even step. -/
def placedSteps (places rank : Nat) : Nat :=
  divideToEven (units rank * Nat.pow 10 places) unitsPerOne

/-- The text of a double with `places` decimal places. -/
def fixedText (places : Nat) (x : Binary64) : String :=
  let sign := if x.negative then ['-'] else []
  if x.isNaN then "NaN"
  else if x.isFinite then String.ofList (sign ++ placedDigits places (placedSteps places x.rank))
  else String.ofList (sign ++ ['i', 'n', 'f'])

example : fixedText 1 (ofRatio 1 4) = "0.2" ∧ fixedText 1 (ofRatio 3 4) = "0.8" ∧
    fixedText 0 (ofRatio 5 2) = "2" ∧ fixedText 2 ⟨true, 0⟩ = "-0.00" := by decide +kernel

/-- A ratio as a percentage with `places` decimal places; the product with 100 is a double. -/
def percent (ratio : Binary64) (places : Nat) : String :=
  fixedText places (mul ratio (ofNat 100)) ++ "%"

example : percent (ofRatio 3 10) 0 = "30%" ∧ percent (ofRatio 4567 10000) 1 = "45.7%" := by
  decide +kernel

end NearDup.Binary64
