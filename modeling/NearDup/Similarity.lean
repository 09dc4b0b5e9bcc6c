import NearDup.Align.Blocks
import NearDup.Digest
import NearDup.Distinct
import NearDup.Number.Fraction

/-!
# Two measures of likeness

* The similarity of two texts is the share of their characters that the alignment matches: twice the
  matched characters, over the characters of both.
* The overlap of two documents is the share of distinct lines they have in common, relative to the
  document with more distinct lines. Lines are known by their digests, so a repeated line counts
  once.
-/

namespace NearDup

open Align

/-! ## Similarity -/

/-- The matched share of two sequences; two empty sequences match fully. -/
def matchedShare {α : Type} [DecidableEq α] (xs ys : List α) : Fraction :=
  if h : xs.length + ys.length = 0 then ⟨1, 1, by decide⟩
  else ⟨2 * totalSize (blocks xs ys), xs.length + ys.length, Nat.pos_of_ne_zero h⟩

/-- The similarity of two texts, by characters. -/
def similarity (s t : String) : Fraction := matchedShare s.toList t.toList

/-! ## Overlap -/

/-- The shared distinct elements, relative to the list that has more distinct ones; nothing is
shared by two empty lists. -/
def overlap {α : Type} [DecidableEq α] (xs ys : List α) : Fraction :=
  let most := max (distinct xs).length (distinct ys).length
  if h : most = 0 then ⟨0, 1, by decide⟩ else ⟨sharedCount xs ys, most, Nat.pos_of_ne_zero h⟩

end NearDup
