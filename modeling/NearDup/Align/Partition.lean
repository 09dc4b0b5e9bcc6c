import NearDup.Align.Blocks

/-!
# Shared and own lines

The blocks of an alignment divide two lists of lines into what both share and what only one of them
has. The shared lines are taken from the left list.

## Main definitions

* `divide` — own lines of the left list, shared lines, own lines of the right list

-/

namespace NearDup.Align

/-- The stretch of `size` elements from `start` on. -/
def stretch {α : Type} (xs : List α) (start size : Nat) : List α := (xs.drop start).take size

/-! ## Division -/

/-- Two lists divided by their alignment. -/
structure Division (α : Type) where
  left : List α
  shared : List α
  right : List α
  deriving DecidableEq, Repr

/-- Is a place of the left sequence in a block? -/
def coversLeft (ms : List Block) (i : Nat) : Bool := ms.any fun m => m.a ≤ i && i < m.a + m.size

/-- Is a place of the right sequence in a block? -/
def coversRight (ms : List Block) (j : Nat) : Bool := ms.any fun m => m.b ≤ j && j < m.b + m.size

/-- The elements whose place, counted from `k`, is not covered. -/
def uncovered {α : Type} (covered : Nat → Bool) : Nat → List α → List α
  | _, [] => []
  | k, x :: xs => 
    if covered k then uncovered covered (k + 1) xs else x :: uncovered covered (k + 1) xs

/-- Divides two lists; each part keeps its order. -/
def divide {α : Type} [DecidableEq α] (xs ys : List α) : Division α :=
  let ms := blocks xs ys
  { left := uncovered (coversLeft ms) 0 xs
    shared := ms.flatMap fun m => stretch xs m.a m.size
    right := uncovered (coversRight ms) 0 ys }

example : divide ["a", "b", "c"] ["b", "d"] = ⟨["a", "c"], ["b"], ["d"]⟩ := by decide

end NearDup.Align
