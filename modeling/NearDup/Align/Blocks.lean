import NearDup.Align.Run
import NearDup.Sort

/-!
# Matching blocks

Two sequences are aligned by their longest common run, then by the longest run of what is left of it
in both, and of what is right of it in both, and so on. The blocks found are put in order, and
neighbours that touch in both sequences become one block.

## How it works

Windows still to be searched wait in a list. A window with an empty side holds no run and is not put
on the list. Every run takes at least one element of the left sequence out of its window, so twice
the length of the left sequence and one more steps empty the list.
-/

namespace NearDup.Align

/-! ## The search -/

/-- What a window has left of a block, if that has elements of both sequences. -/
def leftOf (w : Window) (m : Block) : List Window :=
  if w.aLo < m.a ∧ w.bLo < m.b then [⟨w.aLo, m.a, w.bLo, m.b⟩] else []

/-- What a window has right of a block, if that has elements of both sequences. -/
def rightOf (w : Window) (m : Block) : List Window :=
  if m.a + m.size < w.aHi ∧ m.b + m.size < w.bHi then
    [⟨m.a + m.size, w.aHi, m.b + m.size, w.bHi⟩]
  else []

/-- Searches the waiting windows in turn, at most `fuel` of them, and collects the runs. -/
def search (table : List (List Nat)) : Nat → List Window → List Block → List Block
  | 0, _, found => found
  | _, [], found => found
  | fuel + 1, w :: waiting, found =>
    let m := longestRun table w
    if m.size = 0 then search table fuel waiting found
    else search table fuel (rightOf w m ++ leftOf w m ++ waiting) (m :: found)

/-! ## Order and collapse -/

/-- Order by the place in the left sequence, then in the right one. -/
def Block.le (m n : Block) : Bool := m.a < n.a || m.a = n.a && m.b ≤ n.b

/-- Does `n` begin where `m` ends, in both sequences? -/
def Block.touches (m n : Block) : Bool := m.a + m.size = n.a && m.b + m.size = n.b

/-- Collapses touching neighbours behind `last`. -/
def collapseOnto (last : Block) : List Block → List Block
  | [] => [last]
  | m :: rest =>
    if last.touches m then collapseOnto ⟨last.a, last.b, last.size + m.size⟩ rest
    else last :: collapseOnto m rest

/-- Collapses touching neighbours. -/
def collapse : List Block → List Block
  | [] => []
  | m :: rest => collapseOnto m rest

/-! ## The alignment -/

/-- The matching blocks of two sequences, in order. -/
def blocks {α : Type} [DecidableEq α] (xs ys : List α) : List Block :=
  let whole : Window := ⟨0, xs.length, 0, ys.length⟩
  collapse (sortBy Block.le (search (rows xs ys) (2 * xs.length + 1) [whole] []))

example : blocks "abxcd".toList "abcd".toList = [⟨0, 0, 2⟩, ⟨3, 2, 2⟩] := by decide

/-- The number of elements in blocks. -/
def totalSize (ms : List Block) : Nat := ms.foldr (fun m n => m.size + n) 0

/-- Collapsing keeps the number of elements. -/
theorem totalSize_collapseOnto (last : Block) (ms : List Block) :
    totalSize (collapseOnto last ms) = last.size + totalSize ms := by
  induction ms generalizing last with
  | nil => simp [collapseOnto, totalSize]
  | cons m rest ih =>
    simp only [collapseOnto]
    split
    · rw [ih]
      simp [totalSize]
      omega
    · simpa [totalSize] using ih m

theorem totalSize_collapse (ms : List Block) : totalSize (collapse ms) = totalSize ms := by
  cases ms with
  | nil => rfl
  | cons m rest => simpa [collapse, totalSize] using totalSize_collapseOnto m rest

end NearDup.Align
