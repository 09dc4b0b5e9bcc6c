import NearDup.Align.Partition
import NearDup.Text.Lines

/-!
# Shared sections

A section is a block of lines that is long enough to be reported, with its text.
-/

namespace NearDup.Align

/-- A shared stretch of lines: half-open line numbers in the left document, and the lines joined by
line feeds. -/
structure Section where
  start : Nat
  stop : Nat
  text : String
  deriving DecidableEq, Repr

namespace Section

/-- The number of lines. -/
def length (s : Section) : Nat := s.stop - s.start

def isEmpty (s : Section) : Bool := s.start = s.stop

/-- The section of a block. -/
def ofBlock (lines : List String) (m : Block) : Section :=
  ⟨m.a, m.a + m.size, Text.join "\n" (stretch lines m.a m.size)⟩

@[simp] theorem length_ofBlock (lines : List String) (m : Block) :
    (ofBlock lines m).length = m.size := by
  simp [ofBlock, length]

end Section

/-- The blocks of at least `least` lines, as sections of the left document. -/
def sections (xs ys : List String) (least : Nat) : List Section :=
  ((blocks xs ys).filter fun m => least ≤ m.size).map (Section.ofBlock xs)

example : sections ["a", "b", "c"] ["x", "b", "c"] 2 = [⟨1, 3, "b\nc"⟩] := by decide

end NearDup.Align
