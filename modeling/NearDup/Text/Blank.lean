/-!
# Blank characters

A character is blank when it has the Unicode property White_Space: 25 characters, of which six
are in ASCII. Trimming takes blank characters off both ends of a text and leaves the inside alone.
-/

namespace NearDup.Text

/-- The property White_Space as inclusive ranges of code points. -/
def blankRanges : List (Nat × Nat) :=
  [(0x09, 0x0D), (0x20, 0x20), (0x85, 0x85), (0xA0, 0xA0), (0x1680, 0x1680), (0x2000, 0x200A),
   (0x2028, 0x2029), (0x202F, 0x202F), (0x205F, 0x205F), (0x3000, 0x3000)]

/-- Is the code point in one of the inclusive ranges? -/
def inRanges (ranges : List (Nat × Nat)) (code : Nat) : Bool :=
  ranges.any fun r => r.1 ≤ code && code ≤ r.2

def isBlank (c : Char) : Bool := inRanges blankRanges c.toNat

/-- The property has 25 members. -/
example : (blankRanges.map fun r => r.2 + 1 - r.1).sum = 25 := by decide

/-- Every blank character of the core library is blank here. -/
theorem isBlank_of_isWhitespace {c : Char} (h : c.isWhitespace = true) : isBlank c = true := by
  simp only [Char.isWhitespace, Bool.or_eq_true, decide_eq_true_eq] at h
  rcases h with ((rfl | rfl) | rfl) | rfl <;> decide

/-! ## Trimming -/

/-- Takes blank characters off the front. -/
def trimFront (cs : List Char) : List Char := cs.dropWhile isBlank

/-- Takes blank characters off the end. -/
def trimBack (cs : List Char) : List Char := (trimFront cs.reverse).reverse

def trimChars (cs : List Char) : List Char := trimBack (trimFront cs)

/-- The text without blank characters at its ends. -/
def trim (s : String) : String := String.ofList (trimChars s.toList)

example : trim "\t a b \n" = "a b" ∧ trim " \r" = "" := by decide

/-- Trimming the front leaves no blank character there. -/
theorem head_trimFront {cs : List Char} {c : Char} (h : (trimFront cs).head? = some c) :
    isBlank c = false := by
  induction cs with
  | nil => simp [trimFront] at h
  | cons d ds ih =>
    simp only [trimFront, List.dropWhile_cons] at h ih
    split at h
    · exact ih h
    · next hd => simp_all

end NearDup.Text
