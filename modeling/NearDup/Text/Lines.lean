/-!
# Lines of a text

A line ends at a line feed. One carriage return right before that line feed belongs to the line
end; every other carriage return is part of the line, also one at the very end of the text. A text
that ends in a line feed has no further, empty line after it.

## Main definitions

* `pieces` — the text cut at every separator
* `lines` — the lines of a text
-/

namespace NearDup.Text

/-- The text cut at each separator; always at least one piece. -/
def pieces (separator : Char) : List Char → List (List Char)
  | [] => [[]]
  | c :: rest =>
    if c = separator then [] :: pieces separator rest
    else match pieces separator rest with
      | [] => [[c]]
      | p :: ps => (c :: p) :: ps

theorem pieces_ne_nil (separator : Char) (cs : List Char) : pieces separator cs ≠ [] := by
  cases cs with
  | nil => simp [pieces]
  | cons c rest =>
    simp only [pieces]
    split
    · simp
    · split <;> simp

/-- Takes one carriage return off the end, if there is one. -/
def dropReturn : List Char → List Char
  | [] => []
  | [c] => if c = '\r' then [] else [c]
  | c :: d :: rest => c :: dropReturn (d :: rest)

/-- The lines among the pieces: each piece but the last ended at a line feed, and the last is a
line only if something is in it. -/
def linesOfPieces : List (List Char) → List (List Char)
  | [] => []
  | [last] => if last = [] then [] else [last]
  | p :: q :: rest => dropReturn p :: linesOfPieces (q :: rest)

def lineChars (cs : List Char) : List (List Char) := linesOfPieces (pieces '\n' cs)

/-- The lines of a text. -/
def lines (s : String) : List String := (lineChars s.toList).map String.ofList

example : lines "a\r\nb\n\nc\r" = ["a", "b", "", "c\r"] := by decide
example : lines "" = [] ∧ lines "\n" = [""] ∧ lines "a\n" = ["a"] := by decide

/-! ## Joining -/

/-- Puts `separator` between the texts. -/
def join (separator : String) (texts : List String) : String :=
  String.ofList (List.intercalate separator.toList (texts.map String.toList))

/-- No piece holds the separator. -/
theorem not_mem_pieces {separator : Char} {cs p : List Char} (h : p ∈ pieces separator cs) :
    separator ∉ p := by
  induction cs generalizing p with
  | nil => simp [pieces] at h; simp [h]
  | cons c rest ih =>
    simp only [pieces] at h
    split at h
    · rcases List.mem_cons.1 h with rfl | h
      · simp
      · exact ih h
    · next hc =>
      split at h
      · next he => exact absurd he (pieces_ne_nil _ rest)
      · next q qs he =>
        rcases List.mem_cons.1 h with rfl | h
        · have hq := ih (p := q) (by simp [he])
          simp [hq, Ne.symm hc]
        · exact ih (by simp [he, h])

/-- Putting the separator back between the pieces gives the text. -/
theorem intercalate_pieces (separator : Char) (cs : List Char) :
    List.intercalate [separator] (pieces separator cs) = cs := by
  induction cs with
  | nil => rfl
  | cons c rest ih =>
    simp only [pieces]
    split
    · next hc =>
      cases hp : pieces separator rest with
      | nil => exact absurd hp (pieces_ne_nil _ rest)
      | cons p ps =>
        rw [hp] at ih
        subst hc
        rw [← ih]
        simp [List.intercalate]
    · cases hp : pieces separator rest with
      | nil => exact absurd hp (pieces_ne_nil _ rest)
      | cons p ps =>
        rw [hp] at ih
        cases ps with
        | nil => simpa [List.intercalate] using ih
        | cons q qs =>
          simp only [List.intercalate, List.intersperse, List.flatten_cons] at ih ⊢
          rw [← ih]
          simp

end NearDup.Text
