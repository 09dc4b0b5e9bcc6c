import Mathlib.Data.List.DropRight
import NearDup.Text.Lines

/-!
# Lines within a text

A text that ends its last line is read back line by line, whatever follows it: its own lines first,
up to carriage returns at their ends, and then those of the text behind it.

* `bareLines` — the lines of a text without carriage returns at their ends
* `EndsLine` — the next line can begin behind a text
* `lines_append`, `bareLines_append` — two texts are read one after the other
* `bareLines_join` — lines that are each ended by a line feed are read back
-/

namespace NearDup.Text

variable {separator : Char} {cs xs ys : List Char} {line text : String}

/-! ## Bare lines -/

/-- A line without carriage returns at its end. -/
def bare (line : String) : String := String.ofList (line.toList.rdropWhile (· = '\r'))

/-- The lines of a text without carriage returns at their ends. -/
def bareLines (text : String) : List String := (lines text).map bare

theorem dropReturn_eq (cs : List Char) :
    dropReturn cs = cs ∨ cs = dropReturn cs ++ ['\r'] := by
  induction cs using dropReturn.induct with
  | case1 => exact Or.inl rfl
  | case2 => exact Or.inr rfl
  | case3 c h => exact Or.inl (by simp [dropReturn, h])
  | case4 c d rest ih =>
    rw [dropReturn]
    rcases ih with ih | ih
    · exact Or.inl (by rw [ih])
    · right
      rw [List.cons_append, ← ih]

theorem bare_dropReturn (cs : List Char) :
    bare (String.ofList (dropReturn cs)) = bare (String.ofList cs) := by
  rcases dropReturn_eq cs with h | h
  · rw [h]
  · have hcr : cs.rdropWhile (· = '\r') = (dropReturn cs).rdropWhile (· = '\r') := by
      conv_lhs => rw [h]
      exact List.rdropWhile_concat_pos _ _ _ (by simp)
    simp only [bare, String.toList_ofList, hcr]

/-! ## Cutting -/

theorem pieces_append_separator (separator : Char) (xs ys : List Char) :
    pieces separator (xs ++ separator :: ys) = pieces separator xs ++ pieces separator ys := by
  induction xs with
  | nil => simp [pieces]
  | cons c rest ih =>
    simp only [List.cons_append, pieces, ih]
    split
    · rfl
    · cases h : pieces separator rest with
      | nil => exact absurd h (pieces_ne_nil _ _)
      | cons p ps => rfl

theorem pieces_of_not_mem (h : separator ∉ cs) : pieces separator cs = [cs] := by
  induction cs with
  | nil => rfl
  | cons c rest ih =>
    have hc : c ≠ separator := fun he => h (by simp [he])
    rw [pieces, if_neg hc, ih fun hm => h (by simp [hm])]

/-- A text without the separator makes the last piece longer. -/
theorem pieces_append_of_not_mem {ds : List Char} (h : separator ∉ ds) (cs : List Char) :
    ∃ front last, pieces separator cs = front ++ [last] ∧
      pieces separator (cs ++ ds) = front ++ [last ++ ds] := by
  induction cs with
  | nil => exact ⟨[], [], rfl, pieces_of_not_mem h⟩
  | cons c rest ih =>
    obtain ⟨front, last, hshort, hlong⟩ := ih
    simp only [List.cons_append, pieces, hshort, hlong]
    split
    · exact ⟨[] :: front, last, rfl, rfl⟩
    · cases front with
      | nil => exact ⟨[], c :: last, rfl, rfl⟩
      | cons p front => exact ⟨(c :: p) :: front, last, rfl, rfl⟩

theorem linesOfPieces_append (ps : List (List Char)) {qs : List (List Char)} (hq : qs ≠ []) :
    linesOfPieces (ps ++ qs) = ps.map dropReturn ++ linesOfPieces qs := by
  induction ps with
  | nil => rfl
  | cons p ps ih =>
    cases hps : ps ++ qs with
    | nil => exact absurd (List.append_eq_nil_iff.1 hps).2 hq
    | cons r rest =>
      rw [List.cons_append, hps, linesOfPieces, ← hps, ih]
      rfl

/-- The lines before a line feed and those behind it are the lines of the whole. -/
theorem lineChars_append_lineFeed (xs ys : List Char) :
    lineChars (xs ++ '\n' :: ys) = (pieces '\n' xs).map dropReturn ++ lineChars ys := by
  rw [lineChars, pieces_append_separator, linesOfPieces_append _ (pieces_ne_nil _ _)]
  rfl

theorem mem_of_mem_dropReturn {c : Char} (h : c ∈ dropReturn cs) : c ∈ cs := by
  rcases dropReturn_eq cs with he | he
  · rwa [he] at h
  · rw [he]
    exact List.mem_append_left _ h

theorem dropReturn_of_not_mem (h : '\r' ∉ cs) : dropReturn cs = cs :=
  (dropReturn_eq cs).resolve_right fun he => h (by rw [he]; simp)

theorem exists_piece_of_mem_linesOfPieces {ps : List (List Char)} {l : List Char}
    (h : l ∈ linesOfPieces ps) : ∃ p ∈ ps, ∀ c ∈ l, c ∈ p := by
  induction ps using linesOfPieces.induct with
  | case1 => simp [linesOfPieces] at h
  | case2 => simp [linesOfPieces] at h
  | case3 last hne =>
    rw [linesOfPieces, if_neg hne, List.mem_singleton] at h
    exact ⟨last, by simp, fun c hc => h ▸ hc⟩
  | case4 p q rest ih =>
    rw [linesOfPieces, List.mem_cons] at h
    rcases h with rfl | h
    · exact ⟨p, by simp, fun c hc => mem_of_mem_dropReturn hc⟩
    · obtain ⟨p', hp', hc⟩ := ih h
      exact ⟨p', by simp [hp'], hc⟩

/-- No line holds a line feed. -/
theorem lineFeed_not_mem (h : line ∈ lines text) : '\n' ∉ line.toList := by
  simp only [lines, List.mem_map] at h
  obtain ⟨l, hl, rfl⟩ := h
  obtain ⟨p, hp, hc⟩ := exists_piece_of_mem_linesOfPieces hl
  rw [String.toList_ofList]
  exact fun hm => not_mem_pieces hp (hc _ hm)

/-! ## Texts that end lines -/

/-- Can a line begin here? -/
def EndsLine (cs : List Char) : Prop := cs = [] ∨ ∃ before, cs = before ++ ['\n']

theorem EndsLine.append (hx : EndsLine xs) (hy : EndsLine ys) : EndsLine (xs ++ ys) := by
  rcases hy with rfl | ⟨before, rfl⟩
  · rwa [List.append_nil]
  · exact Or.inr ⟨xs ++ before, by rw [List.append_assoc]⟩

theorem endsLine_append (head : String) {tail : String} (h : tail.toList.getLast? = some '\n') :
    EndsLine (head ++ tail).toList := by
  obtain ⟨before, ht⟩ := List.getLast?_eq_some_iff.1 h
  exact Or.inr ⟨head.toList ++ before, by simp [ht]⟩

theorem endsLine_join (ls : List String) :
    EndsLine (String.join (ls.map (· ++ "\n"))).toList := by
  induction ls with
  | nil => exact Or.inl rfl
  | cons l ls ih =>
    rw [List.map_cons, String.join_cons, String.toList_append]
    exact (endsLine_append l rfl).append ih

/-- The lines of two texts, the first of which ends its last line, are the lines of both. -/
theorem lines_append {text : String} (h : EndsLine text.toList) (more : String) :
    lines (text ++ more) = lines text ++ lines more := by
  rcases h with h | ⟨before, h⟩
  · rw [String.toList_eq_nil_iff.1 h]
    simp [lines, lineChars, pieces, linesOfPieces]
  · have htext := lineChars_append_lineFeed before []
    simp only [lines, String.toList_append, h, List.append_assoc, List.singleton_append,
      lineChars_append_lineFeed]
    simp [lineChars, pieces, linesOfPieces]

theorem bareLines_append {text more : String} (h : EndsLine text.toList) :
    bareLines (text ++ more) = bareLines text ++ bareLines more := by
  rw [bareLines, lines_append h, List.map_append]
  rfl

/-- A text without a line feed is one line, if there is something in it. -/
theorem lines_of_not_mem (hn : '\n' ∉ text.toList) (hne : text ≠ "") : lines text = [text] := by
  have hnil : text.toList ≠ [] := fun he => hne (String.toList_eq_nil_iff.1 he)
  simp [lines, lineChars, pieces_of_not_mem hn, linesOfPieces, hnil]

theorem lines_line (hn : '\n' ∉ line.toList) :
    lines (line ++ "\n") = [String.ofList (dropReturn line.toList)] := by
  have happ := lineChars_append_lineFeed line.toList []
  rw [pieces_of_not_mem hn] at happ
  simp only [lines, String.toList_append, show "\n".toList = ['\n'] from rfl, happ]
  simp [lineChars, pieces, linesOfPieces]

theorem bareLines_line (hn : '\n' ∉ line.toList) : bareLines (line ++ "\n") = [bare line] := by
  rw [bareLines, lines_line hn, List.map_singleton, bare_dropReturn, String.ofList_toList]

/-- Lines that are each ended by a line feed are read back. -/
theorem bareLines_join {ls : List String} (hn : ∀ l ∈ ls, '\n' ∉ l.toList) :
    bareLines (String.join (ls.map (· ++ "\n"))) = ls.map bare := by
  induction ls with
  | nil => rfl
  | cons l ls ih =>
    obtain ⟨hl, hls⟩ := List.forall_mem_cons.1 hn
    rw [List.map_cons, String.join_cons, bareLines_append (Or.inr ⟨l.toList, by simp⟩), ih hls,
      bareLines_line hl]
    rfl

end NearDup.Text
