import Mathlib.Data.Finset.Dedup
import Mathlib.Logic.Relation
import NearDup.Proofs.Text.Lines
import NearDup.Text.Blank

/-!
# The layout of a text

What is left of a text without its layout is the set of its lines, trimmed, without the blank ones.
Trimming takes a carriage return with it, wherever the line ends, so these are the trimmed pieces of
the text between its line feeds (`trimmedLines_eq`), and those of two texts with a line feed between
them are those of both. Therefore a text can be laid out anew without a change of the set: its lines
can be put in another order or repeated, blank ones added, blank characters put at their ends, and
their ends made carriage return and line feed.

* `lineSet` — the trimmed lines of a text that are not blank
* `LayoutEdit`, `Relaid` — one change of the layout, and any number of them in either direction
* `Relaid.lineSet_eq` — the layout has no part in the set of lines
-/

namespace NearDup.Text

variable {c : Char} {cs : List Char} {front back : String}

/-! ## Trimming -/

theorem trimChars_eq (cs : List Char) :
    trimChars cs = (cs.dropWhile isBlank).rdropWhile isBlank := rfl

/-- A blank character at the front is trimmed. -/
theorem trimChars_cons (h : isBlank c = true) (cs : List Char) :
    trimChars (c :: cs) = trimChars cs := by
  rw [trimChars_eq, trimChars_eq, List.dropWhile_cons_of_pos h]

/-- A blank character at the end is trimmed. -/
theorem trimChars_concat (h : isBlank c = true) (cs : List Char) :
    trimChars (cs ++ [c]) = trimChars cs := by
  rw [trimChars_eq, trimChars_eq, List.dropWhile_append]
  split
  · next hnil =>
    rw [List.isEmpty_iff] at hnil
    rw [hnil, List.dropWhile_cons_of_pos h, List.dropWhile_nil]
  · exact List.rdropWhile_concat_pos _ _ _ h

theorem trimChars_dropReturn (cs : List Char) : trimChars (dropReturn cs) = trimChars cs := by
  rcases dropReturn_eq cs with h | h
  · rw [h]
  · conv_rhs => rw [h]
    exact (trimChars_concat (by decide) _).symm

/-! ## Trimmed lines -/

/-- The texts that are not blank, trimmed. -/
def trimmed (ls : List (List Char)) : List String :=
  (ls.map fun l => String.ofList (trimChars l)).filter (· ≠ "")

/-- The lines of a text that are not blank, trimmed. -/
def trimmedLines (text : String) : List String := ((lines text).map trim).filter (· ≠ "")

theorem trimmed_append (ls ls' : List (List Char)) :
    trimmed (ls ++ ls') = trimmed ls ++ trimmed ls' := by
  rw [trimmed, List.map_append, List.filter_append]
  rfl

theorem trimmed_cons (l : List Char) (ls : List (List Char)) :
    trimmed (l :: ls) = trimmed [l] ++ trimmed ls := trimmed_append [l] ls

@[simp] theorem trimmed_singleton_nil : trimmed [[]] = [] := rfl

theorem trimmed_linesOfPieces (ps : List (List Char)) :
    trimmed (linesOfPieces ps) = trimmed ps := by
  induction ps using linesOfPieces.induct with
  | case1 => rfl
  | case2 => rfl
  | case3 last hne => rw [linesOfPieces, if_neg hne]
  | case4 p q rest ih =>
    rw [linesOfPieces, trimmed_cons, trimmed_cons p, ih]
    simp only [trimmed, List.map_cons, List.map_nil, trimChars_dropReturn]

/-- **The trimmed lines are the trimmed pieces between line feeds.** -/
theorem trimmedLines_eq (text : String) :
    trimmedLines text = trimmed (pieces '\n' text.toList) := by
  rw [← trimmed_linesOfPieces, trimmedLines, lines, List.map_map]
  simp only [trimmed, lineChars, Function.comp_def, trim, String.toList_ofList]

theorem trimmedLines_ofList (cs : List Char) :
    trimmedLines (String.ofList cs) = trimmed (pieces '\n' cs) := by
  rw [trimmedLines_eq, String.toList_ofList]

/-- A line feed stands between the lines of two texts. -/
theorem trimmedLines_lineFeed (before after : List Char) :
    trimmedLines (String.ofList (before ++ '\n' :: after)) =
      trimmedLines (String.ofList before) ++ trimmedLines (String.ofList after) := by
  simp only [trimmedLines_ofList, pieces_append_separator, trimmed_append]

/-- A blank character at the front of a text is in none of them. -/
theorem trimmed_pieces_cons (h : isBlank c = true) (cs : List Char) :
    trimmed (pieces '\n' (c :: cs)) = trimmed (pieces '\n' cs) := by
  rw [pieces]
  split
  · rw [trimmed_cons, trimmed_singleton_nil, List.nil_append]
  · cases hp : pieces '\n' cs with
    | nil => exact absurd hp (pieces_ne_nil _ _)
    | cons p ps =>
      rw [trimmed_cons, trimmed_cons p]
      simp only [trimmed, List.map_cons, List.map_nil, trimChars_cons h]

/-- Nor is one at the end. -/
theorem trimmed_pieces_concat (h : isBlank c = true) (cs : List Char) :
    trimmed (pieces '\n' (cs ++ [c])) = trimmed (pieces '\n' cs) := by
  by_cases hc : c = '\n'
  · rw [hc, pieces_append_separator, trimmed_append]
    exact List.append_nil _
  · have hnot : '\n' ∉ [c] := by simpa using Ne.symm hc
    obtain ⟨front, last, hshort, hlong⟩ := pieces_append_of_not_mem hnot cs
    rw [hshort, hlong, trimmed_append, trimmed_append]
    simp only [trimmed, List.map_cons, List.map_nil, trimChars_concat h]

/-- A text of blank characters. -/
def IsBlankText (text : String) : Prop := ∀ c ∈ text.toList, isBlank c = true

instance (text : String) : Decidable (IsBlankText text) :=
  List.decidableBAll (fun c => isBlank c = true) text.toList

theorem isBlankText_empty : IsBlankText "" := fun _ hc => absurd hc List.not_mem_nil

theorem trimmed_pieces_front {bs : List Char} (h : ∀ c ∈ bs, isBlank c = true) (cs : List Char) :
    trimmed (pieces '\n' (bs ++ cs)) = trimmed (pieces '\n' cs) := by
  induction bs with
  | nil => rfl
  | cons b bs ih =>
    obtain ⟨hb, hbs⟩ := List.forall_mem_cons.1 h
    rw [List.cons_append, trimmed_pieces_cons hb, ih hbs]

theorem trimmed_pieces_back {bs : List Char} (h : ∀ c ∈ bs, isBlank c = true) (cs : List Char) :
    trimmed (pieces '\n' (cs ++ bs)) = trimmed (pieces '\n' cs) := by
  induction bs generalizing cs with
  | nil => rw [List.append_nil]
  | cons b bs ih =>
    obtain ⟨hb, hbs⟩ := List.forall_mem_cons.1 h
    rw [List.append_cons, ih hbs, trimmed_pieces_concat hb]

/-- Blank characters around a text are in none of its trimmed lines. -/
theorem trimmedLines_pad (hf : IsBlankText front) (hb : IsBlankText back) (text : String) :
    trimmedLines (front ++ text ++ back) = trimmedLines text := by
  rw [trimmedLines_eq, trimmedLines_eq, String.toList_append, String.toList_append,
    trimmed_pieces_back hb, trimmed_pieces_front hf]

theorem trimmedLines_of_blank (h : IsBlankText front) : trimmedLines front = [] := by
  have hpad := trimmedLines_pad h isBlankText_empty ""
  rwa [String.append_empty, String.append_empty] at hpad

/-- The trimmed lines of texts with line feeds between them. -/
theorem trimmedLines_join (ls : List String) :
    trimmedLines (join "\n" ls) = ls.flatMap trimmedLines := by
  induction ls with
  | nil => rfl
  | cons l ls ih =>
    cases ls with
    | nil => simp [join, List.intercalate]
    | cons l' ls =>
      have hjoin : join "\n" (l :: l' :: ls) =
          String.ofList (l.toList ++ '\n' :: (join "\n" (l' :: ls)).toList) := by
        simp [join, List.intercalate]
      rw [hjoin, trimmedLines_lineFeed, String.ofList_toList, String.ofList_toList, ih]
      rfl

/-! ## The set of lines -/

/-- The trimmed lines of a text that are not blank, as a set. -/
def lineSet (text : String) : Finset String := (trimmedLines text).toFinset

theorem mem_lineSet_join {ls : List String} {line : String} :
    line ∈ lineSet (join "\n" ls) ↔ ∃ l ∈ ls, line ∈ lineSet l := by
  simp only [lineSet, List.mem_toFinset, trimmedLines_join, List.mem_flatMap]

/-! ## Changes of the layout -/

/-- One change of the layout of a text that is written line by line. -/
inductive LayoutEdit : String → String → Prop
  /-- The lines change places. -/
  | permuted {ls ls' : List String} (h : ls.Perm ls') : LayoutEdit (join "\n" ls) (join "\n" ls')
  /-- A line is repeated. -/
  | repeated {l : String} {ls : List String} (h : l ∈ ls) :
    LayoutEdit (join "\n" ls) (join "\n" (l :: ls))
  /-- A blank line is added. -/
  | blankAdded {blank : String} (h : IsBlankText blank) (ls ls' : List String) :
    LayoutEdit (join "\n" (ls ++ ls')) (join "\n" (ls ++ blank :: ls'))
  /-- Blank characters are put at the ends of a line. -/
  | padded {front back : String} (hf : IsBlankText front) (hb : IsBlankText back)
    (ls : List String) (l : String) (ls' : List String) :
    LayoutEdit (join "\n" (ls ++ l :: ls')) (join "\n" (ls ++ (front ++ l ++ back) :: ls'))
  /-- A line feed becomes a carriage return and a line feed. -/
  | returned (before after : List Char) :
    LayoutEdit (String.ofList (before ++ '\n' :: after))
      (String.ofList (before ++ '\r' :: '\n' :: after))

/-- One text comes from the other by changes of the layout, some of them taken back. -/
def Relaid : String → String → Prop := Relation.EqvGen LayoutEdit

theorem LayoutEdit.lineSet_eq {text text' : String} (h : LayoutEdit text text') :
    lineSet text = lineSet text' := by
  cases h with
  | permuted h =>
    ext line
    simp only [mem_lineSet_join, h.mem_iff]
  | repeated h =>
    ext line
    simp only [mem_lineSet_join, List.exists_mem_cons_iff]
    exact (or_iff_right_of_imp fun hl => ⟨_, h, hl⟩).symm
  | blankAdded h ls ls' =>
    rw [lineSet, lineSet, trimmedLines_join, trimmedLines_join, List.flatMap_append,
      List.flatMap_append, List.flatMap_cons, trimmedLines_of_blank h, List.nil_append]
  | padded hf hb ls l ls' =>
    rw [lineSet, lineSet, trimmedLines_join, trimmedLines_join, List.flatMap_append,
      List.flatMap_append, List.flatMap_cons, List.flatMap_cons, trimmedLines_pad hf hb]
  | returned before after =>
    rw [lineSet, lineSet, List.append_cons before '\r', trimmedLines_lineFeed,
      trimmedLines_lineFeed, trimmedLines_ofList (before ++ ['\r']),
      trimmed_pieces_concat (by decide), trimmedLines_ofList before]

/-- **The layout of a text has no part in the set of its lines.** -/
theorem Relaid.lineSet_eq {text text' : String} (h : Relaid text text') :
    lineSet text = lineSet text' := by
  induction h with
  | rel _ _ h => exact h.lineSet_eq
  | refl _ => rfl
  | symm _ _ _ ih => exact ih.symm
  | trans _ _ _ _ _ ih ih' => exact ih.trans ih'

end NearDup.Text
