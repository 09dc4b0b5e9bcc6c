import NearDup.Number.Digits
import NearDup.Number.Shortest

/-!
# Writing JSON

A writer gives the text of a value at a depth of nesting. Two layouts are used: one line without
blanks, and one member a line with two blanks of indentation per level.
-/

namespace NearDup.Json

/-! ## Layouts -/

/-- What stands before a member at a depth, and between a key and its value. -/
structure Layout where
  lineBreak : Nat → List Char
  afterColon : List Char

def Layout.compact : Layout := ⟨fun _ => [], []⟩

def Layout.pretty : Layout := ⟨fun depth => '\n' :: List.replicate (2 * depth) ' ', [' ']⟩

/-- The text of a value in a layout at a depth. -/
abbrev Writer := Layout → Nat → List Char

/-! ## Strings -/

/-- The escape of a control character that has no short one. -/
def controlEscape (c : Char) : List Char :=
  let digit := fun n => if n < 10 then Char.ofNat (0x30 + n) else Char.ofNat (0x57 + n)
  ['\\', 'u', '0', '0', digit (c.toNat / 16), digit (c.toNat % 16)]

/-- A character inside a string. -/
def escape (c : Char) : List Char :=
  if c = '"' then ['\\', '"']
  else if c = '\\' then ['\\', '\\']
  else if c = '\x08' then ['\\', 'b']
  else if c = '\t' then ['\\', 't']
  else if c = '\n' then ['\\', 'n']
  else if c = '\x0c' then ['\\', 'f']
  else if c = '\r' then ['\\', 'r']
  else if c.toNat < 0x20 then controlEscape c
  else [c]

def quoted (cs : List Char) : List Char := '"' :: (cs.flatMap escape ++ ['"'])

/-! ## Values -/

namespace Writer

def text (s : String) : Writer := fun _ _ => quoted s.toList

def nat (n : Nat) : Writer := fun _ _ => Number.digits n

/-- The shortest text of a double; one that is not finite has none and is written as null. -/
def double (x : Binary64) : Writer := fun _ _ =>
  if x.isFinite then x.shortestText else ['n', 'u', 'l', 'l']

/-- Members at a depth, each after a line break and with commas between them. -/
def members (layout : Layout) (depth : Nat) : List (List Char) → List Char
  | [] => []
  | [last] => layout.lineBreak depth ++ last
  | m :: next :: rest => layout.lineBreak depth ++ m ++ ',' :: members layout depth (next :: rest)

/-- Members between brackets; nothing stands between the brackets if there are none. -/
def enclosed (opening closing : Char) (layout : Layout) (depth : Nat) (ms : List (List Char)) :
    List Char :=
  if ms = [] then [opening, closing]
  else opening :: (members layout (depth + 1) ms ++ layout.lineBreak depth ++ [closing])

def array (items : List Writer) : Writer := fun layout depth =>
  enclosed '[' ']' layout depth (items.map fun w => w layout (depth + 1))

/-- A key and its value. -/
def field (layout : Layout) (depth : Nat) (f : String × Writer) : List Char :=
  quoted f.1.toList ++ ':' :: (layout.afterColon ++ f.2 layout depth)

def object (fields : List (String × Writer)) : Writer := fun layout depth =>
  enclosed '\x7b' '\x7d' layout depth (fields.map (field layout (depth + 1)))

/-- The whole text of a value. -/
def render (w : Writer) (layout : Layout) : String := String.ofList (w layout 0)

example : render (array [text "a\n", nat 3]) .compact = "[\"a\\n\",3]" := by decide +kernel
example : render (array [array [], double (.ofRatio 1 2)]) .pretty = "[\n  [],\n  0.5\n]" := by
  decide +kernel

end Writer

end NearDup.Json
