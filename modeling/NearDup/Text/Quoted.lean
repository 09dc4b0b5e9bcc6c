import NearDup.Number.Digits
import NearDup.Text.Hidden
import NearDup.Text.Lines

/-!
# Texts in quotes

A text is shown in quotes so that it can be told where it begins and ends: quotes and backslashes
are escaped, and so is every character that has no shape of its own.
-/

namespace NearDup.Text

/-- The hexadecimal digits of `n` in front of `tail`, at most `fuel` of them. -/
def hexBefore : Nat → Nat → List Char → List Char
  | 0, _, tail => tail
  | fuel + 1, n, tail =>
    let digit := if n % 16 < 10 then Char.ofNat (0x30 + n % 16) else Char.ofNat (0x57 + n % 16)
    if n < 16 then digit :: tail else hexBefore fuel (n / 16) (digit :: tail)

/-- A character between quotes. -/
def showChar (c : Char) : List Char :=
  if c = '\x00' then ['\\', '0']
  else if c = '\t' then ['\\', 't']
  else if c = '\r' then ['\\', 'r']
  else if c = '\n' then ['\\', 'n']
  else if c = '"' || c = '\\' then ['\\', c]
  else if isHidden c then ['\\', 'u', '\x7b'] ++ hexBefore 6 c.toNat ['\x7d']
  else [c]

/-- A text in quotes. -/
def quoted (s : String) : String := String.ofList ('"' :: (s.toList.flatMap showChar ++ ['"']))

example : quoted "a\"é\u0301\n" = "\"a\\\"é\\u\x7b301\x7d\\n\"" := by decide +kernel

/-- A list of texts in quotes. -/
def quotedList (texts : List String) : String := "[" ++ join ", " (texts.map quoted) ++ "]"

example : quotedList ["a", "b"] = "[\"a\", \"b\"]" ∧ quotedList [] = "[]" := by decide +kernel

end NearDup.Text
