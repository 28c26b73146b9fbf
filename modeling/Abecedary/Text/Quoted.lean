import Abecedary.Text.Printable

/-!
# Quoted text

A text is quoted between double quotes, on one line and without doubt about its characters: a
double quote, a backslash, a tab, a line break, a carriage return and NUL have a two-character
form, and any other character without a shape of its own is written by its number.
-/

namespace Abecedary.Text

/-- The number of a character in hexadecimal, between braces: `\\u{301}`. -/
def byNumber (c : Char) : List Char :=
  ['\\', 'u', '{'] ++ Nat.toDigits 16 c.toNat ++ ['}']

/-- The form of a character between quotes. -/
def escape (c : Char) : List Char :=
  if c = '\x00' then ['\\', '0']
  else if c = '\t' then ['\\', 't']
  else if c = '\x0d' then ['\\', 'r']
  else if c = '\n' then ['\\', 'n']
  else if c = '\\' then ['\\', '\\']
  else if c = '"' then ['\\', '"']
  else if isPrintable c then [c]
  else byNumber c

/-- The quoted form of a text. -/
def quote (s : String) : String :=
  String.ofList ('"' :: (s.toList.flatMap escape ++ ['"']))

end Abecedary.Text
