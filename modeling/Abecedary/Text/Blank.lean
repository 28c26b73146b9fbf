/-!
# Blank characters

The characters that separate the words of a program and mean nothing else: those with the
`White_Space` property.
-/

namespace Abecedary.Text

/-- Whether a character is white space: a tab, a line or paragraph break of any kind, or a space
of any width. -/
def isBlank (c : Char) : Bool :=
  let n := c.toNat
  (9 ≤ n && n ≤ 13) || n == 0x20 || n == 0x85 || n == 0xA0 || n == 0x1680 ||
    (0x2000 ≤ n && n ≤ 0x200A) || n == 0x2028 || n == 0x2029 || n == 0x202F || n == 0x205F ||
    n == 0x3000

end Abecedary.Text
