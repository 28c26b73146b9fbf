/-!
# Operators

The four binary operators of the language.
-/

namespace Abecedary

/-- A binary operator. -/
inductive Operator where
  | add
  | subtract
  | concat
  | less
deriving DecidableEq, Repr

namespace Operator

/-- The character that writes the operator. -/
def symbol : Operator → Char
  | add => '+'
  | subtract => '-'
  | concat => '\''
  | less => '<'

/-- The name of the operator in outlines. -/
def name : Operator → String
  | add => "add"
  | subtract => "subtract"
  | concat => "concat"
  | less => "less-than"

end Operator

end Abecedary
