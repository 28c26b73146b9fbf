import Abecedary.Number.Text
import Abecedary.Operator
import Abecedary.Text.Quoted

/-!
# Values

A value is a number or a text. Any two values can be joined into a text; the other operators want
two numbers and refuse anything else with a `Fault`.
-/

namespace Abecedary

/-- What a program computes with. -/
inductive Value where
  | number (x : Number)
  | text (s : String)
deriving DecidableEq, Repr

/-- The type of a value. -/
inductive ValueType where
  | number
  | string
deriving DecidableEq, Repr

/-- The name of the type in messages. -/
def ValueType.name : ValueType → String
  | number => "number"
  | string => "string"

/-- An operator met operands it has no meaning for. -/
structure Fault where
  operator : Operator
  left : ValueType
  right : ValueType
deriving DecidableEq, Repr

/-- The message of a fault: the operator and the types of its operands. -/
def Fault.message (f : Fault) : String :=
  "Operation '" ++ f.operator.symbol.toString ++ "' is not supported for types " ++
    f.left.name ++ " and " ++ f.right.name

namespace Value

/-- The number zero, which every variable holds at first. -/
def zero : Value := .number .zero

/-- A value is zero where nothing else is said. -/
instance : Inhabited Value := ⟨zero⟩

/-- The type of a value. -/
def type : Value → ValueType
  | number _ => .number
  | text _ => .string

/-- Whether a condition with this value fails: only the numbers zero do so, and no text. -/
def isZero : Value → Bool
  | number x => x.isZero
  | text _ => false

/-- The text that the value contributes to a join. -/
def toText : Value → String
  | number x => x.text
  | text s => s

/-- The value as reports show it: a text stands between quotes. -/
def display : Value → String
  | number x => x.text
  | text s => Text.quote s

/-- Whether two values are the same quantity or the same text. -/
def sameAs : Value → Value → Bool
  | number x, number y => x.sameQuantity y
  | text s, text t => s = t
  | _, _ => false

/-- The join of two values as texts. -/
def concat (left right : Value) : Value := .text (left.toText ++ right.toText)

/-- An operator on two numbers. -/
def onNumbers (op : Operator) (f : Number → Number → Number) (left right : Value) :
    Except Fault Value :=
  match left, right with
  | number x, number y => .ok (.number (f x y))
  | _, _ => .error ⟨op, left.type, right.type⟩

end Value

/-- The value of an operator on two operands. A comparison yields one or zero. -/
def Operator.apply (op : Operator) (left right : Value) : Except Fault Value :=
  match op with
  | add => Value.onNumbers add Number.add left right
  | subtract => Value.onNumbers subtract Number.sub left right
  | less => Value.onNumbers less (fun x y => if x.lt y then .one else .zero) left right
  | concat => .ok (left.concat right)

end Abecedary
