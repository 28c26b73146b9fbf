/-!
# Places in a text

Lines are counted from one and columns from zero, columns in characters. `Position.advance` moves
a place over one character; `Position.after` tells where a text ends from its line breaks alone.
A `Span` is the stretch of a text that a token covers, in bytes, with the place where it begins.
-/

namespace Abecedary

/-- A line, counted from one, and a column on it, counted from zero. -/
structure Position where
  line : Nat
  column : Nat
deriving DecidableEq, Repr

namespace Position

/-- The place of a text's first character. -/
def start : Position := ⟨1, 0⟩

/-- The place behind a character: a line break begins the next line. -/
def advance (p : Position) (c : Char) : Position :=
  if c = '\n' then ⟨p.line + 1, 0⟩ else ⟨p.line, p.column + 1⟩

/-- The place behind some characters. -/
def advanceOver (p : Position) (cs : List Char) : Position :=
  cs.foldl advance p

@[simp] theorem advanceOver_nil (p : Position) : p.advanceOver [] = p := rfl

@[simp] theorem advanceOver_cons (p : Position) (c : Char) (cs : List Char) :
    p.advanceOver (c :: cs) = (p.advance c).advanceOver cs := rfl

/-- The place just behind a text: one line more than it has line breaks, and as many columns as
it has characters after the last of them. -/
def after (cs : List Char) : Position :=
  ⟨cs.count '\n' + 1, (cs.reverse.takeWhile (· ≠ '\n')).length⟩

end Position

/-- A stretch of a text: its first byte, the byte just past it, and the place where it begins. -/
structure Span where
  start : Nat
  stop : Nat
  position : Position
deriving DecidableEq, Repr

/-- The span before anything has been read. -/
def Span.none : Span := ⟨0, 0, ⟨0, 0⟩⟩

end Abecedary
