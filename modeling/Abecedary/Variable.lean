/-!
# Variables

A program names its variables by the letters of the alphabet. A `Variable` is the place of its
letter, so that there are exactly twenty-six of them.
-/

namespace Abecedary

/-- A variable, by the place of its letter in the alphabet. -/
structure Variable where
  index : Fin 26
deriving DecidableEq, Repr

namespace Variable

/-- The variable of an index, if there is one. -/
def ofIndex? (i : UInt8) : Option Variable :=
  if h : i.toNat < 26 then some ⟨⟨i.toNat, h⟩⟩ else none

/-- The variable of a lower-case letter. -/
def ofLetter? (c : Char) : Option Variable :=
  if h : 'a'.toNat ≤ c.toNat ∧ c.toNat < 'a'.toNat + 26 then
    some ⟨⟨c.toNat - 'a'.toNat, by omega⟩⟩
  else
    none

/-- The lower-case letter that names the variable. -/
def letter (v : Variable) : Char := Char.ofNat ('a'.toNat + v.index)

/-- The name of the variable as a text. -/
def name (v : Variable) : String := v.letter.toString

/-- The variables in alphabetical order. -/
def all : List Variable := (List.finRange 26).map Variable.mk

theorem mem_all (v : Variable) : v ∈ all :=
  List.mem_map.2 ⟨v.index, List.mem_finRange _, rfl⟩

@[simp] theorem ofLetter?_letter (v : Variable) : ofLetter? v.letter = some v := by
  have h : ∀ i : Fin 26, ofLetter? (letter ⟨i⟩) = some ⟨i⟩ := by decide
  exact h v.index

end Variable

end Abecedary
