import Abecedary.Value
import Abecedary.Variable

/-!
# The store

One value for each of the twenty-six variables. The report of a store shows the variables that do
not hold zero, a line for each, in alphabetical order.
-/

namespace Abecedary

/-- The values of the variables. -/
structure Store where
  slots : Vector Value 26
deriving DecidableEq

namespace Store

/-- The store in which every variable is zero. -/
def zero : Store := ⟨.replicate 26 .zero⟩

/-- The value of a variable. -/
def get (σ : Store) (v : Variable) : Value := σ.slots[v.index]

/-- The store in which a variable has another value. -/
def set (σ : Store) (v : Variable) (x : Value) : Store := ⟨σ.slots.set v.index x⟩

@[simp] theorem get_zero (v : Variable) : zero.get v = .zero := by
  simp [get, zero]

theorem get_set (σ : Store) (v w : Variable) (x : Value) :
    (σ.set v x).get w = if v = w then x else σ.get w := by
  have h : (v.index : Nat) = w.index ↔ v = w :=
    ⟨fun h => by cases v; cases w; simpa [Fin.ext_iff] using h, fun h => by rw [h]⟩
  simp [get, set, Vector.getElem_set, h]

@[simp] theorem get_set_self (σ : Store) (v : Variable) (x : Value) : (σ.set v x).get v = x := by
  rw [get_set, if_pos rfl]

/-- The variables that do not hold zero, with their values, in alphabetical order. -/
def nonZero (σ : Store) : List (Variable × Value) :=
  (Variable.all.map fun v => (v, σ.get v)).filter fun slot => !slot.2.isZero

/-- The line of a variable in reports. -/
def line (slot : Variable × Value) : String := slot.1.name ++ " = " ++ slot.2.display ++ "\n"

/-- The lines of the variables that do not hold zero. -/
def report (σ : Store) : String := String.join (σ.nonZero.map line)

end Store

end Abecedary
