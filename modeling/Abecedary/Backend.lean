import Abecedary.Code.Compile
import Abecedary.Eval
import Abecedary.Machine

/-!
# Backends

There are two ways to run a program: its tree is evaluated, or its code is executed. Each is
prepared once for a program and can then be run any number of times.
-/

namespace Abecedary

/-- A program made ready: the result of running it, if the run ends within some number of steps. -/
abbrev Prepared := (steps : Nat) → Option (Except MachineError Store)

/-- A way to run programs. -/
structure Backend where
  name : String
  prepare : Program → Prepared

namespace Backend

/-- Evaluates the tree of the program. -/
def interpreter : Backend where
  name := "interpreter"
  prepare p := fun steps => (Evaluation.run p steps).map fun o => o.result.mapError .fault

/-- Executes the code of the program. -/
def vm : Backend where
  name := "vm"
  prepare p :=
    let code := p.compile
    fun steps => Machine.run code steps

/-- The backends. -/
def all : List Backend := [interpreter, vm]

end Backend

end Abecedary
