import Abecedary.Code.Basic
import Abecedary.Run
import Abecedary.Store

/-!
# The stack machine

The machine executes code of any origin. Its state is the address of the next instruction, a
stack of values and the store. A run begins at address zero with an empty stack and a zero store,
and ends at `halt`, with the store, or with a `MachineError`.
-/

namespace Abecedary

/-- Why the machine cannot go on. -/
inductive MachineError where
  /-- There is no instruction at the address. -/
  | decode (e : DecodeError)
  /-- An operator has no meaning for its operands. -/
  | fault (f : Fault)
  /-- The instruction at this address needs more values than the stack holds. -/
  | stackUnderflow (address : Nat)
  /-- The code has ended. -/
  | missingHalt
deriving DecidableEq

/-- The message of an error. -/
def MachineError.message : MachineError → String
  | decode e => e.message
  | fault f => f.message
  | stackUnderflow address => "Stack underflow at address " ++ toString address
  | missingHalt => "Program ran past its end without halting"

/-- A state of the machine. The top of the stack is the head of the list. -/
structure Machine where
  address : Nat
  stack : List Value
  store : Store

namespace Machine

/-- The state in which a run begins. -/
def start : Machine := ⟨0, [], .zero⟩

/-- Executes an instruction, behind which the code goes on at `next`. -/
def execute (i : Instr) (next : Nat) : Machine → Progress Machine (Except MachineError Store)
  | ⟨address, stack, store⟩ =>
    match i, stack with
    | .fetch v, stack => .next ⟨next, store.get v :: stack, store⟩
    | .store v, x :: stack => .next ⟨next, x :: stack, store.set v x⟩
    | .push x, stack => .next ⟨next, x :: stack, store⟩
    | .pop, _ :: stack => .next ⟨next, stack, store⟩
    | .apply op, right :: left :: stack =>
      match op.apply left right with
      | .ok x => .next ⟨next, x :: stack, store⟩
      | .error f => .done (.error (.fault f))
    | .jumpIfZero target, x :: stack =>
      .next ⟨if x.isZero then target.toNat else next, stack, store⟩
    | .jumpIfNonZero target, x :: stack =>
      .next ⟨if x.isZero then next else target.toNat, stack, store⟩
    | .jump target, stack => .next ⟨target.toNat, stack, store⟩
    | .halt, _ => .done (.ok store)
    | _, _ => .done (.error (.stackUnderflow address))

/-- Decodes and executes one instruction. -/
def step (c : Code) (s : Machine) : Progress Machine (Except MachineError Store) :=
  if c.size ≤ s.address then .done (.error .missingHalt)
  else
    match c.decodeAt s.address with
    | .ok (i, next) => s.execute i next
    | .error e => .done (.error (.decode e))

/-- The result of running code, if the run ends within `n` steps. -/
def run (c : Code) (n : Nat) : Option (Except MachineError Store) := runFor (step c) n start

end Machine

end Abecedary
