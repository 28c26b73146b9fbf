import Abecedary.Value
import Abecedary.Variable

/-!
# Instructions

The instructions of the stack machine. An opcode is the byte an instruction begins with; an
instruction adds the operand: a variable, a literal to push, or the address to jump to.
-/

namespace Abecedary

/-- A place in the code, in bytes from its beginning. -/
abbrev Address := UInt32

/-- The byte an instruction begins with. -/
inductive Opcode where
  | fetch
  | store
  | push
  | pop
  | add
  | sub
  | less
  | jumpIfZero
  | jumpIfNonZero
  | jump
  | halt
  | concat
deriving DecidableEq, Repr

namespace Opcode

/-- The opcode as a byte. -/
def byte : Opcode → UInt8
  | fetch => 0
  | store => 1
  | push => 2
  | pop => 3
  | add => 4
  | sub => 5
  | less => 6
  | jumpIfZero => 7
  | jumpIfNonZero => 8
  | jump => 9
  | halt => 10
  | concat => 11

/-- The opcode of a byte, if it is one. -/
def ofByte? : UInt8 → Option Opcode
  | 0 => some fetch
  | 1 => some store
  | 2 => some push
  | 3 => some pop
  | 4 => some add
  | 5 => some sub
  | 6 => some less
  | 7 => some jumpIfZero
  | 8 => some jumpIfNonZero
  | 9 => some jump
  | 10 => some halt
  | 11 => some concat
  | _ => none

/-- The opcode's name in listings. -/
def mnemonic : Opcode → String
  | fetch => "fetch"
  | store => "store"
  | push => "push"
  | pop => "pop"
  | add => "add"
  | sub => "sub"
  | less => "lt"
  | jumpIfZero => "jz"
  | jumpIfNonZero => "jnz"
  | jump => "jmp"
  | halt => "halt"
  | concat => "concat"

@[simp] theorem ofByte?_byte (op : Opcode) : ofByte? op.byte = some op := by
  cases op <;> rfl

theorem byte_of_ofByte? {b : UInt8} {op : Opcode} (h : ofByte? b = some op) : op.byte = b := by
  unfold ofByte? at h
  split at h <;> cases h <;> rfl

end Opcode

/-- The opcode of an operator. -/
def Operator.opcode : Operator → Opcode
  | add => .add
  | subtract => .sub
  | concat => .concat
  | less => .less

/-- An instruction with its operand. -/
inductive Instr where
  | fetch (v : Variable)
  | store (v : Variable)
  | push (literal : Value)
  | pop
  | apply (op : Operator)
  | jumpIfZero (target : Address)
  | jumpIfNonZero (target : Address)
  | jump (target : Address)
  | halt
deriving DecidableEq

namespace Instr

/-- The opcode of the instruction. -/
def opcode : Instr → Opcode
  | fetch _ => .fetch
  | store _ => .store
  | push _ => .push
  | pop => .pop
  | apply op => op.opcode
  | jumpIfZero _ => .jumpIfZero
  | jumpIfNonZero _ => .jumpIfNonZero
  | jump _ => .jump
  | halt => .halt

/-- Where a jump goes. -/
def target? : Instr → Option Address
  | jumpIfZero target => some target
  | jumpIfNonZero target => some target
  | jump target => some target
  | _ => none

/-- The operand in listings. A number is shown with the sign of a zero. -/
def operand? : Instr → Option String
  | fetch v => some v.name
  | store v => some v.name
  | push (.number x) => some x.display
  | push (.text s) => some (Text.quote s)
  | jumpIfZero target => some (toString target.toNat)
  | jumpIfNonZero target => some (toString target.toNat)
  | jump target => some (toString target.toNat)
  | _ => none

/-- The instruction in listings: its mnemonic, and its operand if it has one. -/
def listing (i : Instr) : String :=
  match i.operand? with
  | some operand => i.opcode.mnemonic ++ " " ++ operand
  | none => i.opcode.mnemonic

end Instr

end Abecedary
