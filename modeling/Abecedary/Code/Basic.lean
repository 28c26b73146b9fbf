import Abecedary.Code.Bytes
import Abecedary.Code.Instr
import Abecedary.Text.Utf8

/-!
# Code

Code is a sequence of bytes, an instruction being its opcode and the bytes of its operand:

| opcode                  | operand                                                     |
|-------------------------|-------------------------------------------------------------|
| `fetch`, `store`        | the index of the variable, one byte                         |
| `push` of a number      | its 64 bits, most significant byte first                    |
| `push` of a text        | `textTag`, its length in bytes and its bytes in UTF-8       |
| `jz`, `jnz`, `jmp`      | the address                                                 |
| any other               | none                                                        |

Lengths and addresses are words of four bytes, least significant byte first. The tag is the
beginning of no finite number. `Code.decodeAt` decodes the instruction at an address and
`Code.instructions` all of them from the beginning.
-/

namespace Abecedary

/-- The code of a program. -/
structure Code where
  bytes : Array UInt8
deriving DecidableEq

/-- What is wrong with the bytes of an instruction. -/
inductive DecodeDefect where
  /-- No instruction begins with this byte. -/
  | unknownOpcode (byte : UInt8)
  /-- The code ends inside the instruction. -/
  | truncated
  /-- No variable has this index. -/
  | invalidVariable (index : UInt8)
  /-- The bytes of a text are not UTF-8. -/
  | invalidText
deriving DecidableEq, Repr

/-- A faulty instruction, by the address where it begins. -/
structure DecodeError where
  defect : DecodeDefect
  address : Nat
deriving DecidableEq, Repr

/-- The message of an error: the defect and the address. -/
def DecodeError.message (e : DecodeError) : String :=
  match e.defect with
  | .unknownOpcode byte => "Unknown opcode " ++ toString byte.toNat ++ place
  | .truncated => "Truncated instruction" ++ place
  | .invalidVariable index => "Invalid variable index " ++ toString index.toNat ++ place
  | .invalidText => "String literal" ++ place ++ " is not valid UTF-8"
where
  place : String := " at address " ++ toString e.address

namespace Code

/-- What the operand of a pushed text begins with. -/
def textTag : List UInt8 := [0x7F, 0xF0, 0, 0]

/-- How many bytes there are. -/
def size (c : Code) : Nat := c.bytes.size

/-- The `n` bytes from an address on, if there are so many. -/
def window? (c : Code) (a n : Nat) : Option (List UInt8) :=
  if a + n ≤ c.size then some (c.bytes.extract a (a + n)).toList else none

/-! ## Decoding -/

/-- The `n` bytes from `a` on of the instruction that begins at `start`. -/
def read (c : Code) (start a n : Nat) : Except DecodeError (List UInt8) :=
  match c.window? a n with
  | some bs => .ok bs
  | none => .error ⟨.truncated, start⟩

/-- The byte at `a` of the instruction that begins at `start`. -/
def readByte (c : Code) (start a : Nat) : Except DecodeError UInt8 :=
  match c.bytes[a]? with
  | some b => .ok b
  | none => .error ⟨.truncated, start⟩

/-- The variable that is the operand of the instruction at `start`. -/
def readVariable (c : Code) (start : Nat) : Except DecodeError Variable := do
  let index ← c.readByte start (start + 1)
  match Variable.ofIndex? index with
  | some v => return v
  | none => throw ⟨.invalidVariable index, start⟩

/-- The word of four bytes from `a` on of the instruction that begins at `start`. -/
def readWord (c : Code) (start a : Nat) : Except DecodeError Nat := do
  return ofLittleEndian (← c.read start a 4)

/-- The literal that is the operand of the instruction at `start`, and the address behind it. -/
def readLiteral (c : Code) (start : Nat) : Except DecodeError (Value × Nat) := do
  let front ← c.read start (start + 1) 4
  if front = textTag then
    let length ← c.readWord start (start + 5)
    let bs ← c.read start (start + 9) length
    match Text.ofBytes? bs with
    | some s => return (.text s, start + 9 + length)
    | none => throw ⟨.invalidText, start⟩
  else
    let back ← c.read start (start + 5) 4
    return (.number ⟨UInt64.ofNat (ofBigEndian (front ++ back))⟩, start + 9)

/-- The instruction at an address, and the address behind it. -/
def decodeAt (c : Code) (a : Nat) : Except DecodeError (Instr × Nat) := do
  let byte ← c.readByte a a
  match Opcode.ofByte? byte with
  | none => throw ⟨.unknownOpcode byte, a⟩
  | some .fetch => return (.fetch (← c.readVariable a), a + 2)
  | some .store => return (.store (← c.readVariable a), a + 2)
  | some .push =>
    let (literal, next) ← c.readLiteral a
    return (.push literal, next)
  | some .pop => return (.pop, a + 1)
  | some .add => return (.apply .add, a + 1)
  | some .sub => return (.apply .subtract, a + 1)
  | some .less => return (.apply .less, a + 1)
  | some .concat => return (.apply .concat, a + 1)
  | some .jumpIfZero => return (.jumpIfZero (.ofNat (← c.readWord a (a + 1))), a + 5)
  | some .jumpIfNonZero => return (.jumpIfNonZero (.ofNat (← c.readWord a (a + 1))), a + 5)
  | some .jump => return (.jump (.ofNat (← c.readWord a (a + 1))), a + 5)
  | some .halt => return (.halt, a + 1)

end Code

end Abecedary
