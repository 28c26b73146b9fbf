import Abecedary.Code.Basic

/-!
# Emitting code

An `Emitter` holds the code written so far and writes behind it. A jump to a place that is not yet
reached is written with an empty target; the `Patch` it leaves behind is filled in when the place
is reached. Positions and lengths are words of 32 bits and wrap around in longer code.
-/

namespace Abecedary

/-- Code that is being written. -/
structure Emitter where
  bytes : Array UInt8

/-- The target of a jump that is still to be filled in. -/
structure Patch where
  slot : Nat
deriving DecidableEq, Repr

/-- The bytes of an address. -/
def Address.bytes (a : Address) : List UInt8 := Code.littleEndian 4 a.toNat

namespace Emitter

/-- Nothing written. -/
def empty : Emitter := ⟨#[]⟩

/-- The address of the next byte to be written. -/
def position (out : Emitter) : Address := UInt32.ofNat out.bytes.size

/-- Writes some bytes. -/
def write (out : Emitter) (bs : List UInt8) : Emitter := ⟨out.bytes.appendList bs⟩

/-- Writes an opcode. -/
def emit (out : Emitter) (op : Opcode) : Emitter := ⟨out.bytes.push op.byte⟩

/-- Writes an opcode and a variable. -/
def emitVariable (out : Emitter) (op : Opcode) (v : Variable) : Emitter :=
  (out.emit op).write [UInt8.ofNat v.index]

/-- Writes the push of a number. -/
def emitNumber (out : Emitter) (x : Number) : Emitter :=
  (out.emit .push).write (Code.bigEndian 8 x.bits.toNat)

/-- Writes the push of a text. -/
def emitText (out : Emitter) (s : String) : Emitter :=
  let bs := Text.bytes s
  (out.emit .push).write (Code.textTag ++ Code.littleEndian 4 bs.length ++ bs)

/-- Writes a jump to a known address. -/
def emitJump (out : Emitter) (op : Opcode) (target : Address) : Emitter :=
  (out.emit op).write target.bytes

/-- Writes a jump whose target is filled in later. -/
def emitForward (out : Emitter) (op : Opcode) : Patch × Emitter :=
  let opened := out.emit op
  (⟨opened.bytes.size⟩, opened.write [0, 0, 0, 0])

/-- Replaces the bytes from a place on. -/
def overwrite (bytes : Array UInt8) (i : Nat) : List UInt8 → Array UInt8
  | [] => bytes
  | b :: bs => overwrite (bytes.setIfInBounds i b) (i + 1) bs

/-- Lets a forward jump go to the present position. -/
def patch (out : Emitter) (p : Patch) : Emitter :=
  ⟨overwrite out.bytes p.slot out.position.bytes⟩

/-- The code written. -/
def finish (out : Emitter) : Code := ⟨out.bytes⟩

end Emitter

end Abecedary
