import Abecedary.Code.Basic

/-!
# Listings

`Code.instructions` decodes a code from its first byte to its last, and fails with the error of
the first instruction that does not decode. The listing of a code has a line for each instruction,
with its address; the bytes of a code are also written as a flat list.
-/

namespace Abecedary

namespace Code

/-! ## What success takes -/

/-- A sequence of two steps succeeds when the first does and the second does with its result. -/
theorem bind_eq_ok {ε α β : Type} {x : Except ε α} {f : α → Except ε β} {b : β} :
    x >>= f = .ok b ↔ ∃ a, x = .ok a ∧ f a = .ok b := by
  cases x <;> simp [bind, Except.bind]

theorem pure_eq_ok {ε α : Type} {a b : α} : (pure a : Except ε α) = .ok b ↔ a = b := by
  simp [pure, Except.pure]

theorem throw_ne_ok {ε α : Type} {e : ε} {a : α} : (throw e : Except ε α) ≠ .ok a := by
  simp [throw, throwThe, MonadExceptOf.throw]

theorem lt_next_of_readLiteral {c : Code} {start next : Nat} {x : Value}
    (h : c.readLiteral start = .ok (x, next)) : start < next := by
  simp only [readLiteral, bind_eq_ok] at h
  obtain ⟨front, -, h⟩ := h
  split at h
  · simp only [bind_eq_ok] at h
    obtain ⟨length, -, bs, -, h⟩ := h
    split at h
    · simp only [pure_eq_ok, Prod.mk.injEq] at h
      omega
    · exact absurd h throw_ne_ok
  · simp only [bind_eq_ok, pure_eq_ok, Prod.mk.injEq] at h
    obtain ⟨back, -, -, rfl⟩ := h
    omega

/-- An instruction has at least one byte. -/
theorem lt_next_of_decodeAt {c : Code} {a next : Nat} {i : Instr}
    (h : c.decodeAt a = .ok (i, next)) : a < next := by
  simp only [decodeAt, bind_eq_ok] at h
  obtain ⟨byte, -, h⟩ := h
  split at h <;> simp only [bind_eq_ok, pure_eq_ok, throw_ne_ok, Prod.mk.injEq] at h <;>
    grind [→ lt_next_of_readLiteral]

/-! ## Listings -/

/-- Adds the instructions from an address on, with their addresses. -/
def addInstructions (c : Code) (a : Nat) (before : Array (Nat × Instr)) :
    Except DecodeError (Array (Nat × Instr)) :=
  if a < c.size then
    match _h : c.decodeAt a with
    | .error e => .error e
    | .ok (i, next) => c.addInstructions next (before.push (a, i))
  else
    .ok before
termination_by c.size - a
decreasing_by
  have := lt_next_of_decodeAt _h
  omega

/-- The instructions of the whole code, each with its address. -/
def instructions (c : Code) : Except DecodeError (List (Nat × Instr)) :=
  return (← c.addInstructions 0 #[]).toList

/-- The line of an instruction, its address to the right of five columns. -/
def listingLine (entry : Nat × Instr) : String :=
  let address := toString entry.1
  String.ofList (List.replicate (5 - address.length) ' ') ++ address ++ "  " ++ entry.2.listing

/-- The lines of all instructions. -/
def listing (c : Code) : Except DecodeError String :=
  return "\n".intercalate ((← c.instructions).map listingLine)

/-- The bytes in decimal, as a list between brackets. -/
def byteList (c : Code) : String :=
  "[" ++ ", ".intercalate (c.bytes.toList.map fun b => toString b.toNat) ++ "]"

end Code

end Abecedary
