import Abecedary.Code.Emitter
import Abecedary.Program.Chain

/-!
# Compiling

Code is written in one pass over the program. An expression leaves its value on the stack, a
statement leaves the stack as it was. Conditions jump forward over what they guard, loops jump
back to where they began, and `halt` ends the code.
-/

namespace Abecedary

/-- Writes the code of an expression: operands from left to right, each operator behind its right
operand. -/
def Expr.compile (e : Expr) (out : Emitter) : Emitter :=
  match e with
  | .var v => out.emitVariable .fetch v
  | .constant n => out.emitNumber (.ofInt64 n)
  | .text s => out.emitText s
  | .assign target value => (value.compile out).emitVariable .store target
  | .binary left op right =>
    (binary left op right).links.attach.foldl
      (fun out ⟨link, _⟩ => (link.2.compile out).emit link.1.opcode)
      ((binary left op right).head.compile out)
termination_by sizeOf e
decreasing_by
  · simp only [assign.sizeOf_spec]; omega
  · exact sizeOf_lt_of_mem_links (by assumption)
  · exact sizeOf_head_binary_lt left op right

/-- The code of an expression is written along its chain. -/
theorem Expr.compile_eq_chain (e : Expr) (out : Emitter) :
    e.compile out = e.links.foldl
      (fun out link => (link.2.compile out).emit link.1.opcode) (e.head.compile out) := by
  cases e with
  | binary left op right =>
    rw [compile.eq_def]
    exact List.foldl_attach (l := (binary left op right).links)
      (f := fun out link => (link.2.compile out).emit link.1.opcode)
  | _ => simp [head, links, linksBefore]

/-- An operator comes behind the code of its operands. -/
theorem Expr.compile_binary (left : Expr) (op : Operator) (right : Expr) (out : Emitter) :
    (binary left op right).compile out = (right.compile (left.compile out)).emit op.opcode := by
  rw [compile_eq_chain, compile_eq_chain left]
  simp

/-- Writes the code of a statement. -/
def Stmt.compile (s : Stmt) (out : Emitter) : Emitter :=
  match s with
  | .ifThen condition thenBranch =>
    let (skip, out) := (condition.compile out).emitForward .jumpIfZero
    (thenBranch.compile out).patch skip
  | .ifElse condition thenBranch elseBranch =>
    let (toElse, out) := (condition.compile out).emitForward .jumpIfZero
    let (toEnd, out) := (thenBranch.compile out).emitForward .jump
    (elseBranch.compile (out.patch toElse)).patch toEnd
  | .whileDo condition body =>
    let start := out.position
    let (exit, out) := (condition.compile out).emitForward .jumpIfZero
    ((body.compile out).emitJump .jump start).patch exit
  | .doWhile body condition =>
    let start := out.position
    (condition.compile (body.compile out)).emitJump .jumpIfNonZero start
  | .empty => out
  | .seq first second =>
    (seq first second).items.attach.foldl (fun out ⟨t, _⟩ => t.compile out) out
  | .expr e => (e.compile out).emit .pop
termination_by sizeOf s
decreasing_by
  all_goals first
    | exact sizeOf_lt_of_mem_items_seq (by assumption)
    | simp only [ifThen.sizeOf_spec, ifElse.sizeOf_spec, whileDo.sizeOf_spec, doWhile.sizeOf_spec]
      omega

/-- The code of a statement is written along its chain. -/
theorem Stmt.compile_eq_items (s : Stmt) (out : Emitter) :
    s.compile out = s.items.foldl (fun out t => t.compile out) out := by
  cases s with
  | seq first second =>
    rw [compile.eq_def]
    exact List.foldl_attach (l := (seq first second).items) (f := fun out t => t.compile out)
  | _ => simp [items, itemsBefore]

/-- The second statement of a sequence comes behind the first. -/
theorem Stmt.compile_seq (first second : Stmt) (out : Emitter) :
    (seq first second).compile out = second.compile (first.compile out) := by
  rw [compile_eq_items, compile_eq_items first]
  simp

/-- The code of a program. -/
def Program.compile (p : Program) : Code := ((p.body.compile .empty).emit .halt).finish

end Abecedary
