import Abecedary.Program.Chain
import Abecedary.Text.Quoted

/-!
# Outlines

The outline of a program lists the nodes of its tree, one on a line, each indented two spaces
deeper than its parent and followed by its children in order. Of a chain, the lines of all links
come first, the outermost link before the others; then the chain is walked from its innermost end,
and the place of an operand or a statement in it tells its depth.

The indent of a line is padding, and the width of padding is a number of 16 bits. A line that is
indented further cannot be written, and writing breaks off in front of the first such line: then
there is `Program.outline` as far as it is written, and no whole outline, `Program.outline?`.
-/

namespace Abecedary

namespace Outline

/-- The greatest width of padding. -/
def widthLimit : Nat := 65535

/-- A line of an outline: a node at a depth. -/
structure Line where
  depth : Nat
  label : String

/-- The line of a node at a depth: its kind, and its value if it has one. -/
def line (depth : Nat) (kind : String) : Option String → Line
  | some value => ⟨depth, kind ++ " " ++ value⟩
  | none => ⟨depth, kind⟩

/-- The blanks in front of a node at a depth. Those wider than `widthLimit` are never written. -/
def indent (depth : Nat) : String := String.ofList (List.replicate (2 * depth) ' ')

/-- Whether a line can be written: its indent is not wider than padding can be. -/
def Line.fits (l : Line) : Bool := 2 * l.depth ≤ widthLimit

/-- The text of a line, without the line break behind it. -/
def Line.text (l : Line) : String := indent l.depth ++ l.label

/-- What is written of some lines: all in front of the first that cannot be written. -/
def write (ls : List Line) : String :=
  String.join ((ls.takeWhile Line.fits).map fun l => l.text ++ "\n")

end Outline

open Outline

/-- Adds the lines of an expression at a depth to what is already listed. -/
def Expr.lines (e : Expr) (depth : Nat) (listed : Array Line) : Array Line :=
  match e with
  | .var v => listed.push (line depth "variable" v.name)
  | .constant n => listed.push (line depth "constant" (toString n.toInt))
  | .text s => listed.push (line depth "string" (Text.quote s))
  | .binary left op right =>
    let rest := (binary left op right).links
    let links := rest.length
    let listed := rest.reverse.zipIdx.foldl
      (fun listed (link, level) => listed.push (line (depth + level) link.1.name none)) listed
    rest.attach.zipIdx.foldl
      (fun listed (⟨link, _⟩, offset) => link.2.lines (depth + links - offset) listed)
      ((binary left op right).head.lines (depth + links) listed)
  | .assign target value =>
    let listed := listed.push (line depth "assign" none)
    value.lines (depth + 1) (listed.push (line (depth + 1) "variable" target.name))
termination_by sizeOf e
decreasing_by
  · exact sizeOf_lt_of_mem_links (by assumption)
  · exact sizeOf_head_binary_lt left op right
  · simp only [assign.sizeOf_spec]; omega

/-- Adds the lines of a statement at a depth to what is already listed. -/
def Stmt.lines (s : Stmt) (depth : Nat) (listed : Array Line) : Array Line :=
  match s with
  | .ifThen condition thenBranch =>
    let listed := condition.lines (depth + 1) (listed.push (line depth "if" none))
    thenBranch.lines (depth + 1) listed
  | .ifElse condition thenBranch elseBranch =>
    let listed := condition.lines (depth + 1) (listed.push (line depth "if-else" none))
    elseBranch.lines (depth + 1) (thenBranch.lines (depth + 1) listed)
  | .whileDo condition body =>
    let listed := condition.lines (depth + 1) (listed.push (line depth "while" none))
    body.lines (depth + 1) listed
  | .doWhile body condition =>
    let listed := body.lines (depth + 1) (listed.push (line depth "do-while" none))
    condition.lines (depth + 1) listed
  | .empty => listed.push (line depth "empty" none)
  | .seq first second =>
    let items := (seq first second).items
    let links := items.length - 1
    let listed := (List.range links).foldl
      (fun listed level => listed.push (line (depth + level) "sequence" none)) listed
    items.attach.zipIdx.foldl
      (fun listed (⟨t, _⟩, offset) => t.lines (depth + links - (offset - 1)) listed) listed
  | .expr e => e.lines (depth + 1) (listed.push (line depth "expression" none))
termination_by sizeOf s
decreasing_by
  all_goals first
    | exact sizeOf_lt_of_mem_items_seq (by assumption)
    | simp only [ifThen.sizeOf_spec, ifElse.sizeOf_spec, whileDo.sizeOf_spec, doWhile.sizeOf_spec]
      omega

/-- The lines of a program. -/
def Program.lines (p : Program) : List Line := (p.body.lines 1 #[line 0 "program" none]).toList

/-- The outline of a program as far as it can be written. -/
def Program.outline (p : Program) : String := write p.lines

/-- Whether the whole outline of a program can be written. -/
def Program.isWritable (p : Program) : Bool := p.lines.all Line.fits

/-- The whole outline of a program, if it can be written. -/
def Program.outline? (p : Program) : Option String := if p.isWritable then some p.outline else none

end Abecedary
