import Mathlib.Data.List.TakeWhile
import Abecedary.Program.Outline
import Abecedary.Proofs.Lines

/-!
# Outlines as pre-order listings

A `Tree` of labels is rendered by plain recursion: its label on a line of its own, then its
children from the first to the last, two spaces further to the right. The tree of a program has the
nodes of its syntax tree; chains play no role in either.

The lines of a program are listed along chains, where the depth of an operand follows from its
place. One link further out, all depths are one larger (`Expr.lines_binary`, `Stmt.lines_seq`), and
so the lines are the nodes of the tree in pre-order (`Program.lines_eq`). All of them can be written
when the tree is not too high (`Program.isWritable_iff`). Then the whole outline is the plain
rendering of the tree, and otherwise there is none (`outline_is_plain_preorder`).
-/

namespace Abecedary

open Outline Text

/-! ## Trees of labels -/

/-- A tree whose nodes have labels. -/
inductive Tree where
  | node (label : String) (children : List Tree)

namespace Tree

/-- A node without children. -/
def leaf (label : String) : Tree := node label []

mutual

/-- The lines of a tree: that of its root behind an indent, then those of its children, indented by
two more spaces. -/
def render (indent : String) : Tree → String
  | node label children => indent ++ label ++ "\n" ++ renderAll (indent ++ "  ") children

/-- The lines of some trees, one tree below the other. -/
def renderAll (indent : String) : List Tree → String
  | [] => ""
  | t :: ts => t.render indent ++ renderAll indent ts

end

@[simp] theorem renderAll_nil (indent : String) : renderAll indent [] = "" := rfl

@[simp] theorem renderAll_cons (indent : String) (t : Tree) (ts : List Tree) :
    renderAll indent (t :: ts) = t.render indent ++ renderAll indent ts := rfl

mutual

/-- How many levels a tree has below its root, which is the depth of its deepest node. -/
def height : Tree → Nat
  | node _ children => levels children

/-- How many levels some trees have. -/
def levels : List Tree → Nat
  | [] => 0
  | t :: ts => max (t.height + 1) (levels ts)

end

@[simp] theorem height_node (label : String) (children : List Tree) :
    (node label children).height = levels children := rfl

@[simp] theorem levels_nil : levels [] = 0 := rfl

@[simp] theorem levels_cons (t : Tree) (ts : List Tree) :
    levels (t :: ts) = max (t.height + 1) (levels ts) := rfl

mutual

/-- The nodes of a tree at a depth in pre-order. -/
def lines (depth : Nat) : Tree → List Line
  | node label children => ⟨depth, label⟩ :: linesAll (depth + 1) children

/-- The nodes of some trees at a depth, one tree after the other. -/
def linesAll (depth : Nat) : List Tree → List Line
  | [] => []
  | t :: ts => t.lines depth ++ linesAll depth ts

end

@[simp] theorem lines_node (depth : Nat) (label : String) (children : List Tree) :
    (node label children).lines depth = ⟨depth, label⟩ :: linesAll (depth + 1) children := rfl

@[simp] theorem lines_leaf (depth : Nat) (label : String) :
    (leaf label).lines depth = [⟨depth, label⟩] := rfl

@[simp] theorem linesAll_nil (depth : Nat) : linesAll depth [] = [] := rfl

@[simp] theorem linesAll_cons (depth : Nat) (t : Tree) (ts : List Tree) :
    linesAll depth (t :: ts) = t.lines depth ++ linesAll depth ts := rfl

end Tree

/-- The tree of a variable. -/
def Variable.tree (v : Variable) : Tree := .leaf ("variable " ++ v.name)

/-- The tree of an expression. -/
def Expr.tree : Expr → Tree
  | var v => v.tree
  | constant n => .leaf ("constant " ++ toString n.toInt)
  | text s => .leaf ("string " ++ Text.quote s)
  | binary left op right => .node op.name [left.tree, right.tree]
  | assign target value => .node "assign" [target.tree, value.tree]

/-- The tree of a statement. -/
def Stmt.tree : Stmt → Tree
  | ifThen condition thenBranch => .node "if" [condition.tree, thenBranch.tree]
  | ifElse condition thenBranch elseBranch =>
    .node "if-else" [condition.tree, thenBranch.tree, elseBranch.tree]
  | whileDo condition body => .node "while" [condition.tree, body.tree]
  | doWhile body condition => .node "do-while" [body.tree, condition.tree]
  | empty => .leaf "empty"
  | seq first second => .node "sequence" [first.tree, second.tree]
  | expr e => .node "expression" [e.tree]

/-- The tree of a program. -/
def Program.tree (p : Program) : Tree := .node "program" [p.body.tree]

/-! ## Along chains -/

/-- A walk along a list with the places of its members needs no proof of membership. -/
theorem foldl_attach_zipIdx {α β : Type} (l : List α) (f : β → α × Nat → β) (b : β) :
    l.attach.zipIdx.foldl (fun b x => f b (x.1.1, x.2)) b = l.zipIdx.foldl f b := by
  conv_rhs => rw [← l.attach_map_subtype_val, List.zipIdx_map, List.foldl_map]
  rfl

/-- The lines of an expression are listed along its chain. -/
theorem Expr.lines_eq_chain (e : Expr) (depth : Nat) (listed : Array Line) :
    e.lines depth listed =
      e.links.zipIdx.foldl
        (fun listed link => link.1.2.lines (depth + e.links.length - link.2) listed)
        (e.head.lines (depth + e.links.length)
          (e.links.reverse.zipIdx.foldl
            (fun listed link => listed.push (line (depth + link.2) link.1.1.name none))
            listed)) := by
  cases e with
  | binary left op right =>
    rw [lines.eq_def]
    exact foldl_attach_zipIdx (binary left op right).links
      (fun listed link => link.1.2.lines
        (depth + (binary left op right).links.length - link.2) listed) _
  | _ => simp [head, links, linksBefore]

/-- An operator is listed before its operands, which are one level deeper. -/
theorem Expr.lines_binary (left : Expr) (op : Operator) (right : Expr) (depth : Nat)
    (listed : Array Line) :
    (binary left op right).lines depth listed =
      right.lines (depth + 1) (left.lines (depth + 1) (listed.push (line depth op.name none))) := by
  -- one link further out, every operator and every operand of the chain is one level deeper
  have hinner (n : Nat) : depth + 1 + n = depth + (n + 1) := by omega
  have hlast (n : Nat) : depth + (n + 1) - n = depth + 1 := by omega
  rw [lines_eq_chain, lines_eq_chain left, links_binary, head_binary]
  simp [List.zipIdx_append, List.zipIdx_succ, List.foldl_map, hinner, hlast]

/-- The lines of a statement are listed along its chain. -/
theorem Stmt.lines_eq_items (s : Stmt) (depth : Nat) (listed : Array Line) :
    s.lines depth listed =
      s.items.zipIdx.foldl
        (fun listed item =>
          item.1.lines (depth + (s.items.length - 1) - (item.2 - 1)) listed)
        ((List.range (s.items.length - 1)).foldl
          (fun listed level => listed.push (line (depth + level) "sequence" none)) listed) := by
  cases s with
  | seq first second =>
    rw [lines.eq_def]
    exact foldl_attach_zipIdx (seq first second).items
      (fun listed item => item.1.lines
        (depth + ((seq first second).items.length - 1) - (item.2 - 1)) listed) _
  | _ => simp [items, itemsBefore]

/-- A sequence is listed before its statements, which are one level deeper. -/
theorem Stmt.lines_seq (first second : Stmt) (depth : Nat) (listed : Array Line) :
    (seq first second).lines depth listed =
      second.lines (depth + 1)
        (first.lines (depth + 1) (listed.push (line depth "sequence" none))) := by
  obtain ⟨n, hn⟩ : ∃ n, first.items.length = n + 1 :=
    Nat.exists_eq_succ_of_ne_zero (by simpa using first.items_ne_nil)
  have hinner (n : Nat) : depth + 1 + n = depth + (n + 1) := by omega
  have hlast : depth + (n + 1) - n = depth + 1 := by omega
  rw [lines_eq_items, lines_eq_items first, items_seq]
  simp [List.zipIdx_append, List.range_succ_eq_map, List.foldl_map, hn, hinner, hlast]

/-! ## Listings -/

theorem Variable.lines_tree (v : Variable) (depth : Nat) :
    v.tree.lines depth = [line depth "variable" v.name] := rfl

/-- The lines of an expression are the nodes of its tree in pre-order. -/
theorem Expr.toList_lines (e : Expr) (depth : Nat) (listed : Array Line) :
    (e.lines depth listed).toList = listed.toList ++ e.tree.lines depth := by
  induction e generalizing depth listed with
  | var v => simp [lines, tree, Variable.lines_tree]
  | constant n => simp [lines, tree, line]
  | text s => simp [lines, tree, line]
  | binary left op right ihl ihr => simp [lines_binary, ihl, ihr, tree, line]
  | assign target value ih => simp [lines, ih, tree, Variable.lines_tree, line]

/-- The lines of a statement are the nodes of its tree in pre-order. -/
theorem Stmt.toList_lines (s : Stmt) (depth : Nat) (listed : Array Line) :
    (s.lines depth listed).toList = listed.toList ++ s.tree.lines depth := by
  induction s generalizing depth listed with
  | ifThen condition thenBranch ih => simp [lines, ih, condition.toList_lines, tree, line]
  | ifElse condition thenBranch elseBranch ihThen ihElse =>
    simp [lines, ihThen, ihElse, condition.toList_lines, tree, line]
  | whileDo condition body ih => simp [lines, ih, condition.toList_lines, tree, line]
  | doWhile body condition ih => simp [lines, ih, condition.toList_lines, tree, line]
  | empty => simp [lines, tree, line]
  | seq first second ihf ihs => simp [lines_seq, ihf, ihs, tree, line]
  | expr e => simp [lines, e.toList_lines, tree, line]

/-- **The lines of a program are the nodes of its tree in pre-order**, whatever chains and blocks
are in it. -/
theorem Program.lines_eq (p : Program) : p.lines = p.tree.lines 0 := by
  simp [lines, Stmt.toList_lines, tree, line]

/-! ## Which lines can be written -/

namespace Outline

/-- The depth of the deepest lines that can be written. -/
def deepest : Nat := 32767

theorem Line.fits_iff {l : Line} : l.fits ↔ l.depth ≤ deepest := by
  rw [fits, decide_eq_true_iff, widthLimit, deepest]
  omega

theorem indent_zero : indent 0 = "" := rfl

theorem indent_succ (depth : Nat) : indent (depth + 1) = indent depth ++ "  " := by
  rw [indent, Nat.mul_succ, ← List.replicate_append_replicate, String.ofList_append]
  rfl

theorem write_eq (ls : List Line) :
    write ls = ofLines ((ls.takeWhile Line.fits).map Line.text) := by
  rw [write, ofLines, List.map_map]
  rfl

theorem write_of_all_fits {ls : List Line} (h : ls.all Line.fits) :
    write ls = ofLines (ls.map Line.text) := by
  rw [write_eq, List.takeWhile_eq_self_iff.2 (List.all_eq_true.1 h)]

/-- Writing breaks off in front of the first line that is too deep. -/
theorem exists_write_eq {ls : List Line} (h : ls.all Line.fits = false) :
    ∃ shown deep hidden, ls = shown ++ deep :: hidden ∧ (∀ l ∈ shown, l.depth ≤ deepest) ∧
      deepest < deep.depth ∧ write ls = ofLines (shown.map Line.text) := by
  obtain ⟨deep, hfind⟩ : ∃ deep, ls.find? (fun l => !l.fits) = some deep := by
    rw [← Option.isSome_iff_exists, List.find?_isSome]
    simpa using h
  obtain ⟨hdeep, shown, hidden, rfl, hshown⟩ := List.find?_eq_some_iff_append.1 hfind
  simp only [Bool.not_not] at hshown
  rw [Bool.not_eq_true'] at hdeep
  refine ⟨shown, deep, hidden, rfl, fun l hl => Line.fits_iff.1 (hshown l hl), ?_, ?_⟩
  · rw [← Nat.not_le, ← Line.fits_iff, hdeep]
    decide
  · rw [write_eq, List.takeWhile_append_of_pos hshown, List.takeWhile_cons_of_neg (by simp [hdeep]),
      List.append_nil]

end Outline

namespace Tree

/-- A tree at a depth: the line of its root, and its children one level deeper. -/
theorem render_indent (depth : Nat) (label : String) (children : List Tree) :
    (node label children).render (indent depth) =
      indent depth ++ label ++ "\n" ++ renderAll (indent (depth + 1)) children := by
  rw [render, indent_succ]

mutual

/-- The rendering of a tree is made of its lines. -/
theorem ofLines_lines (depth : Nat) :
    (t : Tree) → ofLines ((t.lines depth).map Line.text) = t.render (indent depth)
  | node label children => by
    have hchildren := ofLines_linesAll (depth + 1) children
    rw [lines_node, List.map_cons, ofLines_cons, hchildren, render_indent]
    rfl

theorem ofLines_linesAll (depth : Nat) :
    (ts : List Tree) → ofLines ((linesAll depth ts).map Line.text) = renderAll (indent depth) ts
  | [] => rfl
  | t :: ts => by
    rw [linesAll_cons, List.map_append, ofLines_append, ofLines_lines depth t,
      ofLines_linesAll depth ts, renderAll_cons]

end

mutual

/-- No line of a tree is deeper than its root and its height together, and one is as deep. -/
theorem forall_lines_iff {n : Nat} (depth : Nat) :
    (t : Tree) → (∀ l ∈ t.lines depth, l.depth ≤ n) ↔ depth + t.height ≤ n
  | node label children => by
    rw [lines_node, List.forall_mem_cons, height_node]
    exact forall_linesAll_iff depth children

theorem forall_linesAll_iff {n : Nat} (depth : Nat) :
    (ts : List Tree) → (depth ≤ n ∧ ∀ l ∈ linesAll (depth + 1) ts, l.depth ≤ n) ↔
      depth + levels ts ≤ n
  | [] => by simp
  | t :: ts => by
    have ht := forall_lines_iff (n := n) (depth + 1) t
    have hts := forall_linesAll_iff (n := n) depth ts
    rw [linesAll_cons, List.forall_mem_append, ht, and_left_comm, hts, levels_cons]
    omega

end

/-- All lines of a tree can be written when it is not too high. -/
theorem all_fits_lines_iff {t : Tree} : (t.lines 0).all Line.fits ↔ t.height ≤ deepest := by
  simp only [List.all_eq_true, Line.fits_iff]
  rw [forall_lines_iff, Nat.zero_add]

end Tree

/-! ## Outlines -/

namespace Program

variable {p : Program}

theorem isWritable_iff : p.isWritable ↔ p.tree.height ≤ deepest := by
  rw [isWritable, p.lines_eq, Tree.all_fits_lines_iff]

theorem outline_of_le (h : p.tree.height ≤ deepest) : p.outline = p.tree.render "" := by
  rw [outline, write_of_all_fits (isWritable_iff.2 h), p.lines_eq, Tree.ofLines_lines, indent_zero]

theorem outline?_of_le (h : p.tree.height ≤ deepest) : p.outline? = some (p.tree.render "") := by
  rw [outline?, if_pos (isWritable_iff.2 h), outline_of_le h]

theorem isWritable_eq_false (h : deepest < p.tree.height) : p.isWritable = false := by
  rw [← Bool.not_eq_true, isWritable_iff]
  exact Nat.not_le_of_lt h

theorem outline?_of_lt (h : deepest < p.tree.height) : p.outline? = none := by
  rw [outline?, isWritable_eq_false h]
  rfl

end Program

/-- **The outline of a program is the pre-order listing of its tree**, whatever chains and blocks
are in it, unless a node lies deeper than lines can be written. Then there is no whole outline. -/
theorem outline_is_plain_preorder (p : Program) :
    p.outline? = if p.tree.height ≤ deepest then some (p.tree.render "") else none := by
  split
  · next h => exact Program.outline?_of_le h
  · next h => exact Program.outline?_of_lt (Nat.lt_of_not_le h)

-- the listing of `{ a; b - 1 + 2; }`
example :
    (Program.mk (.seq (.seq .empty (.expr (.var ⟨0⟩)))
      (.expr (.binary (.binary (.var ⟨1⟩) .subtract (.constant 1)) .add (.constant 2))))).tree.render
        "" =
      "program\n  sequence\n    sequence\n      empty\n      expression\n        variable a\n" ++
      "    expression\n      add\n        subtract\n          variable b\n" ++
      "          constant 1\n        constant 2\n" := by
  rfl

/-- A block of some empty statements. -/
def Stmt.empties : Nat → Stmt
  | 0 => empty
  | n + 1 => seq (empties n) empty

theorem Stmt.height_empties (n : Nat) : (empties n).tree.height = n := by
  induction n with
  | zero => rfl
  | succ n ih =>
    rw [empties, tree, Tree.height_node, Tree.levels_cons, ih]
    exact Nat.max_eq_left (by simp [tree, Tree.leaf])

/-- The innermost statement of a block lies one level deeper than there are statements. -/
theorem Program.height_empties (n : Nat) : (mk (.empties n)).tree.height = n + 1 := by
  rw [tree, Tree.height_node, Tree.levels_cons, Stmt.height_empties]
  rfl

theorem Program.outline?_empties {n : Nat} (h : deepest ≤ n) : (mk (.empties n)).outline? = none :=
  outline?_of_lt (by rw [height_empties]; exact Nat.lt_succ_of_le h)

/-- A block of 32767 statements is too deep: its tree has a rendering, but the program no whole
outline. -/
theorem long_block_has_no_outline :
    let p : Program := ⟨.empties 32767⟩
    p.tree.height = 32768 ∧ p.outline? ≠ some (p.tree.render "") := by
  intro p
  have houtline : p.outline? = none := Program.outline?_empties (Nat.le_refl deepest)
  exact ⟨Program.height_empties 32767, by simp [houtline]⟩

end Abecedary
