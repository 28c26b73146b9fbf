import Mathlib
import Abecedary.Proofs.Preorder
import Abecedary.Proofs.Quotation

/-!
# Outlines are legible

A listing shows by its margins which lines are below which: the children of a node stand two blanks
further to the right, and the first line that does not ends them. So a listing determines its trees
when no label has a line break in it and none begins with a blank (`Tree.renderAll_inj`). The labels
of a program tell the kinds of its nodes, the names of its variables, its constants and its quoted
texts, hence the program (`Stmt.eq_of_tree`). Both together: programs with the same outline are the
same, whatever their texts are, and a program has an outline when it is not too deep
(`outline_determines_program`).
-/

namespace Abecedary

open Outline Text

/-! ## Margins -/

/-- How many blanks some characters begin with. -/
def Outline.margin (cs : List Char) : Nat := (cs.takeWhile (· = ' ')).length

namespace Tree

/-- Whether a text can be told from its margin and from the lines below it. -/
structure IsLabel (label : String) : Prop where
  isLine : IsLine label
  flush : label.toList.head? ≠ some ' '

instance (label : String) : Decidable (IsLabel label) :=
  decidable_of_iff (IsLine label ∧ label.toList.head? ≠ some ' ')
    ⟨fun h => ⟨h.1, h.2⟩, fun h => ⟨h.isLine, h.flush⟩⟩

/-- A label may go on with any line. -/
theorem IsLabel.append {kind value : String} (h : IsLabel kind) (hkind : kind.toList ≠ [])
    (hvalue : IsLine value) : IsLabel (kind ++ value) := by
  refine ⟨isLine_append.2 ⟨h.isLine, hvalue⟩, ?_⟩
  rw [String.toList_append, List.head?_append_of_ne_nil _ hkind]
  exact h.flush

/-- All nodes of the tree have labels that can be told from their margins. -/
inductive Legible : Tree → Prop
  | node {label : String} {children : List Tree} (hlabel : IsLabel label)
    (hchildren : ∀ t ∈ children, Legible t) : Legible (.node label children)

theorem Legible.leaf {label : String} (h : IsLabel label) : (leaf label).Legible :=
  .node h (by simp)

/-- The margin of a line is what stands in front of its label. -/
theorem IsLabel.margin_eq {label : String} (h : IsLabel label) (n : Nat) (cs : List Char) :
    margin (List.replicate n ' ' ++ (label.toList ++ '\n' :: cs)) = n := by
  have hrest : (label.toList ++ '\n' :: cs).takeWhile (· = ' ') = [] := by
    cases hlabel : label.toList with
    | nil => simp
    | cons c label =>
      have hc : c ≠ ' ' := by simpa [hlabel] using h.flush
      simp [hc]
  rw [margin, List.takeWhile_append_of_pos (by simp), hrest]
  simp

/-! ## Listings -/

theorem toList_renderAll_cons (depth : Nat) (label : String) (children ts : List Tree) :
    (renderAll (indent depth) (node label children :: ts)).toList =
      List.replicate (2 * depth) ' ' ++ (label.toList ++ '\n' ::
        ((renderAll (indent (depth + 1)) children).toList ++
          (renderAll (indent depth) ts).toList)) := by
  rw [renderAll_cons, render_indent, indent]
  simp

/-- A listing of some trees begins at their margin. -/
theorem margin_renderAll_cons {t : Tree} (ht : t.Legible) (depth : Nat) (ts : List Tree)
    (cs : List Char) :
    margin ((renderAll (indent depth) (t :: ts)).toList ++ cs) = 2 * depth := by
  cases ht with
  | node hlabel _ =>
    rw [toList_renderAll_cons, List.append_assoc, List.append_assoc, List.cons_append]
    exact hlabel.margin_eq ..

theorem margin_renderAll_le {ts : List Tree} (hts : ∀ t ∈ ts, t.Legible) {depth : Nat}
    {cs : List Char} (hcs : margin cs < 2 * depth) :
    margin ((renderAll (indent depth) ts).toList ++ cs) ≤ 2 * depth := by
  cases ts with
  | nil => simpa using Nat.le_of_lt hcs
  | cons t ts => exact Nat.le_of_eq (margin_renderAll_cons (hts t (by simp)) depth ts cs)

/-- **A listing determines its trees**, if what follows it stands further to the left. -/
theorem renderAll_inj {depth : Nat} {ts us : List Tree} {cs ds : List Char}
    (hts : ∀ t ∈ ts, t.Legible) (hus : ∀ u ∈ us, u.Legible) (hcs : margin cs < 2 * depth)
    (hds : margin ds < 2 * depth)
    (h : (renderAll (indent depth) ts).toList ++ cs = (renderAll (indent depth) us).toList ++ ds) :
    ts = us ∧ cs = ds := by
  match ts, us with
  | [], [] => exact ⟨rfl, h⟩
  | [], u :: us =>
    have hmargin := margin_renderAll_cons (hus u (by simp)) depth us ds
    rw [← h, renderAll_nil, String.toList_empty, List.nil_append] at hmargin
    omega
  | t :: ts, [] =>
    have hmargin := margin_renderAll_cons (hts t (by simp)) depth ts cs
    rw [h, renderAll_nil, String.toList_empty, List.nil_append] at hmargin
    omega
  | node label children :: ts, node label' children' :: us =>
    rw [List.forall_mem_cons] at hts hus
    obtain ⟨⟨hlabel, hchildren⟩, hts⟩ := hts
    obtain ⟨⟨hlabel', hchildren'⟩, hus⟩ := hus
    simp only [toList_renderAll_cons, List.append_assoc, List.cons_append,
      List.append_cancel_left_eq] at h
    obtain ⟨rfl, hbelow⟩ := (append_newline_inj hlabel.isLine hlabel'.isLine).1 h
    -- the children end where the next tree begins, two blanks further to the left
    have hmargin := margin_renderAll_le hts hcs
    have hmargin' := margin_renderAll_le hus hds
    obtain ⟨rfl, hbeside⟩ :=
      renderAll_inj hchildren hchildren' (by omega) (by omega) hbelow
    obtain ⟨rfl, hrest⟩ := renderAll_inj hts hus hcs hds hbeside
    exact ⟨rfl, hrest⟩
termination_by sizeOf ts

/-! ## Lines -/

theorem mem_linesAll {l : Line} {depth : Nat} {ts : List Tree} :
    l ∈ linesAll depth ts ↔ ∃ t ∈ ts, l ∈ t.lines depth := by
  induction ts with
  | nil => simp
  | cons t ts ih => simp [ih]

/-- No line of a tree is less deep than its root, and each has a label. -/
theorem Legible.of_mem_lines {t : Tree} (ht : t.Legible) {depth : Nat} {l : Line}
    (hl : l ∈ t.lines depth) : IsLabel l.label ∧ depth ≤ l.depth := by
  induction ht generalizing depth with
  | node hlabel _ ih =>
    rw [lines_node, List.mem_cons] at hl
    rcases hl with rfl | hl
    · exact ⟨hlabel, Nat.le_refl depth⟩
    · obtain ⟨t, ht, hl⟩ := mem_linesAll.1 hl
      obtain ⟨hlabel, hdepth⟩ := ih t ht hl
      exact ⟨hlabel, Nat.le_of_succ_le hdepth⟩

end Tree

/-! ## The labels of a program -/

open Abecedary.Tree

theorem Operator.name_inj {op op' : Operator} : op.name = op'.name ↔ op = op' := by
  cases op <;> cases op' <;> decide

theorem Operator.isLabel_name (op : Operator) : IsLabel op.name := by
  cases op <;> decide

theorem Variable.legible_tree (v : Variable) : v.tree.Legible :=
  .leaf (.append (by decide) (by decide) v.isLine_name)

theorem Expr.legible_tree (e : Expr) : e.tree.Legible := by
  induction e with
  | var v => exact v.legible_tree
  | constant n => exact .leaf (.append (by decide) (by decide) (isLine_repr_int _))
  | text s => exact .leaf (.append (by decide) (by decide) (isLine_quote s))
  | binary left op right ihl ihr => exact .node op.isLabel_name (by simp [ihl, ihr])
  | assign target value ih => exact .node (by decide) (by simp [target.legible_tree, ih])

theorem Stmt.legible_tree (s : Stmt) : s.tree.Legible := by
  induction s with
  | ifThen c t iht => exact .node (by decide) (by simp [c.legible_tree, iht])
  | ifElse c t e iht ihe => exact .node (by decide) (by simp [c.legible_tree, iht, ihe])
  | whileDo c b ihb => exact .node (by decide) (by simp [c.legible_tree, ihb])
  | doWhile b c ihb => exact .node (by decide) (by simp [c.legible_tree, ihb])
  | empty => exact .leaf (by decide)
  | seq first second ihf ihs => exact .node (by decide) (by simp [ihf, ihs])
  | expr e => exact .node (by decide) (by simp [e.legible_tree])

/-! ## The program of a tree -/

/-- The tree of an expression determines it: the label of the root tells the kind of the node, and
the name, the constant or the text in it. -/
theorem Expr.eq_of_tree {e f : Expr} (h : e.tree = f.tree) : e = f := by
  induction e generalizing f with
  | var v =>
    cases f with
    | var w => simpa [tree, Variable.tree, leaf, Variable.name_inj] using h
    | _ => simp [tree, Variable.tree, leaf, ← String.toList_inj] at h
  | constant n =>
    cases f with
    | constant m =>
      have hint : n.toInt = m.toInt := by simpa [tree, leaf, Int.repr_inj] using h
      rw [Int64.toInt_inj.1 hint]
    | _ => simp [tree, Variable.tree, leaf, ← String.toList_inj] at h
  | text s =>
    cases f with
    | text t => simpa [tree, leaf] using h
    | _ => simp [tree, Variable.tree, leaf, ← String.toList_inj] at h
  | binary left op right ihl ihr =>
    cases f with
    | binary left' op' right' =>
      obtain ⟨hop, hleft, hright⟩ :
          op = op' ∧ left.tree = left'.tree ∧ right.tree = right'.tree := by
        simpa [tree, Operator.name_inj] using h
      rw [hop, ihl hleft, ihr hright]
    | assign target value => cases op <;> simp [tree, Operator.name] at h
    | _ => simp [tree, Variable.tree, leaf] at h
  | assign target value ih =>
    cases f with
    | assign target' value' =>
      obtain ⟨htarget, hvalue⟩ : target = target' ∧ value.tree = value'.tree := by
        simpa [tree, Variable.tree, leaf, Variable.name_inj] using h
      rw [htarget, ih hvalue]
    | binary left op right => cases op <;> simp [tree, Operator.name] at h
    | _ => simp [tree, Variable.tree, leaf] at h

/-- The tree of a statement determines it. -/
theorem Stmt.eq_of_tree {s t : Stmt} (h : s.tree = t.tree) : s = t := by
  induction s generalizing t with
  | ifThen c b ihb =>
    cases t with
    | ifThen c' b' =>
      obtain ⟨hc, hb⟩ : c.tree = c'.tree ∧ b.tree = b'.tree := by simpa [tree] using h
      rw [Expr.eq_of_tree hc, ihb hb]
    | _ => simp [tree, leaf] at h
  | ifElse c b e ihb ihe =>
    cases t with
    | ifElse c' b' e' =>
      obtain ⟨hc, hb, he⟩ : c.tree = c'.tree ∧ b.tree = b'.tree ∧ e.tree = e'.tree := by
        simpa [tree] using h
      rw [Expr.eq_of_tree hc, ihb hb, ihe he]
    | _ => simp [tree, leaf] at h
  | whileDo c b ihb =>
    cases t with
    | whileDo c' b' =>
      obtain ⟨hc, hb⟩ : c.tree = c'.tree ∧ b.tree = b'.tree := by simpa [tree] using h
      rw [Expr.eq_of_tree hc, ihb hb]
    | _ => simp [tree, leaf] at h
  | doWhile b c ihb =>
    cases t with
    | doWhile b' c' =>
      obtain ⟨hb, hc⟩ : b.tree = b'.tree ∧ c.tree = c'.tree := by simpa [tree] using h
      rw [Expr.eq_of_tree hc, ihb hb]
    | _ => simp [tree, leaf] at h
  | empty =>
    cases t with
    | empty => rfl
    | _ => simp [tree, leaf] at h
  | seq first second ihf ihs =>
    cases t with
    | seq first' second' =>
      obtain ⟨hf, hs⟩ : first.tree = first'.tree ∧ second.tree = second'.tree := by
        simpa [tree] using h
      rw [ihf hf, ihs hs]
    | _ => simp [tree, leaf] at h
  | expr e =>
    cases t with
    | expr e' =>
      have he : e.tree = e'.tree := by simpa [tree] using h
      rw [Expr.eq_of_tree he]
    | _ => simp [tree, leaf] at h

/-! ## Outlines -/

/-- The rendering of a program is a heading and the listing of its statement below it. -/
theorem Program.render_tree (p : Program) :
    p.tree.render "" = "program\n" ++ renderAll (indent 1) [p.body.tree] := by
  rw [← indent_zero, tree, render_indent]
  rfl

/-- The rendering of a program determines it. -/
theorem Program.eq_of_render {p q : Program} (h : p.tree.render "" = q.tree.render "") : p = q := by
  rw [p.render_tree, q.render_tree, String.append_right_inj, ← String.toList_inj] at h
  have hlegible (s : Stmt) : ∀ t ∈ [s.tree], t.Legible := by simpa using s.legible_tree
  obtain ⟨htrees, -⟩ := renderAll_inj (hlegible p.body) (hlegible q.body)
    Nat.zero_lt_two Nat.zero_lt_two (congrArg (· ++ []) h)
  have hbody : p.body.tree = q.body.tree := by simpa using htrees
  rw [show p = ⟨p.body⟩ from rfl, Stmt.eq_of_tree hbody]

/-- **An outline loses nothing.** Two programs have a whole outline in common only if they are the
same, whatever their shape is and whatever stands in their texts, and then they have one unless a
node lies too deep. -/
theorem outline_determines_program (p q : Program) :
    (∃ outline, p.outline? = some outline ∧ q.outline? = some outline) ↔
      p = q ∧ p.tree.height ≤ deepest := by
  constructor
  · rintro ⟨outline, hp, hq⟩
    have hheight {r : Program} (h : r.outline? = some outline) : r.tree.height ≤ deepest := by
      by_contra hlt
      rw [Program.outline?_of_lt (Nat.lt_of_not_le hlt)] at h
      cases h
    have hrender {r : Program} (h : r.outline? = some outline) : r.tree.render "" = outline := by
      rw [Program.outline?_of_le (hheight h)] at h
      exact Option.some.inj h
    exact ⟨Program.eq_of_render ((hrender hp).trans (hrender hq).symm), hheight hp⟩
  · rintro ⟨rfl, hheight⟩
    exact ⟨_, Program.outline?_of_le hheight, Program.outline?_of_le hheight⟩

/-- Two blocks of different lengths that no outline tells apart, since neither has a whole one. -/
theorem long_blocks_have_no_outlines :
    let p : Program := ⟨.empties 32767⟩
    let q : Program := ⟨.empties 32768⟩
    p ≠ q ∧ p.outline? = none ∧ q.outline? = none := by
  intro p q
  refine ⟨fun h => ?_, Program.outline?_empties (Nat.le_refl deepest),
    Program.outline?_empties (Nat.le_succ deepest)⟩
  have hheight := congrArg (fun r : Program => r.tree.height) h
  simp only [p, q, Program.height_empties] at hheight
  omega

end Abecedary
