import Abecedary.Program.Basic

/-!
# Chains

Two shapes of tree grow as long as the source: operators lean to the left, `((a + b) - c) + d`,
and so do the statements of a block. Such a chain is taken apart into a list: an expression into
its leftmost operand, `Expr.head`, and the operators with their right operands, `Expr.links`; a
statement into its `Stmt.items`. Passes over the tree walk these lists, so that only real nesting
makes them recurse. `Expr.rebuild` and `Stmt.rebuild` take every chain of a tree apart and put it
together again.
-/

namespace Abecedary

namespace Expr

/-- The leftmost operand of a chain of operators. -/
def head : Expr → Expr
  | binary left _ _ => left.head
  | e => e

/-- Puts the operators of a chain, with their right operands, before some others. -/
def linksBefore : Expr → List (Operator × Expr) → List (Operator × Expr)
  | binary left op right, others => left.linksBefore ((op, right) :: others)
  | _, others => others

/-- The operators of a chain with their right operands, from left to right. -/
def links (e : Expr) : List (Operator × Expr) := e.linksBefore []

/-- The chain of some operators, with their right operands, on a leftmost operand. -/
def ofChain (first : Expr) (rest : List (Operator × Expr)) : Expr :=
  rest.foldl (fun left link => binary left link.1 link.2) first

theorem linksBefore_eq (e : Expr) (others : List (Operator × Expr)) :
    e.linksBefore others = e.links ++ others := by
  induction e generalizing others with
  | binary left op right ihl _ =>
    simp only [links, linksBefore]
    rw [ihl, ihl [(op, right)]]
    simp
  | _ => rfl

@[simp] theorem links_binary (left : Expr) (op : Operator) (right : Expr) :
    (binary left op right).links = left.links ++ [(op, right)] :=
  linksBefore_eq left _

@[simp] theorem head_binary (left : Expr) (op : Operator) (right : Expr) :
    (binary left op right).head = left.head := rfl

theorem sizeOf_head_le (e : Expr) : sizeOf e.head ≤ sizeOf e := by
  induction e with
  | binary left op right ihl _ => simp only [head, binary.sizeOf_spec]; omega
  | _ => exact Nat.le_refl _

/-- The leftmost operand of a chain is smaller than the chain. -/
theorem sizeOf_head_binary_lt (left : Expr) (op : Operator) (right : Expr) :
    sizeOf (binary left op right).head < sizeOf (binary left op right) := by
  have := left.sizeOf_head_le
  simp only [head, binary.sizeOf_spec]
  omega

/-- The right operands of a chain are smaller than the chain. -/
theorem sizeOf_lt_of_mem_links {e : Expr} {link : Operator × Expr} (h : link ∈ e.links) :
    sizeOf link.2 < sizeOf e := by
  induction e with
  | binary left op right ihl _ =>
    simp only [links_binary, List.mem_append, List.mem_singleton] at h
    simp only [binary.sizeOf_spec]
    rcases h with h | rfl
    · have := ihl h
      omega
    · simp only
      omega
  | _ => simp [links, linksBefore] at h

/-- The same tree, put together anew from its chains. -/
def rebuild : Expr → Expr
  | var v => var v
  | constant n => constant n
  | text s => text s
  | assign v e => assign v e.rebuild
  | binary left op right =>
    ofChain (binary left op right).head.rebuild
      ((binary left op right).links.attach.map fun ⟨link, _⟩ => (link.1, link.2.rebuild))
termination_by e => sizeOf e
decreasing_by
  · simp only [assign.sizeOf_spec]; omega
  · exact sizeOf_head_binary_lt left op right
  · exact sizeOf_lt_of_mem_links (by assumption)

end Expr

namespace Stmt

/-- Puts the statements of a chain of sequences before some others. -/
def itemsBefore : Stmt → List Stmt → List Stmt
  | seq first second, others => first.itemsBefore (second :: others)
  | s, others => s :: others

/-- The statements of a chain of sequences in the order of execution. The first is the innermost
left one, so in a block it is the empty statement. -/
def items (s : Stmt) : List Stmt := s.itemsBefore []

/-- The chain of sequences that puts some statements behind a first one. -/
def ofChain (first : Stmt) (rest : List Stmt) : Stmt := rest.foldl seq first

theorem itemsBefore_eq (s : Stmt) (others : List Stmt) :
    s.itemsBefore others = s.items ++ others := by
  induction s generalizing others with
  | seq first second ihf _ =>
    simp only [items, itemsBefore]
    rw [ihf, ihf [second]]
    simp
  | _ => rfl

@[simp] theorem items_seq (first second : Stmt) :
    (seq first second).items = first.items ++ [second] :=
  itemsBefore_eq first _

theorem items_ne_nil (s : Stmt) : s.items ≠ [] := by
  cases s with
  | seq first second => simp
  | _ => simp [items, itemsBefore]

theorem sizeOf_le_of_mem_items {s t : Stmt} (h : t ∈ s.items) : sizeOf t ≤ sizeOf s := by
  induction s with
  | seq first second ihf _ =>
    simp only [items_seq, List.mem_append, List.mem_singleton] at h
    simp only [seq.sizeOf_spec]
    rcases h with h | rfl
    · have := ihf h
      omega
    · omega
  | _ => simp only [items, itemsBefore, List.mem_singleton] at h; simp [h]

/-- The statements of a sequence are smaller than the sequence. -/
theorem sizeOf_lt_of_mem_items_seq {first second t : Stmt} (h : t ∈ (seq first second).items) :
    sizeOf t < sizeOf (seq first second) := by
  simp only [items_seq, List.mem_append, List.mem_singleton] at h
  simp only [seq.sizeOf_spec]
  rcases h with h | rfl
  · have := sizeOf_le_of_mem_items h
    omega
  · omega

/-- The same tree, put together anew from its chains. -/
def rebuild : Stmt → Stmt
  | ifThen c t => ifThen c.rebuild t.rebuild
  | ifElse c t e => ifElse c.rebuild t.rebuild e.rebuild
  | whileDo c b => whileDo c.rebuild b.rebuild
  | doWhile b c => doWhile b.rebuild c.rebuild
  | empty => empty
  | expr e => expr e.rebuild
  | seq first second =>
    match (seq first second).items.attach.map fun ⟨t, _⟩ => t.rebuild with
    | [] => empty
    | t :: ts => ofChain t ts
termination_by s => sizeOf s
decreasing_by
  all_goals first
    | exact sizeOf_lt_of_mem_items_seq (by assumption)
    | simp only [ifThen.sizeOf_spec, ifElse.sizeOf_spec, whileDo.sizeOf_spec, doWhile.sizeOf_spec]
      omega

end Stmt

/-- The same program, put together anew from its chains. -/
def Program.rebuild (p : Program) : Program := ⟨p.body.rebuild⟩

end Abecedary
