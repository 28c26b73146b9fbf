import Abecedary.Program.Chain

/-!
# Chains taken apart and put together

To take a chain apart and to put it together are inverse to each other. Operators that are put on an
expression come behind its own links and leave its head alone (`Expr.links_ofChain`,
`Expr.head_ofChain`), and likewise statements behind the items of a statement
(`Stmt.items_ofChain`). So `first` and `rest` are the chain of a tree exactly when `first` has no
chain of its own and the two put together are the tree (`Expr.head_links_iff`,
`Stmt.items_eq_cons_iff`).

What is rebuilt along a chain is rebuilt node by node, since the last link of a chain is the node
itself (`Expr.rebuild_binary`, `Stmt.rebuild_seq`). Hence rebuilding changes no tree, and nothing is
lost on the way (`chains_lose_nothing`).
-/

namespace Abecedary

/-! ## Operators -/

namespace Expr

@[simp] theorem ofChain_nil (first : Expr) : ofChain first [] = first := rfl

@[simp] theorem ofChain_cons (first : Expr) (link : Operator × Expr)
    (rest : List (Operator × Expr)) :
    ofChain first (link :: rest) = ofChain (binary first link.1 link.2) rest := rfl

/-- The last operator of a chain is put on all that stands before it. -/
@[simp] theorem ofChain_concat (first : Expr) (rest : List (Operator × Expr))
    (link : Operator × Expr) :
    ofChain first (rest ++ [link]) = binary (ofChain first rest) link.1 link.2 := by
  rw [ofChain, List.foldl_append]
  rfl

theorem head_ne_binary (e left : Expr) (op : Operator) (right : Expr) :
    e.head ≠ binary left op right := by
  induction e with
  | binary _ _ _ ihl _ => exact ihl
  | _ => simp [head]

/-- An expression that is no operator is its own chain. -/
theorem head_and_links_of_ne_binary {e : Expr} (h : ∀ left op right, e ≠ binary left op right) :
    e.head = e ∧ e.links = [] := by
  cases e with
  | binary left op right => exact absurd rfl (h left op right)
  | _ => exact ⟨rfl, rfl⟩

/-- What has been taken apart can be put together. -/
theorem ofChain_head_links (e : Expr) : ofChain e.head e.links = e := by
  induction e with
  | binary left op right ihl _ => rw [head_binary, links_binary, ofChain_concat, ihl]
  | _ => rfl

theorem head_ofChain (e : Expr) (rest : List (Operator × Expr)) :
    (ofChain e rest).head = e.head := by
  induction rest generalizing e with
  | nil => rfl
  | cons link rest ih => rw [ofChain_cons, ih, head_binary]

/-- Operators that are put on a chain are its last links. -/
theorem links_ofChain (e : Expr) (rest : List (Operator × Expr)) :
    (ofChain e rest).links = e.links ++ rest := by
  induction rest generalizing e with
  | nil => rw [ofChain_nil, List.append_nil]
  | cons link rest ih =>
    rw [ofChain_cons, ih, links_binary, List.append_assoc, List.singleton_append]

/-- **The chain of an expression** is the one way to put it together from a first operand that is no
operator. -/
theorem head_links_iff {e first : Expr} {rest : List (Operator × Expr)} :
    e.head = first ∧ e.links = rest ↔
      (∀ left op right, first ≠ binary left op right) ∧ ofChain first rest = e := by
  constructor
  · rintro ⟨rfl, rfl⟩
    exact ⟨e.head_ne_binary, e.ofChain_head_links⟩
  · rintro ⟨hfirst, rfl⟩
    obtain ⟨hhead, hlinks⟩ := head_and_links_of_ne_binary hfirst
    rw [head_ofChain, links_ofChain, hhead, hlinks]
    exact ⟨rfl, rfl⟩

/-- An expression is rebuilt along its chain. -/
theorem rebuild_eq_chain (e : Expr) :
    e.rebuild =
      ofChain e.head.rebuild (e.links.map fun link => (link.1, link.2.rebuild)) := by
  cases e with
  | binary left op right =>
    rw [rebuild.eq_def]
    exact congrArg (ofChain _)
      (List.attach_map_val (l := (binary left op right).links)
        (f := fun link : Operator × Expr => (link.1, link.2.rebuild)))
  | _ => simp [head, links, linksBefore]

/-- An operator is rebuilt with its operands. -/
theorem rebuild_binary (left : Expr) (op : Operator) (right : Expr) :
    (binary left op right).rebuild = binary left.rebuild op right.rebuild := by
  rw [rebuild_eq_chain, rebuild_eq_chain left]
  simp

/-- **Rebuilding changes no expression.** -/
theorem rebuild_eq_self (e : Expr) : e.rebuild = e := by
  induction e with
  | binary left op right ihl ihr => rw [rebuild_binary, ihl, ihr]
  | assign target value ih => rw [rebuild, ih]
  | _ => rw [rebuild]

end Expr

/-! ## Sequences -/

namespace Stmt

@[simp] theorem ofChain_nil (first : Stmt) : ofChain first [] = first := rfl

@[simp] theorem ofChain_cons (first second : Stmt) (rest : List Stmt) :
    ofChain first (second :: rest) = ofChain (seq first second) rest := rfl

/-- The last statement of a chain comes behind all that stands before it. -/
@[simp] theorem ofChain_concat (first : Stmt) (rest : List Stmt) (last : Stmt) :
    ofChain first (rest ++ [last]) = seq (ofChain first rest) last := by
  rw [ofChain, List.foldl_append]
  rfl

/-- A statement that is no sequence is its only item. -/
theorem items_of_ne_seq {s : Stmt} (h : ∀ a b, s ≠ seq a b) : s.items = [s] := by
  cases s with
  | seq a b => exact absurd rfl (h a b)
  | _ => rfl

/-- What has been taken apart can be put together, from a first item that is no sequence. -/
theorem exists_items_eq_cons (s : Stmt) :
    ∃ first rest, s.items = first :: rest ∧ (∀ a b, first ≠ seq a b) ∧ ofChain first rest = s := by
  induction s with
  | seq a b iha _ =>
    obtain ⟨first, rest, hitems, hfirst, rfl⟩ := iha
    exact ⟨first, rest ++ [b], by rw [items_seq, hitems, List.cons_append], hfirst,
      ofChain_concat first rest b⟩
  | _ => exact ⟨_, [], rfl, by simp, rfl⟩

/-- Statements that are put behind a chain are its last items. -/
theorem items_ofChain (s : Stmt) (rest : List Stmt) :
    (ofChain s rest).items = s.items ++ rest := by
  induction rest generalizing s with
  | nil => rw [ofChain_nil, List.append_nil]
  | cons t rest ih => rw [ofChain_cons, ih, items_seq, List.append_assoc, List.singleton_append]

/-- **The items of a statement** are the one way to put it together from a first statement that is
no sequence. -/
theorem items_eq_cons_iff {s first : Stmt} {rest : List Stmt} :
    s.items = first :: rest ↔ (∀ a b, first ≠ seq a b) ∧ ofChain first rest = s := by
  constructor
  · intro h
    obtain ⟨first', rest', hitems, hfirst, hs⟩ := s.exists_items_eq_cons
    cases hitems.symm.trans h
    exact ⟨hfirst, hs⟩
  · rintro ⟨hfirst, rfl⟩
    rw [items_ofChain, items_of_ne_seq hfirst, List.singleton_append]

/-- A statement is rebuilt along its chain. -/
theorem rebuild_eq_chain {s first : Stmt} {rest : List Stmt} (h : s.items = first :: rest) :
    s.rebuild = ofChain first.rebuild (rest.map rebuild) := by
  cases s with
  | seq a b =>
    have hitems : ((seq a b).items.attach.map fun t => t.1.rebuild) =
        first.rebuild :: rest.map rebuild := by
      rw [List.attach_map_val, h, List.map_cons]
    rw [rebuild.eq_def]
    dsimp only
    split
    · next hnil => cases hitems.symm.trans hnil
    · next hcons => cases hitems.symm.trans hcons; rfl
  | _ => cases h; rfl

/-- A sequence is rebuilt with its statements. -/
theorem rebuild_seq (a b : Stmt) : (seq a b).rebuild = seq a.rebuild b.rebuild := by
  obtain ⟨first, rest, hitems, -⟩ := a.exists_items_eq_cons
  have hseq : (seq a b).items = first :: (rest ++ [b]) := by
    rw [items_seq, hitems, List.cons_append]
  rw [rebuild_eq_chain hitems, rebuild_eq_chain hseq, List.map_append, List.map_singleton,
    ofChain_concat]

/-- **Rebuilding changes no statement.** -/
theorem rebuild_eq_self (s : Stmt) : s.rebuild = s := by
  induction s with
  | ifThen c t iht => rw [rebuild, c.rebuild_eq_self, iht]
  | ifElse c t e iht ihe => rw [rebuild, c.rebuild_eq_self, iht, ihe]
  | whileDo c b ihb => rw [rebuild, c.rebuild_eq_self, ihb]
  | doWhile b c ihb => rw [rebuild, c.rebuild_eq_self, ihb]
  | empty => rw [rebuild]
  | seq a b iha ihb => rw [rebuild_seq, iha, ihb]
  | expr e => rw [rebuild, e.rebuild_eq_self]

end Stmt

/-! ## Trees -/

/-- **Chains lose nothing.** A first operand and some links are the chain of an expression exactly
when the operand is no operator and the links put on it are the expression. Statements are the items
of a statement exactly when the first of them is no sequence and the others put behind it are the
statement; there is always a first. A tree that is rebuilt from its chains is the same tree. -/
theorem chains_lose_nothing :
    (∀ (e first : Expr) (rest : List (Operator × Expr)), e.head = first ∧ e.links = rest ↔
      (∀ left op right, first ≠ .binary left op right) ∧ Expr.ofChain first rest = e) ∧
    (∀ (s first : Stmt) (rest : List Stmt), s.items = first :: rest ↔
      (∀ a b, first ≠ .seq a b) ∧ Stmt.ofChain first rest = s) ∧
    (∀ s : Stmt, s.items ≠ []) ∧
    (∀ e : Expr, e.rebuild = e) ∧ (∀ s : Stmt, s.rebuild = s) ∧ ∀ p : Program, p.rebuild = p := by
  refine ⟨fun _ _ _ => Expr.head_links_iff, fun _ _ _ => Stmt.items_eq_cons_iff,
    Stmt.items_ne_nil, Expr.rebuild_eq_self, Stmt.rebuild_eq_self, fun p => ?_⟩
  rw [Program.rebuild, p.body.rebuild_eq_self]

end Abecedary
