import Abecedary.Proofs.Printing

/-!
# Nothing shorter derives a tree

No word that derives a tree is shorter than the one that writes it
(`Grammar.Statement.length_tokens_le`). So every pair of parentheses in that word is forced: the
word without them would be shorter.
-/

namespace Abecedary

/-! ## Expressions -/

namespace Expr

theorem length_parenthesize (w : List TokenKind) : (parenthesize w).length = w.length + 2 := by
  simp [parenthesize]

/-- Parentheses make a word longer, and a place with a greater bound wants them no more often. -/
theorem length_operandTokens (e : Expr) {bound bound' : Nat} (h : bound ≤ bound') :
    e.tokens.length ≤ (e.operandTokens bound').length ∧
      (e.operandTokens bound').length ≤ (e.operandTokens bound).length ∧
      (e.operandTokens bound).length ≤ e.tokens.length + 2 := by
  have hparens := length_parenthesize e.tokens
  unfold operandTokens
  split <;> split <;> omega

theorem length_tokens_binary (left : Expr) (op : Operator) (right : Expr) :
    (binary left op right).tokens.length =
      (left.operandTokens 1).length + (right.operandTokens op.rightBound).length + 1 := by
  rw [tokens_binary, List.length_append, List.length_cons, Nat.add_assoc]

end Expr

namespace Grammar

section Shorter

variable {P : List TokenKind → Expr → Prop} (hP : ∀ {w e}, P w e → e.tokens.length ≤ w.length)
  {w : List TokenKind} {e : Expr}
include hP

theorem Parens.length_tokens_le (h : Parens P w e) : e.tokens.length + 2 ≤ w.length := by
  cases h with
  | mk h =>
    have := hP h
    simpa using this

theorem Term.length_tokens_le (h : Term P w e) : (e.operandTokens 0).length ≤ w.length := by
  cases h with
  | parens h =>
    exact Nat.le_trans (e.length_operandTokens (Nat.le_refl 0)).2.2 (h.length_tokens_le hP)
  | _ => exact Nat.le_refl 1

theorem Chain.length_tokens_le (h : Chain P w e) : (e.operandTokens 1).length ≤ w.length := by
  induction h with
  | @term w e h =>
    exact Nat.le_trans (e.length_operandTokens (Nat.zero_le 1)).2.1 (h.length_tokens_le hP)
  | @link w w' k op left right _ hop hr ih =>
    have hr := hr.length_tokens_le hP
    have hbound : op.rightBound = 0 ∧ (Expr.binary left op right).looseness = 1 := by
      cases hop <;> exact ⟨rfl, rfl⟩
    rw [Expr.operandTokens, if_pos (Nat.le_of_eq hbound.2), Expr.length_tokens_binary, hbound.1,
      List.length_append, List.length_cons]
    omega

theorem Comparison.length_tokens_le (h : Comparison P w e) :
    (e.operandTokens 2).length ≤ w.length := by
  cases h with
  | chain h =>
    exact Nat.le_trans (e.length_operandTokens (Nat.le_succ 1)).2.1 (h.length_tokens_le hP)
  | @less w w' left right hl hr =>
    have hl := hl.length_tokens_le hP
    have hr := hr.length_tokens_le hP
    show (Expr.binary left .less right).tokens.length ≤ _
    rw [Expr.length_tokens_binary, List.length_append, List.length_cons]
    exact Nat.succ_le_succ (Nat.add_le_add hl hr)

theorem ExpressionBody.length_tokens_le (h : ExpressionBody P w e) :
    e.tokens.length ≤ w.length := by
  cases h with
  | comparison h =>
    exact Nat.le_trans (e.length_operandTokens (Nat.le_refl 2)).1 (h.length_tokens_le hP)
  | assign ht hv =>
    have ht : 1 ≤ _ := ht.length_tokens_le hP
    have hv := hP hv
    simp only [Expr.tokens, List.length_append, List.length_cons]
    omega

end Shorter

theorem Expression.length_tokens_le {n : Nat} {w : List TokenKind} {e : Expr}
    (h : Expression n w e) : e.tokens.length ≤ w.length := by
  induction n generalizing w e with
  | zero => exact h.elim
  | succ n ih => exact ExpressionBody.length_tokens_le ih h

/-! ## Statements -/

/-- A block is no shorter than the word that writes it, with its braces or without. -/
theorem Block.length_tokens_le {P : List TokenKind → Stmt → Prop}
    (hP : ∀ {w s}, P w s → s.tokens.length ≤ w.length) {w : List TokenKind} {s : Stmt}
    (h : Block P w s) : s.blockTokens.length ≤ w.length ∧ s.tokens.length ≤ w.length + 2 := by
  induction h with
  | nil => exact ⟨Nat.le_refl 0, Nat.le_succ 1⟩
  | snoc _ hs ih =>
    have hs := hP hs
    simp only [Stmt.tokens, Stmt.blockTokens, List.length_append, List.length_cons,
      List.length_nil]
    omega

/-- **No word that derives a statement is shorter than the one that writes it.** -/
theorem Statement.length_tokens_le {n : Nat} {w : List TokenKind} {s : Stmt}
    (h : Statement n w s) : s.tokens.length ≤ w.length := by
  induction n generalizing w s with
  | zero => exact h.elim
  | succ n ih =>
    have hparens {w : List TokenKind} {e : Expr} (h : Parens (Expression n) w e) :
        (Expr.parenthesize e.tokens).length ≤ w.length := by
      rw [Expr.length_parenthesize]
      exact h.length_tokens_le Expression.length_tokens_le
    cases h with
    | ifThen hc ht =>
      have hc := hparens hc
      have ht := ih ht
      simp only [Stmt.tokens, List.length_append, List.length_cons]
      omega
    | ifElse hc ht _ he =>
      have hc := hparens hc
      have ht := ih ht
      have he := ih he
      simp only [Stmt.tokens, List.length_append, List.length_cons]
      omega
    | whileDo hc hb =>
      have hc := hparens hc
      have hb := ih hb
      simp only [Stmt.tokens, List.length_append, List.length_cons]
      omega
    | doWhile hb hc =>
      have hb := ih hb
      have hc := hparens hc
      simp only [Stmt.tokens, List.length_append, List.length_cons]
      omega
    | empty => exact Nat.le_refl 1
    | block h =>
      have hb := (h.length_tokens_le ih).2
      simpa using hb
    | expr h =>
      have he := h.length_tokens_le
      simpa [Stmt.tokens] using he

end Grammar

end Abecedary
