import Abecedary.Proofs.Soundness

/-!
# What is in the grammar is read

A word that derives a tree within the levels that are left is read as that tree, whenever the token
behind the word does not go on with it: behind a chain no operator of a chain, behind a comparison
no `<`, behind an expression no `=`, and behind a statement no `else` that it could take. The number
that bounds the loops has to be at least the length of the word.
-/

namespace Abecedary

namespace Parser

open Grammar

/-- Whether a token ends a comparison in front of it. -/
def EndsComparison (k : TokenKind) : Prop := chainOperator? k = none ∧ k ≠ .mark .less

/-- Whether a token ends an expression in front of it. -/
def EndsExpression (k : TokenKind) : Prop := EndsComparison k ∧ k ≠ .mark .equal

theorem endsExpression_closeParen : EndsExpression (.mark .closeParen) :=
  ⟨⟨rfl, by simp⟩, by simp⟩

theorem endsExpression_semicolon : EndsExpression (.mark .semicolon) := ⟨⟨rfl, by simp⟩, by simp⟩

/-! ## Expressions -/

section Expressions

variable {size n : Nat} {inner : Parser Expr}
  (hinner : ∀ {w e s t}, Expression n w e → Reads s w t → w.length ≤ size →
    EndsExpression t.current.kind → inner.run s = .ok e t)
include hinner

theorem run_parens {w : List TokenKind} {e : Expr} {s t : ParserState}
    (h : Parens (Expression n) w e) (hr : Reads s w t) (hw : w.length ≤ size) :
    (parens inner).run s = .ok e t := by
  cases h with
  | mk h =>
    simp only [Reads.append_iff, Reads.cons_iff, Reads.nil_iff] at hr
    obtain ⟨s₂, ⟨hk, -, s₁, ha, hi⟩, hk', -, s₃, ha', rfl⟩ := hr
    have hi := hinner h hi (by simp at hw; omega) (hk' ▸ endsExpression_closeParen)
    simp only [parens, run_bind, run_expect, hk, if_true, ha, hi, hk', ha']
    rfl

theorem run_term {w : List TokenKind} {e : Expr} {s t : ParserState}
    (h : Term (Expression n) w e) (hr : Reads s w t) (hw : w.length ≤ size) :
    (term inner).run s = .ok e t := by
  simp only [term, run_bind, run_peek]
  cases h with
  | parens h =>
    have hrun := run_parens hinner h hr hw
    cases h with
    | mk h =>
      obtain ⟨hk, -⟩ := Reads.cons_iff.1 hr
      rw [hk]
      exact hrun
  | _ =>
    simp only [Reads.cons_iff, Reads.nil_iff] at hr
    obtain ⟨hk, -, s₁, ha, rfl⟩ := hr
    simp only [hk, run_bind, ha]
    rfl

theorem run_links {m : Nat} {w : List TokenKind} {left e : Expr} {s t : ParserState}
    (h : Links (Expression n) left w e) (hr : Reads s w t) (hw : w.length ≤ size)
    (hm : w.length ≤ m) (hend : chainOperator? t.current.kind = none) :
    (links inner m left).run s = .ok e t := by
  induction h generalizing m s with
  | nil left =>
    obtain rfl := Reads.nil_iff.1 hr
    cases m with
    | zero => rfl
    | succ m =>
      rw [links, run_bind, run_peek]
      simp only [hend]
      rfl
  | cons hop hright _ ih =>
    simp only [Reads.append_iff, Reads.cons_iff] at hr
    obtain ⟨hk, -, s₁, ha, s₂, hr₁, hr₂⟩ := hr
    obtain ⟨m, rfl⟩ : ∃ k, m = k + 1 := ⟨m - 1, by simp at hm; omega⟩
    simp only [List.length_cons, List.length_append] at hw hm
    have hright := run_term hinner hright hr₁ (by omega)
    have hrest := ih hr₂ (by omega) (m := m) (by omega)
    simp only [links, run_peek, hk, chainOperator_iff.1 hop, run_bind, ha, hright, hrest]

theorem run_chain {w : List TokenKind} {e : Expr} {s t : ParserState}
    (h : Chain (Expression n) w e) (hr : Reads s w t) (hw : w.length ≤ size)
    (hend : chainOperator? t.current.kind = none) : (chain inner size).run s = .ok e t := by
  obtain ⟨w₁, w₂, left, rfl, hleft, hlinks⟩ := Chain.iff_links.1 h
  obtain ⟨s₁, hr₁, hr₂⟩ := Reads.append_iff.1 hr
  rw [List.length_append] at hw
  rw [chain, run_bind, run_term hinner hleft hr₁ (by omega)]
  exact run_links hinner hlinks hr₂ (by omega) (by omega) hend

theorem run_comparison {w : List TokenKind} {e : Expr} {s t : ParserState}
    (h : Comparison (Expression n) w e) (hr : Reads s w t) (hw : w.length ≤ size)
    (hend : EndsComparison t.current.kind) : (comparison inner size).run s = .ok e t := by
  cases h with
  | chain h =>
    simp only [comparison, run_bind, run_chain hinner h hr hw hend.1, run_peek, if_neg hend.2]
    rfl
  | less hl hr' =>
    simp only [Reads.append_iff, Reads.cons_iff] at hr
    obtain ⟨s₁, hr₁, hk, -, s₂, ha, hr₂⟩ := hr
    simp only [List.length_cons, List.length_append] at hw
    have hl := run_chain hinner hl hr₁ (by omega) (hk ▸ rfl)
    have hr' := run_chain hinner hr' hr₂ (by omega) hend.1
    simp only [comparison, run_bind, hl, run_peek, hk, if_true, ha, hr']
    rfl

end Expressions

/-- **Every expression is read.** -/
theorem run_expression {size n : Nat} {w : List TokenKind} {e : Expr} {s t : ParserState}
    (h : Expression n w e) (hr : Reads s w t) (hw : w.length ≤ size)
    (hend : EndsExpression t.current.kind) : (expression size n).run s = .ok e t := by
  induction n generalizing w e s t with
  | zero => exact h.elim
  | succ n ih =>
    cases h with
    | comparison h =>
      rw [expression, run_bind, run_comparison ih h hr hw hend.1]
      simp only [run_bind, run_peek]
      split
      · next hk => exact (hend.2 hk).elim
      · rfl
    | assign ht hv =>
      simp only [Reads.append_iff, Reads.cons_iff] at hr
      obtain ⟨s₁, hr₁, hk, -, s₂, ha, hr₂⟩ := hr
      simp only [List.length_cons, List.length_append] at hw
      have ht := run_comparison ih ht hr₁ (by omega) (hk ▸ ⟨rfl, by simp⟩)
      have hv := ih hv hr₂ (by omega) hend
      simp only [expression, run_bind, ht, run_peek, hk, ha, hv]
      rfl

/-! ## Statements -/

theorem run_block {size n m : Nat} {inner : Parser Stmt} {w : List TokenKind} {before t : Stmt}
    {s s' : ParserState}
    (hinner : ∀ {w t s s'}, Statement n w t → Reads s w s' → w.length ≤ size →
      MayFollow t s'.current.kind → inner.run s = .ok t s')
    (h : Siblings (Statement n) before w t) (hr : Reads s (w ++ [.mark .closeBrace]) s')
    (hw : w.length ≤ size) (hm : w.length < m) : (block inner m before).run s = .ok t s' := by
  induction h generalizing m s with
  | nil before =>
    obtain ⟨m, rfl⟩ : ∃ k, m = k + 1 := ⟨m - 1, by omega⟩
    simp only [List.nil_append, Reads.cons_iff, Reads.nil_iff] at hr
    obtain ⟨hk, -, s₁, ha, rfl⟩ := hr
    simp only [block, run_peek, hk, run_bind, ha]
    rfl
  | cons hs hrest ih =>
    obtain ⟨m, rfl⟩ : ∃ k, m = k + 1 := ⟨m - 1, by omega⟩
    rw [List.append_assoc, Reads.append_iff] at hr
    obtain ⟨s₁, hr₁, hr₂⟩ := hr
    obtain ⟨k, u, rfl, hclose, -, heof⟩ := hs.first
    obtain ⟨hk, -⟩ := Reads.cons_iff.1 hr₁
    simp only [List.length_cons, List.length_append] at hw hm
    -- what follows is a sibling or the closing brace, and neither is an `else`
    have hnext : s₁.current.kind ≠ .keyword .elseWord := by
      cases hrest with
      | nil =>
        obtain ⟨hk', -⟩ := Reads.cons_iff.1 hr₂
        simp [hk']
      | cons hs' _ =>
        obtain ⟨k', u', rfl, -, helse, -⟩ := hs'.first
        obtain ⟨hk', -⟩ := Reads.cons_iff.1 hr₂
        exact hk' ▸ helse
    have hs := hinner hs hr₁ (by simp only [List.length_cons]; omega) fun _ => hnext
    have hrest := ih hr₂ (by omega) (m := m) (by omega)
    simp only [block, run_bind, run_peek, hk, hs, hrest]

theorem run_statement_of_startsExpression {size n : Nat} {s : ParserState}
    (h : StartsExpression s.current.kind) :
    (statement size (n + 1)).run s = (do
      let e ← expression size n
      expect (.mark .semicolon)
      return .expr e : Parser Stmt).run s := by
  rw [statement, run_bind, run_peek]
  generalize s.current.kind = k at h
  cases k with
  | letter v => rfl
  | number m => rfl
  | text x => rfl
  | mark m =>
    cases m with
    | openParen => rfl
    | _ => exact h.elim
  | _ => exact h.elim

/-- **Every statement is read.** -/
theorem run_statement {size n : Nat} {w : List TokenKind} {t : Stmt} {s s' : ParserState}
    (h : Statement n w t) (hr : Reads s w s') (hw : w.length ≤ size)
    (hend : MayFollow t s'.current.kind) : (statement size n).run s = .ok t s' := by
  induction n generalizing w t s s' with
  | zero => exact h.elim
  | succ n ih =>
    have hparens {w : List TokenKind} {e : Expr} {s t : ParserState}
        (h : Parens (Expression n) w e) (hr : Reads s w t) (hw : w.length ≤ size) :
        (parens (expression size n)).run s = .ok e t := run_parens run_expression h hr hw
    cases h with
    | ifThen hc ht =>
      simp only [List.cons_append, Reads.cons_iff, Reads.append_iff] at hr
      obtain ⟨hk, -, s₁, ha, s₂, hr₁, hr₂⟩ := hr
      simp only [List.length_cons, List.length_append] at hw
      have helse := hend rfl
      have hc := hparens hc hr₁ (by omega)
      have ht := ih ht hr₂ (by omega) fun _ => helse
      simp only [statement, run_bind, run_peek, hk, ha, hc, ht, if_neg helse, run_pure]
    | ifElse hc ht hopen he =>
      simp only [List.cons_append, Reads.cons_iff, Reads.append_iff] at hr
      obtain ⟨hk, -, s₁, ha, s₃, ⟨s₂, hr₁, hr₂⟩, hk', -, s₄, ha', hr₃⟩ := hr
      simp only [List.length_cons, List.length_append] at hw
      have hc := hparens hc hr₁ (by omega)
      have ht := ih ht hr₂ (by omega) fun h => by simp [hopen] at h
      have he := ih he hr₃ (by omega) hend
      simp only [statement, run_bind, run_peek, hk, ha, hc, ht, hk', if_true, ha', he, run_pure]
    | whileDo hc hb =>
      simp only [List.cons_append, Reads.cons_iff, Reads.append_iff] at hr
      obtain ⟨hk, -, s₁, ha, s₂, hr₁, hr₂⟩ := hr
      simp only [List.length_cons, List.length_append] at hw
      have hc := hparens hc hr₁ (by omega)
      have hb := ih hb hr₂ (by omega) hend
      simp only [statement, run_bind, run_peek, hk, ha, hc, hb, run_pure]
    | doWhile hb hc =>
      simp only [List.cons_append, Reads.cons_iff, Reads.append_iff, Reads.nil_iff] at hr
      obtain ⟨hk, -, s₁, ha, s₅, ⟨s₂, hr₁, hk', -, s₃, ha', hr₂⟩, hk'', -, s₆, ha'', rfl⟩ := hr
      simp only [List.length_cons, List.length_append] at hw
      have hb := ih hb hr₁ (by omega) fun _ => by simp [hk']
      have hc := hparens hc hr₂ (by omega)
      simp only [statement, run_bind, run_peek, hk, ha, hb, run_expect, hk', if_true, ha', hc, hk'',
        ha'', run_pure]
    | empty =>
      simp only [Reads.cons_iff, Reads.nil_iff] at hr
      obtain ⟨hk, -, s₁, ha, rfl⟩ := hr
      simp only [statement, run_bind, run_peek, hk, ha, run_pure]
    | block h =>
      obtain ⟨hk, -, s₁, ha, hr⟩ := Reads.cons_iff.1 hr
      simp only [List.length_cons, List.length_append, List.length_nil] at hw
      have hblock := run_block ih (Block.iff_siblings.1 h) hr (by omega) (m := size) (by omega)
      simp only [statement, run_bind, run_peek, hk, ha, hblock]
    | expr h =>
      simp only [Reads.cons_iff, Reads.append_iff, Reads.nil_iff] at hr
      obtain ⟨s₁, hr₁, hk', -, s₂, ha, rfl⟩ := hr
      simp only [List.length_append] at hw
      have hexpr : (expression size n).run s = .ok _ s₁ :=
        run_expression h hr₁ (by omega) (hk' ▸ endsExpression_semicolon)
      obtain ⟨k, u, rfl, hstarts⟩ := h.first
      obtain ⟨hk, -⟩ := Reads.cons_iff.1 hr₁
      rw [run_statement_of_startsExpression (hk ▸ hstarts)]
      simp only [run_bind, hexpr, run_expect, hk', if_true, ha, run_pure]

end Parser

end Abecedary
