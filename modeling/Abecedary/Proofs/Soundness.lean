import Abecedary.Proofs.Grammar
import Abecedary.Proofs.Reading

/-!
# What a parser reads is in the grammar

Every rule of the parser meets its rule of the grammar: the tokens its result is read from derive
that result within the levels that were left, and the tokens in front of an error begin a word that
is derived with levels enough.
-/

namespace Abecedary

namespace Grammar

/-- The words that can be completed to one that derives something. -/
def Begins {α : Type} (S : List TokenKind → α → Prop) (w : List TokenKind) : Prop :=
  ∃ u x, S (w ++ u) x

theorem Begins.of_derives {α : Type} {S : List TokenKind → α → Prop} {w : List TokenKind} {x : α}
    (h : S w x) : Begins S w := ⟨[], x, by rwa [List.append_nil]⟩

theorem Begins.of_append {α : Type} {S : List TokenKind → α → Prop} {w w' : List TokenKind}
    (h : Begins S (w ++ w')) : Begins S w := by
  obtain ⟨u, x, hx⟩ := h
  exact ⟨w' ++ u, x, by simpa using hx⟩

/-- What begins a word of one relation begins, between `pre` and `post`, a word of another. -/
theorem Begins.within {α β : Type} {S : List TokenKind → α → Prop} {S' : List TokenKind → β → Prop}
    {w w' : List TokenKind} (h : Begins S w) (pre post : List TokenKind) (hw : w' = pre ++ w)
    (f : ∀ u x, S u x → ∃ y, S' (pre ++ (u ++ post)) y) : Begins S' w' := by
  obtain ⟨u, x, hx⟩ := h
  obtain ⟨y, hy⟩ := f _ x hx
  subst hw
  exact ⟨u ++ post, y, by simpa using hy⟩

/-- The shortest expression, for completing what has begun. -/
theorem AnyExpression.zero : AnyExpression [.number 0] (.constant 0) :=
  .of_body (.comparison (.chain (.term (.constant 0))))

/-- The shortest statement. -/
theorem AnyStatement.semicolon : AnyStatement [.mark .semicolon] .empty := .of_body .empty

end Grammar

namespace Parser

open Grammar

theorem chainOperator_of_eq {k : TokenKind} {op : Operator} (h : chainOperator? k = some op) :
    ChainOperator k op := by
  unfold chainOperator? at h
  split at h <;> cases h <;> constructor

theorem chainOperator_iff {k : TokenKind} {op : Operator} :
    ChainOperator k op ↔ chainOperator? k = some op := by
  refine ⟨fun h => ?_, chainOperator_of_eq⟩
  cases h <;> rfl

section Expressions

variable {n : Nat} {inner : Parser Expr}
  (hinner : ∀ s, Meets inner s (fun w e _ => Expression n w e) (Begins AnyExpression))
include hinner

theorem parens_meets (s : ParserState) :
    Meets (parens inner) s (fun w e _ => Parens (Expression n) w e)
      (Begins (Parens AnyExpression)) := by
  have hshort : Begins (Parens AnyExpression) [.mark .openParen] :=
    ⟨[.number 0, .mark .closeParen], _, .mk AnyExpression.zero⟩
  refine .require (by simp) (hshort.of_append (w := [])) hshort fun t => ?_
  refine .bind (hinner t) ?_ fun w e t' _ he => ?_
  · intro w hw
    exact hw.within [_] [.mark .closeParen] rfl fun u e he => ⟨e, .mk he⟩
  have hwhole : Begins (Parens AnyExpression) (.mark .openParen :: w ++ [.mark .closeParen]) :=
    .of_derives (.mk ⟨n, he⟩)
  refine .require (by simp) (by simpa using hwhole.of_append) hwhole fun t'' => ?_
  exact .pure (by simpa using Parens.mk he)

theorem term_meets (s : ParserState) :
    Meets (term inner) s (fun w e _ => Term (Expression n) w e) (Begins (Term AnyExpression)) := by
  have hatom {k : TokenKind} {e : Expr} (hk : s.current.kind = k) (hne : k ≠ .eof)
      (hterm : ∀ P : List TokenKind → Expr → Prop, Term P [k] e) :
      Meets (do advance; return e) s (fun w e _ => Term (Expression n) w e)
        (Begins (Term AnyExpression)) :=
    .skip hk hne (.of_derives (hterm _)) fun t => .pure (hterm _)
  refine .peek ?_
  split
  · next v hk => exact hatom hk (by simp) fun P => .var v
  · next m hk => exact hatom hk (by simp) fun P => .constant m
  · next x hk => exact hatom hk (by simp) fun P => .text x
  · exact (parens_meets hinner s).mono (fun _ _ _ => .parens)
      fun w hw => hw.within [] [] rfl fun u e he => ⟨e, by simpa using Term.parens he⟩

theorem links_meets (m : Nat) (left : Expr) (s : ParserState) :
    Meets (links inner m left) s (fun w e _ => Links (Expression n) left w e)
      (Begins (Links AnyExpression left)) := by
  induction m generalizing left s with
  | zero => exact .pure (.nil left)
  | succ m ih =>
    refine .peek ?_
    split
    · exact .pure (.nil left)
    · next op hop =>
      have hop := chainOperator_iff.2 hop
      have hne : s.current.kind ≠ .eof := by
        intro h
        rw [h] at hop
        cases hop
      refine .skip rfl hne ?_ fun t => ?_
      · exact ⟨[.number 0], _, by simpa using Links.cons hop (.constant 0) (.nil _)⟩
      refine .bind (term_meets hinner t) ?_ fun w right t' _ hr => ?_
      · intro w hw
        exact hw.within [_] [] rfl fun u e he => ⟨_, by
          simpa using Links.cons hop he (.nil _)⟩
      refine (ih (.binary left op right) t').mono (fun w' e _ he => ?_) fun w' hw' => ?_
      · simpa using Links.cons hop hr he
      · have hr : Term AnyExpression w right := hr.mono fun h => ⟨n, h⟩
        exact hw'.within (s.current.kind :: w) [] rfl fun u e he => ⟨e, by
          simpa using Links.cons hop hr he⟩

theorem chain_meets (size : Nat) (s : ParserState) :
    Meets (chain inner size) s (fun w e _ => Chain (Expression n) w e)
      (Begins (Chain AnyExpression)) := by
  refine .bind (term_meets hinner s) ?_ fun w left t _ hl => ?_
  · intro w hw
    exact hw.within [] [] rfl fun u e he => ⟨e, by simpa using Chain.term he⟩
  refine (links_meets hinner size left t).mono (fun w' e _ he => ?_) fun w' hw' => ?_
  · exact (Chain.term hl).append_links he
  · have hl : Chain AnyExpression w left := (Chain.term hl).mono fun h => ⟨n, h⟩
    exact hw'.within w [] rfl fun u e he => ⟨e, by simpa using hl.append_links he⟩

theorem comparison_meets (size : Nat) (s : ParserState) :
    Meets (comparison inner size) s (fun w e _ => Comparison (Expression n) w e)
      (Begins (Comparison AnyExpression)) := by
  refine .bind (chain_meets hinner size s) ?_ fun w left t _ hl => ?_
  · intro w hw
    exact hw.within [] [] rfl fun u e he => ⟨e, by simpa using Comparison.chain he⟩
  have hl' : Chain AnyExpression w left := hl.mono fun h => ⟨n, h⟩
  refine .peek ?_
  split
  · next hk =>
    refine .skip hk (by simp) ?_ fun t' => ?_
    · exact ⟨[.number 0], _, by simpa using Comparison.less hl' (.term (.constant 0))⟩
    refine .bind (chain_meets hinner size t') ?_ fun w' right t'' _ hr => ?_
    · intro w' hw'
      exact hw'.within (w ++ [.mark .less]) [] (by simp) fun u e he =>
        ⟨_, by simpa using Comparison.less hl' he⟩
    · exact .pure (by simpa using Comparison.less hl hr)
  · exact .pure (by simpa using Comparison.chain hl)

end Expressions

/-- **An expression is read from a word that derives it.** -/
theorem expression_meets (size n : Nat) (s : ParserState) :
    Meets (expression size n) s (fun w e _ => Expression n w e) (Begins AnyExpression) := by
  induction n generalizing s with
  | zero => exact .fail trivial (Begins.of_append (w := []) (.of_derives .zero))
  | succ n ih =>
    refine .bind (comparison_meets ih size s) ?_ fun w left t _ hl => ?_
    · intro w hw
      exact hw.within [] [] rfl fun u e he => ⟨e, by
        simpa using AnyExpression.of_body (.comparison he)⟩
    refine .peek ?_
    split
    · next v hk =>
      have hl' : Comparison AnyExpression w (.var v) := hl.mono fun h => ⟨n, h⟩
      refine .skip hk (by simp) ?_ fun t' => ?_
      · exact ⟨[.number 0], _, by simpa using AnyExpression.of_body (.assign hl' .zero)⟩
      refine .bind (ih t') ?_ fun w' e t'' _ he => ?_
      · intro w' hw'
        exact hw'.within (w ++ [.mark .equal]) [] (by simp) fun u e he =>
          ⟨_, by simpa using AnyExpression.of_body (.assign hl' he)⟩
      · exact .pure (by simpa [Expression] using ExpressionBody.assign hl he)
    · exact .pure (by simpa [Expression] using ExpressionBody.comparison hl)

theorem parens_expression_meets (size n : Nat) (s : ParserState) :
    Meets (parens (expression size n)) s (fun w e _ => Parens (Expression n) w e)
      (Begins (Parens AnyExpression)) :=
  parens_meets (expression_meets size n) s

/-! ## Statements -/

/-- Whether a token may follow a statement: an `else` behind an open `if` would belong to it. -/
def MayFollow (t : Stmt) (k : TokenKind) : Prop := t.endsOpen = true → k ≠ .keyword .elseWord

/-- A word of a relation and a closing brace. -/
def Closed (S : List TokenKind → Stmt → Prop) (w : List TokenKind) (t : Stmt) : Prop :=
  ∃ u, w = u ++ [.mark .closeBrace] ∧ S u t

theorem block_meets {n : Nat} {inner : Parser Stmt}
    (hinner : ∀ s, Meets inner s (fun w t _ => Statement n w t) (Begins AnyStatement))
    (m : Nat) (before : Stmt) (s : ParserState) :
    Meets (block inner m before) s (fun w t _ => Closed (Siblings (Statement n) before) w t)
      (Begins (Closed (Siblings AnyStatement before))) := by
  have hempty (before : Stmt) :
      Begins (Closed (Siblings AnyStatement before)) ([] ++ [.mark .closeBrace]) :=
    .of_derives ⟨[], rfl, .nil before⟩
  induction m generalizing before s with
  | zero => exact .peek (.fail rfl (hempty before).of_append)
  | succ m ih =>
    refine .peek ?_
    split
    · next hk =>
      exact .skip hk (by simp) (hempty before) fun t => .pure ⟨[], rfl, .nil before⟩
    · next hk =>
      exact .fail (by simp [SyntaxDefect.At, hk]) (hempty before).of_append
    · refine .bind (hinner s) ?_ fun w t s' _ ht => ?_
      · intro w hw
        exact hw.within [] [.mark .closeBrace] rfl fun u t ht => ⟨_, u, rfl, by
          simpa using Siblings.cons ht (.nil _)⟩
      refine (ih (.seq before t) s').mono ?_ fun w' hw' => ?_
      · rintro w' t' _ ⟨u, rfl, ht'⟩
        exact ⟨w ++ u, by simp, .cons ht ht'⟩
      · refine hw'.within w [] rfl ?_
        rintro _ t' ⟨u, rfl, ht'⟩
        exact ⟨t', w ++ u, by simp, .cons ⟨n, ht⟩ ht'⟩

section Statements

variable {size n : Nat} (hinner : ∀ s, Meets (statement size n) s
  (fun w t k => Statement n w t ∧ MayFollow t k) (Begins AnyStatement))
include hinner

/-- What lies behind `if`. -/
theorem conditional_meets (s : ParserState) :
    Meets (do
        let condition ← parens (expression size n)
        let thenBranch ← statement size n
        if (← peek) = .keyword .elseWord then
          advance
          return .ifElse condition thenBranch (← statement size n)
        else
          return .ifThen condition thenBranch) s
      (fun w t k => Statement (n + 1) (.keyword .ifWord :: w) t ∧ MayFollow t k)
      (fun w => Begins AnyStatement (.keyword .ifWord :: w)) := by
  refine .bind (parens_expression_meets size n s) ?_ fun w c s₁ _ hc => ?_
  · intro w hw
    exact hw.within [_] [.mark .semicolon] rfl fun u c hc =>
      ⟨_, by simpa using AnyStatement.of_body (.ifThen hc .semicolon)⟩
  have hc' : Parens AnyExpression w c := hc.mono fun h => ⟨n, h⟩
  refine .bind (hinner s₁) ?_ fun w₁ t s₂ _ ht => ?_
  · intro w₁ hw₁
    exact hw₁.within (.keyword .ifWord :: w) [] rfl fun u t ht =>
      ⟨_, by simpa using AnyStatement.of_body (.ifThen hc' ht)⟩
  obtain ⟨ht, hfollow⟩ := ht
  have hbody : Statement (n + 1) (.keyword .ifWord :: w ++ w₁) (.ifThen c t) := .ifThen hc ht
  refine .peek ?_
  split
  · next hk =>
    have hopen : t.endsOpen = false := by
      cases ho : t.endsOpen with
      | false => rfl
      | true => exact (hfollow ho hk).elim
    refine .skip hk (by simp) ?_ fun s₃ => ?_
    · exact ⟨[.mark .semicolon], _, by
        simpa using AnyStatement.of_body (.ifElse hc' ⟨n, ht⟩ hopen .semicolon)⟩
    refine .bind (hinner s₃) ?_ fun w₃ e s₄ _ he => ?_
    · intro w₃ hw₃
      exact hw₃.within (.keyword .ifWord :: w ++ w₁ ++ [.keyword .elseWord]) [] (by simp)
        fun u e he => ⟨_, by simpa using AnyStatement.of_body (.ifElse hc' ⟨n, ht⟩ hopen he)⟩
    · exact .pure ⟨by simpa [Statement] using StatementBody.ifElse hc ht hopen he.1, he.2⟩
  · next hk => exact .pure ⟨by simpa using hbody, fun _ => hk⟩

/-- What lies behind `while`. -/
theorem loop_meets (s : ParserState) :
    Meets (do
        let condition ← parens (expression size n)
        return .whileDo condition (← statement size n)) s
      (fun w t k => Statement (n + 1) (.keyword .whileWord :: w) t ∧ MayFollow t k)
      (fun w => Begins AnyStatement (.keyword .whileWord :: w)) := by
  refine .bind (parens_expression_meets size n s) ?_ fun w c s₁ _ hc => ?_
  · intro w hw
    exact hw.within [_] [.mark .semicolon] rfl fun u c hc =>
      ⟨_, by simpa using AnyStatement.of_body (.whileDo hc .semicolon)⟩
  have hc' : Parens AnyExpression w c := hc.mono fun h => ⟨n, h⟩
  refine .bind (hinner s₁) ?_ fun w₁ b s₂ _ hb => ?_
  · intro w₁ hw₁
    exact hw₁.within (.keyword .whileWord :: w) [] rfl fun u b hb =>
      ⟨_, by simpa using AnyStatement.of_body (.whileDo hc' hb)⟩
  · exact .pure ⟨by simpa [Statement] using StatementBody.whileDo hc hb.1, hb.2⟩

/-- What lies behind `do`. -/
theorem untilLoop_meets (s : ParserState) :
    Meets (do
        let body ← statement size n
        expect (.keyword .whileWord)
        let condition ← parens (expression size n)
        expect (.mark .semicolon)
        return .doWhile body condition) s
      (fun w t k => Statement (n + 1) (.keyword .doWord :: w) t ∧ MayFollow t k)
      (fun w => Begins AnyStatement (.keyword .doWord :: w)) := by
  have hshort : Parens AnyExpression [.mark .openParen, .number 0, .mark .closeParen]
      (.constant 0) := .mk AnyExpression.zero
  refine .bind (hinner s) ?_ fun w b s₁ _ hb => ?_
  · intro w hw
    exact hw.within [_] _ rfl fun u b hb =>
      ⟨_, by simpa using AnyStatement.of_body (.doWhile hb hshort)⟩
  have hb' : AnyStatement w b := ⟨n, hb.1⟩
  have hbegins : Begins AnyStatement (.keyword .doWord :: w ++ [.keyword .whileWord]) :=
    ⟨_, _, by simpa using AnyStatement.of_body (.doWhile hb' hshort)⟩
  refine .require (by simp) (by simpa using hbegins.of_append) hbegins fun s₂ => ?_
  refine .bind (parens_expression_meets size n s₂) ?_ fun w₂ c s₃ _ hc => ?_
  · intro w₂ hw₂
    exact hw₂.within (.keyword .doWord :: w ++ [.keyword .whileWord]) [.mark .semicolon] (by simp)
      fun u c hc => ⟨_, by simpa using AnyStatement.of_body (.doWhile hb' hc)⟩
  have hwhole : Statement (n + 1) _ _ := .doWhile hb.1 hc
  have hbegins := Begins.of_derives (S := AnyStatement) ⟨n + 1, hwhole⟩
  refine .require (by simp) (by simpa using hbegins.of_append) (by simpa using hbegins) fun s₄ => ?_
  exact .pure ⟨by simpa using hwhole, by simp [MayFollow, Stmt.endsOpen]⟩

end Statements

/-- **A statement is read from a word that derives it**, and no `else` that it could take is left
behind it. -/
theorem statement_meets (size n : Nat) (s : ParserState) :
    Meets (statement size n) s (fun w t k => Statement n w t ∧ MayFollow t k)
      (Begins AnyStatement) := by
  induction n generalizing s with
  | zero => exact .fail trivial (Begins.of_append (w := []) (.of_derives .semicolon))
  | succ n ih =>
    have hzero : Parens AnyExpression [.mark .openParen, .number 0, .mark .closeParen]
        (.constant 0) := .mk AnyExpression.zero
    refine .peek ?_
    split
    · next hk =>
      have hshort := AnyStatement.of_body (.ifThen hzero .semicolon)
      exact .skip hk (by simp) ⟨_, _, hshort⟩ (conditional_meets ih)
    · next hk =>
      have hshort := AnyStatement.of_body (.whileDo hzero .semicolon)
      exact .skip hk (by simp) ⟨_, _, hshort⟩ (loop_meets ih)
    · next hk =>
      have hshort := AnyStatement.of_body (.doWhile .semicolon hzero)
      exact .skip hk (by simp) ⟨_, _, hshort⟩ (untilLoop_meets ih)
    · next hk =>
      refine .skip hk (by simp) (.of_derives .semicolon) fun s' => ?_
      exact .pure ⟨.empty, by simp [MayFollow, Stmt.endsOpen]⟩
    · next hk =>
      refine .skip hk (by simp) ?_ fun s' => ?_
      · exact ⟨[.mark .closeBrace], _, .of_body (.block .nil)⟩
      have hbody s := (ih s).mono (fun _ _ _ => And.left) fun _ => id
      refine (block_meets hbody size .empty s').mono ?_ fun w hw => ?_
      · rintro w t _ ⟨u, rfl, ht⟩
        have ht := Block.iff_siblings.2 ht
        exact ⟨.block ht, fun h => by simp [ht.endsOpen] at h⟩
      · refine hw.within [_] [] rfl ?_
        rintro _ t ⟨u, rfl, ht⟩
        exact ⟨t, by simpa using AnyStatement.of_body (.block (Block.iff_siblings.2 ht))⟩
    · refine .bind (expression_meets size n s) ?_ fun w e s' _ he => ?_
      · intro w hw
        exact hw.within [] [.mark .semicolon] rfl fun u e he =>
          ⟨_, .of_body (.expr he)⟩
      have hwhole : Statement (n + 1) _ _ := .expr he
      have hbegins := Begins.of_derives (S := AnyStatement) ⟨n + 1, hwhole⟩
      refine .require (by simp) (by simpa using hbegins.of_append) hbegins fun s'' => ?_
      exact .pure ⟨by simpa using hwhole, by simp [MayFollow, Stmt.endsOpen]⟩

end Parser

end Abecedary
