import Abecedary.Program.Parser

/-!
# The grammar

Which words derive which trees, a word being a list of token kinds:

* a term is a variable, a constant, a text, or an expression between parentheses;
* a chain is a term, or a chain and a term joined by `+`, `-` or `'`, so that it leans to the left;
* a comparison is a chain, or two chains joined by `<`;
* an expression is a comparison, or a comparison whose tree is a lone variable, `=`, and an
  expression;
* a statement is a conditional, a loop, `;`, a block of statements in braces, or an expression and
  `;`. The first branch of an `if` with an `else` does not end in an `if` that has none, so that an
  `else` belongs to the nearest `if` that can take it.

`Grammar.Expression n` and `Grammar.Statement n` derive what needs at most `n` levels of statements
and expressions open inside one another; the rules below a level are given the relation for one
level less. What is derived with any number of levels is the language without a limit.
-/

namespace Abecedary

/-- Whether a statement ends in an `if` that could still take an `else`. -/
def Stmt.endsOpen : Stmt → Bool
  | ifThen _ _ => true
  | ifElse _ _ elseBranch => elseBranch.endsOpen
  | whileDo _ body => body.endsOpen
  | _ => false

namespace Grammar

/-- The operators of a chain, by the tokens that write them. -/
inductive ChainOperator : TokenKind → Operator → Prop
  | add : ChainOperator (.mark .plus) .add
  | subtract : ChainOperator (.mark .minus) .subtract
  | concat : ChainOperator (.mark .concat) .concat

section Expressions

variable (inner : List TokenKind → Expr → Prop)

/-- An expression between parentheses. -/
inductive Parens : List TokenKind → Expr → Prop
  | mk {w : List TokenKind} {e : Expr} (h : inner w e) :
    Parens (.mark .openParen :: w ++ [.mark .closeParen]) e

/-- A term, given the expressions that may stand between parentheses. -/
inductive Term : List TokenKind → Expr → Prop
  | var (v : Variable) : Term [.letter v] (.var v)
  | constant (n : Int64) : Term [.number n] (.constant n)
  | text (s : String) : Term [.text s] (.text s)
  | parens {w : List TokenKind} {e : Expr} (h : Parens inner w e) : Term w e

/-- A chain. -/
inductive Chain : List TokenKind → Expr → Prop
  | term {w : List TokenKind} {e : Expr} (h : Term inner w e) : Chain w e
  | link {w w' : List TokenKind} {k : TokenKind} {op : Operator} {left right : Expr}
    (hl : Chain w left) (hop : ChainOperator k op) (hr : Term inner w' right) :
    Chain (w ++ k :: w') (.binary left op right)

/-- A comparison. -/
inductive Comparison : List TokenKind → Expr → Prop
  | chain {w : List TokenKind} {e : Expr} (h : Chain inner w e) : Comparison w e
  | less {w w' : List TokenKind} {left right : Expr} (hl : Chain inner w left)
    (hr : Chain inner w' right) :
    Comparison (w ++ .mark .less :: w') (.binary left .less right)

/-- An expression, given those one level deeper. -/
inductive ExpressionBody : List TokenKind → Expr → Prop
  | comparison {w : List TokenKind} {e : Expr} (h : Comparison inner w e) : ExpressionBody w e
  | assign {w w' : List TokenKind} {v : Variable} {e : Expr} (ht : Comparison inner w (.var v))
    (hv : inner w' e) : ExpressionBody (w ++ .mark .equal :: w') (.assign v e)

end Expressions

/-- An expression within `n` levels. -/
def Expression : (n : Nat) → List TokenKind → Expr → Prop
  | 0 => fun _ _ => False
  | n + 1 => ExpressionBody (Expression n)

section Statements

/-- The statements of a block, folded from the left onto the empty statement. -/
inductive Block (inner : List TokenKind → Stmt → Prop) : List TokenKind → Stmt → Prop
  | nil : Block inner [] .empty
  | snoc {w w' : List TokenKind} {before s : Stmt} (hb : Block inner w before)
    (hs : inner w' s) : Block inner (w ++ w') (.seq before s)

/-- A statement, given the expressions and statements one level deeper. -/
inductive StatementBody (expression : List TokenKind → Expr → Prop)
    (inner : List TokenKind → Stmt → Prop) : List TokenKind → Stmt → Prop
  | ifThen {w w' : List TokenKind} {c : Expr} {t : Stmt} (hc : Parens expression w c)
    (ht : inner w' t) :
    StatementBody expression inner (.keyword .ifWord :: w ++ w') (.ifThen c t)
  | ifElse {w w' w'' : List TokenKind} {c : Expr} {t e : Stmt} (hc : Parens expression w c)
    (ht : inner w' t) (hopen : t.endsOpen = false) (he : inner w'' e) :
    StatementBody expression inner
      (.keyword .ifWord :: w ++ w' ++ .keyword .elseWord :: w'') (.ifElse c t e)
  | whileDo {w w' : List TokenKind} {c : Expr} {b : Stmt} (hc : Parens expression w c)
    (hb : inner w' b) :
    StatementBody expression inner (.keyword .whileWord :: w ++ w') (.whileDo c b)
  | doWhile {w w' : List TokenKind} {b : Stmt} {c : Expr} (hb : inner w b)
    (hc : Parens expression w' c) :
    StatementBody expression inner
      (.keyword .doWord :: w ++ .keyword .whileWord :: w' ++ [.mark .semicolon]) (.doWhile b c)
  | empty : StatementBody expression inner [.mark .semicolon] .empty
  | block {w : List TokenKind} {s : Stmt} (h : Block inner w s) :
    StatementBody expression inner (.mark .openBrace :: w ++ [.mark .closeBrace]) s
  | expr {w : List TokenKind} {e : Expr} (h : expression w e) :
    StatementBody expression inner (w ++ [.mark .semicolon]) (.expr e)

end Statements

/-- A statement within `n` levels. -/
def Statement : (n : Nat) → List TokenKind → Stmt → Prop
  | 0 => fun _ _ => False
  | n + 1 => StatementBody (Expression n) (Statement n)

/-- A program within `n` levels: one statement and the end of the input. -/
def IsProgram (n : Nat) (w : List TokenKind) : Prop :=
  ∃ u t, Statement n u t ∧ w = u ++ [.eof]

/-- An expression within any number of levels. -/
def AnyExpression (w : List TokenKind) (e : Expr) : Prop := ∃ n, Expression n w e

/-- A statement within any number of levels. -/
def AnyStatement (w : List TokenKind) (t : Stmt) : Prop := ∃ n, Statement n w t

/-! ## More levels derive more -/

section Monotone

variable {P Q : List TokenKind → Expr → Prop} (hPQ : ∀ {w e}, P w e → Q w e)
include hPQ

theorem Parens.mono {w : List TokenKind} {e : Expr} (h : Parens P w e) : Parens Q w e := by
  cases h with
  | mk h => exact .mk (hPQ h)

theorem Term.mono {w : List TokenKind} {e : Expr} (h : Term P w e) : Term Q w e := by
  cases h with
  | var v => exact .var v
  | constant n => exact .constant n
  | text s => exact .text s
  | parens h => exact .parens (h.mono hPQ)

theorem Chain.mono {w : List TokenKind} {e : Expr} (h : Chain P w e) : Chain Q w e := by
  induction h with
  | term h => exact .term (h.mono hPQ)
  | link _ hop hr ih => exact .link ih hop (hr.mono hPQ)

theorem Comparison.mono {w : List TokenKind} {e : Expr} (h : Comparison P w e) :
    Comparison Q w e := by
  cases h with
  | chain h => exact .chain (h.mono hPQ)
  | less hl hr => exact .less (hl.mono hPQ) (hr.mono hPQ)

theorem ExpressionBody.mono {w : List TokenKind} {e : Expr} (h : ExpressionBody P w e) :
    ExpressionBody Q w e := by
  cases h with
  | comparison h => exact .comparison (h.mono hPQ)
  | assign ht hv => exact .assign (ht.mono hPQ) (hPQ hv)

end Monotone

theorem Expression.mono {m n : Nat} (hmn : m ≤ n) {w : List TokenKind} {e : Expr}
    (h : Expression m w e) : Expression n w e := by
  induction m generalizing n w e with
  | zero => exact h.elim
  | succ m ih =>
    obtain ⟨n, rfl⟩ : ∃ k, n = k + 1 := ⟨n - 1, by omega⟩
    exact ExpressionBody.mono (fun h => ih (by omega) h) h

theorem Parens.mono_level {m n : Nat} (hmn : m ≤ n) {w : List TokenKind} {e : Expr}
    (h : Parens (Expression m) w e) : Parens (Expression n) w e := h.mono fun he => he.mono hmn

theorem Block.mono {P Q : List TokenKind → Stmt → Prop} (hPQ : ∀ {w s}, P w s → Q w s)
    {w : List TokenKind} {s : Stmt} (h : Block P w s) : Block Q w s := by
  induction h with
  | nil => exact .nil
  | snoc _ hs ih => exact .snoc ih (hPQ hs)

theorem Statement.mono {m n : Nat} (hmn : m ≤ n) {w : List TokenKind} {s : Stmt}
    (h : Statement m w s) : Statement n w s := by
  induction m generalizing n w s with
  | zero => exact h.elim
  | succ m ih =>
    obtain ⟨n, rfl⟩ : ∃ k, n = k + 1 := ⟨n - 1, by omega⟩
    have hmn : m ≤ n := by omega
    cases h with
    | ifThen hc ht => exact .ifThen (hc.mono_level hmn) (ih hmn ht)
    | ifElse hc ht hopen he => exact .ifElse (hc.mono_level hmn) (ih hmn ht) hopen (ih hmn he)
    | whileDo hc hb => exact .whileDo (hc.mono_level hmn) (ih hmn hb)
    | doWhile hb hc => exact .doWhile (ih hmn hb) (hc.mono_level hmn)
    | empty => exact .empty
    | block h => exact .block (h.mono fun hs => ih hmn hs)
    | expr h => exact .expr (h.mono hmn)

/-! ## The language without a limit

Each rule holds of it that holds at every number of levels, the parts being derived within the
largest number that one of them needs. -/

theorem Parens.exists_level {w : List TokenKind} {e : Expr} (h : Parens AnyExpression w e) :
    ∃ n, Parens (Expression n) w e := by
  cases h with
  | mk h =>
    obtain ⟨n, h⟩ := h
    exact ⟨n, .mk h⟩

theorem Term.exists_level {w : List TokenKind} {e : Expr} (h : Term AnyExpression w e) :
    ∃ n, Term (Expression n) w e := by
  cases h with
  | var v => exact ⟨0, .var v⟩
  | constant n => exact ⟨0, .constant n⟩
  | text s => exact ⟨0, .text s⟩
  | parens h =>
    obtain ⟨n, h⟩ := h.exists_level
    exact ⟨n, .parens h⟩

theorem Chain.exists_level {w : List TokenKind} {e : Expr} (h : Chain AnyExpression w e) :
    ∃ n, Chain (Expression n) w e := by
  induction h with
  | term h =>
    obtain ⟨n, h⟩ := h.exists_level
    exact ⟨n, .term h⟩
  | link _ hop hr ih =>
    obtain ⟨m, hl⟩ := ih
    obtain ⟨n, hr⟩ := hr.exists_level
    exact ⟨max m n, .link (hl.mono fun h => h.mono (Nat.le_max_left m n)) hop
      (hr.mono fun h => h.mono (Nat.le_max_right m n))⟩

theorem Comparison.exists_level {w : List TokenKind} {e : Expr}
    (h : Comparison AnyExpression w e) : ∃ n, Comparison (Expression n) w e := by
  cases h with
  | chain h =>
    obtain ⟨n, h⟩ := h.exists_level
    exact ⟨n, .chain h⟩
  | less hl hr =>
    obtain ⟨m, hl⟩ := hl.exists_level
    obtain ⟨n, hr⟩ := hr.exists_level
    exact ⟨max m n, .less (hl.mono fun h => h.mono (Nat.le_max_left m n))
      (hr.mono fun h => h.mono (Nat.le_max_right m n))⟩

theorem AnyExpression.of_body {w : List TokenKind} {e : Expr}
    (h : ExpressionBody AnyExpression w e) : AnyExpression w e := by
  cases h with
  | comparison h =>
    obtain ⟨n, h⟩ := h.exists_level
    exact ⟨n + 1, .comparison h⟩
  | assign ht hv =>
    obtain ⟨m, ht⟩ := ht.exists_level
    obtain ⟨n, hv⟩ := hv
    exact ⟨max m n + 1, .assign (ht.mono fun h => h.mono (Nat.le_max_left m n))
      (hv.mono (Nat.le_max_right m n))⟩

theorem Block.exists_level {w : List TokenKind} {t : Stmt} (h : Block AnyStatement w t) :
    ∃ n, Block (Statement n) w t := by
  induction h with
  | nil => exact ⟨0, .nil⟩
  | snoc _ hs ih =>
    obtain ⟨m, hb⟩ := ih
    obtain ⟨n, hs⟩ := hs
    exact ⟨max m n, .snoc (hb.mono fun h => h.mono (Nat.le_max_left m n))
      (hs.mono (Nat.le_max_right m n))⟩

theorem AnyStatement.of_body {w : List TokenKind} {t : Stmt}
    (h : StatementBody AnyExpression AnyStatement w t) : AnyStatement w t := by
  cases h with
  | ifThen hc ht =>
    obtain ⟨l, hc⟩ := hc.exists_level
    obtain ⟨m, ht⟩ := ht
    exact ⟨max l m + 1, .ifThen (hc.mono_level (by omega)) (ht.mono (by omega))⟩
  | ifElse hc ht hopen he =>
    obtain ⟨l, hc⟩ := hc.exists_level
    obtain ⟨m, ht⟩ := ht
    obtain ⟨n, he⟩ := he
    exact ⟨max l (max m n) + 1, .ifElse (hc.mono_level (by omega)) (ht.mono (by omega)) hopen
      (he.mono (by omega))⟩
  | whileDo hc hb =>
    obtain ⟨l, hc⟩ := hc.exists_level
    obtain ⟨m, hb⟩ := hb
    exact ⟨max l m + 1, .whileDo (hc.mono_level (by omega)) (hb.mono (by omega))⟩
  | doWhile hb hc =>
    obtain ⟨l, hc⟩ := hc.exists_level
    obtain ⟨m, hb⟩ := hb
    exact ⟨max l m + 1, .doWhile (hb.mono (by omega)) (hc.mono_level (by omega))⟩
  | empty => exact ⟨1, .empty⟩
  | block h =>
    obtain ⟨n, h⟩ := h.exists_level
    exact ⟨n + 1, .block h⟩
  | expr h =>
    obtain ⟨n, h⟩ := h
    exact ⟨n + 1, .expr h⟩

/-! ## The loops from the left

A parser meets the operands of a chain and the statements of a block from the left, behind what it
has already put together. -/

/-- What follows `left` in a chain. -/
inductive Links (inner : List TokenKind → Expr → Prop) : Expr → List TokenKind → Expr → Prop
  | nil (left : Expr) : Links inner left [] left
  | cons {w w' : List TokenKind} {k : TokenKind} {op : Operator} {left right e : Expr}
    (hop : ChainOperator k op) (hr : Term inner w right)
    (h : Links inner (.binary left op right) w' e) : Links inner left (k :: (w ++ w')) e

theorem Links.snoc {P : List TokenKind → Expr → Prop} {w w' : List TokenKind} {k : TokenKind}
    {op : Operator} {first left right : Expr} (h : Links P first w left)
    (hop : ChainOperator k op) (hr : Term P w' right) :
    Links P first (w ++ k :: w') (.binary left op right) := by
  induction h with
  | nil left => simpa using Links.cons hop hr (.nil _)
  | cons hop' hr' _ ih => simpa using Links.cons hop' hr' ih

theorem Chain.append_links {P : List TokenKind → Expr → Prop} {w w' : List TokenKind}
    {left e : Expr} (hl : Chain P w left) (h : Links P left w' e) : Chain P (w ++ w') e := by
  induction h generalizing w with
  | nil left => simpa using hl
  | cons hop hr _ ih => simpa using ih (.link hl hop hr)

/-- A chain is its first term and what follows it. -/
theorem Chain.iff_links {P : List TokenKind → Expr → Prop} {w : List TokenKind} {e : Expr} :
    Chain P w e ↔ ∃ w₁ w₂ left, w = w₁ ++ w₂ ∧ Term P w₁ left ∧ Links P left w₂ e := by
  constructor
  · intro h
    induction h with
    | term h => exact ⟨_, [], _, by simp, h, .nil _⟩
    | link _ hop hr ih =>
      obtain ⟨w₁, w₂, left, rfl, ht, h⟩ := ih
      exact ⟨w₁, _, left, by simp, ht, h.snoc hop hr⟩
  · rintro ⟨w₁, w₂, left, rfl, ht, h⟩
    exact (Chain.term ht).append_links h

/-- What follows `before` in a block. -/
inductive Siblings (inner : List TokenKind → Stmt → Prop) : Stmt → List TokenKind → Stmt → Prop
  | nil (before : Stmt) : Siblings inner before [] before
  | cons {w w' : List TokenKind} {before s t : Stmt} (hs : inner w s)
    (h : Siblings inner (.seq before s) w' t) : Siblings inner before (w ++ w') t

theorem Siblings.snoc {P : List TokenKind → Stmt → Prop} {w w' : List TokenKind}
    {first before s : Stmt} (h : Siblings P first w before) (hs : P w' s) :
    Siblings P first (w ++ w') (.seq before s) := by
  induction h with
  | nil before => simpa using Siblings.cons hs (.nil _)
  | cons hs' _ ih => simpa using Siblings.cons hs' ih

theorem Block.append_siblings {P : List TokenKind → Stmt → Prop} {w w' : List TokenKind}
    {before t : Stmt} (hb : Block P w before) (h : Siblings P before w' t) :
    Block P (w ++ w') t := by
  induction h generalizing w with
  | nil before => simpa using hb
  | cons hs _ ih => simpa using ih (.snoc hb hs)

/-- A block is what follows the empty statement. -/
theorem Block.iff_siblings {P : List TokenKind → Stmt → Prop} {w : List TokenKind} {t : Stmt} :
    Block P w t ↔ Siblings P .empty w t := by
  constructor
  · intro h
    induction h with
    | nil => exact .nil _
    | snoc _ hs ih => exact ih.snoc hs
  · intro h
    simpa using Block.nil.append_siblings h

theorem Block.endsOpen {P : List TokenKind → Stmt → Prop} {w : List TokenKind} {t : Stmt}
    (h : Block P w t) : t.endsOpen = false := by
  cases h <;> rfl

/-! ## The first token of a word, and a token that is in none -/

/-- The tokens an expression can begin with. -/
def StartsExpression : TokenKind → Prop
  | .letter _ | .number _ | .text _ | .mark .openParen => True
  | _ => False

section First

variable {P : List TokenKind → Expr → Prop}

theorem Term.first {w : List TokenKind} {e : Expr} (h : Term P w e) :
    ∃ k u, w = k :: u ∧ StartsExpression k := by
  cases h with
  | parens h =>
    cases h with
    | mk h => exact ⟨_, _, rfl, trivial⟩
  | _ => exact ⟨_, _, rfl, trivial⟩

theorem Chain.first {w : List TokenKind} {e : Expr} (h : Chain P w e) :
    ∃ k u, w = k :: u ∧ StartsExpression k := by
  induction h with
  | term h => exact h.first
  | link _ _ _ ih =>
    obtain ⟨k, u, rfl, hk⟩ := ih
    exact ⟨k, _, rfl, hk⟩

theorem Comparison.first {w : List TokenKind} {e : Expr} (h : Comparison P w e) :
    ∃ k u, w = k :: u ∧ StartsExpression k := by
  cases h with
  | chain h => exact h.first
  | less hl _ =>
    obtain ⟨k, u, rfl, hk⟩ := hl.first
    exact ⟨k, _, rfl, hk⟩

theorem Expression.first {n : Nat} {w : List TokenKind} {e : Expr} (h : Expression n w e) :
    ∃ k u, w = k :: u ∧ StartsExpression k := by
  cases n with
  | zero => exact h.elim
  | succ n =>
    cases h with
    | comparison h => exact h.first
    | assign ht _ =>
      obtain ⟨k, u, rfl, hk⟩ := ht.first
      exact ⟨k, _, rfl, hk⟩

/-- A statement does not begin with what can only stand behind one. -/
theorem Statement.first {n : Nat} {w : List TokenKind} {s : Stmt} (h : Statement n w s) :
    ∃ k u, w = k :: u ∧ k ≠ .mark .closeBrace ∧ k ≠ .keyword .elseWord ∧ k ≠ .eof := by
  cases n with
  | zero => exact h.elim
  | succ n =>
    cases h with
    | expr h =>
      obtain ⟨k, u, rfl, hk⟩ := h.first
      refine ⟨k, _, rfl, ?_, ?_, ?_⟩ <;> rintro rfl <;> exact hk
    | _ => exact ⟨_, _, rfl, by simp, by simp, by simp⟩

end First

section NoEof

variable {P : List TokenKind → Expr → Prop} (hP : ∀ {w e}, P w e → TokenKind.eof ∉ w)
include hP

theorem Parens.eof_notMem {w : List TokenKind} {e : Expr} (h : Parens P w e) :
    TokenKind.eof ∉ w := by
  cases h with
  | mk h => simpa using hP h

theorem Chain.eof_notMem {w : List TokenKind} {e : Expr} (h : Chain P w e) :
    TokenKind.eof ∉ w := by
  have hterm {w : List TokenKind} {e : Expr} (h : Term P w e) : TokenKind.eof ∉ w := by
    cases h with
    | parens h => exact h.eof_notMem hP
    | _ => simp
  induction h with
  | term h => exact hterm h
  | link _ hop hr ih => cases hop <;> simpa using ⟨ih, hterm hr⟩

theorem Comparison.eof_notMem {w : List TokenKind} {e : Expr} (h : Comparison P w e) :
    TokenKind.eof ∉ w := by
  cases h with
  | chain h => exact h.eof_notMem hP
  | less hl hr => simpa using ⟨hl.eof_notMem hP, hr.eof_notMem hP⟩

end NoEof

theorem Expression.eof_notMem {n : Nat} {w : List TokenKind} {e : Expr} (h : Expression n w e) :
    TokenKind.eof ∉ w := by
  induction n generalizing w e with
  | zero => exact h.elim
  | succ n ih =>
    cases h with
    | comparison h => exact h.eof_notMem ih
    | assign ht hv => simpa using ⟨ht.eof_notMem ih, ih hv⟩

/-- The end of the input is inside no statement. -/
theorem Statement.eof_notMem {n : Nat} {w : List TokenKind} {s : Stmt} (h : Statement n w s) :
    TokenKind.eof ∉ w := by
  induction n generalizing w s with
  | zero => exact h.elim
  | succ n ih =>
    have hparens {w : List TokenKind} {e : Expr} (h : Parens (Expression n) w e) :
        TokenKind.eof ∉ w := h.eof_notMem Expression.eof_notMem
    have hblock {w : List TokenKind} {s : Stmt} (h : Block (Statement n) w s) :
        TokenKind.eof ∉ w := by
      induction h with
      | nil => simp
      | snoc _ hs ihb => simpa using ⟨ihb, ih hs⟩
    cases h with
    | ifThen hc ht => simpa using ⟨hparens hc, ih ht⟩
    | ifElse hc ht _ he => simpa using ⟨hparens hc, ih ht, ih he⟩
    | whileDo hc hb => simpa using ⟨hparens hc, ih hb⟩
    | doWhile hb hc => simpa using ⟨ih hb, hparens hc⟩
    | empty => simp
    | block h => simpa using hblock h
    | expr h => simpa using h.eof_notMem

end Grammar

end Abecedary
