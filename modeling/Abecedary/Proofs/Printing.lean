import Abecedary.Proofs.Grammar

/-!
# Printing

`Expr.tokens` and `Stmt.tokens` write a tree as a word: sequences become blocks, and parentheses
stand only around the operands that would otherwise be taken for something else. `Stmt.Canonical`
says which trees can be written at all, and `Stmt.nesting` how many levels they need. Both are
exact: a tree is derived within `n` levels, from tokens that can be spelled, if and only if it is
canonical and its nesting is at most `n` (`Stmt.statement_tokens`, `Grammar.Statement.needs`).
-/

namespace Abecedary

/-- Whether the token can be spelled in a text. The end of the input has no spelling. -/
def TokenKind.Spellable : TokenKind → Prop
  | number n => 0 ≤ n.toInt
  | text s => '"' ∉ s.toList
  | letter _ | keyword _ | mark _ => True
  | eof => False

/-! ## Expressions -/

/-- The mark that writes an operator. -/
def Operator.mark : Operator → Mark
  | add => .plus
  | subtract => .minus
  | concat => .concat
  | less => .less

/-- How loose the right operand may be without parentheses. The left one may be a chain. -/
def Operator.rightBound : Operator → Nat
  | less => 1
  | _ => 0

namespace Expr

/-- How loosely an expression holds together: a term is the tightest, then a chain, a comparison,
and an assignment. -/
def looseness : Expr → Nat
  | var _ | constant _ | text _ => 0
  | binary _ .less _ => 2
  | binary _ _ _ => 1
  | assign _ _ => 3

/-- How many levels are open inside an expression: the value of an assignment opens one, and so does
an operand between parentheses. -/
def within : Expr → Nat
  | var _ | constant _ | text _ => 0
  | binary left op right =>
    max (if left.looseness ≤ 1 then left.within else left.within + 1)
      (if right.looseness ≤ op.rightBound then right.within else right.within + 1)
  | assign _ value => value.within + 1

/-- How many levels an expression needs. -/
def nesting (e : Expr) : Nat := e.within + 1

/-- How many levels an operand opens that may be so loose without parentheses. -/
def operandWithin (e : Expr) (bound : Nat) : Nat :=
  if e.looseness ≤ bound then e.within else e.nesting

/-- A word between parentheses. -/
def parenthesize (w : List TokenKind) : List TokenKind :=
  .mark .openParen :: w ++ [.mark .closeParen]

/-- The word that writes an expression. -/
def tokens : Expr → List TokenKind
  | var v => [.letter v]
  | constant n => [.number n]
  | text s => [.text s]
  | binary left op right =>
    (if left.looseness ≤ 1 then left.tokens else parenthesize left.tokens) ++ .mark op.mark ::
      (if right.looseness ≤ op.rightBound then right.tokens else parenthesize right.tokens)
  | assign v value => .letter v :: .mark .equal :: value.tokens

/-- The word that writes an operand that may be so loose without parentheses. -/
def operandTokens (e : Expr) (bound : Nat) : List TokenKind :=
  if e.looseness ≤ bound then e.tokens else parenthesize e.tokens

/-- Whether every constant and text of the expression can be spelled. -/
def Spellable : Expr → Prop
  | var _ => True
  | constant n => 0 ≤ n.toInt
  | text s => '"' ∉ s.toList
  | binary left _ right => left.Spellable ∧ right.Spellable
  | assign _ value => value.Spellable

theorem looseness_le (e : Expr) : e.looseness ≤ 3 := by
  cases e with
  | binary left op right => cases op <;> simp [looseness]
  | _ => simp [looseness]

theorem within_binary (left : Expr) (op : Operator) (right : Expr) :
    (binary left op right).within =
      max (left.operandWithin 1) (right.operandWithin op.rightBound) := rfl

theorem tokens_binary (left : Expr) (op : Operator) (right : Expr) :
    (binary left op right).tokens =
      left.operandTokens 1 ++ .mark op.mark :: right.operandTokens op.rightBound := rfl

theorem operandWithin_le {e : Expr} {bound bound' : Nat} (h : bound ≤ bound') :
    e.operandWithin bound' ≤ e.operandWithin bound := by
  unfold operandWithin nesting
  split <;> split <;> omega

theorem within_le_operandWithin (e : Expr) (bound : Nat) : e.within ≤ e.operandWithin bound := by
  unfold operandWithin nesting
  split <;> omega

theorem operandWithin_le_nesting (e : Expr) (bound : Nat) : e.operandWithin bound ≤ e.nesting := by
  unfold operandWithin nesting
  split <;> omega

theorem operandWithin_of_le {e : Expr} {bound : Nat} (h : e.looseness ≤ bound) :
    e.operandWithin bound = e.within := if_pos h

theorem spellable_parenthesize {w : List TokenKind} :
    (∀ k ∈ parenthesize w, k.Spellable) ↔ ∀ k ∈ w, k.Spellable := by
  simp [parenthesize, TokenKind.Spellable, or_imp, forall_and]

theorem spellable_tokens {e : Expr} (h : e.Spellable) : ∀ k ∈ e.tokens, k.Spellable := by
  induction e with
  | var v => simp [tokens, TokenKind.Spellable]
  | constant n =>
    intro k hk
    cases List.mem_singleton.1 hk
    exact h
  | text s =>
    intro k hk
    cases List.mem_singleton.1 hk
    exact h
  | binary left op right ihl ihr =>
    have hoperand {e : Expr} (b : Nat) (he : ∀ k ∈ e.tokens, k.Spellable) :
        ∀ k ∈ e.operandTokens b, k.Spellable := by
      unfold operandTokens
      split
      · exact he
      · exact spellable_parenthesize.2 he
    intro k hk
    rw [tokens_binary, List.mem_append, List.mem_cons] at hk
    rcases hk with hk | rfl | hk
    · exact hoperand 1 (ihl h.1) k hk
    · trivial
    · exact hoperand op.rightBound (ihr h.2) k hk
  | assign v value ih =>
    intro k hk
    simp only [tokens, List.mem_cons] at hk
    rcases hk with rfl | rfl | hk
    · trivial
    · trivial
    · exact ih h k hk

end Expr

namespace Grammar

/-- The rule for an operand that may be so loose. -/
def Operand (P : List TokenKind → Expr → Prop) : Nat → List TokenKind → Expr → Prop
  | 0 => Term P
  | 1 => Chain P
  | 2 => Comparison P
  | _ + 3 => ExpressionBody P

theorem Operand.mono {P : List TokenKind → Expr → Prop} {b c : Nat} (hbc : b ≤ c)
    {w : List TokenKind} {e : Expr} (h : Operand P b w e) : Operand P c w e := by
  have hstep (b : Nat) (h : Operand P b w e) : Operand P (b + 1) w e := by
    rcases b with - | - | - | b
    · exact .term h
    · exact .chain h
    · exact .comparison h
    · exact h
  induction hbc with
  | refl => exact h
  | step _ ih => exact hstep _ ih

end Grammar

open Grammar

/-- **Every expression is derived from the word that writes it**, within as many levels as are open
in it. -/
theorem Expr.derives_tokens {e : Expr} {n : Nat} (h : e.within ≤ n) :
    Operand (Expression n) e.looseness e.tokens e := by
  induction e generalizing n with
  | var v => exact .var v
  | constant m => exact .constant m
  | text s => exact .text s
  | assign v value ih =>
    unfold within at h
    obtain ⟨n, rfl⟩ : ∃ m, n = m + 1 := ⟨n - 1, by omega⟩
    have hvalue : Expression (n + 1) value.tokens value := (ih (by omega)).mono value.looseness_le
    exact .assign (.chain (.term (.var v))) hvalue
  | binary left op right ihl ihr =>
    have hoperand {e : Expr} (b : Nat) (hb : e.operandWithin b ≤ n)
        (ih : ∀ {n}, e.within ≤ n → Operand (Expression n) e.looseness e.tokens e) :
        Operand (Expression n) b (e.operandTokens b) e := by
      unfold operandWithin nesting at hb
      unfold operandTokens
      split at hb
      · next hle => rw [if_pos hle]; exact (ih hb).mono hle
      · next hlt =>
        rw [if_neg hlt]
        obtain ⟨n, rfl⟩ : ∃ m, n = m + 1 := ⟨n - 1, by omega⟩
        have hinner : Expression (n + 1) e.tokens e := (ih (by omega)).mono e.looseness_le
        exact Operand.mono (Nat.zero_le b) (.parens (.mk hinner))
    rw [within_binary] at h
    have hl := hoperand 1 (by omega) ihl
    have hr := hoperand op.rightBound (by omega) ihr
    cases op with
    | add => exact .link hl .add hr
    | subtract => exact .link hl .subtract hr
    | concat => exact .link hl .concat hr
    | less => exact .less hl hr

theorem Expr.expression_tokens {e : Expr} {n : Nat} (h : e.nesting ≤ n) :
    Expression n e.tokens e := by
  obtain ⟨n, rfl⟩ : ∃ m, n = m + 1 := ⟨n - 1, by simp only [nesting] at h; omega⟩
  exact (derives_tokens (Nat.le_of_succ_le_succ h)).mono e.looseness_le

section Needed

variable {P : List TokenKind → Expr → Prop} {n : Nat}
  (hP : ∀ {w e}, P w e → (∀ k ∈ w, k.Spellable) → e.Spellable ∧ e.nesting ≤ n)
  {w : List TokenKind} {e : Expr}
include hP

theorem Grammar.Parens.needs (h : Parens P w e) (hw : ∀ k ∈ w, k.Spellable) :
    e.Spellable ∧ e.nesting ≤ n := by
  cases h with
  | mk h => exact hP h (Expr.spellable_parenthesize.1 hw)

theorem Grammar.Term.needs (h : Term P w e) (hw : ∀ k ∈ w, k.Spellable) :
    e.Spellable ∧ e.operandWithin 0 ≤ n := by
  cases h with
  | var v => exact ⟨trivial, Nat.zero_le _⟩
  | constant m => exact ⟨hw _ (List.mem_singleton_self _), Nat.zero_le _⟩
  | text s => exact ⟨hw _ (List.mem_singleton_self _), Nat.zero_le _⟩
  | parens h =>
    obtain ⟨hs, hn⟩ := h.needs hP hw
    exact ⟨hs, Nat.le_trans (e.operandWithin_le_nesting 0) hn⟩

theorem Grammar.Chain.needs (h : Chain P w e) (hw : ∀ k ∈ w, k.Spellable) :
    e.Spellable ∧ e.operandWithin 1 ≤ n := by
  induction h with
  | term h =>
    obtain ⟨hs, hn⟩ := h.needs hP hw
    exact ⟨hs, Nat.le_trans (Expr.operandWithin_le (Nat.zero_le 1)) hn⟩
  | @link w w' k op left right _ hop hr ih =>
    simp only [List.forall_mem_append, List.forall_mem_cons] at hw
    obtain ⟨hsl, hl⟩ := ih hw.1
    obtain ⟨hsr, hr⟩ := hr.needs hP hw.2.2
    refine ⟨⟨hsl, hsr⟩, ?_⟩
    have hbound : op.rightBound = 0 ∧ (Expr.binary left op right).looseness = 1 := by
      cases hop <;> exact ⟨rfl, rfl⟩
    rw [Expr.operandWithin_of_le (Nat.le_of_eq hbound.2), Expr.within_binary, hbound.1]
    exact Nat.max_le.2 ⟨hl, hr⟩

theorem Grammar.Comparison.needs (h : Comparison P w e) (hw : ∀ k ∈ w, k.Spellable) :
    e.Spellable ∧ e.operandWithin 2 ≤ n := by
  cases h with
  | chain h =>
    obtain ⟨hs, hn⟩ := h.needs hP hw
    exact ⟨hs, Nat.le_trans (Expr.operandWithin_le (Nat.le_succ 1)) hn⟩
  | less hl hr =>
    simp only [List.forall_mem_append, List.forall_mem_cons] at hw
    obtain ⟨hsl, hl⟩ := hl.needs hP hw.1
    obtain ⟨hsr, hr⟩ := hr.needs hP hw.2.2
    exact ⟨⟨hsl, hsr⟩, Nat.max_le.2 ⟨hl, hr⟩⟩

theorem Grammar.ExpressionBody.needs (h : ExpressionBody P w e) (hw : ∀ k ∈ w, k.Spellable) :
    e.Spellable ∧ e.within ≤ n := by
  cases h with
  | comparison h =>
    obtain ⟨hs, hn⟩ := h.needs hP hw
    exact ⟨hs, Nat.le_trans (e.within_le_operandWithin 2) hn⟩
  | assign _ hv =>
    simp only [List.forall_mem_append, List.forall_mem_cons] at hw
    exact hP hv hw.2.2

end Needed

/-- **An expression needs the levels it is derived within.** -/
theorem Grammar.Expression.needs {n : Nat} {w : List TokenKind} {e : Expr} (h : Expression n w e)
    (hw : ∀ k ∈ w, k.Spellable) : e.Spellable ∧ e.nesting ≤ n := by
  induction n generalizing w e with
  | zero => exact h.elim
  | succ n ih =>
    obtain ⟨hs, hn⟩ := ExpressionBody.needs ih h hw
    exact ⟨hs, Nat.succ_le_succ hn⟩

/-! ## Statements -/

namespace Stmt

/-- What a chain of sequences is built up from: the first part of the first part, and so on. -/
def innermost : Stmt → Stmt
  | seq first _ => first.innermost
  | s => s

/-- The trees that can be written: every chain of sequences is built up from the empty statement,
the first branch of an `if` with an `else` leaves no `if` open, and every constant and text can be
spelled. -/
def Canonical : Stmt → Prop
  | ifThen condition thenBranch => condition.Spellable ∧ thenBranch.Canonical
  | ifElse condition thenBranch elseBranch =>
    condition.Spellable ∧ thenBranch.Canonical ∧ thenBranch.endsOpen = false ∧ elseBranch.Canonical
  | whileDo condition body => condition.Spellable ∧ body.Canonical
  | doWhile body condition => body.Canonical ∧ condition.Spellable
  | empty => True
  | seq first second => first.innermost = empty ∧ first.Canonical ∧ second.Canonical
  | expr e => e.Spellable

/-- How many levels are open inside a statement: its expressions and statements open theirs, and the
statements of a block lie beside one another. -/
def within : Stmt → Nat
  | ifThen condition thenBranch => max condition.nesting (thenBranch.within + 1)
  | ifElse condition thenBranch elseBranch =>
    max condition.nesting (max (thenBranch.within + 1) (elseBranch.within + 1))
  | whileDo condition body => max condition.nesting (body.within + 1)
  | doWhile body condition => max (body.within + 1) condition.nesting
  | empty => 0
  | seq first second => max first.within (second.within + 1)
  | expr e => e.nesting

/-- How many levels a statement needs. -/
def nesting (s : Stmt) : Nat := s.within + 1

mutual

/-- The word that writes a statement. -/
def tokens : Stmt → List TokenKind
  | ifThen condition thenBranch =>
    .keyword .ifWord :: Expr.parenthesize condition.tokens ++ thenBranch.tokens
  | ifElse condition thenBranch elseBranch =>
    .keyword .ifWord :: Expr.parenthesize condition.tokens ++ thenBranch.tokens ++
      .keyword .elseWord :: elseBranch.tokens
  | whileDo condition body =>
    .keyword .whileWord :: Expr.parenthesize condition.tokens ++ body.tokens
  | doWhile body condition =>
    .keyword .doWord :: body.tokens ++ .keyword .whileWord :: Expr.parenthesize condition.tokens ++
      [.mark .semicolon]
  | empty => [.mark .semicolon]
  | seq first second =>
    .mark .openBrace :: (first.blockTokens ++ second.tokens) ++ [.mark .closeBrace]
  | expr e => e.tokens ++ [.mark .semicolon]

/-- The word that writes the statements of a block, without the braces. -/
def blockTokens : Stmt → List TokenKind
  | seq first second => first.blockTokens ++ second.tokens
  | _ => []

end

/-- **A canonical statement is derived from the word that writes it**, within as many levels as are
open in it. -/
theorem derives_tokens {s : Stmt} {n : Nat} (hs : s.Canonical) (hn : s.within ≤ n) :
    StatementBody (Expression n) (Statement n) s.tokens s ∧
      (s.innermost = empty → Block (Statement n) s.blockTokens s) := by
  have hparens {e : Expr} {n : Nat} (he : e.nesting ≤ n) :
      Parens (Expression n) (Expr.parenthesize e.tokens) e := .mk (Expr.expression_tokens he)
  have hpart {t : Stmt} {n : Nat} (hn : t.within + 1 ≤ n)
      (h : ∀ {n}, t.within ≤ n → StatementBody (Expression n) (Statement n) t.tokens t ∧
        (t.innermost = empty → Block (Statement n) t.blockTokens t)) : Statement n t.tokens t := by
    obtain ⟨n, rfl⟩ : ∃ m, n = m + 1 := ⟨n - 1, by omega⟩
    exact (h (by omega)).1
  induction s generalizing n with
  | ifThen c t ih =>
    unfold within at hn
    exact ⟨.ifThen (hparens (by omega)) (hpart (by omega) (ih hs.2)), by simp [innermost]⟩
  | ifElse c t e iht ihe =>
    obtain ⟨-, ht, hopen, he⟩ := hs
    unfold within at hn
    exact ⟨.ifElse (hparens (by omega)) (hpart (by omega) (iht ht)) hopen
      (hpart (by omega) (ihe he)), by simp [innermost]⟩
  | whileDo c b ih =>
    unfold within at hn
    exact ⟨.whileDo (hparens (by omega)) (hpart (by omega) (ih hs.2)), by simp [innermost]⟩
  | doWhile b c ih =>
    unfold within at hn
    exact ⟨.doWhile (hpart (by omega) (ih hs.1)) (hparens (by omega)), by simp [innermost]⟩
  | empty => exact ⟨.empty, fun _ => .nil⟩
  | seq a b iha ihb =>
    obtain ⟨hblock, ha, hb⟩ := hs
    unfold within at hn
    have hitems : Block (Statement n) (seq a b).blockTokens (seq a b) :=
      .snoc ((iha ha (by omega)).2 hblock) (hpart (by omega) (ihb hb))
    exact ⟨.block hitems, fun _ => hitems⟩
  | expr e => exact ⟨.expr (Expr.expression_tokens hn), by simp [innermost]⟩

theorem statement_tokens {s : Stmt} {n : Nat} (hs : s.Canonical) (hn : s.nesting ≤ n) :
    Statement n s.tokens s := by
  obtain ⟨n, rfl⟩ : ∃ m, n = m + 1 := ⟨n - 1, by simp only [nesting] at hn; omega⟩
  exact (derives_tokens hs (Nat.le_of_succ_le_succ hn)).1

theorem spellable_tokens {s : Stmt} (h : s.Canonical) :
    (∀ k ∈ s.tokens, k.Spellable) ∧ ∀ k ∈ s.blockTokens, k.Spellable := by
  have hmark {m : Mark} : (TokenKind.mark m).Spellable := trivial
  have hword {word : Keyword} : (TokenKind.keyword word).Spellable := trivial
  have hparens {e : Expr} (he : e.Spellable) : ∀ k ∈ Expr.parenthesize e.tokens, k.Spellable :=
    Expr.spellable_parenthesize.2 (Expr.spellable_tokens he)
  induction s with
  | ifThen c t ih =>
    simp only [tokens, blockTokens, List.forall_mem_append, List.forall_mem_cons]
    exact ⟨⟨⟨hword, hparens h.1⟩, (ih h.2).1⟩, by simp⟩
  | ifElse c t e iht ihe =>
    obtain ⟨hc, ht, -, he⟩ := h
    simp only [tokens, blockTokens, List.forall_mem_append, List.forall_mem_cons]
    exact ⟨⟨⟨⟨hword, hparens hc⟩, (iht ht).1⟩, hword, (ihe he).1⟩, by simp⟩
  | whileDo c b ih =>
    simp only [tokens, blockTokens, List.forall_mem_append, List.forall_mem_cons]
    exact ⟨⟨⟨hword, hparens h.1⟩, (ih h.2).1⟩, by simp⟩
  | doWhile b c ih =>
    simp only [tokens, blockTokens, List.forall_mem_append, List.forall_mem_cons]
    exact ⟨⟨⟨⟨hword, (ih h.1).1⟩, hword, hparens h.2⟩, hmark, by simp⟩, by simp⟩
  | empty => simpa [tokens, blockTokens] using hmark
  | seq a b iha ihb =>
    obtain ⟨-, ha, hb⟩ := h
    simp only [tokens, blockTokens, List.forall_mem_append, List.forall_mem_cons]
    exact ⟨⟨⟨hmark, (iha ha).2, (ihb hb).1⟩, hmark, by simp⟩, (iha ha).2, (ihb hb).1⟩
  | expr e =>
    simp only [tokens, blockTokens, List.forall_mem_append, List.forall_mem_cons]
    exact ⟨⟨Expr.spellable_tokens h, hmark, by simp⟩, by simp⟩

end Stmt

theorem Grammar.Block.needs {P : List TokenKind → Stmt → Prop} {n : Nat}
    (hP : ∀ {w s}, P w s → (∀ k ∈ w, k.Spellable) → s.Canonical ∧ s.nesting ≤ n)
    {w : List TokenKind} {s : Stmt} (h : Block P w s) (hw : ∀ k ∈ w, k.Spellable) :
    s.innermost = .empty ∧ s.Canonical ∧ s.within ≤ n := by
  induction h with
  | nil => exact ⟨rfl, trivial, Nat.zero_le _⟩
  | snoc _ hs ih =>
    rw [List.forall_mem_append] at hw
    obtain ⟨hblock, hb, hbn⟩ := ih hw.1
    obtain ⟨hs, hsn⟩ := hP hs hw.2
    exact ⟨hblock, ⟨hblock, hb, hs⟩, Nat.max_le.2 ⟨hbn, hsn⟩⟩

/-- **A statement needs the levels it is derived within**, and is canonical. -/
theorem Grammar.Statement.needs {n : Nat} {w : List TokenKind} {s : Stmt} (h : Statement n w s)
    (hw : ∀ k ∈ w, k.Spellable) : s.Canonical ∧ s.nesting ≤ n := by
  induction n generalizing w s with
  | zero => exact h.elim
  | succ n ih =>
    have hparens {w : List TokenKind} {e : Expr} (h : Parens (Expression n) w e)
        (hw : ∀ k ∈ w, k.Spellable) : e.Spellable ∧ e.nesting ≤ n :=
      h.needs Expression.needs hw
    have hnesting : s.nesting ≤ n + 1 ↔ s.within ≤ n := Nat.succ_le_succ_iff
    rw [hnesting]
    cases h with
    | ifThen hc ht =>
      simp only [List.forall_mem_append, List.forall_mem_cons] at hw
      obtain ⟨hc, hcn⟩ := hparens hc hw.1.2
      obtain ⟨ht, htn⟩ := ih ht hw.2
      exact ⟨⟨hc, ht⟩, Nat.max_le.2 ⟨hcn, htn⟩⟩
    | ifElse hc ht hopen he =>
      simp only [List.forall_mem_append, List.forall_mem_cons] at hw
      obtain ⟨hc, hcn⟩ := hparens hc hw.1.1.2
      obtain ⟨ht, htn⟩ := ih ht hw.1.2
      obtain ⟨he, hen⟩ := ih he hw.2.2
      exact ⟨⟨hc, ht, hopen, he⟩, Nat.max_le.2 ⟨hcn, Nat.max_le.2 ⟨htn, hen⟩⟩⟩
    | whileDo hc hb =>
      simp only [List.forall_mem_append, List.forall_mem_cons] at hw
      obtain ⟨hc, hcn⟩ := hparens hc hw.1.2
      obtain ⟨hb, hbn⟩ := ih hb hw.2
      exact ⟨⟨hc, hb⟩, Nat.max_le.2 ⟨hcn, hbn⟩⟩
    | doWhile hb hc =>
      simp only [List.forall_mem_append, List.forall_mem_cons] at hw
      obtain ⟨hb, hbn⟩ := ih hb hw.1.1.2
      obtain ⟨hc, hcn⟩ := hparens hc hw.1.2.2
      exact ⟨⟨hb, hc⟩, Nat.max_le.2 ⟨hbn, hcn⟩⟩
    | empty => exact ⟨trivial, Nat.zero_le _⟩
    | block h =>
      simp only [List.forall_mem_append, List.forall_mem_cons] at hw
      exact (h.needs ih hw.1.2).2
    | expr h =>
      simp only [List.forall_mem_append] at hw
      exact Expression.needs h hw.1

end Abecedary
