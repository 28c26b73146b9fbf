import Abecedary.Proofs.Reading

/-!
# The levels that are left

`Below p q` says that `q` does what `p` does except where `p` ends for want of levels. A rule of the
parser is below itself with more levels (`statement_below`), so that the limit has no other effect
than this one error.
-/

namespace Abecedary

namespace Parser

/-- Ending because nothing more can be opened. -/
def GivesUp {α : Type} (r : EStateM.Result ParseError ParserState α) : Prop :=
  ∃ position t, r = .error (.syntactic .tooDeep position) t

/-- Doing the same except where the first gives up. -/
def Below {α : Type} (p q : Parser α) : Prop := ∀ s, GivesUp (p.run s) ∨ q.run s = p.run s

namespace Below

variable {α β : Type}

theorem refl (p : Parser α) : Below p p := fun _ => .inr rfl

theorem bind {p q : Parser α} {f g : α → Parser β} (h : Below p q) (hf : ∀ x, Below (f x) (g x)) :
    Below (p >>= f) (q >>= g) := by
  intro s
  simp only [run_bind]
  rcases h s with ⟨position, t, hp⟩ | hp
  · rw [hp]
    exact .inl ⟨position, t, rfl⟩
  · rw [hp]
    cases p.run s with
    | ok x t => exact hf x t
    | error e t => exact .inr rfl

theorem fail_tooDeep (q : Parser α) : Below (fail .tooDeep) q := fun s =>
  .inl ⟨s.current.span.position, s, rfl⟩

end Below

theorem parens_below {α : Type} {p q : Parser α} (h : Below p q) : Below (parens p) (parens q) :=
  .bind (.refl _) fun _ => .bind h fun _ => .refl _

section Expressions

variable {p q : Parser Expr} (h : Below p q)
include h

theorem term_below : Below (term p) (term q) := by
  refine .bind (.refl _) fun k => ?_
  split
  · exact .refl _
  · exact .refl _
  · exact .refl _
  · exact parens_below h

theorem links_below (m : Nat) (left : Expr) : Below (links p m left) (links q m left) := by
  induction m generalizing left with
  | zero => exact .refl _
  | succ m ih =>
    refine .bind (.refl _) fun k => ?_
    split
    · exact .refl _
    · exact .bind (.refl _) fun _ => .bind (term_below h) fun _ => ih _

theorem chain_below (size : Nat) : Below (chain p size) (chain q size) :=
  .bind (term_below h) fun left => links_below h size left

theorem comparison_below (size : Nat) : Below (comparison p size) (comparison q size) := by
  refine .bind (chain_below h size) fun left => .bind (.refl _) fun k => ?_
  split
  · exact .bind (.refl _) fun _ => .bind (chain_below h size) fun _ => .refl _
  · exact .refl _

end Expressions

theorem expression_below (size : Nat) {m n : Nat} (hmn : m ≤ n) :
    Below (expression size m) (expression size n) := by
  induction m generalizing n with
  | zero => exact .fail_tooDeep _
  | succ m ih =>
    obtain ⟨n, rfl⟩ : ∃ k, n = k + 1 := ⟨n - 1, by omega⟩
    have ih : Below (expression size m) (expression size n) := ih (by omega)
    refine .bind (comparison_below ih size) fun left => .bind (.refl _) fun k => ?_
    split
    · exact .bind (.refl _) fun _ => .bind ih fun _ => .refl _
    · exact .refl _

theorem block_below {p q : Parser Stmt} (h : Below p q) (m : Nat) (before : Stmt) :
    Below (block p m before) (block q m before) := by
  induction m generalizing before with
  | zero => exact .refl _
  | succ m ih =>
    refine .bind (.refl _) fun k => ?_
    split
    · exact .refl _
    · exact .refl _
    · exact .bind h fun _ => ih _

/-- **More levels change nothing but where the parser gives up.** -/
theorem statement_below (size : Nat) {m n : Nat} (hmn : m ≤ n) :
    Below (statement size m) (statement size n) := by
  induction m generalizing n with
  | zero => exact .fail_tooDeep _
  | succ m ih =>
    obtain ⟨n, rfl⟩ : ∃ k, n = k + 1 := ⟨n - 1, by omega⟩
    have ih : Below (statement size m) (statement size n) := ih (by omega)
    have hexpr : Below (expression size m) (expression size n) := expression_below size (by omega)
    refine .bind (.refl _) fun k => ?_
    split
    · refine .bind (.refl _) fun _ => .bind (parens_below hexpr) fun _ => .bind ih fun _ =>
        .bind (.refl _) fun _ => ?_
      split
      · exact .bind (.refl _) fun _ => .bind ih fun _ => .refl _
      · exact .refl _
    · exact .bind (.refl _) fun _ => .bind (parens_below hexpr) fun _ => .bind ih fun _ => .refl _
    · exact .bind (.refl _) fun _ => .bind ih fun _ => .bind (.refl _) fun _ =>
        .bind (parens_below hexpr) fun _ => .refl _
    · exact .refl _
    · exact .bind (.refl _) fun _ => block_below ih size .empty
    · exact .bind hexpr fun _ => .refl _

end Parser

end Abecedary
