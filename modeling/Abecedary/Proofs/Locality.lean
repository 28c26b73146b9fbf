import Abecedary.Proofs.Reading

/-!
# A run depends on what it reads

Two streams begin with the same items, and go on with `rest` and with `rest'`. A run on the first
that does not read into `rest` is a run on the second as well: this is what `statement_tracks` says.
The numbers that bound the loops may differ, as long as both are large enough for the items in
common.
-/

namespace Abecedary

namespace Parser

/-- The state a run ends in. -/
def final {α : Type} : EStateM.Result ParseError ParserState α → ParserState
  | .ok _ s => s
  | .error _ s => s

section Streams

variable (rest rest' : List Item)

/-- Having read into `rest`, or behind the last item if `rest` is empty. -/
def Past (s : ParserState) : Prop :=
  s.rest.length < rest.length ∨ s.rest = [] ∧ s.current.kind = .eof

/-- Standing at the same token in front of the same items, fewer than `n` of them. -/
def Alike (n : Nat) (s s' : ParserState) : Prop :=
  s.current = s'.current ∧ ∃ l, l.length < n ∧ s.rest = l ++ rest ∧ s'.rest = l ++ rest'

/-- Ending with the same result, and fewer than `n` items in common ahead. -/
inductive Same {α : Type} (n : Nat) : EStateM.Result ParseError ParserState α →
    EStateM.Result ParseError ParserState α → Prop
  | ok {x : α} {s s' : ParserState} (h : Alike rest rest' n s s') : Same n (.ok x s) (.ok x s')
  | error {e : ParseError} {s s' : ParserState} : Same n (.error e s) (.error e s')

theorem Same.mono {α : Type} {n n' : Nat} {a b : EStateM.Result ParseError ParserState α}
    (h : Same rest rest' n a b) (hn : n ≤ n') : Same rest rest' n' a b := by
  cases h with
  | ok h =>
    obtain ⟨hc, l, hl, hr, hr'⟩ := h
    exact .ok ⟨hc, l, by omega, hr, hr'⟩
  | error => exact .error

/-- From states with fewer than `n` items in common ahead, the first run reads past these or both
end in the same way. -/
structure Tracks {α : Type} (n n' : Nat) (p q : Parser α) : Prop where
  past : ∀ s, Past rest s → Past rest (final (p.run s))
  alike : ∀ s s', Alike rest rest' n s s' →
    Past rest (final (p.run s)) ∨ Same rest rest' n' (p.run s) (q.run s')

end Streams

namespace Tracks

variable {α β : Type} {rest rest' : List Item} {l m n : Nat}

theorem pure {x : α} (h : m ≤ n) : Tracks rest rest' m n (pure x) (pure x) where
  past := fun _ hs => hs
  alike := by
    rintro s s' ⟨hc, l, hl, hr, hr'⟩
    exact .inr (.ok ⟨hc, l, by omega, hr, hr'⟩)

/-- With no item in common ahead, only the first run matters. -/
theorem zero {p q : Parser α} (h : ∀ s, Past rest s → Past rest (final (p.run s))) :
    Tracks rest rest' 0 n p q where
  past := h
  alike := by
    rintro s s' ⟨-, l, hl, -⟩
    exact (Nat.not_lt_zero _ hl).elim

theorem peek : Tracks rest rest' n n peek peek where
  past := fun _ hs => hs
  alike := by
    intro s s' h
    rw [run_peek, run_peek, h.1]
    exact .inr (.ok h)

theorem fail (d : SyntaxDefect) : Tracks rest rest' m n (fail d : Parser α) (fail d) where
  past := fun _ hs => hs
  alike := by
    intro s s' h
    rw [run_fail, run_fail, h.1]
    exact .inr .error

theorem bind {p q : Parser α} {f g : α → Parser β} (h : Tracks rest rest' l m p q)
    (hf : ∀ x, Tracks rest rest' m n (f x) (g x)) :
    Tracks rest rest' l n (p >>= f) (q >>= g) where
  past := by
    intro s hs
    have hp := h.past s hs
    rw [run_bind]
    cases hrun : p.run s with
    | ok x t => exact (hf x).past t (by rwa [hrun] at hp)
    | error e t => rwa [hrun] at hp
  alike := by
    intro s s' hs
    rw [run_bind, run_bind]
    rcases h.alike s s' hs with hp | hp
    · left
      cases hrun : p.run s with
      | ok x t => exact (hf x).past t (by rwa [hrun] at hp)
      | error e t => rwa [hrun] at hp
    · generalize p.run s = a at hp ⊢
      generalize q.run s' = b at hp ⊢
      cases hp with
      | ok ht => exact (hf _).alike _ _ ht
      | error => exact .inr .error

/-- Passing over a token takes away an item in common. -/
theorem advance : Tracks rest rest' n (n - 1) advance advance where
  past := by
    rintro ⟨c, r⟩ h
    rcases r with - | ⟨e | t, r⟩
    · exact h.imp id fun _ => ⟨rfl, rfl⟩
    all_goals
      simp only [Past, List.length_cons, reduceCtorEq, false_and, or_false] at h
      exact .inl (Nat.lt_of_succ_lt h)
  alike := by
    rintro ⟨c, r⟩ ⟨c', r'⟩ ⟨hc, l, hl, hr, hr'⟩
    cases hc
    cases hr
    cases hr'
    rcases l with - | ⟨e | t, l⟩
    · left
      rcases rest with - | ⟨e | t, rest⟩
      · exact .inr ⟨rfl, rfl⟩
      · exact .inl (Nat.lt_succ_self _)
      · exact .inl (Nat.lt_succ_self _)
    · exact .inr .error
    · exact .inr (.ok ⟨rfl, l, by rw [List.length_cons] at hl; omega, rfl, rfl⟩)

theorem expect (k : TokenKind) : Tracks rest rest' n (n - 1) (expect k) (expect k) := by
  refine .bind .peek fun found => ?_
  split
  · exact .advance
  · exact .fail _

theorem mono {n' : Nat} {p q : Parser α} (h : Tracks rest rest' m n p q) (hn : n ≤ n') :
    Tracks rest rest' m n' p q where
  past := h.past
  alike := fun s s' hs => (h.alike s s' hs).imp id fun hp => hp.mono rest rest' hn

theorem weaken {p q : Parser α} (h : Tracks rest rest' n (n - 1) p q) : Tracks rest rest' n n p q :=
  h.mono (Nat.sub_le n 1)

end Tracks

section Expressions

variable {rest rest' : List Item} {size size' m n : Nat} {p q : Parser Expr}
  (h : ∀ n ≤ m, Tracks rest rest' n (n - 1) p q)
include h

theorem parens_tracks (hn : n ≤ m) : Tracks rest rest' n (n - 1) (parens p) (parens q) :=
  .bind (.expect _) fun _ => .bind (h (n - 1) (by omega)).weaken fun _ =>
    .bind (Tracks.expect _).weaken fun _ => .pure (Nat.le_refl _)

theorem term_tracks (hn : n ≤ m) : Tracks rest rest' n (n - 1) (term p) (term q) := by
  refine .bind .peek fun k => ?_
  split
  · exact .bind .advance fun _ => .pure (Nat.le_refl _)
  · exact .bind .advance fun _ => .pure (Nat.le_refl _)
  · exact .bind .advance fun _ => .pure (Nat.le_refl _)
  · exact parens_tracks h hn

theorem links_tracks {l l' : Nat} (hl : n ≤ l) (hl' : n ≤ l') (hn : n ≤ m) (left : Expr) :
    Tracks rest rest' n n (links p l left) (links q l' left) := by
  induction l generalizing n l' left with
  | zero =>
    obtain rfl : n = 0 := by omega
    exact .zero fun _ hs => hs
  | succ l ih =>
    have hsucc (l' : Nat) (hl' : n ≤ l' + 1) :
        Tracks rest rest' n n (links p (l + 1) left) (links q (l' + 1) left) := by
      refine .bind .peek fun k => ?_
      split
      · exact .pure (Nat.le_refl _)
      · next op _ =>
        have hterm : Tracks rest rest' (n - 1) (n - 1) (term p) (term q) :=
          (term_tracks h (by omega)).weaken
        refine .bind .advance fun _ => .bind hterm fun e => ?_
        exact (ih (by omega) (by omega) (n := n - 1) (by omega) _).mono (Nat.sub_le n 1)
    cases l' with
    | zero =>
      -- the second loop has no rounds, and the first run matters alone
      obtain rfl : n = 0 := by omega
      exact .zero (hsucc 0 (Nat.zero_le _)).past
    | succ l' => exact hsucc l' hl'

variable (hsize : m ≤ size) (hsize' : m ≤ size')
include hsize hsize'

theorem chain_tracks (hn : n ≤ m) :
    Tracks rest rest' n (n - 1) (chain p size) (chain q size') :=
  .bind (term_tracks h hn) fun left => links_tracks h (by omega) (by omega) (by omega) left

theorem comparison_tracks (hn : n ≤ m) :
    Tracks rest rest' n (n - 1) (comparison p size) (comparison q size') := by
  refine .bind (chain_tracks h hsize hsize' hn) fun left => .bind .peek fun k => ?_
  split
  · exact .bind Tracks.advance.weaken fun _ =>
      .bind (chain_tracks h hsize hsize' (n := n - 1) (by omega)).weaken fun _ =>
        .pure (Nat.le_refl _)
  · exact .pure (Nat.le_refl _)

end Expressions

theorem block_tracks {rest rest' : List Item} {m : Nat} {p q : Parser Stmt}
    (h : ∀ n ≤ m, Tracks rest rest' n (n - 1) p q) {l l' n : Nat} (hl : n ≤ l) (hl' : n ≤ l')
    (hn : n ≤ m) (before : Stmt) :
    Tracks rest rest' n n (block p l before) (block q l' before) := by
  induction l generalizing n l' before with
  | zero =>
    obtain rfl : n = 0 := by omega
    exact .zero fun _ hs => hs
  | succ l ih =>
    have hsucc (l' : Nat) (hl' : n ≤ l' + 1) :
        Tracks rest rest' n n (block p (l + 1) before) (block q (l' + 1) before) := by
      refine .bind .peek fun k => ?_
      split
      · exact .bind Tracks.advance.weaken fun _ => .pure (Nat.le_refl _)
      · exact .fail _
      · refine .bind (h n hn) fun t => ?_
        exact (ih (by omega) (by omega) (n := n - 1) (by omega) _).mono (Nat.sub_le n 1)
    cases l' with
    | zero =>
      obtain rfl : n = 0 := by omega
      exact .zero (hsucc 0 (Nat.zero_le _)).past
    | succ l' => exact hsucc l' hl'

section Statements

variable {rest rest' : List Item} {size size' : Nat}

theorem expression_tracks (levels : Nat) {n : Nat} (hn : n ≤ size) (hn' : n ≤ size') :
    Tracks rest rest' n (n - 1) (expression size levels) (expression size' levels) := by
  induction levels generalizing n with
  | zero => exact .fail _
  | succ levels ih =>
    have h k (hk : k ≤ n) : Tracks rest rest' k (k - 1) (expression size levels)
        (expression size' levels) := ih (Nat.le_trans hk hn) (Nat.le_trans hk hn')
    refine .bind (comparison_tracks h hn hn' (Nat.le_refl _)) fun left => .bind .peek fun k => ?_
    split
    · exact .bind Tracks.advance.weaken fun _ => .bind (h (n - 1) (by omega)).weaken fun _ =>
        .pure (Nat.le_refl _)
    · exact .pure (Nat.le_refl _)

/-- **A statement is read alike from streams that begin alike.** -/
theorem statement_tracks (levels : Nat) {n : Nat} (hn : n ≤ size) (hn' : n ≤ size') :
    Tracks rest rest' n (n - 1) (statement size levels) (statement size' levels) := by
  induction levels generalizing n with
  | zero => exact .fail _
  | succ levels ih =>
    have h : Tracks rest rest' (n - 1) (n - 1) (statement size levels) (statement size' levels) :=
      (ih (by omega) (by omega)).weaken
    have hexpr k (hk : k ≤ n) :
        Tracks rest rest' k (k - 1) (expression size levels) (expression size' levels) :=
      expression_tracks levels (Nat.le_trans hk hn) (Nat.le_trans hk hn')
    have hparens : Tracks rest rest' (n - 1) (n - 1) (parens (expression size levels))
        (parens (expression size' levels)) := (parens_tracks hexpr (by omega)).weaken
    have hadvance : Tracks rest rest' (n - 1) (n - 1) advance advance := Tracks.advance.weaken
    have hexpect k : Tracks rest rest' (n - 1) (n - 1) (expect k) (expect k) :=
      (Tracks.expect k).weaken
    refine .bind .peek fun k => ?_
    split
    · refine .bind .advance fun _ => .bind hparens fun _ => .bind h fun _ => .bind .peek fun _ => ?_
      split
      · exact .bind hadvance fun _ => .bind h fun _ => .pure (Nat.le_refl _)
      · exact .pure (Nat.le_refl _)
    · exact .bind .advance fun _ => .bind hparens fun _ => .bind h fun _ => .pure (Nat.le_refl _)
    · exact .bind .advance fun _ => .bind h fun _ => .bind (hexpect _) fun _ =>
        .bind hparens fun _ => .bind (hexpect _) fun _ => .pure (Nat.le_refl _)
    · exact .bind .advance fun _ => .pure (Nat.le_refl _)
    · have hall k (hk : k ≤ n) :
          Tracks rest rest' k (k - 1) (statement size levels) (statement size' levels) :=
        ih (Nat.le_trans hk hn) (Nat.le_trans hk hn')
      exact .bind .advance fun _ =>
        block_tracks hall (by omega) (by omega) (Nat.sub_le n 1) .empty
    · exact .bind (hexpr n (Nat.le_refl _)) fun _ => .bind (hexpect _) fun _ =>
        .pure (Nat.le_refl _)

end Statements

end Parser

end Abecedary
