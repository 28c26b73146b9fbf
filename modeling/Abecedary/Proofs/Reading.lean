import Abecedary.Program.Parser

/-!
# What a run of a parser reads

`Reads s w t` says that a parser passes over the tokens `w` when it goes from the state `s` to the
state `t`; nothing is read behind an end of input. `Stops s w e t` says that it ends at `t` with
the error `e`, and that `w` are the tokens it has met and accepted. A syntax error is one about the
current token, and stands at that token's place; a lexical error lies behind the current token.

`Meets p s R V` is the specification of a run of `p` from `s`: a result `x` is related by `R` to the
tokens it was read from and to the token behind them, and the tokens in front of an error are a word
in `V`. The rules below take the run of a rule of the grammar apart.
-/

namespace Abecedary

/-- Whether a defect is one that can be found at a token. -/
def SyntaxDefect.At : SyntaxDefect → TokenKind → Prop
  | expected _ found, k => found = k
  | trailing found, k => found = k
  | tooDeep, _ => True

namespace Parser

/-- Passing over some tokens leads from one state to another. -/
inductive Reads : ParserState → List TokenKind → ParserState → Prop
  | refl (s : ParserState) : Reads s [] s
  | step {s t u : ParserState} {k : TokenKind} {w : List TokenKind} (hk : s.current.kind = k)
    (hne : k ≠ .eof) (ha : advance.run s = .ok () t) (h : Reads t w u) : Reads s (k :: w) u

/-- Passing over some tokens leads from a state to an error. -/
inductive Stops (s : ParserState) : List TokenKind → ParseError → ParserState → Prop
  | syntactic {w : List TokenKind} {d : SyntaxDefect} {t : ParserState} (h : Reads s w t)
    (hd : d.At t.current.kind) : Stops s w (.syntactic d t.current.span.position) t
  | lexical {w : List TokenKind} {e : LexError} {t : Token} {rest : List Item}
    (h : Reads s w ⟨t, .error e :: rest⟩) (hne : t.kind ≠ .eof) :
    Stops s (w ++ [t.kind]) (.lexical e) ⟨t, rest⟩

namespace Reads

variable {s t u : ParserState} {k : TokenKind} {w w' : List TokenKind}

theorem cons_iff : Reads s (k :: w) u ↔
    s.current.kind = k ∧ k ≠ .eof ∧ ∃ t, advance.run s = .ok () t ∧ Reads t w u := by
  constructor
  · intro h
    cases h with
    | step hk hne ha h => exact ⟨hk, hne, _, ha, h⟩
  · rintro ⟨hk, hne, t, ha, h⟩
    exact .step hk hne ha h

theorem nil_iff : Reads s [] u ↔ u = s := by
  constructor
  · intro h
    cases h
    rfl
  · rintro rfl
    exact .refl _

theorem append_iff : Reads s (w ++ w') u ↔ ∃ t, Reads s w t ∧ Reads t w' u := by
  induction w generalizing s with
  | nil => simp [nil_iff]
  | cons k w ih =>
    simp only [List.cons_append, cons_iff, ih]
    constructor
    · rintro ⟨hk, hne, t₁, ha, t, h, h'⟩
      exact ⟨t, ⟨hk, hne, t₁, ha, h⟩, h'⟩
    · rintro ⟨t, ⟨hk, hne, t₁, ha, h⟩, h'⟩
      exact ⟨hk, hne, t₁, ha, t, h, h'⟩

theorem trans (h : Reads s w t) (h' : Reads t w' u) : Reads s (w ++ w') u :=
  append_iff.2 ⟨t, h, h'⟩

/-- Of two words read from one state up to an end of input, neither goes on behind the other. -/
theorem unique {t' : ParserState} (h : Reads s w t) (h' : Reads s w' t')
    (ht : t.current.kind = .eof) (ht' : t'.current.kind = .eof) : w = w' ∧ t = t' := by
  induction h generalizing w' with
  | refl s =>
    cases h' with
    | refl => exact ⟨rfl, rfl⟩
    | step hk hne => exact (hne (hk ▸ ht)).elim
  | step hk hne ha _ ih =>
    cases h' with
    | refl => exact (hne (hk ▸ ht')).elim
    | step hk' _ ha' h' =>
      rw [ha] at ha'
      cases ha'
      obtain ⟨rfl, rfl⟩ := ih h' ht
      exact ⟨by rw [← hk, hk'], rfl⟩

end Reads

theorem Stops.append {s t u : ParserState} {w w' : List TokenKind} {e : ParseError}
    (h : Reads s w t) (h' : Stops t w' e u) : Stops s (w ++ w') e u := by
  cases h' with
  | syntactic h' hd => exact .syntactic (h.trans h') hd
  | lexical h' hne => rw [← List.append_assoc]; exact .lexical (h.trans h') hne

/-- The specification of a run: what its result is read from, and what lies in front of an
error. -/
def Meets {α : Type} (p : Parser α) (s : ParserState)
    (R : List TokenKind → α → TokenKind → Prop) (V : List TokenKind → Prop) : Prop :=
  match p.run s with
  | .ok x t => ∃ w, Reads s w t ∧ R w x t.current.kind
  | .error e t => ∃ w, Stops s w e t ∧ V w

/-! ## Taking a run apart -/

section Runs

variable {α β : Type} {s : ParserState}

theorem run_bind (p : Parser α) (f : α → Parser β) (s : ParserState) :
    (p >>= f).run s = match p.run s with
      | .ok x t => (f x).run t
      | .error e t => .error e t := by
  simp only [EStateM.run, bind, EStateM.bind]
  cases p s <;> rfl

theorem run_pure (x : α) (s : ParserState) : (pure x : Parser α).run s = .ok x s := rfl

theorem run_peek (s : ParserState) : peek.run s = .ok s.current.kind s := rfl

theorem run_fail (d : SyntaxDefect) (s : ParserState) :
    (fail d : Parser α).run s = .error (.syntactic d s.current.span.position) s := rfl

theorem run_expect {k : TokenKind} (s : ParserState) :
    (expect k).run s = if s.current.kind = k then advance.run s
      else .error (.syntactic (.expected k s.current.kind) s.current.span.position) s := by
  simp only [expect, run_bind, run_peek]
  split <;> rfl

end Runs

namespace Meets

variable {α β : Type} {p : Parser α} {f : α → Parser β} {s : ParserState}
  {R R₁ : List TokenKind → α → TokenKind → Prop} {R₂ : List TokenKind → β → TokenKind → Prop}
  {V V₁ : List TokenKind → Prop}

theorem pure {x : α} (h : R [] x s.current.kind) : Meets (pure x) s R V := ⟨[], .refl s, h⟩

theorem fail {d : SyntaxDefect} (hd : d.At s.current.kind) (h : V []) :
    Meets (fail d : Parser α) s R V := ⟨[], .syntactic (.refl s) hd, h⟩

theorem peek {f : TokenKind → Parser α} (h : Meets (f s.current.kind) s R V) :
    Meets (Parser.peek >>= f) s R V := h

/-- One run behind another: the second is given what the first has read. -/
theorem bind (h : Meets p s R₁ V₁) (hV : ∀ w, V₁ w → V w)
    (hf : ∀ w x t, Reads s w t → R₁ w x t.current.kind →
      Meets (f x) t (fun w' => R₂ (w ++ w')) (fun w' => V (w ++ w'))) :
    Meets (p >>= f) s R₂ V := by
  unfold Meets at *
  rw [run_bind]
  cases hp : p.run s with
  | error e t =>
    rw [hp] at h
    obtain ⟨w, hw, hv⟩ := h
    exact ⟨w, hw, hV w hv⟩
  | ok x t =>
    rw [hp] at h
    obtain ⟨w, hw, hx⟩ := h
    have hg := hf w x t hw hx
    simp only
    cases hq : (f x).run t with
    | ok y u =>
      rw [hq] at hg
      obtain ⟨w', hw', hy⟩ := hg
      exact ⟨w ++ w', hw.trans hw', hy⟩
    | error e u =>
      rw [hq] at hg
      obtain ⟨w', hw', hv⟩ := hg
      exact ⟨w ++ w', hw'.append hw, hv⟩

theorem mono {V' : List TokenKind → Prop} {R' : List TokenKind → α → TokenKind → Prop}
    (h : Meets p s R V) (hR : ∀ w x k, R w x k → R' w x k) (hV : ∀ w, V w → V' w) :
    Meets p s R' V' := by
  unfold Meets at *
  split at h
  · obtain ⟨w, hw, hx⟩ := h
    exact ⟨w, hw, hR _ _ _ hx⟩
  · obtain ⟨w, hw, hv⟩ := h
    exact ⟨w, hw, hV _ hv⟩

/-- Passing over a token. -/
theorem advance {k : TokenKind} (hk : s.current.kind = k) (hne : k ≠ .eof) :
    Meets advance s (fun w _ _ => w = [k]) (· = [k]) := by
  obtain ⟨c, rest⟩ := s
  cases hk
  rcases rest with - | ⟨e | t, rest⟩
  · exact ⟨[c.kind], .step rfl hne rfl (.refl _), rfl⟩
  · exact ⟨[c.kind], .lexical (.refl _) hne, rfl⟩
  · exact ⟨[c.kind], .step rfl hne rfl (.refl _), rfl⟩

/-- Passing over a token of one kind. -/
theorem expect {k : TokenKind} (hne : k ≠ .eof) :
    Meets (expect k) s (fun w _ _ => w = [k]) (fun w => w = [] ∨ w = [k]) := by
  by_cases hk : s.current.kind = k
  · have h := advance hk hne
    simp only [Meets, run_expect, if_pos hk] at h ⊢
    split at h
    · exact h
    · obtain ⟨w, hw, hv⟩ := h
      exact ⟨w, hw, .inr hv⟩
  · simp only [Meets, run_expect, if_neg hk]
    exact ⟨[], .syntactic (.refl s) rfl, .inl rfl⟩

/-- Passing over a token and going on behind it. -/
theorem skip {k : TokenKind} (hk : s.current.kind = k) (hne : k ≠ .eof) (hV : V [k])
    (hp : ∀ t, Meets p t (fun w => R (k :: w)) (fun w => V (k :: w))) :
    Meets (do Parser.advance; p) s R V := by
  refine .bind (.advance hk hne) ?_ fun w _ t _ hw => ?_
  · rintro w rfl
    exact hV
  · subst hw
    exact hp t

/-- Wanting a token of one kind and going on behind it. -/
theorem require {k : TokenKind} (hne : k ≠ .eof) (hnil : V []) (hV : V [k])
    (hp : ∀ t, Meets p t (fun w => R (k :: w)) (fun w => V (k :: w))) :
    Meets (do Parser.expect k; p) s R V := by
  refine .bind (.expect hne) ?_ fun w _ t _ hw => ?_
  · rintro w (rfl | rfl)
    · exact hnil
    · exact hV
  · subst hw
    exact hp t

end Meets

end Parser

end Abecedary
