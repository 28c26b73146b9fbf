import Mathlib.Data.List.TakeWhile
import Abecedary.Proofs.Completeness
import Abecedary.Proofs.Levels

/-!
# The language of the parser

A list of tokens is parsed to a program exactly when the tokens in front of the first end of input
derive its statement within `nestingLimit` levels (`parser_accepts_exactly_the_grammar`). No word
derives two statements, and a word that derives one is refused only for its nesting.
-/

namespace Abecedary

/-- The tokens in front of the first end of input, by what they stand for. -/
def sentence (ts : List Token) : List TokenKind := (ts.map Token.kind).takeWhile (· ≠ .eof)

namespace Parser

open Grammar

/-- Tokens are read up to the first end of input, or to the one behind the last of them. -/
theorem exists_reads_eof (t : Token) (ts : List Token) :
    ∃ s, Reads ⟨t, ts.map .ok⟩ (sentence (t :: ts)) s ∧ s.current.kind = .eof := by
  induction ts generalizing t with
  | nil =>
    by_cases ht : t.kind = .eof
    · exact ⟨_, by simpa [sentence, ht] using Reads.refl _, ht⟩
    · exact ⟨⟨⟨.eof, t.span⟩, []⟩, by simpa [sentence, ht] using .step rfl ht rfl (.refl _), rfl⟩
  | cons t' ts ih =>
    by_cases ht : t.kind = .eof
    · exact ⟨_, by simpa [sentence, ht] using Reads.refl _, ht⟩
    · obtain ⟨s, hr, hs⟩ := ih t'
      have hr : Reads ⟨t, .ok t' :: ts.map .ok⟩ (t.kind :: sentence (t' :: ts)) s :=
        .step rfl ht rfl hr
      exact ⟨s, by simpa [sentence, ht] using hr, hs⟩

/-- The tokens from the state at the first of them. -/
theorem exists_start (ts : List Token) :
    ∃ s s', advance.run (initial (ts.map .ok)) = .ok () s ∧ Reads s (sentence ts) s' ∧
      s'.current.kind = .eof := by
  cases ts with
  | nil => exact ⟨_, _, rfl, .refl _, rfl⟩
  | cons t ts =>
    obtain ⟨s', hr, hs'⟩ := exists_reads_eof t ts
    exact ⟨⟨t, ts.map .ok⟩, s', rfl, hr, hs'⟩

theorem run_program (size : Nat) {items : List Item} {s : ParserState}
    (h : advance.run (initial items) = .ok () s) :
    (program size).run (initial items) = match (statement size nestingLimit).run s with
      | .ok t s' => if s'.current.kind = .eof then .ok ⟨t⟩ s' else
          .error (.syntactic (.trailing s'.current.kind) s'.current.span.position) s'
      | .error e s' => .error e s' := by
  simp only [program, run_bind, h, run_peek]
  cases (statement size nestingLimit).run s with
  | error e s' => rfl
  | ok t s' =>
    simp only
    split
    · next hk => simp [hk]
    · next hk => rw [if_neg hk, run_fail]

/-- A program is read up to an end of input, from a word that derives it. -/
theorem derives_of_run_program {size : Nat} {items : List Item} {s t : ParserState} {p : Program}
    (hstart : advance.run (initial items) = .ok () s)
    (hrun : (program size).run (initial items) = .ok p t) :
    t.current.kind = .eof ∧ ∃ w, Reads s w t ∧ Statement nestingLimit w p.body := by
  have hmeets := statement_meets size nestingLimit s
  rw [run_program size hstart] at hrun
  unfold Meets at hmeets
  split at hrun
  · next body t' hstatement =>
    rw [hstatement] at hmeets
    obtain ⟨w, hr, hbody, -⟩ := hmeets
    split at hrun
    · next heof =>
      cases hrun
      exact ⟨heof, w, hr, hbody⟩
    · cases hrun
  · cases hrun

theorem sentence_length_le (ts : List Token) : (sentence ts).length ≤ ts.length := by
  simpa [sentence] using (List.takeWhile_sublist (fun k => decide (k ≠ .eof))
    (l := ts.map Token.kind)).length_le

theorem mayFollow_eof (t : Stmt) : MayFollow t .eof := by simp [MayFollow]

/-- The first statement of a list of tokens, where they are read as a whole. -/
theorem run_statement_of_start {ts : List Token} {s s' : ParserState}
    (hr : Reads s (sentence ts) s') (heof : s'.current.kind = .eof) {n : Nat} {t : Stmt}
    (h : Statement n (sentence ts) t) :
    (statement (ts.map Except.ok : List Item).length n).run s = .ok t s' :=
  run_statement h hr (by simpa using sentence_length_le ts) (heof ▸ mayFollow_eof t)

/-- What a list of tokens is parsed to, by the run of its first statement. -/
theorem parseTokens_eq {ts : List Token} {s : ParserState}
    (h : advance.run (initial (ts.map .ok)) = .ok () s) :
    parseTokens ts = match (statement (ts.map Except.ok : List Item).length nestingLimit).run s with
      | .ok t s' => if s'.current.kind = .eof then .ok ⟨t⟩ else
          .error (.syntactic (.trailing s'.current.kind) s'.current.span.position)
      | .error e _ => .error e := by
  simp only [parseTokens, parseItems, run_program _ h]
  cases (statement (ts.map Except.ok : List Item).length nestingLimit).run s with
  | error e s' => rfl
  | ok t s' =>
    by_cases hk : s'.current.kind = .eof
    · simp [hk]
    · simp [hk]

theorem parseTokens_of_derives {ts : List Token} {t : Stmt}
    (h : Statement nestingLimit (sentence ts) t) : parseTokens ts = .ok ⟨t⟩ := by
  obtain ⟨s, s', hstart, hr, heof⟩ := exists_start ts
  rw [parseTokens_eq hstart, run_statement_of_start hr heof h]
  exact if_pos heof

theorem derives_of_parseTokens {ts : List Token} {t : Stmt} (h : parseTokens ts = .ok ⟨t⟩) :
    Statement nestingLimit (sentence ts) t := by
  obtain ⟨s, s', hstart, hr, heof⟩ := exists_start ts
  unfold parseTokens parseItems at h
  cases hrun : (program (ts.map Except.ok : List Item).length).run (initial (ts.map .ok)) with
  | error e t' =>
    rw [hrun] at h
    cases h
  | ok p t' =>
    rw [hrun] at h
    cases h
    obtain ⟨heof', w, hw, hbody⟩ := derives_of_run_program hstart hrun
    obtain ⟨rfl, -⟩ := hw.unique hr heof' heof
    exact hbody

end Parser

open Abecedary.Parser Grammar in
/-- **The parser accepts exactly its grammar.** -/
theorem parser_accepts_exactly_the_grammar (ts : List Token) :
    (∀ t, parseTokens ts = .ok ⟨t⟩ ↔ Statement nestingLimit (sentence ts) t) ∧
      (∀ m n t t', Statement m (sentence ts) t → Statement n (sentence ts) t' → t = t') ∧
      ∀ t e, AnyStatement (sentence ts) t → parseTokens ts = .error e →
        ∃ position, e = .syntactic .tooDeep position := by
  refine ⟨fun t => ⟨derives_of_parseTokens, parseTokens_of_derives⟩, ?_, ?_⟩
  · intro m n t t' h h'
    obtain ⟨s, s', -, hr, heof⟩ := exists_start ts
    have hrun := run_statement_of_start hr heof (h.mono (Nat.le_max_left m n))
    rw [run_statement_of_start hr heof (h'.mono (Nat.le_max_right m n))] at hrun
    cases hrun
    rfl
  · rintro t e ⟨n, h⟩ he
    obtain ⟨s, s', hstart, hr, heof⟩ := exists_start ts
    -- with levels enough the statement is read, and the limit alone can make a difference
    have hrun := run_statement_of_start hr heof (h.mono (Nat.le_max_left n nestingLimit))
    rw [parseTokens_eq hstart] at he
    rcases statement_below _ (Nat.le_max_right n nestingLimit) s with ⟨position, u, hu⟩ | hu
    · rw [hu] at he
      cases he
      exact ⟨position, rfl⟩
    · rw [← hu, hrun] at he
      simp [heof] at he

/-- The tokens of an empty statement inside `n` blocks. -/
def nestedBlocks (n : Nat) : List Token :=
  List.replicate n ⟨.mark .openBrace, .none⟩ ++
    ⟨.mark .semicolon, .none⟩ :: List.replicate n ⟨.mark .closeBrace, .none⟩

theorem nestedBlocks_derive (n : Nat) :
    ∃ t, Grammar.Statement (n + 1) ((nestedBlocks n).map Token.kind) t := by
  induction n with
  | zero => exact ⟨.empty, .empty⟩
  | succ n ih =>
    obtain ⟨t, ht⟩ := ih
    have hblock : Grammar.Statement (n + 2)
        (.mark .openBrace :: ([] ++ (nestedBlocks n).map Token.kind) ++ [.mark .closeBrace])
        (.seq .empty t) := .block (.snoc .nil ht)
    exact ⟨.seq .empty t, by
      simpa [nestedBlocks, List.replicate_succ, ← List.replicate_succ'] using hblock⟩

set_option maxRecDepth 4000 in
theorem parseTokens_nestedBlocks :
    parseTokens (nestedBlocks nestingLimit) = .error (.syntactic .tooDeep Span.none.position) := rfl

open Grammar in
/-- So many blocks are a sentence, and are refused for their depth alone. -/
theorem nestedBlocks_are_too_deep :
    (∃ t, AnyStatement (sentence (nestedBlocks nestingLimit)) t) ∧
      ∃ position,
        parseTokens (nestedBlocks nestingLimit) = .error (.syntactic .tooDeep position) := by
  obtain ⟨t, ht⟩ := nestedBlocks_derive nestingLimit
  have hsentence : sentence (nestedBlocks nestingLimit) =
      (nestedBlocks nestingLimit).map Token.kind :=
    List.takeWhile_eq_self_iff.2 fun k hk => by simpa using ne_of_mem_of_not_mem hk ht.eof_notMem
  have hany : AnyStatement (sentence (nestedBlocks nestingLimit)) t := ⟨_, hsentence ▸ ht⟩
  obtain ⟨position, hp⟩ := (parser_accepts_exactly_the_grammar _).2.2 t _ hany
    parseTokens_nestedBlocks
  exact ⟨⟨t, hany⟩, position, hp ▸ parseTokens_nestedBlocks⟩

end Abecedary
