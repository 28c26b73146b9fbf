import Abecedary.Proofs.Acceptance
import Abecedary.Proofs.Locality

/-!
# Where a parse stops

A parse reads tokens up to the one that decides it, and no item behind that one
(`parse_stops_at_the_first_offence`). When it refuses a stream, the tokens in front of the refused
one can still be completed to a program, if only to one of any depth; with the refused token they
can no longer be completed to a program within the limit.
-/

namespace Abecedary

namespace Parser

open Grammar

/-- Where a state stands in a stream: at one of its tokens, or behind the last of them at an end of
input that has the last token's span. -/
inductive Stands (items : List Item) (before : List Token) (s : ParserState) : Prop
  | within (h : items = before.map .ok ++ .ok s.current :: s.rest)
  | behind (h : items = before.map .ok)
    (hs : s = ⟨⟨.eof, (before.getLast?.map Token.span).getD .none⟩, []⟩)

theorem stands_start {items : List Item} {s : ParserState}
    (h : advance.run (initial items) = .ok () s) : Stands items [] s := by
  rcases items with - | ⟨e | t, items⟩
  · cases h
    exact .behind rfl rfl
  · cases h
  · cases h
    exact .within rfl

theorem Stands.reads {items : List Item} {before : List Token} {s t : ParserState}
    {w : List TokenKind} (hs : Stands items before s) (h : Reads s w t) :
    ∃ ts : List Token, ts.map Token.kind = w ∧ (∀ x ∈ ts, x.kind ≠ .eof) ∧
      Stands items (before ++ ts) t := by
  induction h generalizing before with
  | refl s => exact ⟨[], rfl, by simp, by simpa using hs⟩
  | @step s t u k w hk hne ha _ ih =>
    cases hs with
    | behind _ hs => exact (hne (by rw [← hk, hs])).elim
    | within hi =>
      have ht : Stands items (before ++ [s.current]) t := by
        obtain ⟨c, rest⟩ := s
        rcases rest with - | ⟨e | t', rest⟩
        · cases ha
          exact .behind (by simp [hi]) (by simp)
        · cases ha
        · cases ha
          exact .within (by simp [hi])
      obtain ⟨ts, rfl, hts, hu⟩ := ih ht
      refine ⟨s.current :: ts, by simp [hk], ?_, by simpa using hu⟩
      simpa [hk] using ⟨hne, hts⟩

theorem Stands.mem {items : List Item} {before : List Token} {s : ParserState}
    (h : Stands items before s) {t : Token} (ht : t ∈ before) : .ok t ∈ items := by
  cases h with
  | within h =>
    rw [h]
    exact List.mem_append_left _ (List.mem_map_of_mem ht)
  | behind h _ =>
    rw [h]
    exact List.mem_map_of_mem ht

theorem takeWhile_append_eof {w : List TokenKind} (v : List TokenKind) (hw : TokenKind.eof ∉ w) :
    (w ++ .eof :: v).takeWhile (· ≠ .eof) = w := by
  rw [List.takeWhile_append_of_pos fun k hk => by simpa using ne_of_mem_of_not_mem hk hw]
  simp

/-- The starts of two streams that begin with the same tokens, one at least. -/
theorem exists_alike {before : List Token} {t : Token} {rest rest' : List Item} {s s' : ParserState}
    (h : advance.run (initial (before.map .ok ++ .ok t :: rest)) = .ok () s)
    (h' : advance.run (initial (before.map .ok ++ .ok t :: rest')) = .ok () s') :
    Alike rest rest' (before.length + 1) s s' := by
  cases before with
  | nil =>
    cases h
    cases h'
    exact ⟨rfl, [], by simp, rfl, rfl⟩
  | cons t₀ before =>
    cases h
    cases h'
    exact ⟨rfl, before.map .ok ++ [.ok t], by simp, by simp, by simp⟩

/-- Whether a run of the first statement is one of a stream that is refused. -/
def Refused (r : EStateM.Result ParseError ParserState Stmt) : Prop :=
  match r with
  | .ok _ t => t.current.kind ≠ .eof
  | .error _ _ => True

theorem Same.refused {rest rest' : List Item} {n : Nat}
    {a b : EStateM.Result ParseError ParserState Stmt} (h : Same rest rest' n a b)
    (ha : Refused a) : Refused b := by
  cases h with
  | ok h => simpa [Refused, h.1] using ha
  | error => trivial

theorem not_refused_of_derives {size : Nat} {s t : ParserState} {u : List TokenKind} {body : Stmt}
    (hbody : Statement nestingLimit u body) (hu : u.length ≤ size) (hr : Reads s u t)
    (heof : t.current.kind = .eof) : ¬ Refused ((statement size nestingLimit).run s) := by
  rw [run_statement hbody hr hu (heof ▸ mayFollow_eof body)]
  simp [Refused, heof]

section Refused

variable {items : List Item} {before : List Token} {s t : ParserState}
  (hstart : advance.run (initial items) = .ok () s) (hr : Reads s (before.map Token.kind) t)
  (hbefore : ∀ x ∈ before, x.kind ≠ .eof) (hstands : Stands items before t)
  (hrefused : Refused ((statement items.length nestingLimit).run s))
include hr hbefore hstands hrefused

/-- A stream that is refused at its end is no program as it stands. -/
theorem not_isProgram_of_refused_at_eof (heof : t.current.kind = .eof) (v : List TokenKind) :
    ¬ IsProgram nestingLimit (before.map Token.kind ++ .eof :: v) := by
  rintro ⟨u, body, hbody, hu⟩
  obtain rfl : before.map Token.kind = u := by
    have hcut := takeWhile_append_eof (w := before.map Token.kind) v (by simpa using hbefore)
    rw [hu, takeWhile_append_eof [] hbody.eof_notMem] at hcut
    exact hcut.symm
  refine not_refused_of_derives hbody ?_ hr heof hrefused
  cases hstands with
  | within hi => simp [hi]
  | behind hi _ => simp [hi]

include hstart

/-- A refused stream begins like no program, up to the token that is refused. -/
theorem not_isProgram_of_refused
    (hfinal : final ((statement items.length nestingLimit).run s) = t) (v : List TokenKind) :
    ¬ IsProgram nestingLimit (before.map Token.kind ++ t.current.kind :: v) := by
  by_cases heof : t.current.kind = .eof
  · rw [heof]
    exact not_isProgram_of_refused_at_eof hr hbefore hstands hrefused heof v
  rintro ⟨u, body, hbody, hu⟩
  cases hstands with
  | behind _ ht => exact heof (by rw [ht])
  | within hi =>
    -- the program and the stream begin alike, and are read alike up to the refused token
    have hsize : before.length + 1 ≤ items.length := by simp [hi]
    generalize hlength : items.length = size at *
    obtain ⟨s', s'', hstart', hr', heof'⟩ :=
      exists_start (before ++ t.current :: v.map fun k => ⟨k, .none⟩)
    have hsentence : sentence (before ++ t.current :: v.map fun k => ⟨k, .none⟩) = u := by
      simpa [sentence, Function.comp_def, hu] using takeWhile_append_eof [] hbody.eof_notMem
    rw [hsentence] at hr'
    subst hi
    have halike := exists_alike hstart (by simpa using hstart')
    have hread := not_refused_of_derives hbody (Nat.le_max_right size u.length) hr' heof'
    have htracks := (statement_tracks nestingLimit hsize
      (hsize.trans (Nat.le_max_left size u.length))).alike s s' halike
    rw [hfinal] at htracks
    rcases htracks with (hlt | ⟨-, hk⟩) | hsame
    · exact Nat.lt_irrefl _ hlt
    · exact heof hk
    · exact hread (hsame.refused hrefused)

end Refused

/-- Whether a token is the one that decides a parse that has read `k` items: the last of them, or
behind the whole stream the end of input that follows it. -/
def Decides (items : List Item) (k : Nat) (before : List Token) (t : Token) : Prop :=
  items.take k = before.map .ok ++ [.ok t] ∨
    k = items.length ∧ items = before.map .ok ∧
      t = ⟨.eof, (before.getLast?.map Token.span).getD .none⟩

theorem Stands.decides {items : List Item} {before : List Token} {s : ParserState}
    (h : Stands items before s) :
    Decides items (items.length - s.rest.length) before s.current := by
  cases h with
  | within h =>
    left
    have hsplit : items = (before.map .ok ++ [.ok s.current]) ++ s.rest := by simpa using h
    rw [hsplit, List.length_append, Nat.add_sub_cancel, List.take_left]
  | behind h hs => exact .inr ⟨by simp [hs], h, by rw [hs]⟩

/-- The items up to a lexical error, which is the last that is read. -/
theorem Stands.take_of_lexical {items rest : List Item} {before : List Token} {t : Token}
    {e : LexError} (h : Stands items before ⟨t, .error e :: rest⟩) :
    items.take (items.length - rest.length) = (before ++ [t]).map .ok ++ [.error e] := by
  cases h with
  | behind _ hs => cases hs
  | within h =>
    have hsplit : items = ((before ++ [t]).map .ok ++ [.error e]) ++ rest := by simpa using h
    rw [hsplit, List.length_append, Nat.add_sub_cancel, List.take_left]

end Parser

namespace Grammar

/-- The words that begin a program of any depth. -/
def Viable (w : List TokenKind) : Prop := ∃ n v, IsProgram n (w ++ v)

theorem Begins.viable {w : List TokenKind} (h : Begins AnyStatement w) : Viable w := by
  obtain ⟨u, t, n, ht⟩ := h
  exact ⟨n, u ++ [.eof], w ++ u, t, ht, by simp⟩

end Grammar

namespace Parser

open Grammar

variable {items : List Item}

theorem parseItems_of_ok {p : Program} {t : ParserState}
    (h : (program items.length).run (initial items) = .ok p t) :
    parseItems items = ⟨.ok p, items.length - t.rest.length⟩ := by
  rw [parseItems, h]

theorem parseItems_of_error {e : ParseError} {t : ParserState}
    (h : (program items.length).run (initial items) = .error e t) :
    parseItems items = ⟨.error e, items.length - t.rest.length⟩ := by
  rw [parseItems, h]

/-- A program is derived from tokens of the stream. -/
theorem derives_of_parseItems {p : Program} (h : (parseItems items).outcome = .ok p) :
    ∃ before : List Token, (∀ x ∈ before, .ok x ∈ items ∧ x.kind ≠ .eof) ∧
      Grammar.Statement nestingLimit (before.map Token.kind) p.body := by
  cases hrun : (program items.length).run (initial items) with
  | error e t =>
    rw [parseItems_of_error hrun] at h
    cases h
  | ok q t =>
    rw [parseItems_of_ok hrun] at h
    cases h
    cases hstart : advance.run (initial items) with
    | error e s =>
      rw [program, run_bind, hstart] at hrun
      cases hrun
    | ok u s =>
      obtain ⟨-, w, hr, hbody⟩ := derives_of_run_program hstart hrun
      obtain ⟨before, rfl, hbefore, hstands⟩ := (stands_start hstart).reads hr
      exact ⟨before, fun x hx => ⟨hstands.mem hx, hbefore x hx⟩, hbody⟩

/-- What is known where the first statement of a refused stream ends at a token. -/
theorem offence_of_refused {s t : ParserState} {w : List TokenKind} {d : SyntaxDefect}
    (hstart : advance.run (initial items) = .ok () s) (hr : Reads s w t)
    (hfinal : final ((statement items.length nestingLimit).run s) = t)
    (hrefused : Refused ((statement items.length nestingLimit).run s)) (hd : d.At t.current.kind)
    (hw : Viable w) :
    ∃ before : List Token, (∀ x ∈ before, x.kind ≠ .eof) ∧
      ∃ offending, Decides items (items.length - t.rest.length) before offending ∧
        t.current.span.position = offending.span.position ∧ d.At offending.kind ∧
        Viable (before.map Token.kind) ∧
        ∀ v, ¬ IsProgram nestingLimit (before.map Token.kind ++ offending.kind :: v) := by
  obtain ⟨before, rfl, hbefore, hstands⟩ := (stands_start hstart).reads hr
  exact ⟨before, hbefore, t.current, hstands.decides, rfl, hd, hw,
    not_isProgram_of_refused hstart hr hbefore hstands hrefused hfinal⟩

end Parser

open Abecedary.Parser Grammar in
/-- **A parse stops at the first offence**, and reads nothing behind it. -/
theorem parse_stops_at_the_first_offence (items : List Item) :
    (parseItems items).taken ≤ items.length ∧
      ∃ before : List Token, (∀ t ∈ before, t.kind ≠ .eof) ∧
        match (parseItems items).outcome with
        | .ok _ => ∃ last, Decides items (parseItems items).taken before last ∧ last.kind = .eof
        | .error (.lexical e) =>
          items.take (parseItems items).taken = before.map .ok ++ [.error e] ∧
            Viable (before.map Token.kind)
        | .error (.syntactic d position) =>
          ∃ offending, Decides items (parseItems items).taken before offending ∧
            position = offending.span.position ∧ d.At offending.kind ∧
            Viable (before.map Token.kind) ∧
            ∀ v, ¬ IsProgram nestingLimit (before.map Token.kind ++ offending.kind :: v) := by
  cases hstart : advance.run (initial items) with
  | error e s =>
    -- the first item is an error
    rcases items with - | ⟨e' | t, rest⟩
    · cases hstart
    · cases hstart
      rw [parseItems_of_error (t := ⟨⟨.eof, .none⟩, rest⟩) rfl]
      exact ⟨Nat.sub_le _ _, [], by simp, by simp, 1, [.mark .semicolon, .eof], _, _, .empty, rfl⟩
    · cases hstart
  | ok u s =>
    have hrun := run_program items.length hstart
    have hmeets := statement_meets items.length nestingLimit s
    cases hstatement : (statement items.length nestingLimit).run s with
    | ok body t =>
      simp only [Meets, hstatement] at hmeets hrun
      obtain ⟨w, hr, hbody, -⟩ := hmeets
      by_cases heof : t.current.kind = .eof
      · rw [if_pos heof] at hrun
        rw [parseItems_of_ok hrun]
        obtain ⟨before, -, hbefore, hstands⟩ := (stands_start hstart).reads hr
        exact ⟨Nat.sub_le _ _, before, hbefore, t.current, hstands.decides, heof⟩
      · rw [if_neg heof] at hrun
        rw [parseItems_of_error hrun]
        have hviable : Viable w := ⟨nestingLimit, [.eof], w, body, hbody, rfl⟩
        exact ⟨Nat.sub_le _ _, offence_of_refused hstart hr (by rw [hstatement]; rfl)
          (by rw [hstatement]; exact heof) rfl hviable⟩
    | error e t =>
      simp only [Meets, hstatement] at hmeets hrun
      obtain ⟨w, hstops, hbegins⟩ := hmeets
      rw [parseItems_of_error hrun]
      refine ⟨Nat.sub_le _ _, ?_⟩
      cases hstops with
      | syntactic hr hd =>
        exact offence_of_refused hstart hr (by rw [hstatement]; rfl)
          (by rw [hstatement]; trivial) hd hbegins.viable
      | @lexical w e t rest hr hne =>
        obtain ⟨before, rfl, hbefore, hstands⟩ := (stands_start hstart).reads hr
        refine ⟨before ++ [t], ?_, hstands.take_of_lexical, by simpa using hbegins.viable⟩
        rw [List.forall_mem_append, List.forall_mem_singleton]
        exact ⟨hbefore, hne⟩

end Abecedary
