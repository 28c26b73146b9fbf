import Abecedary.Proofs.FirstOffence
import Abecedary.Proofs.MaximalMunch

/-!
# Parsing while reading

A text can be parsed while its tokens are read, or its tokens can be read first. The parser wants no
item behind the one that it ends at (`Parser.Ends`), and what follows in the stream makes no
difference to it (`outcome_parseItems_append`). So both ways give the same program or the same
error, except that a text with a lexical error may be refused for a token in front of it
(`parsing_while_reading_agrees`).
-/

namespace Abecedary

namespace Parser

/-! ## Where a parse stops -/

/-- Where a parse of a stream stops, having passed over the tokens `before`. -/
inductive Stopped (items : List Item) (before : List Token) : Parse → Prop
  | accepted {p : Program} {s : ParserState} (h : Stands items before s)
    (heof : s.current.kind = .eof) : Stopped items before ⟨.ok p, items.length - s.rest.length⟩
  | syntactic {d : SyntaxDefect} {s : ParserState} (h : Stands items before s)
    (hd : d.At s.current.kind) :
    Stopped items before
      ⟨.error (.syntactic d s.current.span.position), items.length - s.rest.length⟩
  | lexical {e : LexError} {rest : List Item} (h : items = before.map .ok ++ .error e :: rest) :
    Stopped items before ⟨.error (.lexical e), items.length - rest.length⟩

/-- Every parse stops somewhere, and has passed over no end of input. -/
theorem exists_stopped (items : List Item) :
    ∃ before : List Token, (∀ t ∈ before, t.kind ≠ .eof) ∧
      Stopped items before (parseItems items) := by
  cases hstart : advance.run (initial items) with
  | error e s =>
    rcases items with - | ⟨e' | t, rest⟩
    · cases hstart
    · cases hstart
      rw [parseItems_of_error (t := ⟨⟨.eof, .none⟩, rest⟩) rfl]
      exact ⟨[], by simp, .lexical rfl⟩
    · cases hstart
  | ok u s =>
    have hrun := run_program items.length hstart
    have hmeets := statement_meets items.length nestingLimit s
    cases hstatement : (statement items.length nestingLimit).run s with
    | ok body t =>
      simp only [Meets, hstatement] at hmeets hrun
      obtain ⟨w, hr, -, -⟩ := hmeets
      obtain ⟨before, -, hbefore, hstands⟩ := (stands_start hstart).reads hr
      refine ⟨before, hbefore, ?_⟩
      by_cases heof : t.current.kind = .eof
      · rw [if_pos heof] at hrun
        rw [parseItems_of_ok hrun]
        exact .accepted hstands heof
      · rw [if_neg heof] at hrun
        rw [parseItems_of_error hrun]
        exact .syntactic hstands rfl
    | error e t =>
      simp only [Meets, hstatement] at hmeets hrun
      obtain ⟨w, hstops, -⟩ := hmeets
      rw [parseItems_of_error hrun]
      cases hstops with
      | syntactic hr hd =>
        obtain ⟨before, -, hbefore, hstands⟩ := (stands_start hstart).reads hr
        exact ⟨before, hbefore, .syntactic hstands hd⟩
      | @lexical w e t rest hr hne =>
        obtain ⟨before, -, hbefore, hstands⟩ := (stands_start hstart).reads hr
        cases hstands with
        | behind _ hs => cases hs
        | within h =>
          have h : items = (before ++ [t]).map .ok ++ .error e :: rest := by simpa using h
          refine ⟨before ++ [t], ?_, .lexical h⟩
          rw [List.forall_mem_append, List.forall_mem_singleton]
          exact ⟨hbefore, hne⟩

/-! ## Streams of a lexer -/

/-- Whether an item is the last one that a parser wants: the end of the input, or an error. -/
def IsLast : Item → Prop
  | .ok t => t.kind = .eof
  | .error _ => True

/-- How a parse of the tokens `front` and the item `last` ends: at the last item, with a program or
with the error that the item is, or with a syntax error at one of the tokens. -/
inductive Ends (front : List Token) (last : Item) : Parse → Prop
  | accepted {p : Program} {t : Token} (h : last = .ok t) :
    Ends front last ⟨.ok p, front.length + 1⟩
  | lexical {e : LexError} (h : last = .error e) :
    Ends front last ⟨.error (.lexical e), front.length + 1⟩
  | syntactic {d : SyntaxDefect} {before : List Token} {t : Token} {rest : List Item}
    (h : front.map .ok ++ [last] = before.map .ok ++ .ok t :: rest)
    (hbefore : ∀ t ∈ before, t.kind ≠ .eof) (hd : d.At t.kind) :
    Ends front last ⟨.error (.syntactic d t.span.position), before.length + 1⟩

section Last

variable {front before : List Token} {last x : Item} {more rest : List Item} (hlast : IsLast last)
  (hbefore : ∀ t ∈ before, t.kind ≠ .eof)
include hlast hbefore

theorem not_isLast_of_mem : last ∉ before.map Except.ok := by
  intro hmem
  obtain ⟨t, ht, rfl⟩ := List.mem_map.1 hmem
  exact hbefore t ht hlast

omit hlast hbefore in
theorem length_sub_length_rest {items : List Item} (h : items = before.map .ok ++ x :: rest) :
    items.length - rest.length = before.length + 1 := by
  rw [h, List.length_append, List.length_map, List.length_cons]
  omega

/-- What lies behind some tokens that are no end of input is the last item or a token in front of
it. -/
theorem split_at_last (h : front.map .ok ++ last :: more = before.map .ok ++ x :: rest) :
    (before = front ∧ x = last ∧ rest = more) ∨
      ∃ t later, front = before ++ t :: later ∧ x = .ok t ∧
        rest = later.map .ok ++ last :: more := by
  induction before generalizing front with
  | nil =>
    cases front with
    | nil =>
      cases h
      exact .inl ⟨rfl, rfl, rfl⟩
    | cons t front =>
      cases h
      exact .inr ⟨t, front, rfl, rfl, rfl⟩
  | cons b before ih =>
    rw [List.forall_mem_cons] at hbefore
    cases front with
    | nil =>
      cases h
      exact (hbefore.1 hlast).elim
    | cons t front =>
      simp only [List.map_cons, List.cons_append, List.cons.injEq, Except.ok.injEq] at h
      obtain ⟨rfl, h⟩ := h
      obtain ⟨rfl, rfl, rfl⟩ | ⟨t', later, rfl, rfl, rfl⟩ := ih hbefore.2 h
      · exact .inl ⟨rfl, rfl, rfl⟩
      · exact .inr ⟨t', later, rfl, rfl, rfl⟩

end Last

/-- A parse of a stream with a last item stops at that item or in front of it. -/
theorem Stopped.ends {front before : List Token} {last : Item} {more : List Item} {r : Parse}
    (h : Stopped (front.map .ok ++ last :: more) before r) (hfront : ∀ t ∈ front, t.kind ≠ .eof)
    (hlast : IsLast last) (hbefore : ∀ t ∈ before, t.kind ≠ .eof) : Ends front last r := by
  have hnotMem := not_isLast_of_mem hlast hbefore
  cases h with
  | @accepted p s h heof =>
    cases h with
    | behind h _ => exact (hnotMem (h ▸ by simp)).elim
    | within h =>
      obtain ⟨rfl, ht, rfl⟩ | ⟨t, later, rfl, ht, -⟩ := split_at_last hlast hbefore h
      · rw [length_sub_length_rest h]
        exact .accepted ht.symm
      · obtain rfl := Except.ok.inj ht
        exact (hfront _ (by simp) heof).elim
  | @syntactic d s h hd =>
    cases h with
    | behind h _ => exact (hnotMem (h ▸ by simp)).elim
    | within h =>
      rw [length_sub_length_rest h]
      obtain ⟨rfl, ht, rfl⟩ | ⟨t, later, rfl, ht, -⟩ := split_at_last hlast hbefore h
      · have hsplit : before.map .ok ++ [last] = before.map .ok ++ [.ok s.current] := by rw [ht]
        exact .syntactic hsplit hbefore hd
      · obtain rfl := Except.ok.inj ht
        have hsplit : (before ++ s.current :: later).map .ok ++ [last] =
            before.map .ok ++ .ok s.current :: (later.map .ok ++ [last]) := by simp
        exact .syntactic hsplit hbefore hd
  | lexical h =>
    obtain ⟨rfl, ht, rfl⟩ | ⟨t, later, -, ht, -⟩ := split_at_last hlast hbefore h
    · rw [length_sub_length_rest h]
      exact .lexical ht.symm
    · cases ht

/-- **A parse ends at the last item or in front of it**, whatever follows. -/
theorem ends_parseItems {front : List Token} {last : Item} (hfront : ∀ t ∈ front, t.kind ≠ .eof)
    (hlast : IsLast last) (more : List Item) :
    Ends front last (parseItems (front.map .ok ++ last :: more)) := by
  obtain ⟨before, hbefore, hstopped⟩ := exists_stopped (front.map .ok ++ last :: more)
  exact hstopped.ends hfront hlast hbefore

theorem Ends.taken_le {front : List Token} {last : Item} {r : Parse} (h : Ends front last r) :
    r.taken ≤ front.length + 1 := by
  cases h with
  | accepted | lexical => exact Nat.le_refl _
  | syntactic h =>
    have hlength := congrArg List.length h
    simp only [List.length_append, List.length_map, List.length_cons, List.length_nil] at hlength
    show _ + 1 ≤ _
    omega

/-! ## What follows in a stream -/

/-- A program is read alike from streams that begin alike. -/
theorem program_tracks {rest rest' : List Item} {size size' n : Nat} (hn : n ≤ size + 1)
    (hn' : n ≤ size' + 1) : Tracks rest rest' n (n - 1) (program size) (program size') := by
  have hbody : Tracks rest rest' (n - 1) (n - 1) (statement size nestingLimit)
      (statement size' nestingLimit) := (statement_tracks nestingLimit (by omega) (by omega)).weaken
  refine .bind .advance fun _ => .bind hbody fun body => .bind .peek fun k => ?_
  split
  · exact .pure (Nat.le_refl _)
  · exact .fail _

theorem Same.outcome_eq {items items' rest rest' : List Item} {n : Nat}
    (h : Same rest rest' n ((program items.length).run (initial items))
      ((program items'.length).run (initial items'))) :
    (parseItems items).outcome = (parseItems items').outcome := by
  unfold parseItems
  generalize (program items.length).run (initial items) = a at h ⊢
  generalize (program items'.length).run (initial items') = b at h ⊢
  cases h <;> rfl

theorem taken_parseItems (items : List Item) :
    (parseItems items).taken =
      items.length - (final ((program items.length).run (initial items))).rest.length := by
  unfold parseItems
  cases (program items.length).run (initial items) <;> rfl

/-- What follows the items that a parse reads makes no difference to it. -/
theorem outcome_parseItems_append {items more more' : List Item} (hmore : more ≠ [])
    (h : (parseItems (items ++ more)).taken ≤ items.length) :
    (parseItems (items ++ more')).outcome = (parseItems (items ++ more)).outcome := by
  have halike : Alike more more' (items.length + 1) (initial (items ++ more))
      (initial (items ++ more')) := ⟨rfl, items, Nat.lt_succ_self _, rfl, rfl⟩
  have htracks : Tracks more more' (items.length + 1) items.length
      (program (items ++ more).length) (program (items ++ more').length) :=
    program_tracks (by simp) (by simp)
  have hpos := List.length_pos_iff.2 hmore
  have hlength : (items ++ more).length = items.length + more.length := List.length_append
  rw [taken_parseItems] at h
  rcases htracks.alike _ _ halike with (hlt | ⟨hnil, -⟩) | hsame
  · omega
  · rw [hnil, List.length_nil] at h
    omega
  · exact hsame.outcome_eq.symm

end Parser

/-! ## The stream of a text -/

/-- Whether a token is a lexeme of a text that lies in front of the place of an error. -/
def Token.LiesBefore (t : Token) (source : String) (e : LexError) : Prop :=
  ∃ before cs gap rest, source.toList = before ++ (cs ++ (gap ++ rest)) ∧
    t.kind.Covers before cs (gap ++ rest) ∧ t.span = .of before cs ∧
    e.position = .after (before ++ cs ++ gap)

section Items

variable {source : String} {ts : List Token} {e : LexError}

theorem items_of_tokenize_ok (h : tokenize source = .ok ts) :
    (Lexer.ofString source).items = ts.map .ok ∧
      ∃ front, ts = front ++ [.atEnd source] ∧ ∀ t ∈ front, t.kind ≠ .eof := by
  have hends := tokenize_eq_ok_iff.1 h
  refine ⟨items_of_ends hends, ?_⟩
  obtain ⟨front, behind, blanks, hmunch, -, rfl⟩ := hends
  refine ⟨front, rfl, fun t ht => ?_⟩
  obtain ⟨pre, cs, post, -, -, hcovers⟩ := hmunch.covers_of_mem ht
  exact hcovers.ne_eof

theorem items_of_tokenize_error (h : tokenize source = .error e) :
    ∃ front : List Token, (Lexer.ofString source).items = front.map .ok ++ [.error e] ∧
      ∀ t ∈ front, t.kind ≠ .eof ∧ t.LiesBefore source e := by
  obtain ⟨front, behind, blanks, rest, hmunch, hblanks, -, hd, hposition⟩ :=
    tokenize_eq_error_iff.1 h
  refine ⟨front, items_of_sticks hmunch hblanks hd hposition, fun t ht => ?_⟩
  obtain ⟨pre, cs, gap, hsource, hspan, hcovers⟩ := hmunch.covers_of_mem ht
  have hbehind : behind = pre ++ cs ++ gap := by
    have hall : behind ++ (blanks ++ rest) = source.toList := hmunch.append_eq
    rw [hsource] at hall
    simpa [← List.append_assoc] using hall
  refine ⟨hcovers.ne_eof, pre, cs, gap ++ blanks, rest, ?_, ?_, hspan, ?_⟩
  · simpa using hsource
  · simpa using hcovers
  · simpa [hbehind] using hposition

end Items

/-- Reading often enough gives the items of a text first. -/
theorem Lexer.exists_take_eq {l : Lexer} {n : Nat} (h : l.items.length ≤ n) :
    ∃ more, l.take n = l.items ++ more := by
  induction n generalizing l with
  | zero =>
    rw [List.eq_nil_of_length_eq_zero (Nat.le_zero.1 h)]
    exact ⟨[], rfl⟩
  | succ n ih =>
    have htake : l.take (n + 1) = l.next.1 :: l.next.2.take n := rfl
    cases hnext : l.next.1 with
    | error e => exact ⟨_, by rw [htake, items_of_error hnext, hnext]; rfl⟩
    | ok t =>
      by_cases heof : t.kind = .eof
      · exact ⟨_, by rw [htake, items_of_eof hnext heof, hnext]; rfl⟩
      · rw [items_of_token hnext heof, List.length_cons] at h
        obtain ⟨more, hmore⟩ := ih (Nat.le_of_succ_le_succ h)
        exact ⟨more, by rw [htake, items_of_token hnext heof, hmore, hnext]; rfl⟩

/-- Every text has a last item, with tokens in front of it that are no end of input. -/
theorem exists_items_eq (source : String) :
    ∃ (front : List Token) (last : Item), (Lexer.ofString source).items = front.map .ok ++ [last] ∧
      (∀ t ∈ front, t.kind ≠ .eof) ∧ Parser.IsLast last ∧
      tokenize source = last.map (front ++ [·]) := by
  cases h : tokenize source with
  | ok ts =>
    obtain ⟨hitems, front, rfl, hfront⟩ := items_of_tokenize_ok h
    exact ⟨front, .ok (.atEnd source), by simpa using hitems, hfront, rfl, rfl⟩
  | error e =>
    obtain ⟨front, hitems, hfront⟩ := items_of_tokenize_error h
    exact ⟨front, .error e, hitems, fun t ht => (hfront t ht).1, trivial, rfl⟩

open Abecedary.Parser

/-- However many items a lexer would give, as soon as they are enough, the parse is the same. -/
theorem outcome_parseItems_take {source : String} {n : Nat}
    (hn : (Lexer.ofString source).items.length ≤ n) :
    (parseItems ((Lexer.ofString source).take n)).outcome = parse source := by
  obtain ⟨front, last, hitems, hfront, hlast, -⟩ := exists_items_eq source
  obtain ⟨more, hmore⟩ := Lexer.exists_take_eq hn
  rw [parse, hmore]
  by_cases hnil : more = []
  · rw [hnil, List.append_nil]
  · have htaken : (parseItems (front.map .ok ++ last :: more)).taken ≤ front.length + 1 :=
      (ends_parseItems hfront hlast more).taken_le
    have hsame : (parseItems ((Lexer.ofString source).items ++ [])).outcome =
        (parseItems ((Lexer.ofString source).items ++ more)).outcome :=
      outcome_parseItems_append hnil (by simpa [hitems] using htaken)
    rw [← hsame, List.append_nil]

/-- A parse of some tokens and an error behind them gives the error, or a syntax error at one of the
tokens, which the tokens alone give as well. -/
theorem parseItems_of_lexical_error {front : List Token} (hfront : ∀ t ∈ front, t.kind ≠ .eof)
    (e : LexError) :
    (parseItems (front.map .ok ++ [.error e])).outcome = .error (.lexical e) ∨
      ∃ d, ∃ t ∈ front, d.At t.kind ∧
        (parseItems (front.map .ok ++ [.error e])).outcome =
          .error (.syntactic d t.span.position) ∧
        parseTokens front = (parseItems (front.map .ok ++ [.error e])).outcome := by
  have hlast : IsLast (.error e) := trivial
  have hends := ends_parseItems hfront hlast []
  generalize hparse : parseItems (front.map .ok ++ [.error e]) = r at hends
  cases hends with
  | accepted h => cases h
  | lexical h =>
    cases h
    exact .inl rfl
  | @syntactic d before t rest h hbefore hd =>
    obtain ⟨-, ht, -⟩ | ⟨t, later, rfl, ht, -⟩ := split_at_last hlast hbefore h
    · cases ht
    · cases ht
      have hsame : (parseItems ((before ++ t :: later).map .ok ++ [])).outcome =
          (parseItems ((before ++ t :: later).map .ok ++ [.error e])).outcome :=
        outcome_parseItems_append (by simp) (by rw [hparse]; simp)
      rw [hparse, List.append_nil] at hsame
      exact .inr ⟨d, t, by simp, hd, rfl, hsame⟩

/-- **Parsing while reading agrees with reading first.** What a lexer gives when it is asked often
enough is parsed like the tokens of the text. If it has no tokens, the text is refused for its
lexical error, or for a token in front of it, as it would be without the error. -/
theorem parsing_while_reading_agrees (source : String) :
    (∀ n, (Lexer.ofString source).items.length ≤ n →
        (parseItems ((Lexer.ofString source).take n)).outcome = parse source) ∧
      (∀ ts, tokenize source = .ok ts → parse source = parseTokens ts) ∧
      ∀ e, tokenize source = .error e → ∃ front : List Token,
        (Lexer.ofString source).items = front.map .ok ++ [.error e] ∧
        (∀ t ∈ front, t.kind ≠ .eof ∧ t.LiesBefore source e) ∧
        (parse source = .error (.lexical e) ∨
          ∃ d, ∃ t ∈ front, d.At t.kind ∧
            parse source = .error (.syntactic d t.span.position) ∧
            parseTokens front = parse source) := by
  refine ⟨fun n hn => outcome_parseItems_take hn, fun ts hts => ?_, fun e he => ?_⟩
  · rw [parse, (items_of_tokenize_ok hts).1, parseTokens]
  · obtain ⟨front, hitems, hfront⟩ := items_of_tokenize_error he
    refine ⟨front, hitems, hfront, ?_⟩
    rw [parse, hitems]
    exact parseItems_of_lexical_error (fun t ht => (hfront t ht).1) e

end Abecedary
