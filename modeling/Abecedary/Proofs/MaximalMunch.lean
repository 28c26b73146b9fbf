import Abecedary.Proofs.LexemeClasses

/-!
# The maximal munch

`Munch before rest front behind ahead` cuts lexemes off a text from the left: between `before` and
`ahead` lie the tokens `front`, with blanks in front of each, and every token has the span of its
lexeme. Spans are told by what lies in front of a lexeme (`Span.of`), not by counting along the way.

A text is cut to its end (`Munch.Ends`) or up to a place where no lexeme lies (`Munch.Sticks`), and
the lexer finds the tokens of the one or the error of the other (`tokenize_is_maximal_munch`).
-/

namespace Abecedary

/-! ## Places -/

/-- The span of some characters that follow others. -/
def Span.of (before cs : List Char) : Span :=
  ⟨(String.ofList before).utf8ByteSize, (String.ofList (before ++ cs)).utf8ByteSize, .after before⟩

/-- The number of bytes grows with the text. -/
theorem utf8ByteSize_ofList_append (cs ds : List Char) :
    (String.ofList (cs ++ ds)).utf8ByteSize =
      (String.ofList cs).utf8ByteSize + (String.ofList ds).utf8ByteSize := by
  rw [String.ofList_append, String.utf8ByteSize_append]

theorem Position.after_concat (cs : List Char) (c : Char) :
    after (cs ++ [c]) = (after cs).advance c := by
  by_cases hc : c = '\n'
  · subst hc
    simp [after, advance, List.count_append]
  · simp [after, advance, List.count_append, hc]

theorem Position.advanceOver_after (cs ds : List Char) :
    (after cs).advanceOver ds = after (cs ++ ds) := by
  induction ds generalizing cs with
  | nil => rw [advanceOver_nil, List.append_nil]
  | cons d ds ih =>
    rw [advanceOver_cons, ← after_concat, ih, List.append_assoc, List.singleton_append]

theorem foldl_utf8Size (cs ds : List Char) :
    ds.foldl (fun n c => n + c.utf8Size) (String.ofList cs).utf8ByteSize =
      (String.ofList (cs ++ ds)).utf8ByteSize := by
  induction ds generalizing cs with
  | nil => rw [List.foldl_nil, List.append_nil]
  | cons d ds ih =>
    have hd : (String.ofList (cs ++ [d])).utf8ByteSize =
        (String.ofList cs).utf8ByteSize + d.utf8Size := by
      simp [String.ofList_append, String.ofList_cons]
    rw [List.foldl_cons, ← hd, ih, List.append_assoc, List.singleton_append]

/-- The result of reading a lexeme that follows some characters. -/
def Lexeme.itemAt (before : List Char) (x : Lexeme) : Item :=
  match x.meaning with
  | .ok kind => .ok ⟨kind, .of before x.chars⟩
  | .error defect => .error ⟨defect, .after before⟩

namespace Lexer

/-- The lexer between two parts of a text. -/
def between (before rest : List Char) : Lexer :=
  ⟨rest, (String.ofList before).utf8ByteSize, .after before⟩

theorem ofString_eq (source : String) : ofString source = between [] source.toList := rfl

theorem advance_between (before cs rest ahead : List Char) :
    (between before rest).advance cs ahead = between (before ++ cs) ahead := by
  simp only [advance, between, foldl_utf8Size, Position.advanceOver_after]

theorem skipBlanks_between {before blanks rest : List Char}
    (hblanks : ∀ c ∈ blanks, Text.isBlank c = true)
    (hrest : ∀ c ∈ rest.head?, Text.isBlank c = false) :
    (between before (blanks ++ rest)).skipBlanks = between (before ++ blanks) rest := by
  obtain ⟨htake, hdrop⟩ := Lexeme.takeWhile_append_eq hblanks hrest
  simp only [skipBlanks, between, htake, hdrop]
  exact advance_between before blanks _ rest

variable {before blanks cs rest : List Char}

/-- A call passes over blanks and over the lexeme behind them. -/
theorem next_between (before : List Char) (hblanks : ∀ c ∈ blanks, Text.isBlank c = true)
    (hrest : ∀ c ∈ rest.head?, Text.isBlank c = false) :
    (between before (blanks ++ rest)).next =
      ((Lexeme.first rest).itemAt (before ++ blanks),
        between (before ++ blanks ++ (Lexeme.first rest).chars) (Lexeme.first rest).rest) := by
  simp only [next, skipBlanks_between hblanks hrest, advance_between, Lexeme.itemAt]
  simp only [between]
  cases (Lexeme.first rest).meaning <;> rfl

/-- A lexeme behind blanks is the next token, and the lexer stands behind it. -/
theorem next_of_covers {k : TokenKind} (hblanks : ∀ c ∈ blanks, Text.isBlank c = true)
    (hk : k.Covers (before ++ blanks) cs rest) :
    (between before (blanks ++ (cs ++ rest))).next =
      (.ok ⟨k, .of (before ++ blanks) cs⟩, between (before ++ blanks ++ cs) rest) := by
  have hhead : ∀ c ∈ (cs ++ rest).head?, Text.isBlank c = false := by
    obtain ⟨c, ds, rfl, hc⟩ := hk.exists_cons
    simpa using hc
  simp only [next_between before hblanks hhead, Lexeme.first_of_covers hk, Lexeme.itemAt]

theorem next_of_blanks (hblanks : ∀ c ∈ blanks, Text.isBlank c = true) :
    (between before blanks).next.1 = .ok ⟨.eof, .of (before ++ blanks) []⟩ := by
  have hnext : (between before (blanks ++ [])).next = _ := next_between before hblanks (by simp)
  rw [List.append_nil] at hnext
  rw [hnext]
  rfl

/-- A place behind blanks where no lexeme lies is where the next error stands. -/
theorem next_of_refuses {d : LexDefect} (hblanks : ∀ c ∈ blanks, Text.isBlank c = true)
    (hd : d.Refuses (before ++ blanks) rest) :
    (between before (blanks ++ rest)).next.1 = .error ⟨d, .after (before ++ blanks)⟩ := by
  have hhead : ∀ c ∈ rest.head?, Text.isBlank c = false := by
    obtain ⟨c, cs, rfl, hc⟩ := hd.exists_cons
    simpa using hc
  simp only [next_between before hblanks hhead, Lexeme.itemAt, Lexeme.meaning_of_refuses hd]

end Lexer

/-! ## Cutting a text -/

/-- Every text begins with some blanks, or none, and goes on with something else. -/
theorem Text.exists_blanks (cs : List Char) :
    ∃ blanks rest, cs = blanks ++ rest ∧ (∀ c ∈ blanks, isBlank c = true) ∧
      ∀ c ∈ rest.head?, isBlank c = false := by
  refine ⟨cs.takeWhile isBlank, cs.dropWhile isBlank, List.takeWhile_append_dropWhile.symm,
    List.all_eq_true.1 List.all_takeWhile, fun c hc => ?_⟩
  simpa [Option.mem_def.1 hc] using List.head?_dropWhile_not isBlank cs

/-- Cutting tokens off a text, from the place between `before` and `rest` to the place between
`behind` and `ahead`: each is a lexeme behind blanks, and has the span of that lexeme. -/
inductive Munch :
    (before rest : List Char) → (front : List Token) → (behind ahead : List Char) → Prop
  | nil (before rest : List Char) : Munch before rest [] before rest
  | token {before blanks cs rest behind ahead : List Char} {k : TokenKind} {front : List Token}
    (hblanks : ∀ c ∈ blanks, Text.isBlank c = true) (hk : k.Covers (before ++ blanks) cs rest)
    (h : Munch (before ++ blanks ++ cs) rest front behind ahead) :
    Munch before (blanks ++ (cs ++ rest)) (⟨k, .of (before ++ blanks) cs⟩ :: front) behind ahead

/-- The end of the input as a token: it stands behind the whole text, and covers nothing. -/
def Token.atEnd (source : String) : Token :=
  ⟨.eof, ⟨source.utf8ByteSize, source.utf8ByteSize, .after source.toList⟩⟩

namespace Munch

/-- Some tokens are a whole text: its lexemes, with nothing but blanks between them and at both
ends, and the end of the input. -/
def Ends (source : String) (ts : List Token) : Prop :=
  ∃ front behind blanks, Munch [] source.toList front behind blanks ∧
    (∀ c ∈ blanks, Text.isBlank c = true) ∧ ts = front ++ [.atEnd source]

/-- An error stands at the first place of a text where no lexeme lies: blanks and lexemes are in
front of it, and it says what is wrong there. -/
def Sticks (source : String) (e : LexError) : Prop :=
  ∃ front behind blanks rest, Munch [] source.toList front behind (blanks ++ rest) ∧
    (∀ c ∈ blanks, Text.isBlank c = true) ∧
    (∀ k cs post, rest = cs ++ post → ¬ TokenKind.Covers k (behind ++ blanks) cs post) ∧
    e.defect.Refuses (behind ++ blanks) rest ∧ e.position = .after (behind ++ blanks)

variable {before rest behind ahead : List Char} {front : List Token}

/-- Cutting moves a stretch of the text from what lies ahead to what lies behind. -/
theorem exists_stretch (h : Munch before rest front behind ahead) :
    ∃ stretch, behind = before ++ stretch ∧ rest = stretch ++ ahead := by
  induction h with
  | nil before rest => exact ⟨[], (List.append_nil before).symm, rfl⟩
  | @token before blanks cs _ _ _ _ _ _ _ _ ih =>
    obtain ⟨stretch, rfl, rfl⟩ := ih
    exact ⟨blanks ++ (cs ++ stretch), by simp, by simp⟩

theorem append_eq (h : Munch before rest front behind ahead) :
    behind ++ ahead = before ++ rest := by
  obtain ⟨stretch, rfl, rfl⟩ := h.exists_stretch
  rw [List.append_assoc]

/-- Every token is the lexeme that its span says, and lies in front of what is left. -/
theorem covers_of_mem (h : Munch before rest front behind ahead) {t : Token} (ht : t ∈ front) :
    ∃ gap cs post, rest = gap ++ (cs ++ (post ++ ahead)) ∧ t.span = .of (before ++ gap) cs ∧
      t.kind.Covers (before ++ gap) cs (post ++ ahead) := by
  induction h with
  | nil => cases ht
  | @token before blanks cs rest behind ahead k front _ hk h ih =>
    rcases List.mem_cons.1 ht with rfl | ht
    · obtain ⟨post, -, rfl⟩ := h.exists_stretch
      exact ⟨blanks, cs, post, rfl, rfl, hk⟩
    · obtain ⟨gap, ds, post, rfl, hspan, hcovers⟩ := ih ht
      refine ⟨blanks ++ (cs ++ gap), ds, post, by simp, ?_, ?_⟩
      · simpa using hspan
      · simpa using hcovers

/-- The tokens stand one behind the other. -/
theorem pairwise (h : Munch before rest front behind ahead) :
    front.Pairwise fun t u => t.span.stop ≤ u.span.start := by
  induction h with
  | nil => exact .nil
  | token _ _ h ih =>
    refine .cons (fun u hu => ?_) ih
    obtain ⟨gap, cs, post, -, hspan, -⟩ := h.covers_of_mem hu
    rw [hspan]
    simp only [Span.of, utf8ByteSize_ofList_append]
    omega

theorem Ends.pairwise {source : String} {ts : List Token} (h : Ends source ts) :
    ts.Pairwise fun t u => t.span.stop ≤ u.span.start := by
  obtain ⟨front, behind, blanks, hmunch, -, rfl⟩ := h
  refine List.pairwise_append.2 ⟨hmunch.pairwise, List.pairwise_singleton _ _, fun t ht u hu => ?_⟩
  obtain rfl := List.mem_singleton.1 hu
  obtain ⟨gap, cs, post, hsource, hspan, -⟩ := hmunch.covers_of_mem ht
  rw [hspan, Token.atEnd, ← String.ofList_toList (s := source), hsource]
  simp only [Span.of, List.nil_append, utf8ByteSize_ofList_append]
  omega

theorem Ends.covers_of_mem {source : String} {ts : List Token} (h : Ends source ts) {t : Token}
    (ht : t ∈ ts) : ∃ before cs post, source.toList = before ++ (cs ++ post) ∧
      t.span = .of before cs ∧ (t.kind.Covers before cs post ∨ t = .atEnd source ∧ post = []) := by
  obtain ⟨front, behind, blanks, hmunch, -, rfl⟩ := h
  rcases List.mem_append.1 ht with ht | ht
  · obtain ⟨gap, cs, post, hsource, hspan, hcovers⟩ := hmunch.covers_of_mem ht
    exact ⟨gap, cs, post ++ blanks, hsource, hspan, .inl hcovers⟩
  · obtain rfl := List.mem_singleton.1 ht
    refine ⟨source.toList, [], [], by simp, ?_, .inr ⟨rfl, rfl⟩⟩
    rw [Token.atEnd, Span.of, List.append_nil, String.ofList_toList]

/-- The lexer cuts off the same tokens. -/
theorem items_eq (h : Munch before rest front behind ahead) :
    (Lexer.between before rest).items = front.map .ok ++ (Lexer.between behind ahead).items := by
  induction h with
  | nil => rfl
  | token hblanks hk _ ih =>
    have hnext := Lexer.next_of_covers hblanks hk
    rw [Lexer.items_of_token (congrArg Prod.fst hnext) hk.ne_eof, hnext, ih]
    rfl

/-- **Every text can be cut** up to its end or to a place where no lexeme lies. No run is broken off
at the places in between, so that what is read there are whole runs. -/
theorem exists_of_apart (h : Apart before rest) :
    ∃ front behind blanks ahead, Munch before rest front behind (blanks ++ ahead) ∧
      (∀ c ∈ blanks, Text.isBlank c = true) ∧
      (ahead = [] ∨ ∃ d : LexDefect, d.Refuses (behind ++ blanks) ahead) := by
  induction hn : rest.length using Nat.strongRecOn generalizing before rest with
  | ind n ih =>
    subst hn
    obtain ⟨blanks, ahead, rfl, hblanks, hhead⟩ := Text.exists_blanks rest
    by_cases hne : ahead = []
    · exact ⟨[], before, blanks, ahead, .nil _ _, hblanks, .inl hne⟩
    obtain ⟨k, cs, rest, rfl, hk⟩ | hd := Lexeme.covers_or_refuses hne hhead (h.blanks hblanks)
    · -- behind a lexeme no run is broken off either, and less lies ahead
      have hlt : rest.length < (blanks ++ (cs ++ rest)).length := by
        obtain ⟨c, ds, rfl, -⟩ := hk.exists_cons
        simp only [List.length_append, List.length_cons]
        omega
      obtain ⟨front, behind, gap, ahead, hmunch, hgap, hstop⟩ := ih _ hlt hk.apart rfl
      exact ⟨_, behind, gap, ahead, .token hblanks hk hmunch, hgap, hstop⟩
    · exact ⟨[], before, blanks, ahead, .nil _ _, hblanks, .inr hd⟩

theorem ends_or_sticks (source : String) :
    (∃ ts, Ends source ts) ∨ ∃ e, Sticks source e := by
  have hapart : Apart [] source.toList := by simp [Apart]
  obtain ⟨front, behind, blanks, ahead, hmunch, hblanks, rfl | ⟨d, hd⟩⟩ := exists_of_apart hapart
  · rw [List.append_nil] at hmunch
    exact .inl ⟨_, front, behind, blanks, hmunch, hblanks, rfl⟩
  · refine .inr ⟨⟨d, _⟩, front, behind, blanks, ahead, hmunch, hblanks, ?_, hd, rfl⟩
    rintro k cs post rfl
    exact hd.not_covers

end Munch

/-! ## The tokens of a text -/

/-- Tokens in front of some items. -/
theorem mapM_append_ok (front : List Token) (items : List Item) :
    (front.map .ok ++ items : List Item).mapM id = (items.mapM id).map (front ++ ·) := by
  induction front with
  | nil =>
    rw [List.map_nil, List.nil_append]
    cases items.mapM id <;> rfl
  | cons t front ih =>
    rw [List.map_cons, List.cons_append, List.mapM_cons, ih]
    cases items.mapM id <;> rfl

section Tokenize

variable {source : String} {ts : List Token} {e : LexError}

/-- The stream of a text that can be cut to its end. -/
theorem items_of_ends (h : Munch.Ends source ts) :
    (Lexer.ofString source).items = ts.map .ok := by
  obtain ⟨front, behind, blanks, hmunch, hblanks, rfl⟩ := h
  have hall : behind ++ blanks = source.toList := hmunch.append_eq
  have hend : (⟨.eof, .of (behind ++ blanks) []⟩ : Token) = .atEnd source := by
    rw [Span.of, List.append_nil, hall, String.ofList_toList, Token.atEnd]
  rw [Lexer.ofString_eq, hmunch.items_eq, Lexer.items_of_eof (Lexer.next_of_blanks hblanks) rfl,
    hend, List.map_append, List.map_singleton]

theorem tokenize_of_ends (h : Munch.Ends source ts) : tokenize source = .ok ts := by
  have hts := mapM_append_ok ts []
  rw [List.append_nil] at hts
  rw [tokenize, items_of_ends h, hts]
  exact congrArg Except.ok (List.append_nil ts)

/-- The stream of a text that can be cut up to a place where no lexeme lies. -/
theorem items_of_sticks {front : List Token} {behind blanks rest : List Char}
    (hmunch : Munch [] source.toList front behind (blanks ++ rest))
    (hblanks : ∀ c ∈ blanks, Text.isBlank c = true)
    (hd : e.defect.Refuses (behind ++ blanks) rest)
    (hposition : e.position = .after (behind ++ blanks)) :
    (Lexer.ofString source).items = front.map .ok ++ [.error e] := by
  rw [Lexer.ofString_eq, hmunch.items_eq,
    Lexer.items_of_error (Lexer.next_of_refuses hblanks hd), ← hposition]

theorem tokenize_of_sticks (h : Munch.Sticks source e) : tokenize source = .error e := by
  obtain ⟨front, behind, blanks, rest, hmunch, hblanks, -, hd, hposition⟩ := h
  rw [tokenize, items_of_sticks hmunch hblanks hd hposition, mapM_append_ok]
  rfl

theorem tokenize_eq_ok_iff : tokenize source = .ok ts ↔ Munch.Ends source ts := by
  refine ⟨fun h => ?_, tokenize_of_ends⟩
  obtain ⟨ts', hends⟩ | ⟨e, hsticks⟩ := Munch.ends_or_sticks source
  · rw [tokenize_of_ends hends] at h
    exact Except.ok.inj h ▸ hends
  · rw [tokenize_of_sticks hsticks] at h
    cases h

theorem tokenize_eq_error_iff : tokenize source = .error e ↔ Munch.Sticks source e := by
  refine ⟨fun h => ?_, tokenize_of_sticks⟩
  obtain ⟨ts, hends⟩ | ⟨e', hsticks⟩ := Munch.ends_or_sticks source
  · rw [tokenize_of_ends hends] at h
    cases h
  · rw [tokenize_of_sticks hsticks] at h
    exact Except.error.inj h ▸ hsticks

end Tokenize

/-- **The tokens of a text are its maximal munch.** If the whole of a text can be cut into lexemes,
it has them as tokens, in their order and each with its own span, and otherwise the error of the
first place where no lexeme lies. -/
theorem tokenize_is_maximal_munch (source : String) :
    (∀ ts, tokenize source = .ok ts ↔ Munch.Ends source ts) ∧
      (∀ e, tokenize source = .error e ↔ Munch.Sticks source e) ∧
      ∀ ts, tokenize source = .ok ts →
        ts.Pairwise (fun t u => t.span.stop ≤ u.span.start) ∧
        ∀ t ∈ ts, ∃ before cs post, source.toList = before ++ (cs ++ post) ∧
          t.span = .of before cs ∧
          (t.kind.Covers before cs post ∨ t = .atEnd source ∧ post = []) := by
  refine ⟨fun _ => tokenize_eq_ok_iff, fun _ => tokenize_eq_error_iff, fun ts h => ?_⟩
  have hends := tokenize_eq_ok_iff.1 h
  exact ⟨hends.pairwise, fun t ht => hends.covers_of_mem ht⟩

/-- A text with a character of two bytes and a line break, between a keyword and a number. -/
theorem tokenize_is_maximal_munch_across_lines :
    let source := "Do\t\"é\n\" 007"
    let ts : List Token := [⟨.keyword .doWord, ⟨0, 2, ⟨1, 0⟩⟩⟩, ⟨.text "é\n", ⟨3, 8, ⟨1, 3⟩⟩⟩,
      ⟨.number 7, ⟨9, 12, ⟨2, 2⟩⟩⟩, ⟨.eof, ⟨12, 12, ⟨2, 5⟩⟩⟩]
    tokenize source = .ok ts ∧ ts.Pairwise (fun t u => t.span.stop ≤ u.span.start) ∧
      ∀ t ∈ ts, ∃ before cs post, source.toList = before ++ (cs ++ post) ∧
        t.span = .of before cs ∧
        (t.kind.Covers before cs post ∨ t = .atEnd source ∧ post = []) := by
  intro source ts
  have hword : (TokenKind.keyword .doWord).Covers [] ['D', 'o']
      (['\t'] ++ (['"', 'é', '\n', '"'] ++ ([' '] ++ (['0', '0', '7'] ++ [])))) :=
    ⟨⟨by simp, List.all_eq_true.1 rfl, by simp, by simp⟩, rfl⟩
  have htext : (TokenKind.text "é\n").Covers ['D', 'o', '\t'] ['"', 'é', '\n', '"']
      ([' '] ++ (['0', '0', '7'] ++ [])) :=
    ⟨by decide, rfl⟩
  have hnumber : (TokenKind.number 7).Covers ['D', 'o', '\t', '"', 'é', '\n', '"', ' ']
      ['0', '0', '7'] [] :=
    ⟨⟨by simp, List.all_eq_true.1 rfl, by simp, by simp⟩, rfl⟩
  have hsource : source.toList = ['D', 'o', '\t', '"', 'é', '\n', '"', ' ', '0', '0', '7'] := by
    simp [source]
  have hmunch : Munch [] source.toList (ts.take 3) source.toList [] := by
    rw [hsource]
    exact @Munch.token [] [] _ _ _ _ _ _ (by simp) hword <|
      @Munch.token _ ['\t'] _ _ _ _ _ _ (List.all_eq_true.1 rfl) htext <|
        @Munch.token _ [' '] _ _ _ _ _ _ (List.all_eq_true.1 rfl) hnumber (.nil _ _)
  have hend : Token.atEnd source = ⟨.eof, ⟨12, 12, ⟨2, 5⟩⟩⟩ := by
    rw [Token.atEnd, hsource]
    rfl
  have htokens : tokenize source = .ok ts :=
    tokenize_of_ends ⟨ts.take 3, source.toList, [], hmunch, by simp, by rw [hend]; rfl⟩
  exact ⟨htokens, (tokenize_is_maximal_munch source).2.2 ts htokens⟩

end Abecedary
