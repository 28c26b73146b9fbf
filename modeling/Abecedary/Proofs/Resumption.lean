import Mathlib.Data.List.Induction
import Mathlib.Logic.Function.Iterate
import Abecedary.Proofs.Streaming

/-!
# Going on after errors

A lexer can be called on after an error. `l.drop n` is the lexer after `n` calls. It always stands
between two parts of the text, and what a call does there is a `Lexer.Call`: it gives what a new
lexer gives on what lies ahead, with places moved behind what has been read, and it passes over
blanks and over what its result takes up (`Item.TakesUp`). Only the end of the text and a stray
character take up nothing, and there the lexer stays. One of the two is met after no more calls than
the text has characters (`lexer_goes_on_after_errors`).
-/

namespace Abecedary

/-! ## Places behind a text -/

/-- A place of a text as a place of the text that goes on with it at `base`. -/
def Position.behind (base p : Position) : Position :=
  ⟨base.line + (p.line - 1), if p.line = 1 then base.column + p.column else p.column⟩

/-- A span of a text as a span of the text with some characters in front. -/
def Span.behind (before : List Char) (s : Span) : Span :=
  ⟨(String.ofList before).utf8ByteSize + s.start, (String.ofList before).utf8ByteSize + s.stop,
    .behind (.after before) s.position⟩

/-- A result on a text as a result on the text with some characters in front. -/
def Item.behind (before : List Char) : Item → Item
  | .ok t => .ok ⟨t.kind, t.span.behind before⟩
  | .error e => .error ⟨e.defect, .behind (.after before) e.position⟩

theorem Position.after_append (before cs : List Char) :
    after (before ++ cs) = behind (after before) (after cs) := by
  induction cs using List.reverseRecOn with
  | nil => simp [behind, after]
  | append_singleton cs c ih =>
    rw [← List.append_assoc, after_concat, after_concat, ih]
    by_cases hc : c = '\n'
    · simp [advance, behind, hc, after]
      omega
    · simp only [advance, behind, hc, if_false]
      split <;> rfl

theorem Span.of_append (before gap cs : List Char) :
    Span.of (before ++ gap) cs = (Span.of gap cs).behind before := by
  simp only [of, behind, Position.after_append, List.append_assoc, utf8ByteSize_ofList_append]

/-! ## Results -/

/-- Whether the lexer stays where it gave a result: at the end of the input or at a stray
character. -/
def Item.IsStop : Item → Prop
  | .ok t => t.kind = .eof
  | .error e => ∃ c, e.defect = .strayCharacter c

/-- Whether some characters are what a result takes up: the lexeme of a token, the whole of a bad
word or number, and all that is left behind a quote that is not closed. The end of the input and a
stray character take up nothing. -/
def Item.TakesUp (before cs rest : List Char) : Item → Prop
  | .ok t => t.span = .of before cs ∧
    (t.kind.Covers before cs rest ∨ t.kind = .eof ∧ cs = [] ∧ rest = [])
  | .error e => e.position = .after before ∧
    match e.defect with
    | .strayCharacter c => LexDefect.Refuses (.strayCharacter c) before rest ∧ cs = []
    | .unknownWord word => IsRun Char.isAlpha before cs rest ∧
      word = String.ofList (cs.map Char.toLower)
    | .numberTooLarge digits => IsRun Char.isDigit before cs rest ∧ digits = String.ofList cs
    | .unclosedText => (∃ body, cs = '"' :: body ∧ '"' ∉ body) ∧ rest = []
    | .badEncoding => False

namespace Lexeme

theorem itemAt_append (before gap : List Char) (x : Lexeme) :
    x.itemAt (before ++ gap) = (x.itemAt gap).behind before := by
  unfold itemAt
  cases x.meaning with
  | ok kind => simp only [Item.behind, Span.of_append]
  | error defect => simp only [Item.behind, Position.after_append]

variable {before rest : List Char}

/-- A place that is refused is passed over up to where what is wrong with it ends. -/
theorem takesUp_of_refuses {d : LexDefect} (hd : d.Refuses before rest) :
    ((first rest).itemAt before).TakesUp before (first rest).chars (first rest).rest := by
  have hmeaning := meaning_of_refuses hd
  simp only [itemAt, hmeaning, Item.TakesUp, true_and]
  cases d with
  | strayCharacter c =>
    have hnil : (first rest).chars = [] := (first_chars_eq_nil_iff rest).2 (.inr ⟨c, hmeaning⟩)
    have hrest := first_split rest
    rw [hnil, List.nil_append] at hrest
    exact ⟨hrest.symm ▸ hd, hnil⟩
  | unknownWord word =>
    obtain ⟨cs, post, rfl, hrun, hword, -⟩ := hd
    rw [hrun.first_of_letters]
    exact ⟨hrun, hword⟩
  | numberTooLarge digits =>
    obtain ⟨cs, post, rfl, hrun, hdigits, -⟩ := hd
    rw [hrun.first_of_digits]
    exact ⟨hrun, hdigits⟩
  | unclosedText =>
    obtain ⟨cs, rfl, hcs⟩ := hd
    rw [first_unclosed hcs]
    exact ⟨⟨cs, rfl, hcs⟩, rfl⟩
  | badEncoding => exact hd.elim

/-- **What a result takes up is the lexeme that was read**, whatever it is. -/
theorem takesUp_first (hblank : ∀ c ∈ rest.head?, Text.isBlank c = false)
    (hapart : Apart before rest) :
    ((first rest).itemAt before).TakesUp before (first rest).chars (first rest).rest := by
  by_cases hnil : rest = []
  · subst hnil
    exact ⟨rfl, .inr ⟨rfl, rfl, rfl⟩⟩
  · have hmeets := first_meets hnil hblank hapart
    cases hmeaning : (first rest).meaning with
    | ok k =>
      simp only [Meets, hmeaning] at hmeets
      simp only [itemAt, hmeaning]
      exact ⟨rfl, .inl hmeets⟩
    | error d =>
      simp only [Meets, hmeaning] at hmeets
      exact takesUp_of_refuses hmeets

end Lexeme

namespace Item.TakesUp

variable {before cs rest : List Char} {i : Item}

/-- What a result is about does not begin with a blank. -/
theorem not_isBlank_of_mem_head? (h : Item.TakesUp before cs rest i) :
    ∀ c ∈ (cs ++ rest).head?, Text.isBlank c = false := by
  obtain ⟨c, ds, hds, hc⟩ | hnil :
      (∃ c ds, cs ++ rest = c :: ds ∧ Text.isBlank c = false) ∨ cs ++ rest = [] := by
    cases i with
    | ok t =>
      obtain ⟨-, hcovers | ⟨-, rfl, rfl⟩⟩ := h
      · obtain ⟨c, ds, rfl, hc⟩ := hcovers.exists_cons
        exact .inl ⟨c, ds ++ rest, rfl, hc⟩
      · exact .inr rfl
    | error e =>
      obtain ⟨d, position⟩ := e
      obtain ⟨-, h⟩ := h
      cases d with
      | strayCharacter c =>
        obtain ⟨hd, rfl⟩ := h
        exact .inl hd.exists_cons
      | unknownWord word =>
        obtain ⟨c, ds, rfl, hc⟩ := h.1.exists_cons
        exact .inl ⟨c, ds ++ rest, rfl, Text.isBlank_eq_false_of_word (.inl hc)⟩
      | numberTooLarge digits =>
        obtain ⟨c, ds, rfl, hc⟩ := h.1.exists_cons
        exact .inl ⟨c, ds ++ rest, rfl, Text.isBlank_eq_false_of_word (.inr hc)⟩
      | unclosedText =>
        obtain ⟨⟨body, rfl, -⟩, -⟩ := h
        exact .inl ⟨'"', body ++ rest, rfl, rfl⟩
      | badEncoding => exact h.elim
  · simp [hds, hc]
  · simp [hnil]

/-- No run is broken off behind what a result takes up. -/
theorem apart (h : Item.TakesUp before cs rest i) (hapart : Apart before (cs ++ rest)) :
    Apart (before ++ cs) rest := by
  cases i with
  | ok t =>
    obtain ⟨-, hcovers | ⟨-, rfl, rfl⟩⟩ := h
    · exact hcovers.apart
    · simpa using hapart
  | error e =>
    obtain ⟨d, position⟩ := e
    obtain ⟨-, h⟩ := h
    cases d with
    | strayCharacter c =>
      obtain ⟨-, rfl⟩ := h
      simpa using hapart
    | unknownWord word => exact h.1.apart_of_letters
    | numberTooLarge digits => exact h.1.apart_of_digits
    | unclosedText =>
      obtain ⟨-, rfl⟩ := h
      simp [Apart]
    | badEncoding => exact h.elim

end Item.TakesUp

/-! ## One call -/

namespace Lexer

/-- Of the results only those at which the lexer stays take up nothing. -/
theorem isStop_next_iff (l : Lexer) :
    l.next.1.IsStop ↔ (Lexeme.first l.skipBlanks.rest).chars = [] := by
  rw [Lexeme.first_chars_eq_nil_iff, next]
  cases hmeaning : (Lexeme.first l.skipBlanks.rest).meaning <;> simp [Item.IsStop]

/-- What a call does between two parts of a text: it passes over blanks and over the characters
`cs`, and goes on behind them. -/
structure Call (l : Lexer) (before blanks cs rest : List Char) : Prop where
  stands : l = between before (blanks ++ (cs ++ rest))
  blank : ∀ c ∈ blanks, Text.isBlank c = true
  fresh : l.next.1 = (ofString (String.ofList (blanks ++ (cs ++ rest)))).next.1.behind before
  takesUp : l.next.1.TakesUp (before ++ blanks) cs rest
  takes_nil_iff : cs = [] ↔ l.next.1.IsStop
  goesOn : l.next.2 = between (before ++ blanks ++ cs) rest

/-- Every call passes over some blanks and over what its result takes up. -/
theorem exists_call {before ahead : List Char} (hapart : Apart before ahead) :
    ∃ blanks cs rest, ahead = blanks ++ (cs ++ rest) ∧
      Call (between before ahead) before blanks cs rest ∧ Apart (before ++ blanks ++ cs) rest := by
  obtain ⟨blanks, lexeme, rfl, hblanks, hhead⟩ := Text.exists_blanks ahead
  have hnext := next_between before hblanks hhead
  have hfresh := next_between [] hblanks hhead
  have hsplit := Lexeme.first_split lexeme
  have htakes := Lexeme.takesUp_first hhead (hapart.blanks hblanks)
  refine ⟨blanks, (Lexeme.first lexeme).chars, (Lexeme.first lexeme).rest, by rw [hsplit],
    ⟨by rw [hsplit], hblanks, ?_, ?_, ?_, ?_⟩, ?_⟩
  · rw [hsplit, ofString_eq, String.toList_ofList, hnext, hfresh, List.nil_append]
    exact Lexeme.itemAt_append before blanks _
  · rwa [hnext]
  · rw [isStop_next_iff, skipBlanks_between hblanks hhead, between]
  · rw [hnext]
  · apply htakes.apart
    rw [hsplit]
    exact hapart.blanks hblanks

namespace Call

variable {l : Lexer} {before blanks cs rest : List Char}

/-- A lexer that stops takes up nothing: the next call finds the same place and gives the same. -/
theorem next_eq_of_isStop (h : Call l before blanks cs rest) (hstop : l.next.1.IsStop) :
    l.next.2.next.1 = l.next.1 := by
  obtain rfl := h.takes_nil_iff.2 hstop
  have hhead := h.takesUp.not_isBlank_of_mem_head?
  have hagain := next_between (before ++ blanks) (List.forall_mem_nil _) hhead
  have hgoesOn := h.goesOn
  rw [List.append_nil] at hgoesOn hagain
  rw [hgoesOn]
  refine (congrArg Prod.fst hagain).trans ?_
  rw [h.stands, next_between before h.blank hhead]

end Call

/-! ## Many calls -/

/-- The lexer after a number of calls. -/
def drop (l : Lexer) (n : Nat) : Lexer := (fun l => l.next.2)^[n] l

theorem drop_succ (l : Lexer) (n : Nat) : l.drop (n + 1) = l.next.2.drop n :=
  Function.iterate_succ_apply _ n l

theorem drop_succ' (l : Lexer) (n : Nat) : l.drop (n + 1) = (l.drop n).next.2 :=
  Function.iterate_succ_apply' _ n l

/-- The results of some calls are those of one call after the other. -/
theorem take_eq_map (l : Lexer) (n : Nat) :
    l.take n = (List.range n).map fun k => (l.drop k).next.1 := by
  induction n generalizing l with
  | zero => rfl
  | succ n ih =>
    have htake : l.take (n + 1) = l.next.1 :: l.next.2.take n := rfl
    rw [htake, ih, List.range_succ_eq_map, List.map_cons, List.map_map]
    congr 1

/-- **Every call on a text is made between two parts of it**, of which holds what holds at the
beginning and is kept by calls. -/
theorem exists_call_drop_of {P : (before ahead : List Char) → Prop} (source : String)
    (hstart : P [] source.toList)
    (hkept : ∀ {l before blanks cs rest}, Call l before blanks cs rest →
      P before (blanks ++ (cs ++ rest)) → P (before ++ blanks ++ cs) rest) (k : Nat) :
    ∃ before blanks cs rest, source.toList = before ++ (blanks ++ (cs ++ rest)) ∧
      Call ((ofString source).drop k) before blanks cs rest ∧ P before (blanks ++ (cs ++ rest)) ∧
      Apart (before ++ blanks ++ cs) rest := by
  induction k with
  | zero =>
    have hapart : Apart [] source.toList := by simp [Apart]
    obtain ⟨blanks, cs, rest, hsource, hcall, hbehind⟩ := exists_call hapart
    exact ⟨[], blanks, cs, rest, hsource, hcall, hsource ▸ hstart, hbehind⟩
  | succ k ih =>
    obtain ⟨before, blanks, cs, ahead, hsource, hcall, hP, hapart⟩ := ih
    obtain ⟨gap, ds, rest, rfl, hnext, hbehind⟩ := exists_call hapart
    refine ⟨before ++ blanks ++ cs, gap, ds, rest, by simpa using hsource, ?_, hkept hcall hP,
      hbehind⟩
    rw [drop_succ', hcall.goesOn]
    exact hnext

theorem exists_call_drop (source : String) (k : Nat) :
    ∃ before blanks cs rest, source.toList = before ++ (blanks ++ (cs ++ rest)) ∧
      Call ((ofString source).drop k) before blanks cs rest := by
  obtain ⟨before, blanks, cs, rest, hsource, hcall, -⟩ :=
    exists_call_drop_of (P := fun _ _ => True) source trivial (fun _ _ => trivial) k
  exact ⟨before, blanks, cs, rest, hsource, hcall⟩

/-- **A lexer that stops gives the same from then on.** -/
theorem next_drop_add_of_isStop {source : String} {k : Nat}
    (hstop : ((ofString source).drop k).next.1.IsStop) (m : Nat) :
    ((ofString source).drop (k + m)).next.1 = ((ofString source).drop k).next.1 := by
  induction m with
  | zero => rfl
  | succ m ih =>
    obtain ⟨before, blanks, cs, rest, -, hcall⟩ := exists_call_drop source (k + m)
    rw [← ih] at hstop
    rw [← Nat.add_assoc, drop_succ', hcall.next_eq_of_isStop hstop, ih]

/-- **A stop is met** after as many calls as there are characters ahead at the latest. -/
theorem exists_isStop (l : Lexer) : ∃ k ≤ l.rest.length, (l.drop k).next.1.IsStop := by
  induction hn : l.rest.length using Nat.strongRecOn generalizing l with
  | ind n ih =>
    subst hn
    by_cases hstop : l.next.1.IsStop
    · exact ⟨0, Nat.zero_le _, hstop⟩
    · rw [isStop_next_iff] at hstop
      have hlt := next_rest_length_lt_of_ne_nil hstop
      obtain ⟨k, hk, hlater⟩ := ih _ hlt l.next.2 rfl
      exact ⟨k + 1, by omega, by rwa [drop_succ]⟩

/-- A text has one item more than it has characters at the most. -/
theorem length_items_le (l : Lexer) : l.items.length ≤ l.rest.length + 1 := by
  induction l using items_induction with
  | error l e hnext => simp [items_of_error hnext]
  | eof l t hnext heof => simp [items_of_eof hnext heof]
  | token l t hnext hne ih =>
    have hlt := next_rest_length_lt hnext hne
    rw [items_of_token hnext hne, List.length_cons]
    omega

theorem length_take (l : Lexer) (n : Nat) : (l.take n).length = n := by
  rw [take_eq_map, List.length_map, List.length_range]

theorem take_length_items (l : Lexer) : l.take l.items.length = l.items := by
  obtain ⟨more, hmore⟩ := exists_take_eq (Nat.le_refl l.items.length)
  have hlength := congrArg List.length hmore
  rw [length_take, List.length_append] at hlength
  rw [hmore, List.eq_nil_of_length_eq_zero (l := more) (by omega), List.append_nil]

end Lexer

/-- **A lexer goes on after errors.** Some calls on a text are one call after the other; each is
made between two parts of the text and does what a new lexer does on the second of them. When one
has met the end of the input or a stray character, it and all that follow give the same; this
happens after as many calls as the text has characters at the latest. So reading the tokens of the
text ends as well, with the first call that gives no token or the last one. -/
theorem lexer_goes_on_after_errors (source : String) :
    (∀ n, (Lexer.ofString source).take n =
      (List.range n).map fun k => ((Lexer.ofString source).drop k).next.1) ∧
    (∀ k, ∃ before blanks cs rest, source.toList = before ++ (blanks ++ (cs ++ rest)) ∧
      ((Lexer.ofString source).drop k).Call before blanks cs rest ∧
      (Lexer.ofString source).drop (k + 1) = .between (before ++ blanks ++ cs) rest) ∧
    (∀ k m, ((Lexer.ofString source).drop k).next.1.IsStop →
      ((Lexer.ofString source).drop (k + m)).next.1 = ((Lexer.ofString source).drop k).next.1) ∧
    (∃ k ≤ source.length, ((Lexer.ofString source).drop k).next.1.IsStop) ∧
    ∃ (front : List Token) (last : Item), front.length ≤ source.length ∧
      (Lexer.ofString source).take (front.length + 1) = front.map .ok ++ [last] ∧
      (∀ t ∈ front, t.kind ≠ .eof) ∧ Parser.IsLast last ∧
      tokenize source = last.map (front ++ [·]) := by
  refine ⟨Lexer.take_eq_map _, fun k => ?_, fun k m hstop => Lexer.next_drop_add_of_isStop hstop m,
    ?_, ?_⟩
  · obtain ⟨before, blanks, cs, rest, hsource, hcall⟩ := Lexer.exists_call_drop source k
    exact ⟨before, blanks, cs, rest, hsource, hcall, by rw [Lexer.drop_succ', hcall.goesOn]⟩
  · rw [← String.length_toList]
    exact Lexer.exists_isStop (Lexer.ofString source)
  · obtain ⟨front, last, hitems, hfront, hlast, htokens⟩ := exists_items_eq source
    have hlength : (Lexer.ofString source).items.length = front.length + 1 := by
      simp [hitems]
    have hle := Lexer.length_items_le (Lexer.ofString source)
    have htake := Lexer.take_length_items (Lexer.ofString source)
    rw [hlength] at hle htake
    have hfit : front.length ≤ source.length := by
      rw [← String.length_toList]
      exact Nat.le_of_succ_le_succ hle
    exact ⟨front, last, hfit, htake.trans hitems, hfront, hlast, htokens⟩

/-- A bad word, a number that is too large and a text are passed over, a stray character is not. -/
theorem lexer_goes_on_after_errors_up_to_stray_character :
    let source := "no\n9999999999999999999 \"ü\"@"
    (Lexer.ofString source).take 5 = [.error ⟨.unknownWord "no", ⟨1, 0⟩⟩,
        .error ⟨.numberTooLarge "9999999999999999999", ⟨2, 0⟩⟩, .ok ⟨.text "ü", ⟨23, 27, ⟨2, 20⟩⟩⟩,
        .error ⟨.strayCharacter '@', ⟨2, 23⟩⟩, .error ⟨.strayCharacter '@', ⟨2, 23⟩⟩] ∧
      ((Lexer.ofString source).drop 3).next.1.IsStop ∧
      ((Lexer.ofString source).drop (3 + 7)).next.1 = ((Lexer.ofString source).drop 3).next.1 := by
  intro source
  have hcall : ((Lexer.ofString source).drop 3).next.1 =
      .error ⟨.strayCharacter '@', ⟨2, 23⟩⟩ := by decide +kernel
  have hstop : ((Lexer.ofString source).drop 3).next.1.IsStop := by
    rw [hcall]
    exact ⟨'@', rfl⟩
  obtain ⟨-, -, hstays, -⟩ := lexer_goes_on_after_errors source
  exact ⟨by decide +kernel, hstop, hstays 3 7 hstop⟩

end Abecedary
