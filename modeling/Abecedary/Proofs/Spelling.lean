import Abecedary.Proofs.Printing
import Abecedary.Lexer

/-!
# Spelling tokens

`TokenKind.spelling` is a text that the lexer reads as the token (`Lexeme.first_spelling`), if what
follows does not go on with it. `render` spells a word with a space behind every token, and the
items of that text are the word and the end of the input (`items_renderChars`). In the other
direction every token that the lexer finds can be spelled (`spellable_of_mem_items`).
-/

namespace Abecedary

/-- A text that is read as the token. -/
def TokenKind.spelling : TokenKind → List Char
  | number n => Nat.toDigits 10 n.toInt.toNat
  | letter v => [v.letter]
  | text s => '"' :: (s.toList ++ ['"'])
  | keyword k => k.spelling.toList
  | mark m => [m.symbol]
  | eof => []

/-- Whether a token in front of some characters ends there: a word does not before a letter, nor a
number before a digit. -/
def TokenKind.EndsBefore (k : TokenKind) (rest : List Char) : Prop :=
  match k with
  | letter _ | keyword _ => ∀ c ∈ rest.head?, c.isAlpha = false
  | number _ => ∀ c ∈ rest.head?, c.isDigit = false
  | _ => True

/-- A word with every token spelled and a space behind it. -/
def renderChars (w : List TokenKind) : List Char := w.flatMap fun k => k.spelling ++ [' ']

/-- A word as a text. -/
def render (w : List TokenKind) : String := String.ofList (renderChars w)

/-! ## One lexeme -/

theorem Mark.ofChar?_symbol (m : Mark) : ofChar? m.symbol = some m := by
  cases m <;> rfl

theorem Mark.symbol_of_ofChar? {c : Char} {m : Mark} (h : ofChar? c = some m) : m.symbol = c := by
  simpa using List.find?_some h

theorem Mark.symbol_not_word (m : Mark) : m.symbol.isAlpha = false ∧ m.symbol.isDigit = false := by
  cases m <;> decide

theorem Mark.ofChar?_eq_none {c : Char} (h : c.isAlpha = true ∨ c.isDigit = true) :
    ofChar? c = none := by
  cases hm : ofChar? c with
  | none => rfl
  | some m =>
    have hnot := m.symbol_not_word
    rw [symbol_of_ofChar? hm] at hnot
    simp [hnot] at h

namespace Lexeme

theorem takeWhile_append_eq {p : Char → Bool} {cs rest : List Char} (hcs : ∀ c ∈ cs, p c = true)
    (hrest : ∀ c ∈ rest.head?, p c = false) :
    (cs ++ rest).takeWhile p = cs ∧ (cs ++ rest).dropWhile p = rest := by
  rw [List.takeWhile_append_of_pos hcs, List.dropWhile_append_of_pos hcs]
  cases rest with
  | nil => simp
  | cons c rest => simp [hrest c rfl]

theorem ne_quote_of_word {c : Char} (h : c.isAlpha = true ∨ c.isDigit = true) : c ≠ '"' := by
  rintro rfl
  simp at h

theorem first_of_isAlpha {c : Char} (hc : c.isAlpha = true) (cs : List Char) :
    first (c :: cs) = ⟨ofWord (c :: cs.takeWhile Char.isAlpha), c :: cs.takeWhile Char.isAlpha,
      cs.dropWhile Char.isAlpha⟩ := by
  simp [first, Mark.ofChar?_eq_none (.inl hc), ne_quote_of_word (.inl hc), hc]

theorem first_word {c : Char} {cs rest : List Char} (hc : c.isAlpha = true)
    (hcs : ∀ c ∈ cs, c.isAlpha = true) (hrest : ∀ c ∈ rest.head?, c.isAlpha = false) :
    first (c :: cs ++ rest) = ⟨ofWord (c :: cs), c :: cs, rest⟩ := by
  obtain ⟨htake, hdrop⟩ := takeWhile_append_eq hcs hrest
  rw [List.cons_append, first_of_isAlpha hc, htake, hdrop]

theorem isAlpha_of_isDigit {c : Char} (h : c.isDigit = true) : c.isAlpha = false := by
  have hdigit : (decide (c.val ≥ 48) && decide (c.val ≤ 57)) = true := h
  show (decide (c.val ≥ 65 ∧ c.val ≤ 90) || (decide (c.val ≥ 97) && decide (c.val ≤ 122))) = false
  grind

theorem first_of_isDigit {c : Char} (hc : c.isDigit = true) (cs : List Char) :
    first (c :: cs) = ⟨ofDigits (c :: cs.takeWhile Char.isDigit), c :: cs.takeWhile Char.isDigit,
      cs.dropWhile Char.isDigit⟩ := by
  simp [first, Mark.ofChar?_eq_none (.inr hc), ne_quote_of_word (.inr hc), isAlpha_of_isDigit hc,
    hc]

theorem first_digits {c : Char} {cs rest : List Char} (hc : c.isDigit = true)
    (hcs : ∀ c ∈ cs, c.isDigit = true) (hrest : ∀ c ∈ rest.head?, c.isDigit = false) :
    first (c :: cs ++ rest) = ⟨ofDigits (c :: cs), c :: cs, rest⟩ := by
  obtain ⟨htake, hdrop⟩ := takeWhile_append_eq hcs hrest
  rw [List.cons_append, first_of_isDigit hc, htake, hdrop]

theorem ne_quote_of_notMem {cs : List Char} (h : '"' ∉ cs) : ∀ c ∈ cs, decide (c ≠ '"') = true :=
  fun c hc => by simpa using ne_of_mem_of_not_mem hc h

/-- Up to the next quote there is none. -/
theorem quote_notMem_takeWhile (cs : List Char) : '"' ∉ cs.takeWhile (· ≠ '"') := fun hmem => by
  simpa using List.all_eq_true.1 List.all_takeWhile _ hmem

theorem first_quoted {cs : List Char} (rest : List Char) (hcs : '"' ∉ cs) :
    first ('"' :: (cs ++ ['"']) ++ rest) =
      ⟨.ok (.text (String.ofList cs)), '"' :: (cs ++ ['"']), rest⟩ := by
  have hclose : ∀ c ∈ ('"' :: rest).head?, decide (c ≠ '"') = false := by simp
  obtain ⟨htake, hdrop⟩ := takeWhile_append_eq (ne_quote_of_notMem hcs) hclose
  have hmark : Mark.ofChar? '"' = none := rfl
  simp only [List.cons_append, List.append_assoc, List.nil_append, first, hmark, if_true, quoted,
    htake, hdrop]

theorem toLower_letter (v : Variable) : v.letter.toLower = v.letter := by
  have h : ∀ i : Fin 26, (Variable.letter ⟨i⟩).toLower = Variable.letter ⟨i⟩ := by decide
  exact h v.index

theorem ofWord_keyword (k : Keyword) : ofWord k.spelling.toList = .ok (.keyword k) := by
  cases k <;> rfl

theorem ofWord_letter (v : Variable) : ofWord [v.letter] = .ok (.letter v) := by
  have hword : ∀ i : Fin 26, Keyword.ofWord? (String.ofList [Variable.letter ⟨i⟩]) = none := by
    decide
  simp only [ofWord, List.map_cons, List.map_nil, toLower_letter, hword v.index,
    Variable.ofLetter?_letter]

theorem ofDigits_eq_number {cs : List Char} {n : Int64}
    (h : (Nat.ofDigitChars 10 cs 0 : Int) = n.toInt) : ofDigits cs = .ok (.number n) := by
  have hlt := n.toInt_lt
  have hfits : Nat.ofDigitChars 10 cs 0 < 1 <<< 63 := by
    rw [Nat.shiftLeft_eq, Nat.one_mul]
    omega
  have hback : Int64.ofNat (Nat.ofDigitChars 10 cs 0) = n := by
    rw [← Int64.toInt_inj, Int64.toInt_ofNat_of_lt (by omega), h]
  simp only [ofDigits, if_pos hfits, hback]

theorem ofDigits_toDigits {n : Int64} (h : 0 ≤ n.toInt) :
    ofDigits (Nat.toDigits 10 n.toInt.toNat) = .ok (.number n) := by
  apply ofDigits_eq_number
  rw [Nat.ofDigitChars_ten_toDigits, Int.toNat_of_nonneg h]

/-- **A spelled token is read back**, whatever follows that does not go on with it. -/
theorem first_spelling {k : TokenKind} {rest : List Char} (hk : k.Spellable)
    (hrest : k.EndsBefore rest) : first (k.spelling ++ rest) = ⟨.ok k, k.spelling, rest⟩ := by
  cases k with
  | number n =>
    have hdigits : ∀ c ∈ Nat.toDigits 10 n.toInt.toNat, c.isDigit = true := fun c hc =>
      Nat.isDigit_of_mem_toDigits (by decide) (by decide) hc
    have hvalue := ofDigits_toDigits hk
    simp only [TokenKind.spelling]
    cases hcs : Nat.toDigits 10 n.toInt.toNat with
    | nil => exact (Nat.toDigits_ne_nil hcs).elim
    | cons c cs =>
      rw [hcs] at hdigits hvalue
      rw [List.forall_mem_cons] at hdigits
      rw [first_digits hdigits.1 hdigits.2 hrest, hvalue]
  | letter v =>
    have halpha : ∀ i : Fin 26, (Variable.letter ⟨i⟩).isAlpha = true := by decide
    rw [← ofWord_letter v]
    exact first_word (halpha v.index) (by simp) hrest
  | text s => simpa [TokenKind.spelling] using first_quoted rest hk
  | keyword k =>
    have halpha : ∀ c ∈ k.spelling.toList, c.isAlpha = true :=
      List.all_eq_true.1 (by cases k <;> rfl)
    have hvalue := ofWord_keyword k
    simp only [TokenKind.spelling]
    cases hcs : k.spelling.toList with
    | nil => cases k <;> cases hcs
    | cons c cs =>
      rw [hcs] at halpha hvalue
      rw [List.forall_mem_cons] at halpha
      rw [first_word halpha.1 halpha.2 hrest, hvalue]
  | mark m => simp [TokenKind.spelling, first, Mark.ofChar?_symbol]
  | eof => exact hk.elim

theorem spellable_of_ofWord {cs : List Char} {k : TokenKind} (h : ofWord cs = .ok k) :
    k.Spellable := by
  unfold ofWord at h
  dsimp only at h
  split at h
  · cases h
    trivial
  · split at h
    · split at h
      · cases h
        trivial
      · cases h
    · cases h

theorem spellable_of_ofDigits {cs : List Char} {k : TokenKind} (h : ofDigits cs = .ok k) :
    k.Spellable := by
  unfold ofDigits at h
  dsimp only at h
  split at h
  · next hlt =>
    cases h
    rw [Nat.shiftLeft_eq, Nat.one_mul] at hlt
    simp [TokenKind.Spellable, Int64.toInt_ofNat_of_lt hlt]
  · cases h

/-- A text between quotes has no quote in it. -/
theorem spellable_of_quoted {cs : List Char} {k : TokenKind} (h : (quoted cs).meaning = .ok k) :
    k.Spellable := by
  unfold quoted at h
  dsimp only at h
  split at h
  · cases h
  · cases h
    simp only [TokenKind.Spellable, String.toList_ofList]
    exact quote_notMem_takeWhile cs

/-- Of the tokens that the lexer finds, only the end of the input cannot be spelled. -/
theorem spellable_of_meaning {cs : List Char} {k : TokenKind} (h : (first cs).meaning = .ok k)
    (hk : k ≠ .eof) : k.Spellable := by
  cases cs with
  | nil =>
    cases h
    exact (hk rfl).elim
  | cons c cs =>
    simp only [first] at h
    split at h
    · cases h
      trivial
    · split at h
      · exact spellable_of_quoted h
      · split at h
        · exact spellable_of_ofWord h
        · split at h
          · exact spellable_of_ofDigits h
          · cases h

end Lexeme

/-! ## Streams of items -/

theorem TokenKind.spelling_first {k : TokenKind} (h : k.Spellable) :
    ∃ c cs, k.spelling = c :: cs ∧ Text.isBlank c = false := by
  cases k with
  | number n =>
    cases hcs : Nat.toDigits 10 n.toInt.toNat with
    | nil => exact (Nat.toDigits_ne_nil hcs).elim
    | cons c cs =>
      have hc : c.isDigit = true :=
        Nat.isDigit_of_mem_toDigits (by decide) (by decide) (hcs ▸ List.mem_cons_self)
      have hrange : 48 ≤ c.toNat ∧ c.toNat ≤ 57 := by
        simpa [Char.isDigit, UInt32.le_iff_toNat_le] using hc
      have hblank : Text.isBlank c = false := by
        simp [Text.isBlank]
        omega
      exact ⟨c, cs, hcs, hblank⟩
  | letter v =>
    have hblank : ∀ i : Fin 26, Text.isBlank (Variable.letter ⟨i⟩) = false := by decide
    exact ⟨_, _, rfl, hblank v.index⟩
  | text s => exact ⟨_, _, rfl, rfl⟩
  | keyword k => cases k <;> exact ⟨_, _, rfl, rfl⟩
  | mark m => cases m <;> exact ⟨_, _, rfl, rfl⟩
  | eof => exact h.elim

namespace Lexer

theorem addItems_eq (l : Lexer) (before : Array Item) :
    (l.addItems before).toList = before.toList ++ l.items := by
  induction h : l.rest.length using Nat.strongRecOn generalizing l before with
  | ind n ih =>
    subst h
    rw [items, addItems, addItems]
    split
    · simp
    · next t behind hnext =>
      split
      · simp
      · next ht =>
        have hlt := next_rest_length_lt (l := l) (t := t) (by rw [hnext]) ht
        rw [hnext] at hlt
        rw [ih _ hlt behind _ rfl, ih _ hlt behind _ rfl]
        simp

theorem items_of_error {l : Lexer} {e : LexError} (h : l.next.1 = .error e) :
    l.items = [.error e] := by
  rw [items, addItems]
  split <;> next hnext => rw [hnext] at h; cases h; try rfl

theorem items_of_eof {l : Lexer} {t : Token} (h : l.next.1 = .ok t) (ht : t.kind = .eof) :
    l.items = [.ok t] := by
  rw [items, addItems]
  split
  · next hnext => rw [hnext] at h; cases h
  · next hnext => rw [hnext] at h; cases h; simp [ht]

theorem items_of_token {l : Lexer} {t : Token} (h : l.next.1 = .ok t) (ht : t.kind ≠ .eof) :
    l.items = .ok t :: l.next.2.items := by
  rw [items, addItems]
  split
  · next hnext => rw [hnext] at h; cases h
  · next hnext =>
    rw [hnext] at h
    cases h
    rw [dif_neg ht, addItems_eq, hnext]
    rfl

/-- Induction along the items of a lexer: up to the first error or the end of the input. -/
@[elab_as_elim]
theorem items_induction {motive : Lexer → Prop}
    (error : ∀ l e, l.next.1 = .error e → motive l)
    (eof : ∀ l t, l.next.1 = .ok t → t.kind = .eof → motive l)
    (token : ∀ l t, l.next.1 = .ok t → t.kind ≠ .eof → motive l.next.2 → motive l) (l : Lexer) :
    motive l := by
  induction hn : l.rest.length using Nat.strongRecOn generalizing l with
  | ind n ih =>
    subst hn
    cases hnext : l.next.1 with
    | error e => exact error l e hnext
    | ok t =>
      by_cases heof : t.kind = .eof
      · exact eof l t hnext heof
      · exact token l t hnext heof (ih _ (next_rest_length_lt hnext heof) l.next.2 rfl)

/-- Blanks and a spelled token are read as the token. -/
theorem next_spelling {l : Lexer} {blanks rest : List Char} {k : TokenKind} (hk : k.Spellable)
    (hblanks : ∀ c ∈ blanks, Text.isBlank c = true) (hrest : k.EndsBefore rest)
    (hl : l.rest = blanks ++ (k.spelling ++ rest)) :
    ∃ span, l.next.1 = .ok ⟨k, span⟩ ∧ l.next.2.rest = rest := by
  have hskip : l.skipBlanks.rest = k.spelling ++ rest := by
    obtain ⟨c, cs, hcs, hc⟩ := TokenKind.spelling_first hk
    simp only [skipBlanks, advance, hl, List.dropWhile_append_of_pos hblanks, hcs, List.cons_append]
    simp [hc]
  have hfirst := Lexeme.first_spelling hk hrest
  simp only [next, hskip, hfirst]
  exact ⟨_, rfl, rfl⟩

end Lexer

theorem items_renderChars {w : List TokenKind} (hw : ∀ k ∈ w, k.Spellable) {l : Lexer}
    {blanks : List Char} (hblanks : ∀ c ∈ blanks, Text.isBlank c = true)
    (hl : l.rest = blanks ++ renderChars w) :
    ∃ ts : List Token, l.items = ts.map .ok ∧ ts.map Token.kind = w ++ [.eof] := by
  induction w generalizing l blanks with
  | nil =>
    have hskip : l.skipBlanks.rest = [] := by
      simp only [Lexer.skipBlanks, Lexer.advance, hl, renderChars, List.flatMap_nil,
        List.dropWhile_append_of_pos hblanks, List.dropWhile_nil]
    obtain ⟨span, hnext⟩ : ∃ span, l.next.1 = .ok ⟨.eof, span⟩ := by
      simp only [Lexer.next, hskip, Lexeme.first]
      exact ⟨_, rfl⟩
    exact ⟨[⟨.eof, span⟩], Lexer.items_of_eof hnext rfl, rfl⟩
  | cons k w ih =>
    rw [List.forall_mem_cons] at hw
    have hl : l.rest = blanks ++ (k.spelling ++ ' ' :: renderChars w) := by
      simpa [renderChars] using hl
    have hends : k.EndsBefore (' ' :: renderChars w) := by
      cases k <;> simp [TokenKind.EndsBefore]
    obtain ⟨span, hnext, hrest⟩ := Lexer.next_spelling hw.1 hblanks hends hl
    have hrest : l.next.2.rest = [' '] ++ renderChars w := hrest
    have hspace : ∀ c ∈ [' '], Text.isBlank c = true := List.all_eq_true.1 rfl
    obtain ⟨ts, hts, hkinds⟩ := ih hw.2 hspace hrest
    have hne : k ≠ .eof := by
      rintro rfl
      exact hw.1
    refine ⟨⟨k, span⟩ :: ts, ?_, by simp [hkinds]⟩
    rw [Lexer.items_of_token hnext hne, hts, List.map_cons]

/-- **Every token of a text can be spelled**, the end of the input apart. -/
theorem spellable_of_mem_items {l : Lexer} {t : Token} (h : .ok t ∈ l.items) (ht : t.kind ≠ .eof) :
    t.kind.Spellable := by
  have hhead {l : Lexer} (h : l.next.1 = .ok t) : t.kind.Spellable :=
    Lexeme.spellable_of_meaning (Lexer.meaning_of_next h) ht
  induction l using Lexer.items_induction with
  | error l e hnext =>
    rw [Lexer.items_of_error hnext] at h
    simp at h
  | eof l t' hnext heof =>
    obtain rfl : t = t' := by simpa [Lexer.items_of_eof hnext heof] using h
    exact hhead hnext
  | token l t' hnext hne ih =>
    rw [Lexer.items_of_token hnext hne] at h
    obtain heq | hlater := List.mem_cons.1 h
    · exact hhead (hnext.trans heq.symm)
    · exact ih hlater

end Abecedary
