import Mathlib.Data.List.Chain
import Abecedary.Proofs.MaximalMunch

/-!
# Rendering tokens

A `Piece` is a token as it stands in a text: blanks, and one of the texts that write the token. A
word may be in upper or lower case, a number may have zeros in front. Pieces are put one behind the
other; two of them need blanks in between only where they would run into each other, a word into a
word or a number into a number (`Piece.Apart`). The lexer reads the tokens of such a text back, and
nothing else (`tokenize_undoes_rendering`).
-/

namespace Abecedary

/-! ## Texts that write a token -/

namespace TokenKind

/-- Whether the token is written in letters. -/
def isWord : TokenKind → Bool
  | letter _ | keyword _ => true
  | _ => false

/-- Whether the token is written in digits. -/
def isNumber : TokenKind → Bool
  | number _ => true
  | _ => false

/-- Whether a token goes on with the next one if nothing stands between them. -/
def RunsInto (k k' : TokenKind) : Prop :=
  k.isWord = true ∧ k'.isWord = true ∨ k.isNumber = true ∧ k'.isNumber = true

instance (k k' : TokenKind) : Decidable (k.RunsInto k') := inferInstanceAs (Decidable (_ ∨ _))

/-- Whether some characters write the token. The end of the input has no text. -/
def Writes (k : TokenKind) (cs : List Char) : Prop :=
  match k with
  | mark m => cs = [m.symbol]
  | keyword k => cs.map Char.toLower = k.spelling.toList
  | letter v => cs.map Char.toLower = [v.letter]
  | number n =>
    0 ≤ n.toInt ∧ ∃ zeros, cs = List.replicate zeros '0' ++ Nat.toDigits 10 n.toInt.toNat
  | text s => '"' ∉ s.toList ∧ cs = '"' :: (s.toList ++ ['"'])
  | eof => False

end TokenKind

theorem Text.isAlpha_of_toLower {c : Char} (h : c.toLower.isAlpha = true) : c.isAlpha = true := by
  by_cases hc : c.val ≥ 'A'.val ∧ c.val ≤ 'Z'.val
  · exact isAlpha_iff.2 (.inl ⟨UInt32.le_iff_toNat_le.1 hc.1, UInt32.le_iff_toNat_le.1 hc.2⟩)
  · rwa [show c.toLower = c from dif_neg hc] at h

/-- What is a word in lower case is a word in any case. -/
theorem Text.isAlpha_of_map_toLower {cs ds : List Char} (h : cs.map Char.toLower = ds)
    (hds : ∀ d ∈ ds, d.isAlpha = true) : ∀ c ∈ cs, c.isAlpha = true :=
  fun _ hc => isAlpha_of_toLower (hds _ (h ▸ List.mem_map_of_mem hc))

theorem Keyword.isAlpha_spelling (k : Keyword) : ∀ c ∈ k.spelling.toList, c.isAlpha = true :=
  List.all_eq_true.1 (by cases k <;> rfl)

theorem Variable.isAlpha_letter (v : Variable) : ∀ c ∈ [v.letter], c.isAlpha = true := by
  have h : ∀ i : Fin 26, (letter ⟨i⟩).isAlpha = true := by decide
  simpa using h v.index

namespace TokenKind.Writes

variable {k : TokenKind} {cs : List Char}

theorem ne_nil (h : k.Writes cs) : cs ≠ [] := by
  rintro rfl
  cases k with
  | mark m => cases h
  | keyword k => cases k <;> cases h
  | letter v => cases h
  | number n =>
    obtain ⟨-, zeros, hcs⟩ := h
    exact Nat.toDigits_ne_nil (List.append_eq_nil_iff.1 hcs.symm).2
  | text s => cases h.2
  | eof => exact h

theorem isAlpha (h : k.Writes cs) (hk : k.isWord = true) : ∀ c ∈ cs, c.isAlpha = true := by
  cases k with
  | keyword k => exact Text.isAlpha_of_map_toLower h k.isAlpha_spelling
  | letter v => exact Text.isAlpha_of_map_toLower h v.isAlpha_letter
  | number | text | mark | eof => cases hk

theorem isDigit (h : k.Writes cs) (hk : k.isNumber = true) : ∀ c ∈ cs, c.isDigit = true := by
  cases k with
  | number n =>
    obtain ⟨-, zeros, rfl⟩ := h
    rw [List.forall_mem_append]
    refine ⟨fun c hc => ?_, fun c hc => Nat.isDigit_of_mem_toDigits (by decide) (by decide) hc⟩
    rw [List.eq_of_mem_replicate hc]
    rfl
  | keyword | letter | text | mark | eof => cases hk

/-- A number is told by its digits, however many zeros stand in front of them. -/
theorem ofDigitChars_eq {n : Int64} (h : (number n).Writes cs) :
    (Nat.ofDigitChars 10 cs 0 : Int) = n.toInt := by
  obtain ⟨hn, zeros, rfl⟩ := h
  rw [Nat.ofDigitChars_append, Nat.ofDigitChars_replicate_zero, Nat.mul_zero,
    Nat.ofDigitChars_ten_toDigits, Int.toNat_of_nonneg hn]

/-- Characters that write a token are a lexeme of it, where no run goes on at either end. -/
theorem covers {before rest : List Char} (h : k.Writes cs) (hbefore : Apart before (cs ++ rest))
    (hrest : k.EndsBefore rest) : k.Covers before cs rest := by
  obtain ⟨c, ds, rfl⟩ := List.exists_cons_of_ne_nil h.ne_nil
  have hc : c ∈ (c :: ds ++ rest).head? := rfl
  have hword (hk : k.isWord = true) (hends : ∀ d ∈ rest.head?, d.isAlpha = false) :
      IsRun Char.isAlpha before (c :: ds) rest :=
    ⟨by simp, h.isAlpha hk,
      fun b hb => (hbefore b hb c hc).1 (h.isAlpha hk c List.mem_cons_self), hends⟩
  cases k with
  | mark m => exact h
  | keyword k => exact ⟨hword rfl hrest, h⟩
  | letter v => exact ⟨hword rfl hrest, h⟩
  | number n =>
    have hdigits := h.isDigit rfl
    exact ⟨⟨by simp, hdigits, fun b hb => (hbefore b hb c hc).2 (hdigits c List.mem_cons_self),
      hrest⟩, h.ofDigitChars_eq⟩
  | text s => exact h
  | eof => exact h

/-- Only a word begins with a letter, and only a number with a digit. -/
theorem class_of_head {c : Char} {ds : List Char} (h : k.Writes (c :: ds)) :
    (c.isAlpha = true → k.isWord = true) ∧ (c.isDigit = true → k.isNumber = true) := by
  cases k with
  | mark m =>
    obtain ⟨rfl, -⟩ := List.cons.inj h
    simp [m.symbol_not_word]
  | keyword | letter =>
    have halpha := h.isAlpha rfl c List.mem_cons_self
    exact ⟨fun _ => rfl, fun hdigit => by simp [Lexeme.isDigit_of_isAlpha halpha] at hdigit⟩
  | number n =>
    have hdigit := h.isDigit rfl c List.mem_cons_self
    exact ⟨fun halpha => by simp [Lexeme.isAlpha_of_isDigit hdigit] at halpha, fun _ => rfl⟩
  | text s =>
    obtain ⟨rfl, -⟩ := List.cons.inj h.2
    exact ⟨nofun, nofun⟩
  | eof => exact h.elim

/-- A token ends where another one begins that it does not run into. -/
theorem endsBefore {k' : TokenKind} (h : k'.Writes cs) (hk : ¬ k.RunsInto k')
    (rest : List Char) : k.EndsBefore (cs ++ rest) := by
  obtain ⟨c, ds, rfl⟩ := List.exists_cons_of_ne_nil h.ne_nil
  obtain ⟨hword, hnumber⟩ := h.class_of_head
  cases k with
  | keyword | letter =>
    have hnot : c.isAlpha = false := Bool.eq_false_iff.2 fun hc => hk (.inl ⟨rfl, hword hc⟩)
    simpa [EndsBefore] using hnot
  | number =>
    have hnot : c.isDigit = false := Bool.eq_false_iff.2 fun hc => hk (.inr ⟨rfl, hnumber hc⟩)
    simpa [EndsBefore] using hnot
  | text | mark | eof => trivial

end TokenKind.Writes

/-- Every token ends before a blank, and at the end of the text. -/
theorem TokenKind.endsBefore_of_blank (k : TokenKind) {rest : List Char}
    (hrest : ∀ c ∈ rest.head?, Text.isBlank c = true) : k.EndsBefore rest := by
  have hnot c (hc : c ∈ rest.head?) := Text.not_word_of_isBlank (hrest c hc)
  cases k with
  | keyword | letter => exact fun c hc => (hnot c hc).1
  | number => exact fun c hc => (hnot c hc).2
  | text | mark | eof => trivial

/-! ## Texts of several tokens -/

/-- A token as it stands in a text: some blanks, and characters that write it. -/
structure Piece where
  blanks : List Char
  kind : TokenKind
  chars : List Char
  isBlank : ∀ c ∈ blanks, Text.isBlank c = true
  writes : kind.Writes chars

namespace Piece

/-- Whether a piece may follow another: there are blanks in it if the tokens run into each other. -/
def Apart (p q : Piece) : Prop := p.kind.RunsInto q.kind → q.blanks ≠ []

instance (p q : Piece) : Decidable (p.Apart q) := inferInstanceAs (Decidable (_ → _))

/-- The characters of some pieces, one behind the other, and of what follows them. -/
def text (ps : List Piece) (rest : List Char) : List Char :=
  ps.foldr (fun p rest => p.blanks ++ (p.chars ++ rest)) rest

@[simp] theorem text_nil (rest : List Char) : text [] rest = rest := rfl

@[simp] theorem text_cons (p : Piece) (ps : List Piece) (rest : List Char) :
    text (p :: ps) rest = p.blanks ++ (p.chars ++ text ps rest) := rfl

variable {p : Piece} {ps : List Piece} {blanks : List Char}

/-- A piece ends where the next one begins, or the blanks behind the last one. -/
theorem endsBefore_text (hps : (p :: ps).IsChain Apart)
    (hblanks : ∀ c ∈ blanks, Text.isBlank c = true) : p.kind.EndsBefore (text ps blanks) := by
  cases ps with
  | nil => exact p.kind.endsBefore_of_blank fun c hc => hblanks c (List.mem_of_mem_head? hc)
  | cons q ps =>
    have hpq := (List.isChain_cons_cons.1 hps).1
    rw [text_cons]
    cases hq : q.blanks with
    | nil => exact q.writes.endsBefore (fun hruns => hpq hruns hq) _
    | cons b bs =>
      have hb : Text.isBlank b = true := q.isBlank b (hq ▸ List.mem_cons_self)
      exact p.kind.endsBefore_of_blank (by simpa using hb)

/-- The pieces of a text are cut off it as they are, from any place where no run goes on. -/
theorem exists_munch {before : List Char} (hps : ps.IsChain Apart)
    (hblanks : ∀ c ∈ blanks, Text.isBlank c = true)
    (hbefore : Abecedary.Apart before (text ps blanks)) :
    ∃ front behind, Munch before (text ps blanks) front behind blanks ∧
      front.map Token.kind = ps.map Piece.kind := by
  induction ps generalizing before with
  | nil => exact ⟨[], before, .nil _ _, rfl⟩
  | cons p ps ih =>
    have hcovers : p.kind.Covers (before ++ p.blanks) p.chars (text ps blanks) :=
      p.writes.covers (hbefore.blanks p.isBlank) (endsBefore_text hps hblanks)
    obtain ⟨front, behind, hmunch, hkinds⟩ := ih hps.tail hcovers.apart
    exact ⟨_, behind, .token p.isBlank hcovers hmunch, by simp [hkinds]⟩

end Piece

/-- **The lexer undoes rendering.** Tokens that are written one behind the other, with blanks of any
kind in front of them, between them and behind them, are read back in their order, if no token runs
into the next one; the end of the input follows them, and nothing else is read. -/
theorem tokenize_undoes_rendering (ps : List Piece) (blanks : List Char)
    (hps : ps.IsChain Piece.Apart) (hblanks : ∀ c ∈ blanks, Text.isBlank c = true) :
    ∃ ts, tokenize (String.ofList (Piece.text ps blanks)) = .ok ts ∧
      ts.map Token.kind = ps.map Piece.kind ++ [.eof] := by
  have hstart : Apart [] (Piece.text ps blanks) := by simp [Apart]
  obtain ⟨front, behind, hmunch, hkinds⟩ := Piece.exists_munch hps hblanks hstart
  refine ⟨_, tokenize_of_ends ⟨front, behind, blanks, ?_, hblanks, rfl⟩, ?_⟩
  · rwa [String.toList_ofList]
  · rw [List.map_append, hkinds]
    rfl

/-- A text with blanks at both ends and where they are needed, and with none elsewhere. -/
theorem tokenize_undoes_rendering_of_dense_text :
    let ps : List Piece := [
      ⟨['\u3000'], .keyword .ifWord, ['I', 'f'], List.all_eq_true.1 rfl, rfl⟩,
      ⟨[], .text "a\n+", ['"', 'a', '\n', '+', '"'], by simp, by decide, rfl⟩,
      ⟨[], .text "", ['"', '"'], by simp, by decide, rfl⟩,
      ⟨[], .mark .concat, ['\''], by simp, rfl⟩,
      ⟨[], .number 7, ['0', '0', '7'], by simp, by decide, 2, rfl⟩,
      ⟨[], .letter ⟨23⟩, ['x'], by simp, rfl⟩,
      ⟨['\t'], .keyword .doWord, ['d', 'O'], List.all_eq_true.1 rfl, rfl⟩,
      ⟨[], .number 0, ['0'], by simp, by decide, 0, rfl⟩,
      ⟨[' ', '\n'], .number 12, ['1', '2'], List.all_eq_true.1 rfl, by decide, 0, rfl⟩]
    ps.IsChain Piece.Apart ∧ (∀ c ∈ ['\x0d'], Text.isBlank c = true) ∧
      ∃ ts, tokenize "\u3000If\"a\n+\"\"\"'007x\tdO0 \n12\x0d" = .ok ts ∧
        ts.map Token.kind = [.keyword .ifWord, .text "a\n+", .text "", .mark .concat, .number 7,
          .letter ⟨23⟩, .keyword .doWord, .number 0, .number 12, .eof] := by
  intro ps
  have hps : ps.IsChain Piece.Apart := by decide
  have hblanks : ∀ c ∈ ['\x0d'], Text.isBlank c = true := List.all_eq_true.1 rfl
  have htext : String.ofList (Piece.text ps ['\x0d']) =
      "\u3000If\"a\n+\"\"\"'007x\tdO0 \n12\x0d" := rfl
  obtain ⟨ts, hts, hkinds⟩ := tokenize_undoes_rendering ps ['\x0d'] hps hblanks
  exact ⟨hps, hblanks, ts, htext ▸ hts, hkinds⟩

end Abecedary
