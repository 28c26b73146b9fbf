import Abecedary.Token
import Abecedary.Text.Blank

/-!
# Lexemes

`Lexeme.first` reads the lexeme at the head of a text that does not begin with a blank: a mark, a
quoted text up to its closing quote, or the longest run of letters or of digits. It says what the
lexeme stands for or why it stands for nothing, and splits the text behind it
(`Lexeme.first_split`). Where the lexeme lies does not matter here.
-/

namespace Abecedary

/-- Why some characters are not a token. -/
inductive LexDefect where
  /-- No token begins with this character. -/
  | strayCharacter (c : Char)
  /-- A run of letters, in lower case, that is neither a keyword nor one letter. -/
  | unknownWord (word : String)
  /-- A run of digits whose value is too large. -/
  | numberTooLarge (digits : String)
  /-- A quote that is never closed. -/
  | unclosedText
  /-- Bytes that are not the encoding of a character. -/
  | badEncoding
deriving DecidableEq, Repr

/-- The lexeme at the head of a text: its meaning, its characters, and what follows them. -/
structure Lexeme where
  meaning : Except LexDefect TokenKind
  chars : List Char
  rest : List Char

namespace Lexeme

/-- The meaning of a run of letters, in which case does not matter: a keyword, or the variable
named by a single letter. -/
def ofWord (cs : List Char) : Except LexDefect TokenKind :=
  let word := cs.map Char.toLower
  match Keyword.ofWord? (String.ofList word) with
  | some k => .ok (.keyword k)
  | none =>
    match word with
    | [c] => match Variable.ofLetter? c with
      | some v => .ok (.letter v)
      | none => .error (.unknownWord (String.ofList word))
    | _ => .error (.unknownWord (String.ofList word))

/-- The meaning of a run of digits: its value, if a signed word of 64 bits holds it. -/
def ofDigits (cs : List Char) : Except LexDefect TokenKind :=
  let n := Nat.ofDigitChars 10 cs 0
  if n < 1 <<< 63 then .ok (.number (Int64.ofNat n))
  else .error (.numberTooLarge (String.ofList cs))

/-- The lexeme that a quote begins, from the characters behind the quote: the text up to the next
quote, or everything if there is none. -/
def quoted (cs : List Char) : Lexeme :=
  let body := cs.takeWhile (· ≠ '"')
  match cs.dropWhile (· ≠ '"') with
  | [] => ⟨.error .unclosedText, '"' :: body, []⟩
  | close :: rest => ⟨.ok (.text (String.ofList body)), '"' :: (body ++ [close]), rest⟩

/-- The lexeme at the head of a text. A stray character is left where it is. -/
def first : List Char → Lexeme
  | [] => ⟨.ok .eof, [], []⟩
  | c :: cs =>
    match Mark.ofChar? c with
    | some m => ⟨.ok (.mark m), [c], cs⟩
    | none =>
      if c = '"' then quoted cs
      else if c.isAlpha then
        let word := c :: cs.takeWhile Char.isAlpha
        ⟨ofWord word, word, cs.dropWhile Char.isAlpha⟩
      else if c.isDigit then
        let digits := c :: cs.takeWhile Char.isDigit
        ⟨ofDigits digits, digits, cs.dropWhile Char.isDigit⟩
      else
        ⟨.error (.strayCharacter c), [], c :: cs⟩

theorem quoted_split (cs : List Char) : (quoted cs).chars ++ (quoted cs).rest = '"' :: cs := by
  have h := List.takeWhile_append_dropWhile (p := fun c : Char => decide (c ≠ '"')) (l := cs)
  simp only [quoted]
  split
  · next hd => rw [hd] at h; simpa using h
  · next hd => rw [hd] at h; simpa using h

/-- A lexeme is a stretch at the head of the text, and the rest follows it. -/
theorem first_split (cs : List Char) : (first cs).chars ++ (first cs).rest = cs := by
  cases cs with
  | nil => rfl
  | cons c cs =>
    simp only [first]
    split
    · rfl
    · split
      · next h => rw [h]; exact quoted_split cs
      · split
        · simp
        · split <;> simp

theorem ofWord_ne_eof (cs : List Char) : ofWord cs ≠ .ok .eof := by
  simp only [ofWord]; repeat' split
  all_goals simp

theorem ofWord_ne_stray (cs : List Char) (c : Char) : ofWord cs ≠ .error (.strayCharacter c) := by
  simp only [ofWord]; repeat' split
  all_goals simp

/-- Only the end of the input and a stray character take up no characters. -/
theorem first_chars_eq_nil_iff (cs : List Char) :
    (first cs).chars = [] ↔
      (first cs).meaning = .ok .eof ∨ ∃ c, (first cs).meaning = .error (.strayCharacter c) := by
  cases cs with
  | nil => simp [first]
  | cons c cs =>
    simp only [first]
    split
    · simp
    · split
      · simp only [quoted]; split <;> simp
      · split
        · simp [ofWord_ne_eof, ofWord_ne_stray]
        · split
          · simp only [ofDigits]; split <;> simp
          · simp

end Lexeme

end Abecedary
