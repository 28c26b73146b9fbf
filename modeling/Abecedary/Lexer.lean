import Abecedary.Lexeme

/-!
# The lexer

A `Lexer` stands at a place in a text. `Lexer.next` passes over blanks and reads the lexeme behind
them: a token with its span, or an error with its place. The lexer can be used on after an error;
a stray character stays in front of it, any other faulty lexeme has been passed over. At the end
of the text every further token is the end of the input.

`Lexer.items` is the stream of a text up to its end or its first error.
-/

namespace Abecedary

/-- A lexical error: what is wrong, and where the lexeme begins. -/
structure LexError where
  defect : LexDefect
  position : Position
deriving DecidableEq, Repr

/-- The wording of a place in messages. -/
def Position.wording (p : Position) : String :=
  "line " ++ toString p.line ++ ", column " ++ toString p.column

/-- The wording of a defect in messages. -/
def LexDefect.message : LexDefect → String
  | strayCharacter c => "Unexpected character '" ++ c.toString ++ "'"
  | unknownWord word => "Unknown identifier '" ++ word ++ "'"
  | numberTooLarge digits => "Invalid integer literal '" ++ digits ++ "'"
  | unclosedText => "Unterminated string literal"
  | badEncoding => "Source is not valid UTF-8"

/-- The message of an error: the defect and its place. -/
def LexError.message (e : LexError) : String :=
  e.defect.message ++ " at " ++ e.position.wording

/-- What reading a token gives. -/
abbrev Item := Except LexError Token

/-- A place in a text: what lies ahead, the bytes behind, and the position. -/
structure Lexer where
  rest : List Char
  offset : Nat
  position : Position

namespace Lexer

/-- The lexer at the beginning of a text. -/
def ofString (s : String) : Lexer := ⟨s.toList, 0, .start⟩

/-- The lexer behind some characters, where `rest` follows them. -/
def advance (l : Lexer) (cs rest : List Char) : Lexer :=
  ⟨rest, cs.foldl (fun n c => n + c.utf8Size) l.offset, l.position.advanceOver cs⟩

/-- The lexer behind the blanks at its place. -/
def skipBlanks (l : Lexer) : Lexer :=
  l.advance (l.rest.takeWhile Text.isBlank) (l.rest.dropWhile Text.isBlank)

/-- Reads the next token. -/
def next (l : Lexer) : Item × Lexer :=
  let here := l.skipBlanks
  let lexeme := Lexeme.first here.rest
  let behind := here.advance lexeme.chars lexeme.rest
  match lexeme.meaning with
  | .ok kind => (.ok ⟨kind, ⟨here.offset, behind.offset, here.position⟩⟩, behind)
  | .error defect => (.error ⟨defect, here.position⟩, behind)

theorem next_snd (l : Lexer) :
    l.next.2 = l.skipBlanks.advance (Lexeme.first l.skipBlanks.rest).chars
      (Lexeme.first l.skipBlanks.rest).rest := by
  simp only [next]
  split <;> rfl

theorem meaning_of_next {l : Lexer} {t : Token} (h : l.next.1 = .ok t) :
    (Lexeme.first l.skipBlanks.rest).meaning = .ok t.kind := by
  simp only [next] at h
  split at h
  · next kind hk =>
    rw [hk, ← Except.ok.inj h]
  · simp at h

theorem rest_skipBlanks_length_le (l : Lexer) : l.skipBlanks.rest.length ≤ l.rest.length :=
  (List.dropWhile_sublist _).length_le

/-- A lexeme of some characters takes the lexer forward. -/
theorem next_rest_length_lt_of_ne_nil {l : Lexer}
    (h : (Lexeme.first l.skipBlanks.rest).chars ≠ []) : l.next.2.rest.length < l.rest.length := by
  have hsplit := congrArg List.length (Lexeme.first_split l.skipBlanks.rest)
  have hle := l.rest_skipBlanks_length_le
  have := List.length_pos_iff.2 h
  rw [next_snd]
  simp only [advance, List.length_append] at *
  omega

/-- Every token but the end of the input takes the lexer forward. -/
theorem next_rest_length_lt {l : Lexer} {t : Token} (h : l.next.1 = .ok t) (ht : t.kind ≠ .eof) :
    l.next.2.rest.length < l.rest.length := by
  apply next_rest_length_lt_of_ne_nil
  rw [Ne, Lexeme.first_chars_eq_nil_iff, meaning_of_next h]
  simpa using ht

/-- The results of reading a number of times. -/
def take (l : Lexer) : Nat → List Item
  | 0 => []
  | n + 1 =>
    let (item, behind) := l.next
    item :: behind.take n

/-- Adds the items ahead, the end of the input or the first error being the last of them. -/
def addItems (l : Lexer) (before : Array Item) : Array Item :=
  match _h : l.next with
  | (.error e, _) => before.push (.error e)
  | (.ok t, behind) =>
    if _ht : t.kind = .eof then before.push (.ok t)
    else behind.addItems (before.push (.ok t))
termination_by l.rest.length
decreasing_by
  have := next_rest_length_lt (l := l) (t := t) (by simp [*]) (by assumption)
  simpa [*] using this

/-- The items ahead up to the end of the input or the first error. -/
def items (l : Lexer) : List Item := (l.addItems #[]).toList

end Lexer

/-- The tokens of a text, the end of the input last. -/
def tokenize (source : String) : Except LexError (List Token) :=
  (Lexer.ofString source).items.mapM id

end Abecedary
