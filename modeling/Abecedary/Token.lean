import Abecedary.Position
import Abecedary.Variable
import Abecedary.Text.Quoted

/-!
# Tokens

The words of the language: four keywords, ten marks of one character each, variables, whole
numbers, texts, and the end of the input. A `Token` is such a word with the span it covers.
-/

namespace Abecedary

/-- A word with a fixed meaning. -/
inductive Keyword where
  | ifWord
  | elseWord
  | whileWord
  | doWord
deriving DecidableEq, Repr

namespace Keyword

/-- The keyword in lower case. -/
def spelling : Keyword → String
  | ifWord => "if"
  | elseWord => "else"
  | whileWord => "while"
  | doWord => "do"

/-- Every keyword. -/
def all : List Keyword := [ifWord, elseWord, whileWord, doWord]

/-- The keyword spelled by a lower-case word. -/
def ofWord? (w : String) : Option Keyword :=
  all.find? (·.spelling = w)

end Keyword

/-- A punctuation character. -/
inductive Mark where
  | plus
  | minus
  | less
  | equal
  | concat
  | openBrace
  | closeBrace
  | openParen
  | closeParen
  | semicolon
deriving DecidableEq, Repr

namespace Mark

/-- The character of the mark. -/
def symbol : Mark → Char
  | plus => '+'
  | minus => '-'
  | less => '<'
  | equal => '='
  | concat => '\''
  | openBrace => '{'
  | closeBrace => '}'
  | openParen => '('
  | closeParen => ')'
  | semicolon => ';'

/-- Every mark. -/
def all : List Mark :=
  [plus, minus, less, equal, concat, openBrace, closeBrace, openParen, closeParen, semicolon]

/-- The mark that a character is. -/
def ofChar? (c : Char) : Option Mark :=
  all.find? (·.symbol = c)

end Mark

/-- What a token stands for. -/
inductive TokenKind where
  | number (value : Int64)
  | letter (v : Variable)
  | text (s : String)
  | keyword (k : Keyword)
  | mark (m : Mark)
  | eof
deriving DecidableEq

namespace TokenKind

/-- The short name used in error messages. -/
def describe : TokenKind → String
  | number _ => "number"
  | letter _ => "identifier"
  | text _ => "string"
  | keyword k => "'" ++ k.spelling ++ "'"
  | mark m => String.ofList ['\'', m.symbol, '\'']
  | eof => "end of input"

/-- The line that lists the token: its name, and its value if it carries one. -/
def listing : TokenKind → String
  | number value => "number " ++ toString value.toInt
  | letter v => "identifier " ++ v.name
  | text s => "string " ++ Text.quote s
  | keyword k => k.spelling
  | mark m => m.symbol.toString
  | eof => "eof"

end TokenKind

/-- A token with the stretch of text it covers. -/
structure Token where
  kind : TokenKind
  span : Span
deriving DecidableEq

end Abecedary
