import Abecedary.Lexer
import Abecedary.Program.Basic

/-!
# Parsing

A recursive descent over a stream of items, tokens or lexical errors, with one token of
lookahead. Each rule takes up exactly the tokens it commits to, and the stream is never read past
the token that decides: an error item ends the parse when it becomes the lookahead. Behind the
last item the stream goes on with ends of input, placed where the last token was.

Statements and expressions may lie inside one another `nestingLimit` levels deep. The recursion is
on the levels that are left; the two loops, over the statements of a block and over a chain of
operators, are bounded by the length of the stream.
-/

namespace Abecedary

/-- How many statements and expressions may be open inside one another. The statements of one
block and the operands of one chain lie beside one another. -/
def nestingLimit : Nat := 128

/-- What is wrong at a token. -/
inductive SyntaxDefect where
  /-- One token was wanted and another found. -/
  | expected (wanted found : TokenKind)
  /-- The program has ended, the input has not. -/
  | trailing (found : TokenKind)
  /-- Nothing more can be opened inside what is open. -/
  | tooDeep
deriving DecidableEq

/-- Why a stream is not a program. -/
inductive ParseError where
  | lexical (e : LexError)
  | syntactic (defect : SyntaxDefect) (position : Position)
deriving DecidableEq

/-- The wording of a defect in messages. -/
def SyntaxDefect.message : SyntaxDefect → String
  | expected wanted found => "Expected " ++ wanted.describe ++ ", found " ++ found.describe
  | trailing found => "Unexpected " ++ found.describe ++ " after program"
  | tooDeep => "Nesting deeper than " ++ toString nestingLimit ++ " levels"

/-- The message of an error: what is wrong and its place. -/
def ParseError.message : ParseError → String
  | lexical e => e.message
  | syntactic defect position => defect.message ++ " at " ++ position.wording

/-- Where a parse stands: the token that decides what comes next, and the items behind it. -/
structure ParserState where
  current : Token
  rest : List Item

/-- A rule of the grammar. The state outlives an error. -/
abbrev Parser := EStateM ParseError ParserState

namespace Parser

/-- The kind of the current token. -/
def peek : Parser TokenKind := return (← get).current.kind

/-- Ends the parse at the current token. -/
def fail {α : Type} (defect : SyntaxDefect) : Parser α := do
  throw (.syntactic defect (← get).current.span.position)

/-- Makes the next item the current token. -/
def advance : Parser Unit := do
  let s ← get
  match s.rest with
  | [] => set { s with current := ⟨.eof, s.current.span⟩ }
  | .ok t :: rest => set (⟨t, rest⟩ : ParserState)
  | .error e :: rest => do
    set { s with rest := rest }
    throw (.lexical e)

/-- Passes over a token of one kind and refuses any other. -/
def expect (wanted : TokenKind) : Parser Unit := do
  let found ← peek
  if found = wanted then advance else fail (.expected wanted found)

/-- A rule between parentheses. -/
def parens {α : Type} (inner : Parser α) : Parser α := do
  expect (.mark .openParen)
  let x ← inner
  expect (.mark .closeParen)
  return x

/-! ## Expressions

The rules below the level of whole expressions are given the rule `inner` for an expression one
level deeper. -/

/-- A variable, a constant, a text, or an expression between parentheses. -/
def term (inner : Parser Expr) : Parser Expr := do
  match ← peek with
  | .letter v => advance; return .var v
  | .number n => advance; return .constant n
  | .text s => advance; return .text s
  | _ => parens inner

/-- The operator of a chain that a token writes. -/
def chainOperator? : TokenKind → Option Operator
  | .mark .plus => some .add
  | .mark .minus => some .subtract
  | .mark .concat => some .concat
  | _ => none

/-- The operators and operands that go on with a chain, at most `n` of each. -/
def links (inner : Parser Expr) : (n : Nat) → (left : Expr) → Parser Expr
  | 0, left => return left
  | n + 1, left => do
    match chainOperator? (← peek) with
    | none => return left
    | some op =>
      advance
      let right ← term inner
      links inner n (.binary left op right)

/-- A chain of operands joined by operators of one level, which lean to the left. -/
def chain (inner : Parser Expr) (size : Nat) : Parser Expr := do
  links inner size (← term inner)

/-- A chain, or two of them compared. -/
def comparison (inner : Parser Expr) (size : Nat) : Parser Expr := do
  let left ← chain inner size
  if (← peek) = .mark .less then
    advance
    return .binary left .less (← chain inner size)
  else
    return left

/-- A comparison, or an assignment to it if it is a lone variable. -/
def expression (size : Nat) : (levels : Nat) → Parser Expr
  | 0 => fail .tooDeep
  | levels + 1 => do
    let left ← comparison (expression size levels) size
    match left, ← peek with
    | .var target, .mark .equal =>
      advance
      return .assign target (← expression size levels)
    | left, _ => return left

/-! ## Statements -/

/-- The statements up to a closing brace, at most `n` of them, behind those of `before`. -/
def block (inner : Parser Stmt) : (n : Nat) → (before : Stmt) → Parser Stmt
  | 0, _ => do fail (.expected (.mark .closeBrace) (← peek))
  | n + 1, before => do
    match ← peek with
    | .mark .closeBrace => advance; return before
    | .eof => fail (.expected (.mark .closeBrace) .eof)
    | _ =>
      let s ← inner
      block inner n (.seq before s)

/-- A statement. An `else` belongs to the innermost `if` that has none. -/
def statement (size : Nat) : (levels : Nat) → Parser Stmt
  | 0 => fail .tooDeep
  | levels + 1 => do
    match ← peek with
    | .keyword .ifWord =>
      advance
      let condition ← parens (expression size levels)
      let thenBranch ← statement size levels
      if (← peek) = .keyword .elseWord then
        advance
        return .ifElse condition thenBranch (← statement size levels)
      else
        return .ifThen condition thenBranch
    | .keyword .whileWord =>
      advance
      let condition ← parens (expression size levels)
      return .whileDo condition (← statement size levels)
    | .keyword .doWord =>
      advance
      let body ← statement size levels
      expect (.keyword .whileWord)
      let condition ← parens (expression size levels)
      expect (.mark .semicolon)
      return .doWhile body condition
    | .mark .semicolon => advance; return .empty
    | .mark .openBrace =>
      advance
      block (statement size levels) size .empty
    | _ =>
      let e ← expression size levels
      expect (.mark .semicolon)
      return .expr e

/-- One statement and the end of the input. -/
def program (size : Nat) : Parser Program := do
  advance
  let body ← statement size nestingLimit
  match ← peek with
  | .eof => return ⟨body⟩
  | found => fail (.trailing found)

/-- The state before the first item. -/
def initial (items : List Item) : ParserState := ⟨⟨.eof, .none⟩, items⟩

end Parser

/-- What parsing a stream gives: the program or the error, and how many items were read. -/
structure Parse where
  outcome : Except ParseError Program
  taken : Nat

/-- Parses a stream. -/
def parseItems (items : List Item) : Parse :=
  match (Parser.program items.length).run (Parser.initial items) with
  | .ok p s => ⟨.ok p, items.length - s.rest.length⟩
  | .error e s => ⟨.error e, items.length - s.rest.length⟩

/-- Parses a list of tokens. -/
def parseTokens (tokens : List Token) : Except ParseError Program :=
  (parseItems (tokens.map .ok)).outcome

/-- Parses a text. -/
def parse (source : String) : Except ParseError Program :=
  (parseItems (Lexer.ofString source).items).outcome

end Abecedary
