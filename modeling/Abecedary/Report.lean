import Abecedary.Code.Compile
import Abecedary.Code.Listing
import Abecedary.Program.Outline
import Abecedary.Program.Parser
import Abecedary.Source

/-!
# Reports

What the command line answers to a source: its tokens as far as they were read, the outline of the
program, and its code, or the error in place of what is missing. The listing of the code goes to
the log, if one is kept. Where the outline cannot be written on, the run breaks off.
-/

namespace Abecedary

/-- The answer of the command line: what it prints, its exit code, and what it logs. -/
structure Report where
  output : String
  exitCode : UInt8
  log : Option String

namespace Report

/-- The line that reports a parse error. -/
def errorLine : ParseError → String
  | .lexical e => "Lexer error: " ++ e.message ++ "\n"
  | .syntactic defect position =>
    "Parser error: " ++ (ParseError.syntactic defect position).message ++ "\n"

/-- The line of an item that is a token. -/
def tokenLine : Item → String
  | .ok t => "  " ++ t.kind.listing ++ "\n"
  | .error _ => ""

/-- The exit code of a run that breaks off. -/
def abortCode : UInt8 := 101

/-- The report on the code of a program, behind what is already reported. -/
def ofCode (logged : Bool) (before : String) (code : Code) : Report :=
  let finished := before ++ "Bytecode:\n" ++ code.byteList ++ "\n"
  if logged then
    match code.listing with
    | .ok listing => ⟨finished, 0, some listing⟩
    | .error e => ⟨before ++ "Error: " ++ e.message ++ "\n", 1, none⟩
  else
    ⟨finished, 0, none⟩

/-- The report on a program, behind what is already reported. -/
def ofProgram (logged : Bool) (before : String) (p : Program) : Report :=
  let tree := before ++ "Tree:\n" ++ p.outline
  if p.isWritable then ofCode logged tree p.compile else ⟨tree, abortCode, none⟩

/-- The report on a text. -/
def ofText (logged : Bool) (source : String) : Report :=
  let items := (Lexer.ofString source).items
  let parsed := parseItems items
  let tokens := "Tokens:\n" ++ String.join ((items.take parsed.taken).map tokenLine)
  match parsed.outcome with
  | .ok p => ofProgram logged tokens p
  | .error e => ⟨tokens ++ errorLine e, 1, none⟩

/-- The report on a source. -/
def ofSource (logged : Bool) (input : ByteArray) : Report :=
  match decodeSource input with
  | .ok source => ofText logged source
  | .error e => ⟨errorLine (.lexical e), 1, none⟩

end Report

end Abecedary
