import Abecedary.Report

/-!
# The command line

Reads a source from standard input and prints the report on it. With `RUST_LOG` set to a level that
lets debug messages through, the listing of the code is printed to standard error.
-/

namespace Abecedary

/-- Whether a filter of messages lets debug messages through. The filter is a single level for all
messages, and without one it is that of warnings. -/
def passesDebug (filter : Option String) : Bool :=
  match filter with
  | some level => level.toLower == "debug" || level.toLower == "trace"
  | none => false

/-- The bytes that are left in a stream, behind some others. -/
partial def readRest (stream : IO.FS.Stream) (before : ByteArray) : IO ByteArray := do
  let chunk ← stream.read 65536
  if chunk.isEmpty then return before else readRest stream (before ++ chunk)

/-- Answers the source on standard input. -/
def reportInput : IO UInt32 := do
  let input ← readRest (← IO.getStdin) .empty
  let report := Report.ofSource (passesDebug (← IO.getEnv "RUST_LOG")) input
  if let some listing := report.log then
    IO.eprintln listing
  IO.print report.output
  return report.exitCode.toUInt32

end Abecedary

def main : IO UInt32 := Abecedary.reportInput
