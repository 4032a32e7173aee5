import Sentential.CommandLine.Run

/-!
# The program

Reads the grammar file and the answers of a person, and prints what a run of the command line says.
-/
open Sentential CommandLine

namespace Sentential.CommandLine

def readGrammar (path : String) : IO (Except Fault (List UInt8)) := do
  try
    let bytes ← IO.FS.readBinFile path
    pure (.ok bytes.toList)
  catch _ => pure (.error (.medium .notFound))

/-- A seed that differs from run to run. -/
def drawSeed : IO UInt64 := do
  let bytes ← IO.getRandomBytes 8
  pure (bytes.toList.foldl (fun n b => n * 256 + b.toUInt64) 0)

/-- The bytes of the next line, behind those read already; none at the end. -/
partial def readLine (stdin : IO.FS.Stream) (read : List UInt8) : IO (List UInt8) := do
  match (← stdin.read 1).toList with
  | [b] => if b = 0x0A then pure (b :: read).reverse else readLine stdin (b :: read)
  | _ => pure read.reverse

/-- Runs with the input so far. Where more is needed, the new prompts are shown and another line is
read. -/
partial def converse (run : Input → Report) (lines : List (List UInt8)) (shown : Nat) :
    IO Report := do
  let report := run (Input.ofBytes lines.reverse.flatten)
  let err := String.ofList (report.err.toList.drop shown)
  if report.starved then
    let waiting := String.ofList (err.toList.take (err.length - "Error: InputClosed\n".length))
    IO.eprint waiting
    let line ← readLine (← IO.getStdin) []
    if line.isEmpty then
      IO.eprint "Error: InputClosed\n"
      pure report
    else
      converse run (line :: lines) (shown + waiting.length)
  else
    IO.eprint err
    pure report

end Sentential.CommandLine

def main (arguments : List String) : IO UInt32 := do
  match Options.ofArguments arguments with
  | none =>
    IO.eprintln ("usage: [--start NAME] [--count N] [--seed N] [--trace] [--interactive] " ++
      "[--tree] [--separator TEXT] GRAMMAR")
    pure 2
  | some o =>
    let file ← readGrammar o.grammar
    let report ← converse (run o file · (← drawSeed)) [] 0
    IO.print report.out
    report.log.forM IO.eprintln
    pure report.exit
