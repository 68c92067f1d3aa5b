import SymbolIndex.Cli.Session

/-!
# The command line

The words of the command line are arguments. The first line of the standard input describes where
the program runs: its directory, its environment and the files it can see. Each command the program
runs is written to the standard output as one line and answered by one line of the standard input;
the last line written tells how the run ended.
-/

open SymbolIndex SymbolIndex.Cli

def readDocument (input : IO.FS.Stream) : IO Json := do
  return (Json.parse? (← input.getLine)).getD (.obj [])

partial def converse (input output : IO.FS.Stream) (s : Session) : IO Outcome := do
  match s.pending? with
  | none => return s.outcome
  | some call =>
    output.putStrLn (Json.obj [("call", call.encode)]).render
    output.flush
    converse input output (s.answer call (Child.ofJson (← readDocument input)))

def main (words : List String) : IO UInt32 := do
  let input ← IO.getStdin
  let output ← IO.getStdout
  let outcome ← converse input output (Session.ofJson words (← readDocument input))
  for message in outcome.messages do
    IO.eprintln message
  output.putStrLn outcome.encode.render
  return outcome.exit.toUInt32
