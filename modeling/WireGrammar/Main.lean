import WireGrammar.CommandLine.Arguments

/-!
# The program

Reads the files that a command names, runs the command on their contents, and writes what it gives.
-/

namespace WireGrammar.CommandLine

/-- The text of a file, if it can be read. -/
def readText (path : String) : IO (Option String) := do
  try return some (← IO.FS.readFile path)
  catch _ => return none

/-- The bytes of a file, if it can be read. -/
def readBytes (path : String) : IO (Option (List UInt8)) := do
  try return some (← IO.FS.readBinFile path).toList
  catch _ => return none

/-- Runs the command on the files that it names. -/
def Command.execute : Command → IO Outcome
  | .generate options => do
    let freshSeed ← IO.rand 0 (Word.count 64 - 1)
    return Generate.run options freshSeed (← readText options.grammar)
  | .recognize options => do
    return Recognize.run options (← readText options.grammar) (← readBytes options.capture)

end WireGrammar.CommandLine

open WireGrammar.CommandLine in
def main (arguments : List String) : IO UInt32 := do
  match Command.ofArguments arguments with
  | .error e =>
    (← IO.getStderr).putStr s!"Error: {e.message}\n{usage}"
    return 2
  | .ok command =>
    let outcome ← command.execute
    let stdout ← IO.getStdout
    stdout.write ⟨outcome.stdout.toArray⟩
    stdout.flush
    (← IO.getStderr).putStr outcome.stderr
    return UInt32.ofNat outcome.exitCode
