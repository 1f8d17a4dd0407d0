import WireGrammar.Grammar.Symbols
import WireGrammar.Text.Bytes

/-!
# Outcomes of a command

What a command writes and with which code it ends. A command that fails keeps what it has written so far.

* `Outcome.success`, `Outcome.failure`: the two ways to end.
* `loadGrammar`: the symbols of a grammar file.
-/

namespace WireGrammar.CommandLine

/-- What a finished command has written, and its exit code. -/
structure Outcome where
  exitCode : Nat
  stdout : List UInt8
  stderr : String
  deriving DecidableEq

def Outcome.success (stdout : List UInt8) (stderr : String) : Outcome where
  exitCode := 0
  stdout
  stderr

/-- The end of a command that has written something and then fails for a reason. -/
def Outcome.failure (stdout : List UInt8) (reason : String) : Outcome where
  exitCode := 1
  stdout
  stderr := s!"Error: {reason}\n"

/-- The end of a command that fails before it writes anything. -/
def Outcome.ofExcept : Except String Outcome → Outcome
  | .ok outcome => outcome
  | .error reason => .failure [] reason

/-- The symbols in a grammar file, of which the text is given if it can be read. -/
def loadGrammar (path : String) : Option String → Except String (List Symbol)
  | none => .error s!"reading grammar {path}"
  | some text =>
    match Grammar.symbols text with
    | .ok symbols => .ok symbols
    | .error _ => .error s!"parsing grammar {path}"

end WireGrammar.CommandLine
