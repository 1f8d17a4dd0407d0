import WireGrammar.CommandLine.Generate
import WireGrammar.CommandLine.Recognize
import WireGrammar.Text.Decimal

/-!
# Command line arguments

* `Command.ofArguments`: the command that arguments ask for, or what is wrong with them.
-/

namespace WireGrammar.CommandLine

/-- The commands of the program. -/
inductive Command where
  | generate (options : GenerateOptions)
  | recognize (options : RecognizeOptions)
  deriving DecidableEq

/-- What is wrong with arguments. -/
inductive UsageError where
  | noCommand
  | unknownCommand (name : String)
  | unknownOption (name : String)
  | noValue (option : String)
  | badValue (option value : String)
  | missing (argument : String)
  | surplus (argument : String)
  deriving DecidableEq

def UsageError.message : UsageError → String
  | noCommand => "a command is missing: generate or recognize"
  | unknownCommand name => s!"unknown command {name}"
  | unknownOption name => s!"unknown option {name}"
  | noValue option => s!"the option {option} needs a value"
  | badValue option value => s!"the option {option} does not take the value {value}"
  | missing argument => s!"the argument {argument} is missing"
  | surplus argument => s!"too many arguments, from {argument} on"

/-- What the program is used like. -/
def usage : String :=
  "usage: generate GRAMMAR SYMBOL [-n COUNT] [--seed SEED] [--fuzz FIELD]... [--format hex|raw] [--max-bytes N]\n" ++
  "       recognize GRAMMAR CAPTURE [--verbose] [--no-memory]\n"

/-- A number of 64 bits. -/
def number (option value : String) : Except UsageError Nat :=
  match Text.natOfDigits? value.toList with
  | some n => if n < Word.count 64 then .ok n else .error (.badValue option value)
  | none => .error (.badValue option value)

/-- Splits an argument such as `--seed=3` into the two arguments that it stands for. -/
def splitAssigned (argument : String) : List String :=
  if argument.startsWith "--" then
    match argument.toList.span (· != '=') with
    | (name, '=' :: value) => [String.ofList name, String.ofList value]
    | _ => [argument]
  else [argument]

/-- Puts an option with a value into effect. -/
def GenerateOptions.assign (o : GenerateOptions) (option value : String) : Except UsageError GenerateOptions :=
  match option with
  | "-n" | "--count" => do return { o with count := ← number option value }
  | "--seed" => do return { o with seed? := some (← number option value) }
  | "--fuzz" => .ok { o with mutated := o.mutated ++ [value] }
  | "--max-bytes" => do return { o with maxBytes := ← number option value }
  | "--format" =>
    match value with
    | "hex" => .ok { o with format := .hex }
    | "raw" => .ok { o with format := .raw }
    | _ => .error (.badValue option value)
  | _ => .error (.unknownOption option)

/-- Whether an argument names an option. -/
def isOption (argument : String) : Bool :=
  argument.startsWith "-" && argument != "-"

/-- Reads the arguments of the command that generates; options may stand anywhere. -/
def generateOptions : List String → List String → GenerateOptions → Except UsageError GenerateOptions
  | [], [grammar, symbol], o => .ok { o with grammar, symbol }
  | [], [], _ => .error (.missing "GRAMMAR")
  | [], [_], _ => .error (.missing "SYMBOL")
  | [], _ :: _ :: extra :: _, _ => .error (.surplus extra)
  | argument :: rest, positional, o =>
    if isOption argument then
      match rest with
      | [] => .error (.noValue argument)
      | value :: rest => do generateOptions rest positional (← o.assign argument value)
    else generateOptions rest (positional ++ [argument]) o

/-- Reads the arguments of the command that recognizes; options may stand anywhere. -/
def recognizeOptions : List String → List String → RecognizeOptions → Except UsageError RecognizeOptions
  | [], [grammar, capture], o => .ok { o with grammar, capture }
  | [], [], _ => .error (.missing "GRAMMAR")
  | [], [_], _ => .error (.missing "CAPTURE")
  | [], _ :: _ :: extra :: _, _ => .error (.surplus extra)
  | argument :: rest, positional, o =>
    match argument with
    | "-v" | "--verbose" => recognizeOptions rest positional { o with verbose := true }
    | "--no-memory" => recognizeOptions rest positional { o with forgetful := true }
    | _ =>
      if isOption argument then .error (.unknownOption argument)
      else recognizeOptions rest (positional ++ [argument]) o

/-- The command that arguments ask for. -/
def Command.ofArguments : List String → Except UsageError Command
  | [] => .error .noCommand
  | "generate" :: rest => generate <$> generateOptions (rest.flatMap splitAssigned) [] (.of "" "")
  | "recognize" :: rest => recognize <$> recognizeOptions (rest.flatMap splitAssigned) [] ⟨"", "", false, false⟩
  | name :: _ => .error (.unknownCommand name)

end WireGrammar.CommandLine
