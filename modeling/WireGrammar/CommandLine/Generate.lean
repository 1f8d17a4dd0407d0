import WireGrammar.CommandLine.Outcome
import WireGrammar.Session

/-!
# The command that generates messages

Generates messages of one symbol of a grammar and writes them as lines of hexadecimal digits or as bytes. Fields can be
put under mutators that generate values of their own.

* `Generate.run`: the outcome of the command.
-/

namespace WireGrammar.CommandLine

/-- How messages are written. -/
inductive OutputFormat where
  /-- A line of hexadecimal digits each. -/
  | hex
  /-- Their bytes and nothing in between. -/
  | raw
  deriving DecidableEq

def OutputFormat.write : OutputFormat → Message → List UInt8
  | hex, m => Text.utf8 (Text.hex m.toBytes ++ "\n")
  | raw, m => m.toBytes

/-- What to generate. -/
structure GenerateOptions where
  grammar : String
  symbol : String
  count : Nat
  seed? : Option Nat
  /-- The fields under mutators. -/
  mutated : List String
  format : OutputFormat
  /-- The bound for values without a greatest length, in bytes. -/
  maxBytes : Nat
  deriving DecidableEq

/-- The options that are not given: one message in hexadecimal digits, values of up to 64 bytes. -/
def GenerateOptions.of (grammar symbol : String) : GenerateOptions where
  grammar
  symbol
  count := 1
  seed? := none
  mutated := []
  format := .hex
  maxBytes := 64

namespace Generate

/-- The symbol with a name. -/
def findSymbol (symbols : List Symbol) (name : String) : Except String Symbol :=
  match symbols.find? (·.name == name) with
  | some s => .ok s
  | none =>
    let known := ", ".intercalate (symbols.map (·.name))
    .error s!"unknown symbol {name} (grammar defines: {known})"

/-- Binds a mutator to each field named, the first with the seed and each further one with the next. -/
def mutators (s : Symbol) : Nat → List String → Mutators → Except String Mutators
  | _, [], m => .ok m
  | seed, name :: rest, m =>
    match s.field? name with
    | none => .error s!"symbol {s.name} has no field {name}"
    | some f => mutators s ((seed + 1) % Word.count 64) rest (m.bindLeaf f.id (.data (.seeded .generate seed)))

/-- The session in which the messages are generated; without a seed the fresh one is taken. -/
def session (options : GenerateOptions) (freshSeed : Nat) (s : Symbol) : Except String (Session Pcg64) := do
  let config := SessionConfig.ofSeed (options.seed?.getD freshSeed)
  let start := Session.ofConfig { config with settings := { config.settings with maxBytes := options.maxBytes } }
  if options.mutated.isEmpty then return start
  else return start.setMutators (← mutators s (options.seed?.getD 0) options.mutated .empty)

/-- Generates so many messages behind those made before, or fewer when one fails; says whether all were generated. -/
def messages (s : Symbol) : Nat → Session Pcg64 → Array Message → Array Message × Bool
  | 0, _, made => (made, true)
  | n + 1, session, made =>
    match session.generate s with
    | (.ok m, session) => messages s n session (made.push m)
    | (.error _, _) => (made, false)

/-- Runs the command on the text of its grammar file, if that can be read. -/
def run (options : GenerateOptions) (freshSeed : Nat) (grammar? : Option String) : Outcome :=
  .ofExcept do
    let symbols ← loadGrammar options.grammar grammar?
    let s ← findSymbol symbols options.symbol
    let start ← session options freshSeed s
    let (made, all) := messages s options.count start #[]
    let written := made.toList.flatMap options.format.write
    return if all then .success written "" else .failure written s!"specializing {s.name}"

end Generate

end WireGrammar.CommandLine
