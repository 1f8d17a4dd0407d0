import WireGrammar.Variable.Checked

/-!
# Declarations

The tree that a grammar text writes: symbols with named fields, and for each field a call that describes its domain.
With it go the faults of a grammar, each with its message.
-/

namespace WireGrammar.Grammar

mutual

/-- A function with positional and named arguments, and a scope if one is written behind it. -/
structure Call where
  function : String
  args : List Expr
  named : List (String × Expr)
  scope? : Option Scope

/-- An argument of a call. -/
inductive Expr where
  | call (call : Call)
  | int (value : Int)
  | float (value : Binary64)
  | bool (value : Bool)
  | bytes (value : List UInt8)
  | text (value : String)
  | bits (value : BitString)
  /-- The numbers from `start` to `stop`, which belongs to them if the range is inclusive. -/
  | range (start stop : Int) (inclusive : Bool)
  | list (items : List Expr)
  /-- A field of the symbol at hand, or of another symbol. -/
  | ref (symbol? : Option String) (field : String)

end

structure FieldDecl where
  name : String
  domain : Call

structure SymbolDecl where
  name : String
  fields : List FieldDecl

/-- The sorts of expressions, as messages name them. -/
def Expr.sort : Expr → String
  | call _ => "a domain"
  | int _ => "an integer"
  | float _ => "a float"
  | bool _ => "a boolean"
  | bytes _ => "hex bytes"
  | text _ => "a string"
  | bits _ => "binary digits"
  | range .. => "a range"
  | list _ => "a list"
  | ref .. => "a reference"

/-- What is wrong with the arguments of a call. -/
inductive ArgumentFault where
  | unknownName (name : String)
  | missing (name : String)
  /-- The named argument is of another sort than it must be. -/
  | namedSort (name must : String) (found : String)
  | namedOutOfRange (name : String)
  /-- A positional argument is of another sort than expected. -/
  | sort (expected : String) (found : String)
  | unexpected (found : String)
  | tooMany
  | expectedOneReference
  | expectedDomainAndCount
  | badCount (value : Int)
  | badTime (value : Int)
  | badAddress (text : String)
  | dependsOnItself (symbol field : String)
  deriving DecidableEq

def ArgumentFault.message : ArgumentFault → String
  | unknownName name => s!"unknown argument `{name}`"
  | missing name => s!"missing `{name}`"
  | namedSort name must found => s!"{name} must be {must}, found {found}"
  | namedOutOfRange name => s!"{name} out of range"
  | sort expected found => s!"expected {expected}, found {found}"
  | unexpected found => s!"unexpected {found}"
  | tooMany => "expected at most one argument"
  | expectedOneReference => "expected exactly one field reference"
  | expectedDomainAndCount => "expected a domain and a count"
  | badCount value => s!"{value} is not a valid count"
  | badTime value => s!"{value} is not a 32-bit time"
  | badAddress text => s!"invalid address {text}"
  | dependsOnItself symbol field => s!"`{symbol}.{field}` depends on its own value"

end Grammar

/-- Why a grammar text defines no symbols. -/
inductive GrammarError where
  /-- The text goes wrong at a line and a column, both counted from one. -/
  | syntaxAt (line column : Nat)
  /-- A hexadecimal literal with an odd number of digits. -/
  | oddHex (literal : String)
  /-- An integer literal that does not fit 128 bits. -/
  | integerTooLarge (literal : String)
  | unknownFunction (name : String)
  | badArgument (function : String) (fault : Grammar.ArgumentFault)
  | unknownReference (reference : String)
  | duplicateSymbol (name : String)
  | definition (error : DefinitionError)

def GrammarError.message : GrammarError → String
  | syntaxAt line column => s!"syntax error at {line}:{column}"
  | oddHex literal => s!"syntax error: hex literal {literal}: Odd number of digits"
  | integerTooLarge literal => s!"syntax error: integer literal {literal}"
  | unknownFunction name => s!"unknown function `{name}`"
  | badArgument function fault => s!"{function}: {fault.message}"
  | unknownReference reference => s!"unknown reference `{reference}`"
  | duplicateSymbol name => s!"duplicate symbol `{name}`"
  | definition error => error.message

end WireGrammar
