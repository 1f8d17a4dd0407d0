import WireGrammar.Grammar.Lexeme

/-!
# Reading a grammar text

A recursive descent over the characters of the text that tries alternatives in order and keeps the first that
succeeds. Blanks and comments may stand between any two words, but not inside a reference. A text that cannot be read
is refused at the farthest position at which a part of the text was expected and did not begin.

* `Reader.grammar`: the declarations of a whole text; literals that have no value are faults of the tree, in the order
  in which they stand, and come only after the text could be read.
* `Grammar.declarations`: the tree of a text, or why there is none.
-/

namespace WireGrammar.Grammar

/-- A place in a text: the number of characters before it, and those behind it. -/
structure Cursor where
  position : Nat
  rest : List Char

/-- Readers move a cursor or fail; the state behind both is the farthest position where a part did not begin. -/
abbrev Reader (α : Type) : Type :=
  StateT Cursor (OptionT (StateM Nat)) α

/-- A value that a well-formed text may still lack. -/
abbrev Checked (α : Type) : Type :=
  Except GrammarError α

namespace Reader

variable {α : Type}

/-- A named part of the text: where it fails to begin, the position counts. -/
def part (read : Reader α) : Reader α := fun cursor => OptionT.mk do
  let result ← (read cursor).run
  if result.isNone then modify (max cursor.position)
  return result

/-- A word of a class. -/
def word (words : Lexeme.Class) : Reader (List Char) := fun cursor =>
  match words cursor.rest with
  | some (word, rest) => return (word, ⟨cursor.position + word.length, rest⟩)
  | none => failure

/-- The given characters. -/
def exactly (text : String) : Reader Unit := fun cursor =>
  if text.toList.isPrefixOf cursor.rest then
    return ((), ⟨cursor.position + text.length, cursor.rest.drop text.length⟩)
  else failure

/-- Any blanks and comments. -/
def blanks : Reader Unit := fun cursor =>
  let rest := Lexeme.skipBlanks cursor.rest
  return ((), ⟨cursor.position + (cursor.rest.length - rest.length), rest⟩)

/-- The given characters, with the blanks before and behind them. -/
def mark (text : String) : Reader Unit := do
  blanks
  exactly text
  blanks

/-- The result, if the reader succeeds; otherwise nothing is read. -/
def optional? (read : Reader α) : Reader (Option α) :=
  (some <$> read) <|> return none

/-- Reads again and again, at most `n` times, with blanks in front of each. -/
def upTo (read : Reader α) : Nat → Reader (List α)
  | 0 => return []
  | n + 1 => (do
      let x ← blanks *> read
      let xs ← upTo read n
      return x :: xs) <|> return []

/-- Reads as often as possible; each time some of the text is used up, and once more to see that it is over. -/
def many (read : Reader α) : Reader (List α) := fun cursor =>
  upTo read (cursor.rest.length + 1) cursor

/-- Any number of items with commas between them, and perhaps one behind the last. -/
def commaSeparated (item : Reader α) : Reader (List α) := do
  let items ← (do
    let first ← item
    let others ← many (exactly "," *> blanks *> item)
    return first :: others) <|> return []
  discard (optional? (blanks *> exactly ","))
  return items

def identifier : Reader String :=
  part (String.ofList <$> word Lexeme.identifier)

def integer : Reader (Checked Int) :=
  part (Lexeme.intOf <$> word Lexeme.integer)

def quoted : Reader String :=
  part (Lexeme.unquote <$> word Lexeme.quoted)

def boolean : Reader Bool :=
  part ((· == ['t', 'r', 'u', 'e']) <$> word Lexeme.boolean)

/-- A literal of any sort. -/
def literal : Reader (Checked Expr) :=
  part <|
    part ((fun w => Expr.bytes <$> Lexeme.bytesOf w) <$> word Lexeme.hex)
    <|> part ((fun w => pure (.bits (Lexeme.bitsOf w))) <$> word Lexeme.binary)
    <|> part ((fun w => pure (.float (Lexeme.floatOf w))) <$> word Lexeme.float)
    <|> (Expr.int <$> ·) <$> integer
    <|> (fun text => pure (.text text)) <$> quoted
    <|> (fun value => pure (.bool value)) <$> boolean

/-- Two integers with the sign of a range between them. -/
def range : Reader (Checked Expr) := part do
  let start ← integer
  blanks
  let inclusive ← part ((fun _ => true) <$> exactly "..=") <|> part ((fun _ => false) <$> exactly "..")
  blanks
  let stop ← integer
  return do return .range (← start) (← stop) inclusive

/-- The name of a field, or those of a symbol and its field with a point and nothing else between them. -/
def reference : Reader (Checked Expr) := part do
  let first ← identifier
  match ← optional? (exactly "." *> identifier) with
  | some field => return pure (.ref (some first) field)
  | none => return pure (.ref none first)

/-- The scope of a domain. -/
def scope : Reader Scope := part do
  exactly "@"
  blanks
  part <|
    (fun _ => .constant) <$> exactly "constant"
    <|> (fun _ => .ephemeral) <$> exactly "ephemeral"
    <|> (fun _ => .volatile) <$> exactly "volatile"
    <|> (fun _ => .persistent) <$> exactly "persistent"

/-- A positional or a named argument. -/
abbrev Argument : Type :=
  Expr ⊕ (String × Expr)

section Nested

variable (expr : Reader (Checked Expr))

/-- A name, an equals sign and an expression. -/
def namedArgument : Reader (Checked Argument) := part do
  let name ← identifier
  mark "="
  let value ← expr
  return (fun value => .inr (name, value)) <$> value

def argument : Reader (Checked Argument) :=
  part (namedArgument expr <|> (Sum.inl <$> ·) <$> expr)

/-- A function and its arguments, without a scope. -/
def call : Reader (Checked Call) := part do
  let function ← identifier
  mark "("
  let arguments ← commaSeparated (argument expr)
  blanks
  exactly ")"
  return do
    let arguments ← arguments.mapM id
    return {
      function
      args := arguments.filterMap Sum.getLeft?
      named := arguments.filterMap Sum.getRight?
      scope? := none }

/-- A call with the scope behind it. -/
def domain : Reader (Checked Call) := part do
  let call ← call expr
  blanks
  let scope? ← optional? scope
  return (fun call => { call with scope? }) <$> call

def listOf : Reader (Checked Expr) := part do
  exactly "["
  blanks
  let items ← commaSeparated expr
  blanks
  exactly "]"
  return Expr.list <$> items.mapM id

end Nested

/-- An expression in which expressions are nested less than `depth` deep. -/
def expression : Nat → Reader (Checked Expr)
  | 0 => failure
  | depth + 1 => fun cursor =>
    let expr := expression depth
    part ((Expr.call <$> ·) <$> domain expr <|> range <|> listOf expr <|> literal <|> reference) cursor

/-- A name, a colon, a domain and a semicolon. -/
def field (depth : Nat) : Reader (Checked FieldDecl) := part do
  let name ← identifier
  mark ":"
  let call ← domain (expression depth)
  blanks
  exactly ";"
  return (fun call => ⟨name, call⟩) <$> call

/-- The word `symbol`, a name in quotes, and fields in braces. -/
def symbol (depth : Nat) : Reader (Checked SymbolDecl) := part do
  exactly "symbol"
  blanks
  let name ← quoted
  mark "\x7b"
  let fields ← many (field depth)
  blanks
  exactly "\x7d"
  return (fun fields => ⟨name, fields⟩) <$> fields.mapM id

/-- The end of the text. -/
def endOfText : Reader Unit := part fun cursor =>
  if cursor.rest.isEmpty then return ((), cursor) else failure

/-- A whole text of symbols. -/
def grammar (depth : Nat) : Reader (Checked (List SymbolDecl)) := part do
  blanks
  let symbols ← many (symbol depth)
  blanks
  endOfText
  return symbols.mapM id

end Reader

/-- The line and the column of a position, both counted from one. -/
def lineAndColumn (text : List Char) (position : Nat) : Nat × Nat :=
  let before := text.take position
  (before.count '\n' + 1, (before.reverse.takeWhile (· != '\n')).length + 1)

/-- The declarations that a text writes. No expression is nested deeper than the text is long. -/
def declarations (text : String) : Except GrammarError (List SymbolDecl) :=
  let chars := text.toList
  match ((Reader.grammar (chars.length + 1)).run ⟨0, chars⟩).run.run 0 with
  | (some (symbols, _), _) => symbols
  | (none, farthest) =>
    let (line, column) := lineAndColumn chars farthest
    .error (.syntaxAt line column)

end WireGrammar.Grammar
