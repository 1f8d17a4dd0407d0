import Mathlib.Data.List.Forall2
import WireGrammar.Grammar.Reader

/-!
# Renderings of declarations

What it means that a text writes declarations, said without the readers. A tree is written as a list of words
(`Expr.Written`, `FieldDecl.Written`, `SymbolDecl.Written`), and a text lays words out with a gap of blanks and
comments before each of them and perhaps an unfinished comment behind the last (`Laid`, `Ending`). A text renders
declarations if it lays out words that they are written as (`Renders`). The words of a tree are not unique: commas may
trail, positional arguments may stand between named ones, and a number or a text can be spelled in several ways.

The classes of words are said as what their words look like. Only the values of literals are those of the functions
with which trees are built, as are the literals that have no value (`Rejected`); with such literals a text renders
declarations but for them (`RendersBut`).
-/

namespace WireGrammar.Grammar

open Lexeme
open Text (isDigit)

/-! ## Words -/

/-- At least one character, all of a class. -/
def Run (isMember : Char → Bool) (word : List Char) : Prop :=
  word ≠ [] ∧ ∀ c ∈ word, isMember c

/-- A letter or an underscore, and behind it letters, digits and underscores. -/
inductive IsName : List Char → Prop
  | intro {c rest} : (isLetter c || c == '_') → (∀ d ∈ rest, isNameChar d) → IsName (c :: rest)

/-- Decimal digits, with a minus sign or without. -/
inductive IsInteger : List Char → Prop
  | plain {digits} : Run isDigit digits → IsInteger digits
  | minus {digits} : Run isDigit digits → IsInteger ('-' :: digits)

/-- An integer, a point and decimal digits. -/
inductive IsDecimal : List Char → Prop
  | intro {whole fraction} : IsInteger whole → Run isDigit fraction → IsDecimal (whole ++ '.' :: fraction)

/-- A zero, a letter in either case and digits of a class. -/
inductive IsBased (small big : Char) (isMember : Char → Bool) : List Char → Prop
  | intro {x digits} : x = small ∨ x = big → Run isMember digits → IsBased small big isMember ('0' :: x :: digits)

/-- A zero, an `x` and hexadecimal digits, all in either case. -/
abbrev IsHex : List Char → Prop :=
  IsBased 'x' 'X' isHexDigit

/-- A zero, a `b` in either case and binary digits. -/
abbrev IsBinary : List Char → Prop :=
  IsBased 'b' 'B' fun c => c == '0' || c == '1'

/-- What stands between two double quotes: a double quote or a backslash is always behind a backslash, which may as
well be before any other character. -/
inductive IsQuotable : List Char → Prop
  | nil : IsQuotable []
  | plain {c inner} : c ≠ '"' → c ≠ '\\' → IsQuotable inner → IsQuotable (c :: inner)
  | escaped {c inner} : IsQuotable inner → IsQuotable ('\\' :: c :: inner)

/-- A quotable text in double quotes. -/
inductive IsQuoted : List Char → Prop
  | intro {inner} : IsQuotable inner → IsQuoted ('"' :: (inner ++ ['"']))

/-! ## Trees as words -/

/-- Literals, each as one word. -/
inductive Expr.Spelled : Expr → String → Prop
  | int {w n} : IsInteger w.toList → intOf w.toList = .ok n → Spelled (.int n) w
  | float {w} : IsDecimal w.toList → Spelled (.float (floatOf w.toList)) w
  | bytes {w bytes} : IsHex w.toList → bytesOf w.toList = .ok bytes → Spelled (.bytes bytes) w
  | bits {w} : IsBinary w.toList → Spelled (.bits (bitsOf w.toList)) w
  | text {w} : IsQuoted w.toList → Spelled (.text (unquote w.toList)) w
  | true : Spelled (.bool .true) "true"
  | false : Spelled (.bool .false) "false"

/-- An argument with the words of its value; a named one has its name and an equals sign before them. -/
structure Part where
  name? : Option String
  value : Expr
  words : List String

namespace Part

def argument (part : Part) : Reader.Argument :=
  match part.name? with
  | none => .inl part.value
  | some name => .inr (name, part.value)

def allWords (part : Part) : List String :=
  match part.name? with
  | none => part.words
  | some name => name :: "=" :: part.words

end Part

/-- The words of items with a comma between any two of them. -/
def listed : List (List String) → List String
  | [] => []
  | first :: others => first ++ others.flatMap ("," :: ·)

/-- A comma behind all items, if there is one. -/
def trailing : Bool → List String
  | true => [","]
  | false => []

/-- The sign of a range. -/
def rangeSign : Bool → String
  | true => "..="
  | false => ".."

/-- A scope behind its sign, if there is one. -/
def scopeWords : Option Scope → List String
  | none => []
  | some scope => ["@", scope.name]

/-- Expressions as words. A reference is one word, without gaps around its point. -/
inductive Expr.Written : Expr → List String → Prop
  | literal {e w} : Spelled e w → Written e [w]
  | range {first last start stop} (inclusive : Bool) :
      IsInteger first.toList → intOf first.toList = .ok start →
      IsInteger last.toList → intOf last.toList = .ok stop →
      Written (.range start stop inclusive) [first, rangeSign inclusive, last]
  | field {field} : IsName field.toList → field ≠ "true" → field ≠ "false" → Written (.ref none field) [field]
  | fieldOf {symbol field} : IsName symbol.toList → symbol ≠ "true" → symbol ≠ "false" → IsName field.toList →
      Written (.ref (some symbol) field) [symbol ++ "." ++ field]
  | list {items : List (Expr × List String)} (comma : Bool) :
      (∀ item ∈ items, Written item.1 item.2) →
      Written (.list (items.map Prod.fst)) ("[" :: (listed (items.map Prod.snd) ++ trailing comma ++ ["]"]))
  | call {function} {parts : List Part} (comma : Bool) (scope? : Option Scope) :
      IsName function.toList →
      (∀ part ∈ parts, ∀ name ∈ part.name?, IsName name.toList) →
      (∀ part ∈ parts, Written part.value part.words) →
      Written
        (.call {
          function
          args := (parts.map Part.argument).filterMap Sum.getLeft?
          named := (parts.map Part.argument).filterMap Sum.getRight?
          scope? })
        (function :: "(" :: (listed (parts.map Part.allWords) ++ trailing comma ++ ")" :: scopeWords scope?))

/-- A field as its name, a colon, its domain and a semicolon. -/
inductive FieldDecl.Written : FieldDecl → List String → Prop
  | intro {name domain words} : IsName name.toList → Expr.Written (.call domain) words →
      Written ⟨name, domain⟩ (name :: ":" :: (words ++ [";"]))

/-- A symbol as its keyword, its name in quotes, and its fields in braces. -/
inductive SymbolDecl.Written : SymbolDecl → List String → Prop
  | intro {w fields words} : IsQuoted w.toList → List.Forall₂ FieldDecl.Written fields words →
      Written ⟨unquote w.toList, fields⟩ ("symbol" :: w :: "\x7b" :: (words.flatten ++ ["\x7d"]))

/-- A literal that has no value, with what is said of it when it is met. -/
inductive Rejected : String → GrammarError → Prop
  | integer {w fault} : IsInteger w.toList → intOf w.toList = .error fault → Rejected w fault
  | hex {w fault} : IsHex w.toList → bytesOf w.toList = .error fault → Rejected w fault

/-- The same word, or a literal that has a value for one that has none. -/
def Mends (w w' : String) : Prop :=
  w = w' ∨ (∃ fault, Rejected w fault) ∧ ∃ e, Expr.Spelled e w'

/-! ## Words as texts -/

/-- Blanks, and comments up to the ends of their lines. -/
inductive Gap : List Char → Prop
  | nil : Gap []
  | blank {c gap} : isBlank c → Gap gap → Gap (c :: gap)
  | comment {line gap} : '\n' ∉ line → Gap gap → Gap ('/' :: '/' :: (line ++ '\n' :: gap))

/-- What may follow the last word: a gap, and perhaps a comment in which the text ends. -/
inductive Ending : List Char → Prop
  | gap {gap} : Gap gap → Ending gap
  | comment {gap line} : Gap gap → '\n' ∉ line → Ending (gap ++ '/' :: '/' :: line)

/-- The text lays out the words, with a gap before each, and goes on with `rest`. -/
inductive Laid : List String → List Char → List Char → Prop
  | nil {rest} : Laid [] rest rest
  | cons {gap w ws text rest} : Gap gap → Laid ws text rest → Laid (w :: ws) (gap ++ (w.toList ++ text)) rest

/-- The text lays out the words and nothing else. -/
def LaidOut (words : List String) (text : String) : Prop :=
  ∃ ending, Laid words text.toList ending ∧ Ending ending

/-- The text lays out words that the declarations are written as. -/
def Renders (decls : List SymbolDecl) (text : String) : Prop :=
  ∃ words, List.Forall₂ SymbolDecl.Written decls words ∧ LaidOut words.flatten text

/-- The text would render declarations if its literals without a value were mended; the fault is that of one of them. -/
def RendersBut (fault : GrammarError) (text : String) : Prop :=
  ∃ decls words mended, List.Forall₂ SymbolDecl.Written decls mended ∧ List.Forall₂ Mends words mended.flatten ∧
    LaidOut words text ∧ ∃ w ∈ words, Rejected w fault

end WireGrammar.Grammar
