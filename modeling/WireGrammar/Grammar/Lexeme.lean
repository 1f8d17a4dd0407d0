import WireGrammar.Binary64.Text
import WireGrammar.Grammar.Decl

/-!
# Lexemes

The words of a grammar text: for each class a function that gives the longest word of the class at the front of a
text, and for literals the values that words stand for. Between words there may be blanks and comments.

* `Lexeme.identifier`, `hex`, `binary`, `float`, `integer`, `boolean`, `quoted`: the classes.
* `Lexeme.skipBlanks`: blanks, and comments from two slashes to the end of the line.
* `Lexeme.unquote`: the text that a quoted word stands for.
-/

namespace WireGrammar.Grammar.Lexeme

open Text

/-- A word at the front of a text, with what follows it. -/
abbrev Class : Type :=
  List Char → Option (List Char × List Char)

def isLetter (c : Char) : Bool :=
  ('a' ≤ c && c ≤ 'z') || ('A' ≤ c && c ≤ 'Z')

/-- Whether a character may stand inside a name. -/
def isNameChar (c : Char) : Bool :=
  isLetter c || isDigit c || c == '_'

def isHexDigit (c : Char) : Bool :=
  (hexDigit? c).isSome

/-- The characters of a class at the front of a text, at least one. -/
def some1 (isMember : Char → Bool) (text : List Char) : Option (List Char × List Char) :=
  match text.takeWhile isMember with
  | [] => none
  | word => some (word, text.dropWhile isMember)

/-- A letter or an underscore, followed by letters, digits and underscores. -/
def identifier : Class
  | [] => none
  | c :: rest =>
    if isLetter c || c == '_' then some (c :: rest.takeWhile isNameChar, rest.dropWhile isNameChar) else none

/-- `0x` and hexadecimal digits. -/
def hex : Class
  | '0' :: x :: rest =>
    if x == 'x' || x == 'X' then (some1 isHexDigit rest).map fun (digits, rest) => ('0' :: x :: digits, rest) else none
  | _ => none

/-- `0b` and binary digits. -/
def binary : Class
  | '0' :: b :: rest =>
    if b == 'b' || b == 'B' then
      (some1 (fun c => c == '0' || c == '1') rest).map fun (digits, rest) => ('0' :: b :: digits, rest)
    else none
  | _ => none

/-- Decimal digits, with a minus sign or without. -/
def integer : Class
  | '-' :: rest => (some1 isDigit rest).map fun (digits, rest) => ('-' :: digits, rest)
  | text => some1 isDigit text

/-- Decimal digits on both sides of a point, with a minus sign or without. -/
def float : Class := fun text =>
  match integer text with
  | some (whole, '.' :: rest) => (some1 isDigit rest).map fun (digits, rest) => (whole ++ '.' :: digits, rest)
  | _ => none

/-- A word, unless the name that it stands in goes on. -/
def wholeWord (word : List Char) (text : List Char) : Option (List Char × List Char) :=
  if word.isPrefixOf text then
    let rest := text.drop word.length
    if rest.head?.any isNameChar then none else some (word, rest)
  else none

/-- `true` or `false`. -/
def boolean : Class := fun text =>
  (wholeWord ['t', 'r', 'u', 'e'] text).or (wholeWord ['f', 'a', 'l', 's', 'e'] text)

/-- The inside of a quoted word and what follows its last quote; a character behind a backslash never ends it. -/
def quotedTail : Class
  | [] => none
  | '"' :: rest => some (['"'], rest)
  | '\\' :: c :: rest => (quotedTail rest).map fun (word, rest) => ('\\' :: c :: word, rest)
  | c :: rest => (quotedTail rest).map fun (word, rest) => (c :: word, rest)

/-- Characters between double quotes. -/
def quoted : Class
  | '"' :: rest => (quotedTail rest).map fun (word, rest) => ('"' :: word, rest)
  | _ => none

/-- Whether a character separates words. -/
def isBlank (c : Char) : Bool :=
  c == ' ' || c == '\t' || c == '\r' || c == '\n'

mutual

/-- What follows the blanks and comments at the front of a text. -/
def skipBlanks : List Char → List Char
  | [] => []
  | '/' :: '/' :: rest => skipComment rest
  | c :: rest => if isBlank c then skipBlanks rest else c :: rest

/-- What follows the rest of a line, and the blanks and comments behind it. -/
def skipComment : List Char → List Char
  | [] => []
  | c :: rest => if c == '\n' then skipBlanks rest else skipComment rest

end

/-- Puts `letter` in place of each backslash and the character `escaped` behind it. -/
def replaceEscape (escaped letter : Char) : List Char → List Char
  | '\\' :: c :: rest =>
    if c = escaped then letter :: replaceEscape escaped letter rest
    else '\\' :: replaceEscape escaped letter (c :: rest)
  | c :: rest => c :: replaceEscape escaped letter rest
  | [] => []

/-- The text that a quoted word stands for: without its quotes, with the escapes of the newline, the tabulator and the
double quote replaced in this order. -/
def unquote (word : List Char) : String :=
  let inner := word.tail.dropLast
  String.ofList (replaceEscape '"' '"' (replaceEscape 't' '\t' (replaceEscape 'n' '\n' inner)))

/-- The number that decimal digits write, if it fits 128 bits. -/
def intOf (word : List Char) : Except GrammarError Int :=
  match intOfDigits? word with
  | some n => if Word.fitsSigned 128 n then .ok n else .error (.integerTooLarge (String.ofList word))
  | none => .error (.integerTooLarge (String.ofList word))

/-- The bytes of a hexadecimal literal. -/
def bytesOf (word : List Char) : Except GrammarError (List UInt8) :=
  match hexDecode? (word.drop 2) with
  | some bytes => .ok bytes
  | none => .error (.oddHex (String.ofList word))

/-- The bits of a binary literal. -/
def bitsOf (word : List Char) : BitString :=
  .ofList ((word.drop 2).map (· == '1'))

/-- The number of the format nearest to a decimal literal. -/
def floatOf (word : List Char) : Binary64 :=
  (Binary64.ofText? (String.ofList word)).getD .nan

end WireGrammar.Grammar.Lexeme
