import WireGrammar.Text.CharClass

/-!
# Quoted text

A text between double quotes in which every character is either shown as it is or written as an escape: `\0`, `\t`,
`\r`, `\n`, `\"`, `\\`, and for all other characters without a picture of their own the code point in braces,
`\u{301}`. The single quote needs no escape.
-/

namespace WireGrammar.Text

/-- The form of one character between the quotes. -/
def quotedChar (c : Char) : List Char :=
  match c with
  | '\x00' => ['\\', '0']
  | '\t' => ['\\', 't']
  | '\r' => ['\\', 'r']
  | '\n' => ['\\', 'n']
  | '"' => ['\\', '"']
  | '\\' => ['\\', '\\']
  | c =>
    if isGraphemeExtend c || !isPrintable c then
      ['\\', 'u', '\x7b'] ++ Nat.toDigits 16 c.toNat ++ ['\x7d']
    else [c]

/-- The text between double quotes, with escapes. -/
def quoted (text : String) : String :=
  String.ofList ('"' :: text.toList.flatMap quotedChar ++ ['"'])

end WireGrammar.Text
