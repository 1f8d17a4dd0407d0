/-!
# Decimal numbers

Reading whole numbers from decimal digits. Writing them is `toString`.
-/

namespace WireGrammar.Text

/-- Whether a character is one of the ten decimal digits. -/
def isDigit (c : Char) : Bool :=
  '0' ≤ c && c ≤ '9'

/-- The number that a list of digits writes in base ten. -/
def digitsValue (digits : List Char) : Nat :=
  digits.foldl (fun n c => 10 * n + (c.toNat - 48)) 0

/-- Reads a list of at least one digit and nothing else. -/
def natOfDigits? (digits : List Char) : Option Nat :=
  if !digits.isEmpty && digits.all isDigit then some (digitsValue digits) else none

/-- Reads digits that a minus sign may precede. -/
def intOfDigits? : List Char → Option Int
  | '-' :: digits => (natOfDigits? digits).map fun n => -(n : Int)
  | digits => (natOfDigits? digits).map Int.ofNat

end WireGrammar.Text
