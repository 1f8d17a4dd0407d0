import WireGrammar.Address
import WireGrammar.Bits
import WireGrammar.Text.Bytes
import WireGrammar.Text.Hex
import WireGrammar.Text.Quoted

/-!
# Typed values

What a leaf's bits mean, and how bit strings and values are shown.

* `BitString.render`: hexadecimal for whole bytes, binary digits otherwise.
* `BitString.key`: the text itself when every byte is a visible ASCII character or a space.
-/

namespace WireGrammar

namespace BitString

/-- Hexadecimal digits for whole bytes, otherwise binary digits. -/
def render (b : BitString) : String :=
  if b.isAligned then Text.hex b.toBytes
  else String.ofList (b.toList.map fun bit => if bit then '1' else '0')

/-- The length and the digits. -/
def describe (b : BitString) : String :=
  s!"BitString({b.length}b: {b.render})"

/-- A printable name: the text that the bytes spell if they are visible ASCII, otherwise the digits. -/
def key (b : BitString) : String :=
  if b.isAligned && !b.isEmpty && b.toBytes.all Text.isVisible then Text.ofAscii b.toBytes else b.render

end BitString

/-- A value as a data type understands it. -/
inductive Value where
  | int (value : Int)
  | bytes (value : List UInt8)
  | text (value : String)
  | ipv4 (value : Ipv4Address)
  | bits (value : BitString)
  deriving DecidableEq

/-- Numbers in decimal, bytes and bits after a mark of their base, text in quotes, addresses dotted. -/
def Value.render : Value → String
  | .int value => toString value
  | .bytes value => "0x" ++ Text.hex value
  | .text value => Text.quoted value
  | .ipv4 value => value.render
  | .bits value => "0b" ++ value.render

end WireGrammar
