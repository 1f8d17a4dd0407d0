/-!
# Text as bytes

The bytes of a text are those of its UTF-8 form; ASCII is the part of it in which a character is one byte below 128.
-/

namespace WireGrammar.Text

/-- The UTF-8 form. -/
def utf8 (text : String) : List UInt8 :=
  text.toList.flatMap String.utf8EncodeChar

/-- Whether every character is below 128. -/
def isAscii (text : String) : Bool :=
  text.toList.all fun c => c.toNat < 128

/-- The text whose characters have the given codes; it is the one that the bytes encode when all are below 128. -/
def ofAscii (bytes : List UInt8) : String :=
  String.ofList (bytes.map fun b => Char.ofNat b.toNat)

/-- Whether a byte is the code of a visible ASCII character or of the space. -/
def isVisible (b : UInt8) : Bool :=
  32 ≤ b && b ≤ 126

end WireGrammar.Text
