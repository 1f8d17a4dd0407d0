import WireGrammar.Word

/-!
# The Internet checksum

The one's complement of the one's complement sum of the 16-bit words of a message. The words are added up in a register
of 32 bits; carries are kept until the end and then folded into the low sixteen bits.
-/

namespace WireGrammar.Checksum

/-- The big-endian 16-bit words of a message; a last odd byte is the high half of a word. -/
def words : List UInt8 → List Nat
  | [] => []
  | [hi] => [hi.toNat * 256]
  | hi :: lo :: rest => (hi.toNat * 256 + lo.toNat) :: words rest

/-- The sum of words in a register of 32 bits. -/
def registerSum (words : List Nat) : Nat :=
  words.foldl (fun sum word => (sum + word) % Word.count 32) 0

/-- Adds the part of a number above sixteen bits to the part below until nothing is left above. -/
def foldCarries (n : Nat) : Nat :=
  if n < 65536 then n else foldCarries (n % 65536 + n / 65536)
termination_by n

/-- The checksum of a message. -/
def internet (message : List UInt8) : Nat :=
  65535 - foldCarries (registerSum (words message))

end WireGrammar.Checksum
