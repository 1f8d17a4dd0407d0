import WireGrammar.DataType.Basic
import WireGrammar.Random

/-!
# Drawing contents

`DataType.draw` draws a content that the type accepts. A type without a greatest length is cut at a cap, or at its
least length if that is more. A constant draws nothing.
-/

namespace WireGrammar.DataType

variable {ρ : Type} [RandomSource ρ]

/-- A length of a range, which is cut at `cap` if it is open; nothing is drawn when only one is left. -/
def drawLength (range : LengthRange) (cap : Nat) : StateM ρ Nat :=
  let greatest := range.greatest?.getD (max range.least cap)
  if greatest ≤ range.least then pure range.least else RandomSource.countThrough range.least greatest

/-- `n` results in order. -/
def drawMany {α : Type} (one : StateM ρ α) : Nat → StateM ρ (List α)
  | 0 => pure []
  | n + 1 => do
    let x ← one
    let xs ← drawMany one n
    return x :: xs

/-- A visible ASCII character or the space. -/
def drawVisible : StateM ρ UInt8 :=
  UInt8.ofNat <$> RandomSource.through32 32 126

/-- A content of the type, where open ranges stop at `cap` bits. -/
def draw (t : DataType) (cap : Nat) : StateM ρ BitString :=
  match t with
  | raw (.only bytes) => pure (.ofBytes bytes)
  | raw (.within range) => do return .ofBytes (← RandomSource.bytes (← drawLength range (cap / 8)))
  | ascii (.only text) => pure (.ofBytes text.val)
  | ascii (.within range) => do return .ofBytes (← drawMany drawVisible (← drawLength range (cap / 8)))
  | integer type => do
    let value ← if type.isConstant then pure type.first else RandomSource.through128 type.first type.last
    return .ofBytes (type.format.toBytes value)
  | bits (.only content) => pure content
  | bits (.within range) => do return .ofList (← drawMany RandomSource.bool (← drawLength range cap))
  | ipv4 (some address) => pure (.ofBytes address.octets)
  | ipv4 none => do return .ofBytes (← RandomSource.bytes 4)
  | timestamp (some seconds) => pure (wordBits seconds)
  | timestamp none => do return wordBits (UInt32.ofNat (← RandomSource.draw32))

end WireGrammar.DataType
