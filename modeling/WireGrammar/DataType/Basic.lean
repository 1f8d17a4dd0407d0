import WireGrammar.Bytes
import WireGrammar.Value

/-!
# Data types of leaves

A data type says which bit strings a leaf may hold: how long they are, in which unit their length is counted, and
which contents are allowed. Types are valid by construction: ranges are not empty, a fixed text is ASCII, and the
bounds of an integer fit its width.

* `DataType.bounds`, `unit`, `constant?`: the least and greatest length in bits, the unit, and the fixed content.
* `DataType.accepts`: the contents that the type allows.
* `DataType.candidateLengths`: the allowed lengths among so many remaining bits, the longest first.
-/

namespace WireGrammar

/-- The families of data types. -/
inductive DataType.Kind where
  | raw | ascii | integer | bits | ipv4 | timestamp
  deriving DecidableEq

def DataType.Kind.name : DataType.Kind → String
  | raw => "Raw"
  | ascii => "ASCII"
  | integer => "Integer"
  | bits => "BitArray"
  | ipv4 => "IPv4"
  | timestamp => "Timestamp"

/-- Why a data type cannot be made, or cannot convert a value. -/
inductive TypeError where
  /-- The value, as shown, lies outside of the type's range. -/
  | outOfRange (kind : DataType.Kind) (shown : String)
  /-- The value, as shown, is of a sort that the type does not represent. -/
  | wrongKind (kind : DataType.Kind) (shown : String)
  | badLength (kind : DataType.Kind) (length : Nat)
  /-- The greatest length is below the least one. -/
  | emptyLengths (kind : DataType.Kind) (least greatest : Nat)
  | emptyInterval (first last : Int)
  | unsupportedWidth (width : Nat)
  deriving DecidableEq

/-- The word for the lengths of a family. -/
def DataType.Kind.lengthWord : DataType.Kind → String
  | raw => "raw length"
  | ascii => "ascii length"
  | _ => "bit length"

def TypeError.message : TypeError → String
  | outOfRange kind shown => s!"{kind.name}: value {shown} out of range"
  | wrongKind kind shown => s!"{kind.name}: cannot represent {shown}"
  | badLength kind length => s!"{kind.name}: {length} bits is not a valid length"
  | emptyLengths kind least greatest =>
    s!"invalid type parameter: {kind.lengthWord} {least}..Some({greatest})"
  | emptyInterval first last => s!"invalid type parameter: interval {first}..{last}"
  | unsupportedWidth width => s!"invalid type parameter: integer unit size {width}"

/-- A range of lengths, open above if there is no greatest one. -/
structure LengthRange where
  least : Nat
  greatest? : Option Nat
  least_le : ∀ greatest ∈ greatest?, least ≤ greatest
  deriving DecidableEq

namespace LengthRange

def exactly (n : Nat) : LengthRange where
  least := n
  greatest? := some n
  least_le := by simp

def atLeast (n : Nat) : LengthRange where
  least := n
  greatest? := none
  least_le := by simp

/-- The range with the given ends, unless the greatest length is below the least one. -/
def of? (least : Nat) : Option Nat → Option LengthRange
  | none => some (atLeast least)
  | some greatest =>
    if h : least ≤ greatest then some { least, greatest? := some greatest, least_le := by simpa using h } else none

end LengthRange

/-- What a leaf of variable length may hold: one given content, or any whose length lies in a range. -/
inductive Allowed (α : Type) where
  | only (content : α)
  | within (lengths : LengthRange)
  deriving DecidableEq

/-- Bytes below 128. -/
abbrev AsciiText : Type :=
  { bytes : List UInt8 // bytes.all (· < 128) = true }

/-- The number of bytes of an integer. -/
inductive IntegerWidth where
  | one | two | four | eight
  deriving DecidableEq

namespace IntegerWidth

def bytes : IntegerWidth → Nat
  | one => 1
  | two => 2
  | four => 4
  | eight => 8

def bits (w : IntegerWidth) : Nat :=
  8 * w.bytes

def ofBits? : Nat → Option IntegerWidth
  | 8 => some one
  | 16 => some two
  | 32 => some four
  | 64 => some eight
  | _ => none

end IntegerWidth

/-- How an integer is laid out: width, order of the bytes, and whether negative numbers are written. -/
structure IntegerFormat where
  width : IntegerWidth
  endianness : Endianness
  signed : Bool
  deriving DecidableEq

namespace IntegerFormat

/-- The least number of the format. -/
def lowest (f : IntegerFormat) : Int :=
  if f.signed then Word.leastSigned f.width.bits else 0

/-- The greatest number of the format. -/
def highest (f : IntegerFormat) : Int :=
  if f.signed then Word.greatestSigned f.width.bits else Word.count f.width.bits - 1

theorem lowest_le_highest (f : IntegerFormat) : f.lowest ≤ f.highest := by
  obtain ⟨w, e, s⟩ := f
  cases w <;> cases e <;> cases s <;> decide

/-- Two's complement, with the bytes in the order of the format. -/
def toBytes (f : IntegerFormat) (value : Int) : List UInt8 :=
  f.endianness.toBytes f.width.bytes (value % Word.count f.width.bits).toNat

/-- The number that bytes in the order of the format write in two's complement. -/
def ofBytes (f : IntegerFormat) (bytes : List UInt8) : Int :=
  let n := f.endianness.toNat bytes
  if f.signed && Word.count (f.width.bits - 1) ≤ n then (n : Int) - Word.count f.width.bits else n

end IntegerFormat

/--
An integer type: a format with the range of the numbers allowed. A constant is a range of one number that is written
without drawing it.
-/
structure IntegerType where
  format : IntegerFormat
  first : Int
  last : Int
  isConstant : Bool
  lowest_le : format.lowest ≤ first
  first_le : first ≤ last
  le_highest : last ≤ format.highest
  eq_of_isConstant : isConstant = true → first = last
  deriving DecidableEq

namespace IntegerType

/-- All numbers of a format. -/
def full (format : IntegerFormat) : IntegerType where
  format
  first := format.lowest
  last := format.highest
  isConstant := false
  lowest_le := Int.le_refl _
  first_le := format.lowest_le_highest
  le_highest := Int.le_refl _
  eq_of_isConstant := by simp

/-- Fails with the number itself when it is outside of the format. -/
def checkBounds (format : IntegerFormat) (value : Int) :
    Except TypeError (PLift (format.lowest ≤ value ∧ value ≤ format.highest)) :=
  if h : format.lowest ≤ value ∧ value ≤ format.highest then .ok ⟨h⟩
  else .error (.outOfRange .integer (toString value))

/-- The one number `value`. -/
def constant (format : IntegerFormat) (value : Int) : Except TypeError IntegerType := do
  let ⟨h⟩ ← checkBounds format value
  return {
    format, first := value, last := value, isConstant := true
    lowest_le := h.1, first_le := Int.le_refl _, le_highest := h.2, eq_of_isConstant := fun _ => rfl }

/-- The numbers from `first` through `last`. -/
def interval (format : IntegerFormat) (first last : Int) : Except TypeError IntegerType :=
  if h : first ≤ last then do
    let ⟨low⟩ ← checkBounds format first
    let ⟨high⟩ ← checkBounds format last
    return {
      format, first, last, isConstant := false
      lowest_le := low.1, first_le := h, le_highest := high.2, eq_of_isConstant := by simp }
  else .error (.emptyInterval first last)

end IntegerType

/-- A data type of a leaf. -/
inductive DataType where
  | raw (allowed : Allowed (List UInt8))
  | ascii (allowed : Allowed AsciiText)
  | integer (type : IntegerType)
  | bits (allowed : Allowed BitString)
  | ipv4 (fixed : Option Ipv4Address)
  /-- Seconds since the epoch, in four bytes. -/
  | timestamp (fixed : Option UInt32)
  deriving DecidableEq

namespace DataType

/-- An unsigned big-endian integer of any value. -/
def uint (width : IntegerWidth) : DataType :=
  .integer (.full { width, endianness := .big, signed := false })

/-- A length range of a family, or the fault of an empty one. -/
def lengthRange (kind : Kind) (least : Nat) (greatest? : Option Nat) : Except TypeError LengthRange :=
  match LengthRange.of? least greatest? with
  | some range => .ok range
  | none => .error (.emptyLengths kind least (greatest?.getD 0))

/-- Any bytes, their number from `least` through the greatest. -/
def rawWithin (least : Nat) (greatest? : Option Nat) : Except TypeError DataType :=
  return .raw (.within (← lengthRange .raw least greatest?))

/-- Exactly `n` bytes. -/
def rawExactly (n : Nat) : DataType :=
  .raw (.within (.exactly n))

/-- Any ASCII text, its length from `least` through the greatest. -/
def asciiWithin (least : Nat) (greatest? : Option Nat) : Except TypeError DataType :=
  return .ascii (.within (← lengthRange .ascii least greatest?))

/-- One given ASCII text. -/
def asciiOnly (text : String) : Except TypeError DataType :=
  let bytes := Text.utf8 text
  if h : bytes.all (· < 128) = true then .ok (.ascii (.only ⟨bytes, h⟩)) else .error (.outOfRange .ascii text)

/-- Any bits, their number from `least` through the greatest. -/
def bitsWithin (least : Nat) (greatest? : Option Nat) : Except TypeError DataType :=
  return .bits (.within (← lengthRange .bits least greatest?))

def kind : DataType → Kind
  | raw _ => .raw
  | ascii _ => .ascii
  | integer _ => .integer
  | bits _ => .bits
  | ipv4 _ => .ipv4
  | timestamp _ => .timestamp

/-- The unit of all lengths, in bits. -/
def unit : DataType → Nat
  | bits _ => 1
  | _ => 8

/-- A 32-bit number in network order. -/
def wordBits (n : UInt32) : BitString :=
  .ofBytes (Bytes.bigEndian 4 n.toNat)

/-- The fixed content, if there is one. -/
def constant? : DataType → Option BitString
  | raw (.only bytes) => some (.ofBytes bytes)
  | ascii (.only text) => some (.ofBytes text.val)
  | bits (.only content) => some content
  | integer type => if type.isConstant then some (.ofBytes (type.format.toBytes type.first)) else none
  | ipv4 (some address) => some (.ofBytes address.octets)
  | timestamp (some seconds) => some (wordBits seconds)
  | raw (.within _) | ascii (.within _) | bits (.within _) | ipv4 none | timestamp none => none

/-- The ends of a range of lengths counted in units of so many bits. -/
def scaleRange (unit : Nat) (range : LengthRange) : Nat × Option Nat :=
  (range.least * unit, range.greatest?.map (· * unit))

/-- The least and the greatest length in bits; without a greatest one the length is unbounded. -/
def bounds : DataType → Nat × Option Nat
  | raw (.only bytes) => (8 * bytes.length, some (8 * bytes.length))
  | ascii (.only text) => (8 * text.val.length, some (8 * text.val.length))
  | bits (.only content) => (content.length, some content.length)
  | raw (.within range) | ascii (.within range) => scaleRange 8 range
  | bits (.within range) => scaleRange 1 range
  | integer type => (type.format.width.bits, some type.format.width.bits)
  | ipv4 _ | timestamp _ => (32, some 32)

/-- The one length of all contents, if the bounds leave only one. -/
def fixedLength? (t : DataType) : Option Nat :=
  match t.bounds with
  | (least, some greatest) => if least = greatest then some least else none
  | (_, none) => none

/-- Whether a content may be so many bits long. -/
def acceptsLength (t : DataType) (length : Nat) : Bool :=
  decide (t.bounds.1 ≤ length) && t.bounds.2.all (length ≤ ·) && length % t.unit == 0

/-- Whether the type allows a content. -/
def accepts (t : DataType) (content : BitString) : Bool :=
  match t with
  | integer type =>
    let value := type.format.ofBytes content.toBytes
    content.length == type.format.width.bits && decide (type.first ≤ value) && decide (value ≤ type.last)
  | ascii _ => t.acceptsLength content.length && content.toBytes.all (· < 128) && t.constant?.all (· == content)
  | _ => t.acceptsLength content.length && t.constant?.all (· == content)

/-- The multiples of `unit` from `least` through `greatest`, in descending order. -/
def multiplesDown (unit least greatest : Nat) : List Nat :=
  ((List.range (greatest / unit + 1)).map (unit * ·)).reverse.filter (least ≤ ·)

/-- The lengths that a content among `remaining` bits may have, the longest first. -/
def candidateLengths (t : DataType) (remaining : Nat) : List Nat :=
  match t.constant? with
  | some content => if content.length ≤ remaining then [content.length] else []
  | none => multiplesDown t.unit t.bounds.1 (t.bounds.2.elim remaining (min · remaining))

end DataType

end WireGrammar
