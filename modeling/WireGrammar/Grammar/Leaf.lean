import WireGrammar.Grammar.Decl

/-!
# Arguments and leaves

What the arguments of a call stand for: counts, numbers, bytes, and the data types that calls such as `uint16le(0..9)`
or `raw(0xcafe)` describe.

* `Call.leafType`: the data type of a call without named arguments.
* `integerFormat?`: `uint8` to `int64`, in the order of the bytes that a suffix names.
-/

namespace WireGrammar.Grammar

/-- The number of bits of counts and lengths. -/
def countLimit : Int := Word.count 64

/-- A fault of a function's arguments. -/
def fault {α : Type} (function : String) (fault : ArgumentFault) : Except GrammarError α :=
  .error (.badArgument function fault)

def ofType {α : Type} : Except TypeError α → Except GrammarError α :=
  Except.mapError fun e => .definition (.type e)

/-- A number as a count. -/
def count (function : String) (n : Int) : Except GrammarError Nat :=
  if 0 ≤ n ∧ n < countLimit then .ok n.toNat else fault function (.badCount n)

/-- The last number of a range. -/
def lastOf (stop : Int) (inclusive : Bool) : Int :=
  if inclusive then stop else stop - 1

/-- The least and the greatest length that a number or a range allows. -/
def lengthBounds (function : String) : Expr → Except GrammarError (Nat × Nat)
  | .int n => do
    let n ← count function n
    return (n, n)
  | .range start stop inclusive => do return (← count function start, ← count function (lastOf stop inclusive))
  | e => fault function (.sort "a length or a range" e.sort)

/-- An argument that has to be a domain. -/
def asCall (function : String) : Expr → Except GrammarError Call
  | .call call => .ok call
  | e => fault function (.sort "a domain" e.sort)

/-- The bytes of a hexadecimal literal or of a text. -/
def asBytes (function : String) : Expr → Except GrammarError (List UInt8)
  | .bytes bytes => .ok bytes
  | .text text => .ok (Text.utf8 text)
  | e => fault function (.sort "bytes" e.sort)

/-- The bits of a binary literal, or those of bytes. -/
def asBits (function : String) : Expr → Except GrammarError BitString
  | .bits bits => .ok bits
  | e => BitString.ofBytes <$> asBytes function e

namespace Call

variable (call : Call)

/-- The argument with a name. -/
def named? (name : String) : Option Expr :=
  call.named.lookup name

/-- Refuses named arguments other than those that the function has. -/
def checkNames (names : List String) : Except GrammarError Unit :=
  match call.named.find? fun n => !names.contains n.1 with
  | some (name, _) => fault call.function (.unknownName name)
  | none => .ok ()

/-- A named number. -/
def namedNumber (name : String) (default : Binary64) : Except GrammarError Binary64 :=
  match call.named? name with
  | some (.float x) => .ok x
  | some (.int n) => .ok (.ofInt n)
  | some e => fault call.function (.namedSort name "a number" e.sort)
  | none => .ok default

/-- A named integer of 64 bits. -/
def namedInt (name : String) (default : Int) : Except GrammarError Int :=
  match call.named? name with
  | some (.int n) =>
    if Word.fitsSigned 64 n then .ok n else fault call.function (.namedOutOfRange name)
  | some e => fault call.function (.namedSort name "an integer" e.sort)
  | none => .ok default

/-- A named truth value. -/
def namedBool (name : String) (default : Bool) : Except GrammarError Bool :=
  match call.named? name with
  | some (.bool value) => .ok value
  | some e => fault call.function (.namedSort name "a boolean" e.sort)
  | none => .ok default

end Call

/-- The rest of a word behind its first part. -/
def dropStart? (start : List Char) (word : List Char) : Option (List Char) :=
  if start.isPrefixOf word then some (word.drop start.length) else none

/-- The first part of a word before its last one. -/
def dropEnd? (stop : List Char) (word : List Char) : Option (List Char) :=
  if stop.isSuffixOf word then some (word.take (word.length - stop.length)) else none

/-- The sign, order of bytes and number of bits in the name of an integer type; none if it is no such name. -/
def integerName? (name : List Char) : Option (Bool × Endianness × Nat) := do
  let (signed, rest) ←
    ((dropStart? ['u', 'i', 'n', 't'] name).map fun rest => (false, rest)).or
      ((dropStart? ['i', 'n', 't'] name).map fun rest => (true, rest))
  let (digits, endianness) :=
    (((dropEnd? ['l', 'e'] rest).map fun digits => (digits, Endianness.little)).or
      ((dropEnd? ['b', 'e'] rest).map fun digits => (digits, Endianness.big))).getD (rest, Endianness.big)
  let bits ← Text.natOfDigits? digits
  guard (bits < countLimit)
  return (signed, endianness, bits)

/-- The format that a name such as `uint16le` denotes; the width may be one that there is not. -/
def integerFormat? (name : String) : Option (Except TypeError IntegerFormat) :=
  (integerName? name.toList).map fun (signed, endianness, bits) =>
    match IntegerWidth.ofBits? bits with
    | some width => .ok { width, endianness, signed }
    | none => .error (.unsupportedWidth bits)

/-- An integer type with the constraint that an argument gives. -/
def integerLeaf (function : String) (format : IntegerFormat) : Option Expr → Except GrammarError DataType
  | none => .ok (.integer (.full format))
  | some (.int n) => .integer <$> ofType (IntegerType.constant format n)
  | some (.range start stop inclusive) =>
    .integer <$> ofType (IntegerType.interval format start (lastOf stop inclusive))
  | some e =>
    match e with
    | .bytes bytes =>
      if bytes.length ≤ 8 then .integer <$> ofType (IntegerType.constant format (Bytes.toNat bytes))
      else fault function (.sort "a value or a range" e.sort)
    | _ => fault function (.sort "a value or a range" e.sort)

/-- The data type of a function that is no integer type. -/
def otherLeaf (function : String) (arg? : Option Expr) : Except GrammarError DataType :=
  match function, arg? with
  | "raw", none => ofType (DataType.rawWithin 0 none)
  | "raw", some (.bytes bytes) => .ok (.raw (.only bytes))
  | "raw", some (.text text) => .ok (.raw (.only (Text.utf8 text)))
  | "raw", some e => do
    let (least, greatest) ← lengthBounds function e
    ofType (DataType.rawWithin least (some greatest))
  | "ascii", none => ofType (DataType.asciiWithin 0 none)
  | "ascii", some (.text text) => ofType (DataType.asciiOnly text)
  | "ascii", some e => do
    let (least, greatest) ← lengthBounds function e
    ofType (DataType.asciiWithin least (some greatest))
  | "bits", none => ofType (DataType.bitsWithin 0 none)
  | "bits", some (.bits bits) => .ok (.bits (.only bits))
  | "bits", some e => do
    let (least, greatest) ← lengthBounds function e
    ofType (DataType.bitsWithin least (some greatest))
  | "ipv4", none => .ok (.ipv4 none)
  | "ipv4", some (.text text) =>
    match Ipv4Address.ofText? text with
    | some address => .ok (.ipv4 (some address))
    | none => fault function (.badAddress text)
  | "timestamp", none => .ok (.timestamp none)
  | "timestamp", some (.int n) =>
    if 0 ≤ n ∧ n < Word.count 32 then .ok (.timestamp (some (UInt32.ofNat n.toNat)))
    else fault function (.badTime n)
  | "ipv4", some e | "timestamp", some e => fault function (.unexpected e.sort)
  | _, _ => .error (.unknownFunction function)

/-- The data type that a call without named arguments describes. -/
def Call.leafType (call : Call) : Except GrammarError DataType := do
  call.checkNames []
  let arg? ← match call.args with
    | [] => pure none
    | [arg] => pure (some arg)
    | _ => fault call.function .tooMany
  match integerFormat? call.function with
  | some format => integerLeaf call.function (← ofType format) arg?
  | none => otherLeaf call.function arg?

end WireGrammar.Grammar
