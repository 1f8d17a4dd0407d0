import WireGrammar.DataType.Basic

/-!
# Typed values and bits

`DataType.write` gives the bits of a value, `DataType.read` the value of bits. Some types take values of more than one
sort: bytes may be given as text or as a number, ASCII as a number, an address as text or as its bytes.
-/

namespace WireGrammar.DataType

/-- The bytes of whole-byte content. -/
def wholeBytes (kind : Kind) (content : BitString) : Except TypeError (List UInt8) :=
  if content.isAligned then .ok content.toBytes else .error (.badLength kind content.length)

/-- The bytes of a value; a number is filled up with leading zeros to the least length. -/
def rawBytes (least : Nat) : Value → Except TypeError (List UInt8)
  | .bytes bytes => .ok bytes
  | .text text => .ok (Text.utf8 text)
  | .bits content => wholeBytes .raw content
  | .int (.ofNat n) =>
    let bytes := Bytes.minimal n
    .ok (List.replicate (least - bytes.length) 0 ++ bytes)
  | value => .error (.wrongKind .raw value.render)

/-- The bits of a value. -/
def write (t : DataType) (value : Value) : Except TypeError BitString :=
  match t, value with
  | raw _, value => do
    let content := BitString.ofBytes (← rawBytes (t.bounds.1 / 8) value)
    if t.acceptsLength content.length then .ok content else .error (.badLength .raw content.length)
  | ascii _, .text text =>
    if Text.isAscii text then .ok (.ofBytes (Text.utf8 text)) else .error (.outOfRange .ascii text)
  | ascii _, .int n => .ok (.ofBytes (Text.utf8 (toString n)))
  | integer type, .int n => do
    discard (IntegerType.checkBounds type.format n)
    return .ofBytes (type.format.toBytes n)
  | bits _, .bits content => .ok content
  | bits _, .bytes bytes => .ok (.ofBytes bytes)
  | ipv4 _, .ipv4 address => .ok (.ofBytes address.octets)
  | ipv4 _, .text text =>
    match Ipv4Address.ofText? text with
    | some address => .ok (.ofBytes address.octets)
    | none => .error (.wrongKind .ipv4 text)
  | ipv4 _, .bytes bytes =>
    if bytes.length = 4 then .ok (.ofBytes bytes) else .error (.wrongKind .ipv4 value.render)
  | timestamp _, .int n =>
    if 0 ≤ n ∧ n < Word.count 32 then .ok (wordBits (UInt32.ofNat n.toNat))
    else .error (.outOfRange .timestamp value.render)
  | timestamp _, _ => .error (.outOfRange .timestamp value.render)
  | _, _ => .error (.wrongKind t.kind value.render)

/-- The value that bits stand for. -/
def read (t : DataType) (content : BitString) : Except TypeError Value :=
  match t with
  | raw _ => return .bytes (← wholeBytes .raw content)
  | ascii _ => do
    let bytes ← wholeBytes .ascii content
    if bytes.all (· < 128) then .ok (.text (Text.ofAscii bytes)) else .error (.wrongKind .ascii content.render)
  | integer type =>
    if content.length = type.format.width.bits then .ok (.int (type.format.ofBytes content.toBytes))
    else .error (.badLength .integer content.length)
  | bits _ => .ok (.bits content)
  | ipv4 _ =>
    match Ipv4Address.ofOctets? content.toBytes with
    | some address => if content.length = 32 then .ok (.ipv4 address) else .error (.badLength .ipv4 content.length)
    | none => .error (.badLength .ipv4 content.length)
  | timestamp _ =>
    if content.length = 32 then .ok (.int (Bytes.toNat content.toBytes))
    else .error (.badLength .timestamp content.length)

end WireGrammar.DataType
