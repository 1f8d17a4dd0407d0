import WireGrammar.Text.Decimal

/-!
# Internet addresses

Version 4 addresses and their dotted form: four decimal octets of at most three digits, without leading zeros.
-/

namespace WireGrammar

/-- A version 4 address, in network order. -/
structure Ipv4Address where
  a : UInt8
  b : UInt8
  c : UInt8
  d : UInt8
  deriving DecidableEq, Inhabited

namespace Ipv4Address

def octets (x : Ipv4Address) : List UInt8 :=
  [x.a, x.b, x.c, x.d]

def ofOctets? : List UInt8 → Option Ipv4Address
  | [a, b, c, d] => some ⟨a, b, c, d⟩
  | _ => none

def render (x : Ipv4Address) : String :=
  ".".intercalate (x.octets.map fun octet => toString octet.toNat)

/-- One octet: up to three digits, the first of them zero only when it stands alone. -/
def octet? (digits : List Char) : Option UInt8 := do
  guard (digits.length ≤ 3 && (digits.length ≤ 1 || digits.head? != some '0'))
  let n ← Text.natOfDigits? digits
  guard (n < 256)
  return UInt8.ofNat n

/-- Cuts at each dot. -/
def splitDots : List Char → List (List Char)
  | [] => [[]]
  | c :: rest =>
    match c == '.', splitDots rest with
    | true, parts => [] :: parts
    | false, part :: parts => (c :: part) :: parts
    | false, [] => [[c]]

/-- Reads the dotted form. -/
def ofText? (text : String) : Option Ipv4Address := do
  ofOctets? (← (splitDots text.toList).mapM octet?)

end Ipv4Address

end WireGrammar
