/-!
# The cyclic redundancy check of 32 bits

A shift register that takes the bits of each byte from the lowest up, with the polynomial in reflected form; the
register starts with all ones, and its complement is the check.
-/

namespace WireGrammar.Checksum

/-- The polynomial `x^32 + x^26 + x^23 + x^22 + x^16 + x^12 + x^11 + x^10 + x^8 + x^7 + x^5 + x^4 + x^2 + x + 1` without
its first term, the coefficient of `x^31` lowest. -/
def crcPolynomial : BitVec 32 := 0xedb88320#32

/-- Shifts the register by one bit, and subtracts the polynomial when a one falls out. -/
def crcShift (register : BitVec 32) : BitVec 32 :=
  if register.getLsbD 0 then register >>> 1 ^^^ crcPolynomial else register >>> 1

/-- `n` shifts. -/
def crcShifts : Nat → BitVec 32 → BitVec 32
  | 0, register => register
  | n + 1, register => crcShifts n (crcShift register)

/-- The register after one more byte. -/
def crcByte (register : BitVec 32) (byte : UInt8) : BitVec 32 :=
  crcShifts 8 (register ^^^ byte.toBitVec.setWidth 32)

/-- The check of a message. -/
def crc32 (message : List UInt8) : Nat :=
  (~~~message.foldl crcByte (BitVec.allOnes 32)).toNat

end WireGrammar.Checksum
