/-!
# Hexadecimal text

Bytes written as two lowercase digits each, and read back from digits of either case.

* `Text.hexDecode?_hexEncode`: reading what was written gives the bytes.
-/

namespace WireGrammar.Text

/-- The digit of a number below sixteen. -/
def hexDigit (n : Nat) : Char :=
  if n < 10 then Char.ofNat (48 + n) else Char.ofNat (87 + n)

/-- The number that a digit of either case stands for. -/
def hexDigit? (c : Char) : Option Nat :=
  if '0' ≤ c ∧ c ≤ '9' then some (c.toNat - 48)
  else if 'a' ≤ c ∧ c ≤ 'f' then some (c.toNat - 87)
  else if 'A' ≤ c ∧ c ≤ 'F' then some (c.toNat - 55)
  else none

def hexEncode : List UInt8 → List Char
  | [] => []
  | b :: rest => hexDigit (b.toNat / 16) :: hexDigit (b.toNat % 16) :: hexEncode rest

/-- Refuses an odd number of digits and any other character. -/
def hexDecode? : List Char → Option (List UInt8)
  | [] => some []
  | [_] => none
  | hi :: lo :: rest => do
    let h ← hexDigit? hi
    let l ← hexDigit? lo
    let bytes ← hexDecode? rest
    return UInt8.ofNat (16 * h + l) :: bytes

/-- Bytes as a text of lowercase hexadecimal digits. -/
def hex (bytes : List UInt8) : String :=
  String.ofList (hexEncode bytes)

theorem hexDigit?_hexDigit (n : Nat) (h : n < 16) : hexDigit? (hexDigit n) = some n := by
  have all : ∀ n : Fin 16, hexDigit? (hexDigit n) = some n.val := by decide
  exact all ⟨n, h⟩

theorem hexDecode?_hexEncode (bytes : List UInt8) : hexDecode? (hexEncode bytes) = some bytes := by
  induction bytes with
  | nil => rfl
  | cons b rest ih =>
    have hb := UInt8.toNat_lt b
    simp only [hexEncode, hexDecode?, hexDigit?_hexDigit _ (show b.toNat / 16 < 16 by omega),
      hexDigit?_hexDigit _ (Nat.mod_lt b.toNat (show 0 < 16 by decide)), ih]
    change some (UInt8.ofNat (16 * (b.toNat / 16) + b.toNat % 16) :: rest) = some (b :: rest)
    rw [Nat.div_add_mod, UInt8.ofNat_toNat]

end WireGrammar.Text
