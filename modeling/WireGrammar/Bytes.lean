import WireGrammar.Word

/-!
# Numbers as bytes

Natural numbers as bytes in either order, and byte strings cut in two.

* `Endianness.toNat_toBytes`: reading the `n` low bytes of a number gives the number modulo the count of their values.
* `Bytes.split?_eq_some_iff`: the first bytes and the rest together are what was split.
-/

namespace WireGrammar

/-- Which byte of a number comes first, the highest or the lowest. -/
inductive Endianness where
  | big | little
  deriving DecidableEq

namespace Bytes

/-- The `n` low bytes of a number, the lowest first. -/
def littleEndian : Nat → Nat → List UInt8
  | 0, _ => []
  | n + 1, x => UInt8.ofNat x :: littleEndian n (x / 256)

/-- The `n` low bytes of a number, the lowest last. -/
def bigEndian (n x : Nat) : List UInt8 :=
  (littleEndian n x).reverse

/-- The number that bytes write, the first one the highest. -/
def toNat (bytes : List UInt8) : Nat :=
  bytes.foldl (fun n b => 256 * n + b.toNat) 0

/-- The bytes of a number without leading zeros; zero is one byte. -/
def minimal (x : Nat) : List UInt8 :=
  bigEndian (x.log2 / 8 + 1) x

@[simp] theorem length_littleEndian (n x : Nat) : (littleEndian n x).length = n := by
  induction n generalizing x with
  | zero => rfl
  | succ n ih => simp [littleEndian, ih]

@[simp] theorem length_bigEndian (n x : Nat) : (bigEndian n x).length = n := by
  simp [bigEndian]

theorem toNat_concat (bytes : List UInt8) (b : UInt8) : toNat (bytes ++ [b]) = 256 * toNat bytes + b.toNat := by
  simp [toNat]

theorem toNat_bigEndian (n x : Nat) : toNat (bigEndian n x) = x % Word.count (8 * n) := by
  induction n generalizing x with
  | zero => simp [bigEndian, littleEndian, toNat, Nat.mod_one]
  | succ n ih =>
    have step : bigEndian (n + 1) x = bigEndian n (x / 256) ++ [UInt8.ofNat x] := by
      simp [bigEndian, littleEndian]
    have low : (UInt8.ofNat x).toNat = x % 256 := UInt8.toNat_ofNat'
    have split : Word.count (8 * (n + 1)) = 256 * Word.count (8 * n) := by
      rw [Nat.mul_succ, Word.count_add, Nat.mul_comm]
      rfl
    rw [step, toNat_concat, ih, low, split, Nat.mod_mul]
    omega

theorem toNat_reverse_littleEndian (n x : Nat) : toNat (littleEndian n x).reverse = x % Word.count (8 * n) :=
  toNat_bigEndian n x

/-- The first `n` bytes and the rest, if there are so many. -/
def split? (n : Nat) (bytes : List UInt8) : Option (List UInt8 × List UInt8) :=
  if (bytes.take n).length = n then some (bytes.take n, bytes.drop n) else none

theorem split?_eq_some_iff {n : Nat} {bytes front rest : List UInt8} :
    split? n bytes = some (front, rest) ↔ bytes = front ++ rest ∧ front.length = n := by
  rw [split?]
  constructor
  · intro h
    split at h
    next hn =>
      obtain ⟨rfl, rfl⟩ := Prod.mk.inj (Option.some.inj h)
      exact ⟨(List.take_append_drop n bytes).symm, hn⟩
    next => cases h
  · rintro ⟨rfl, rfl⟩
    simp

/-- The byte at an offset; a byte past the end counts as zero. -/
def byteAt (bytes : List UInt8) (offset : Nat) : Nat :=
  (bytes.getD offset 0).toNat

end Bytes

namespace Endianness

/-- The `n` low bytes of a number. -/
def toBytes : Endianness → Nat → Nat → List UInt8
  | big => Bytes.bigEndian
  | little => Bytes.littleEndian

/-- The number that bytes write. -/
def toNat : Endianness → List UInt8 → Nat
  | big, bytes => Bytes.toNat bytes
  | little, bytes => Bytes.toNat bytes.reverse

/-- The number in `n` bytes from an offset on. -/
def numberAt (order : Endianness) (bytes : List UInt8) (offset n : Nat) : Nat :=
  order.toNat ((bytes.drop offset).take n)

@[simp] theorem length_toBytes (order : Endianness) (n x : Nat) : (order.toBytes n x).length = n := by
  cases order <;> simp [toBytes]

theorem toNat_toBytes (order : Endianness) (n x : Nat) : order.toNat (order.toBytes n x) = x % Word.count (8 * n) := by
  cases order
  · exact Bytes.toNat_bigEndian n x
  · exact Bytes.toNat_reverse_littleEndian n x

end Endianness

end WireGrammar
