/-!
# Words

How many words of a given number of bits there are.

* `Word.count_add`: a word of `m + n` bits is a word of `m` bits and one of `n` bits.
-/

namespace WireGrammar.Word

/-- The number of words of `width` bits, two to the power of `width`. -/
def count (width : Nat) : Nat :=
  Nat.pow 2 width

@[simp] theorem count_zero : count 0 = 1 := rfl

theorem count_succ (width : Nat) : count (width + 1) = 2 * count width := by
  simp only [count, Nat.pow_eq, Nat.pow_succ, Nat.mul_comm]

theorem count_pos (width : Nat) : 0 < count width :=
  Nat.pow_pos (by decide)

theorem count_add (m n : Nat) : count (m + n) = count m * count n := by
  simp only [count, Nat.pow_eq, Nat.pow_add]

/-- The least number of `width` bits in two's complement. -/
def leastSigned (width : Nat) : Int :=
  -(count (width - 1) : Int)

/-- The greatest number of `width` bits in two's complement. -/
def greatestSigned (width : Nat) : Int :=
  count (width - 1) - 1

/-- Whether a number can be written with `width` bits in two's complement. -/
def fitsSigned (width : Nat) (n : Int) : Bool :=
  leastSigned width ≤ n && n ≤ greatestSigned width

end WireGrammar.Word
