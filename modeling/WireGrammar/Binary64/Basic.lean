import WireGrammar.Word

/-!
# Binary64 numbers

The numbers of the 64-bit binary floating-point format, given by sign, significand and exponent. Every operation
computes the exact result as a fraction of natural numbers and rounds it once, to the nearest number of the format
and to the one with the even significand where two are equally near.

* `Binary64.roundHalfEven`: the nearest integer to a fraction, a half going to the even neighbour.
* `Binary64.ofRatio`: the number of the format nearest to a fraction.
* `Binary64.truncate`: the integer part, cut to a range.
-/

namespace WireGrammar

/--
A number of the format. The value of `finite negative significand exponent` is the significand times two to the
exponent, negated if `negative`; results are kept in the form in which the significand is below 2^53, the exponent
at least -1074, and the significand at least 2^52 unless the exponent is -1074.
-/
inductive Binary64 where
  | nan
  | infinite (negative : Bool)
  | finite (negative : Bool) (significand : Nat) (exponent : Int)
  deriving DecidableEq, Inhabited

namespace Binary64

/-- The least exponent of the format. -/
def minExponent : Int := -1074

/-- The greatest exponent of the format. -/
def maxExponent : Int := 971

/-- The integer nearest to `num / den`, the even one of two that are equally near. -/
def roundHalfEven (num den : Nat) : Nat :=
  let q := num / den
  let r := num % den
  if 2 * r < den ∨ (2 * r = den ∧ q % 2 = 0) then q else q + 1

/-- The numerator and denominator of `num / den` divided by two to the power `e`. -/
def unscale (num den : Nat) (e : Int) : Nat × Nat :=
  if 0 ≤ e then (num, den <<< e.toNat) else (num <<< (-e).toNat, den)

/-- The greatest `e` for which two to the power `e` is at most `num / den`, for positive arguments. -/
def ratioLog2 (num den : Nat) : Int :=
  let e : Int := (num.log2 : Int) - (den.log2 : Int)
  let (n, d) := unscale num den e
  if d ≤ n then e else e - 1

/-- A zero. -/
def zero (negative : Bool) : Binary64 :=
  finite negative 0 minExponent

/-- The number of the format nearest to `num / den`, infinite when that exceeds the greatest by half a unit. -/
def ofRatio (negative : Bool) (num den : Nat) : Binary64 :=
  if num = 0 then zero negative
  else
    let e := max (ratioLog2 num den - 52) minExponent
    let (n, d) := unscale num den e
    let q := roundHalfEven n d
    let (s, e) := if q = Word.count 53 then (Word.count 52, e + 1) else (q, e)
    if e ≤ maxExponent then finite negative s e else infinite negative

def ofInt (n : Int) : Binary64 :=
  ofRatio (decide (n < 0)) n.natAbs 1

def ofNat (n : Nat) : Binary64 :=
  ofRatio false n 1

/-- The nearest number to `digits` times ten to the power `e`. -/
def ofDecimal (negative : Bool) (digits : Nat) (e : Int) : Binary64 :=
  let places : Int := (Nat.toDigits 10 digits).length
  if digits = 0 ∨ places + e < -400 then zero negative
  else if 400 < places + e then infinite negative
  else if 0 ≤ e then ofRatio negative (digits * Nat.pow 10 e.toNat) 1
  else ofRatio negative digits (Nat.pow 10 (-e).toNat)

/-- The nearest number to `num / den` times two to the power `e`. -/
def ofScaled (negative : Bool) (num den : Nat) (e : Int) : Binary64 :=
  if 0 ≤ e then ofRatio negative (num <<< e.toNat) den else ofRatio negative num (den <<< (-e).toNat)

def isNegative : Binary64 → Bool
  | nan => false
  | infinite negative => negative
  | finite negative _ _ => negative

/-- Zero times infinity is no number. -/
def mul : Binary64 → Binary64 → Binary64
  | nan, _ | _, nan => nan
  | infinite n, infinite n' => infinite (n != n')
  | infinite n, finite n' s _ | finite n s _, infinite n' => if s = 0 then nan else infinite (n != n')
  | finite n s e, finite n' s' e' => ofScaled (n != n') (s * s') 1 (e + e')

/-- A number divided by zero is infinite; zero by zero and infinity by infinity are no numbers. -/
def div : Binary64 → Binary64 → Binary64
  | nan, _ | _, nan => nan
  | infinite _, infinite _ => nan
  | infinite n, finite n' _ _ => infinite (n != n')
  | finite n _ _, infinite n' => zero (n != n')
  | finite n s e, finite n' s' e' =>
    if s' = 0 then (if s = 0 then nan else infinite (n != n'))
    else ofScaled (n != n') s s' (e - e')

/-- The significand with its sign. -/
def signed (negative : Bool) (s : Nat) : Int :=
  if negative then -(s : Int) else s

/-- Infinities of opposite signs have no sum; a sum of zero is negative only when both terms are. -/
def add : Binary64 → Binary64 → Binary64
  | nan, _ | _, nan => nan
  | infinite n, infinite n' => if n = n' then infinite n else nan
  | infinite n, finite _ _ _ | finite _ _ _, infinite n => infinite n
  | finite n s e, finite n' s' e' =>
    let least := min e e'
    let sum := signed n (s <<< (e - least).toNat) + signed n' (s' <<< (e' - least).toNat)
    if sum = 0 then zero (n && n') else ofScaled (decide (sum < 0)) sum.natAbs 1 least

instance : Mul Binary64 := ⟨mul⟩
instance : Div Binary64 := ⟨div⟩
instance : Add Binary64 := ⟨add⟩

/-- Whether the number is finite and greater than zero. -/
def isFinitePositive : Binary64 → Bool
  | finite false s _ => s != 0
  | _ => false

/-- The number without its fraction, cut to the range from `lo` through `hi`; no number counts as zero. -/
def truncate (lo hi : Int) : Binary64 → Int
  | nan => 0
  | infinite negative => if negative then lo else hi
  | finite negative s e =>
    let whole := if 0 ≤ e then s <<< e.toNat else s >>> (-e).toNat
    max lo (min hi (signed negative whole))

/-- The 64 bits of the interchange format: sign, eleven bits of exponent, 52 bits of significand. -/
def toBits : Binary64 → Nat
  | nan => 0x7ff8000000000000
  | infinite negative => negative.toNat <<< 63 + 0x7ff <<< 52
  | finite negative s e =>
    let low := if s < Word.count 52 then s else (e + 1075).toNat <<< 52 + (s - Word.count 52)
    negative.toNat <<< 63 + low

end Binary64

end WireGrammar
