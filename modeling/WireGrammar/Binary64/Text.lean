import WireGrammar.Binary64.Basic
import WireGrammar.Text.Decimal

/-!
# Binary64 numbers as text

Reading takes the decimal literal to the nearest number of the format. Writing uses the fewest digits that read back
as the number, the nearest such digits, and positional notation throughout.

* `Binary64.shortest` finds the digits; the numbers that read back as `s · 2^e` are those between the midpoints to
  its two neighbours, the midpoints included when `s` is even.
-/

namespace WireGrammar.Binary64

open Text

/-- The greatest `k` for which ten to the power `k` is at most `num / den`, for positive arguments up to 10^400. -/
def ratioLog10 (num den : Nat) : Int :=
  if den ≤ num then ((List.range 400).countP fun k => den * Nat.pow 10 (k + 1) ≤ num : Nat)
  else -(((List.range 400).countP fun k => num * Nat.pow 10 k < den : Nat) : Int)

/-- The digits nearest to `num / den` on the grid of the multiples of ten to the power `k`, if they read back. -/
def onGrid? (readsBack : Nat → Int → Bool) (num den : Nat) (k : Int) : Option (Nat × Int) :=
  let (n, d) := if 0 ≤ k then (num, den * Nat.pow 10 k.toNat) else (num * Nat.pow 10 (-k).toNat, den)
  let below := n / d
  let (near, far) := if 2 * (n % d) < d then (below, below + 1) else (below + 1, below)
  if readsBack near k then some (near, k)
  else if readsBack far k then some (far, k)
  else none

/-- The fewest digits `n`, with a power of ten `k`, for which `n · 10^k` reads back as the positive `s · 2^e`. -/
def shortest (s : Nat) (e : Int) : Nat × Int :=
  let (num, den) := if 0 ≤ e then (s <<< e.toNat, 1) else (s, Word.count (-e).toNat)
  let top := ratioLog10 num den
  let readsBack (n : Nat) (k : Int) : Bool := ofDecimal false n k == finite false s e
  ((List.range 17).findSome? fun i : Nat => onGrid? readsBack num den (top - (i : Int))).getD (num, 0)

/-- The digits without the zeros at the end. -/
def dropZeros (digits : List Char) : List Char :=
  (digits.reverse.dropWhile (· == '0')).reverse

/-- The positional form of `n · 10^k`: no exponent, and no point in a whole number. -/
def positional (n : Nat) (k : Int) : List Char :=
  let digits := Nat.toDigits 10 n
  if 0 ≤ k then digits ++ List.replicate k.toNat '0'
  else
    let places := (-k).toNat
    let padded := List.replicate (places + 1 - digits.length) '0' ++ digits
    let whole := padded.take (padded.length - places)
    let fraction := dropZeros (padded.drop (padded.length - places))
    if fraction.isEmpty then whole else whole ++ '.' :: fraction

/-- The text of a number. -/
def render : Binary64 → String
  | nan => "NaN"
  | infinite negative => if negative then "-inf" else "inf"
  | finite negative s e =>
    let magnitude := if s = 0 then ['0'] else (fun (n, k) => positional n k) (shortest s e)
    String.ofList (if negative then '-' :: magnitude else magnitude)

/-- The value of an exponent part: digits with an optional sign. -/
def exponent? : List Char → Option Int
  | '+' :: digits => (natOfDigits? digits).map Int.ofNat
  | digits => intOfDigits? digits

/-- Reads digits with an optional point and an optional exponent part; there is at least one digit. -/
def ofUnsigned? (negative : Bool) (text : List Char) : Option Binary64 := do
  let whole := text.takeWhile isDigit
  let rest := text.dropWhile isDigit
  let (fraction, rest) := match rest with
    | '.' :: more => (more.takeWhile isDigit, more.dropWhile isDigit)
    | _ => ([], rest)
  guard (!(whole ++ fraction).isEmpty)
  let e ← match rest with
    | [] => some 0
    | c :: more => if c == 'e' || c == 'E' then exponent? more else none
  return ofDecimal negative (digitsValue (whole ++ fraction)) (e - fraction.length)

/-- Reads a number: a decimal literal, or the name of an infinity or of no number in letters of either case. -/
def ofText? (text : String) : Option Binary64 :=
  let (negative, rest) := match text.toList with
    | '-' :: rest => (true, rest)
    | '+' :: rest => (false, rest)
    | rest => (false, rest)
  match String.ofList (rest.map Char.toLower) with
  | "nan" => some nan
  | "inf" | "infinity" => some (infinite negative)
  | _ => ofUnsigned? negative rest

end WireGrammar.Binary64
