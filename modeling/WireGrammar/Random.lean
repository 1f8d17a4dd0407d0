import WireGrammar.Bytes

/-!
# Random numbers

Everything that is drawn at random comes from a source of 64-bit words. Bits, bytes and numbers of a range are derived
from its words in one fixed way, so a source and its state determine all that follows.

* `RandomSource.next64`: the only primitive. Whatever holds for every `RandomSource` holds for every stream of words.
* `RandomSource.scaled`: a number below a bound, by the high half of a product, with one more draw to remove the bias.
* `Pcg64`: the permuted congruential generator with 128 bits of state and 64 bits of output.
-/

namespace WireGrammar

/-- A source of 64-bit words. -/
class RandomSource (ρ : Type) where
  next64 : ρ → UInt64 × ρ

namespace RandomSource

variable {ρ : Type} [RandomSource ρ]

/-- The next word. -/
def word : StateM ρ UInt64 := fun g => next64 g

/-- The low half of the next word. -/
def draw32 : StateM ρ Nat := do
  return (← word).toNat % Word.count 32

def draw64 : StateM ρ Nat := do
  return (← word).toNat

/-- Two words, the low one first. -/
def draw128 : StateM ρ Nat := do
  let low ← draw64
  let high ← draw64
  return low + high <<< 64

/-- The top bit of a 32-bit draw. -/
def bool : StateM ρ Bool := do
  return (← draw32).testBit 31

/-- `n` bytes: eight of each word, and for a rest of at most four bytes those of a 32-bit draw. -/
def bytes (n : Nat) : StateM ρ (List UInt8) := do
  let whole ← (List.range (n / 8)).mapM fun _ => Bytes.littleEndian 8 <$> draw64
  let rest ←
    if n % 8 = 0 then pure []
    else if n % 8 ≤ 4 then Bytes.littleEndian (n % 8) <$> draw32
    else Bytes.littleEndian (n % 8) <$> draw64
  return whole.flatten ++ rest

/--
A number below `n`, where `draw` draws numbers below two to the power `width` and `n` is at most that. The product of
a draw and `n` has its high half below `n`; when its low half comes too near to the next multiple, a second draw
decides the carry.
-/
def scaled (width : Nat) (draw : StateM ρ Nat) (n : Nat) : StateM ρ Nat := do
  let x ← draw
  if n = Word.count width then return x
  let high := (x * n) >>> width
  let low := x * n % Word.count width
  if Word.count width - n < low then
    let y ← draw
    return if Word.count width ≤ low + (y * n) >>> width then high + 1 else high
  return high

/-- A number from `lo` through `hi`, by 32-bit draws. -/
def through32 (lo hi : Nat) : StateM ρ Nat := do
  return lo + (← scaled 32 draw32 (hi - lo + 1))

/-- A number from `lo` through `hi`, by 64-bit draws. -/
def through64 (lo hi : Nat) : StateM ρ Nat := do
  return lo + (← scaled 64 draw64 (hi - lo + 1))

/-- A number from `lo` through `hi`, by 128-bit draws. -/
def through128 (lo hi : Int) : StateM ρ Int := do
  return lo + (← scaled 128 draw128 (hi - lo + 1).toNat)

/-- A count from `lo` through `hi`; a bound that fits 32 bits is drawn with 32 bits. -/
def countThrough (lo hi : Nat) : StateM ρ Nat :=
  if hi < Word.count 32 then through32 lo hi else through64 lo hi

/-- A count from `lo` to below `stop`; a bound that fits 32 bits is drawn with 32 bits. -/
def countBelow (lo stop : Nat) : StateM ρ Nat :=
  if stop < Word.count 32 then through32 lo (stop - 1) else through64 lo (stop - 1)

end RandomSource

/-- The state of a permuted congruential generator and the increment that names its stream. -/
structure Pcg64 where
  state : BitVec 128
  increment : BitVec 128
  deriving DecidableEq, Inhabited

namespace Pcg64

def multiplier : BitVec 128 := 0x2360ED051FC65DA44385DF649FCCF645#128

/-- One step of the linear congruential generator under the output function. -/
def step (g : Pcg64) : Pcg64 :=
  { g with state := g.state * multiplier + g.increment }

/-- The two halves of the state combined and rotated by the six top bits. -/
def output (g : Pcg64) : UInt64 :=
  let mixed := g.state.extractLsb' 64 64 ^^^ g.state.extractLsb' 0 64
  UInt64.ofBitVec (mixed.rotateRight (g.state.extractLsb' 122 6).toNat)

instance : RandomSource Pcg64 where
  next64 g := (g.step.output, g.step)

/-- One step of the 64-bit generator that spreads a seed over the state. -/
def seedStep (s : BitVec 64) : BitVec 64 :=
  s * 6364136223846793005#64 + 11634580027462260723#64

/-- The 32-bit output of the seeding generator. -/
def seedOutput (s : BitVec 64) : BitVec 32 :=
  (((s >>> 18 ^^^ s) >>> 27).extractLsb' 0 32).rotateRight (s >>> 59).toNat

/-- `n` words of the seeding generator put side by side, the first one lowest. -/
def seedWords : Nat → BitVec 64 → Nat
  | 0, _ => 0
  | n + 1, s => (seedOutput (seedStep s)).toNat + seedWords n (seedStep s) <<< 32

/-- The generator with a given seed. -/
def ofSeed (seed : Nat) : Pcg64 :=
  let words := seedWords 8 (BitVec.ofNat 64 seed)
  let increment := BitVec.ofNat 128 (words >>> 128) ||| 1#128
  step { state := BitVec.ofNat 128 words + increment, increment }

end Pcg64

end WireGrammar
