import WireGrammar.Bytes

/-!
# SHA-2

The four functions of the family differ in the width of their words, the amounts of their rotations, the number of
rounds, the initial state, and how much of the final state they keep. Constants are leading bits of the fractions of
square and cube roots of primes; the narrow ones are the upper halves of the wide ones.

* `Sha2.sha224`, `sha256`, `sha384`, `sha512` are the four members, `Sha2.digest` the function that each denotes.
-/

namespace WireGrammar

/-- The parameters of a member of the family with words of `8 * wordBytes` bits. -/
structure Sha2 where
  wordBytes : Nat
  /-- Rotations of the two sums over the state. -/
  sum0 : Nat × Nat × Nat
  sum1 : Nat × Nat × Nat
  /-- Two rotations and a shift of the two mixtures of the schedule. -/
  mix0 : Nat × Nat × Nat
  mix1 : Nat × Nat × Nat
  /-- One constant for each round. -/
  constants : List (BitVec (8 * wordBytes))
  initial : List (BitVec (8 * wordBytes))
  digestBytes : Nat

namespace Sha2

abbrev Word (h : Sha2) : Type :=
  BitVec (8 * h.wordBytes)

/-- The eight words of the state. -/
structure State (h : Sha2) where
  (a b c d e f g k : h.Word)

variable (h : Sha2)

def blockBytes : Nat :=
  16 * h.wordBytes

def State.toList {h : Sha2} (s : State h) : List h.Word :=
  [s.a, s.b, s.c, s.d, s.e, s.f, s.g, s.k]

def State.ofList {h : Sha2} (words : List h.Word) : State h :=
  let word (i : Nat) := words.getD i 0
  ⟨word 0, word 1, word 2, word 3, word 4, word 5, word 6, word 7⟩

def rotations (amounts : Nat × Nat × Nat) (x : h.Word) : h.Word :=
  x.rotateRight amounts.1 ^^^ x.rotateRight amounts.2.1 ^^^ x.rotateRight amounts.2.2

def mixture (amounts : Nat × Nat × Nat) (x : h.Word) : h.Word :=
  x.rotateRight amounts.1 ^^^ x.rotateRight amounts.2.1 ^^^ x >>> amounts.2.2

/-- One round with its constant and its word of the schedule. -/
def round (s : State h) (input : h.Word × h.Word) : State h :=
  let choice := (s.e &&& s.f) ^^^ (~~~s.e &&& s.g)
  let majority := (s.a &&& s.b) ^^^ (s.a &&& s.c) ^^^ (s.b &&& s.c)
  let t1 := s.k + rotations h h.sum1 s.e + choice + input.1 + input.2
  let t2 := rotations h h.sum0 s.a + majority
  { a := t1 + t2, b := s.a, c := s.b, d := s.c, e := s.d + t1, f := s.e, g := s.f, k := s.g }

/-- `n` words of the schedule, from the window of the sixteen words before the last one computed. -/
def schedule : Nat → List h.Word → List h.Word
  | n + 1, w :: rest =>
    let next := mixture h h.mix1 (rest.getD 13 0) + rest.getD 8 0 + mixture h h.mix0 (rest.getD 0 0) + w
    w :: schedule n (rest ++ [next])
  | _, _ => []

/-- Cuts a list into pieces of `n`, as many as are asked for. -/
def pieces {α : Type} (n : Nat) : Nat → List α → List (List α)
  | 0, _ => []
  | count + 1, xs => xs.take n :: pieces n count (xs.drop n)

/-- The state after one block. -/
def compress (s : State h) (block : List UInt8) : State h :=
  let words := (pieces h.wordBytes 16 block).map fun bytes => BitVec.ofNat (8 * h.wordBytes) (Bytes.toNat bytes)
  let last := (h.constants.zip (schedule h h.constants.length words)).foldl (round h) s
  State.ofList (List.zipWith (· + ·) s.toList last.toList)

/-- The message, a one bit, zeros, and the length in bits as two words, which together fill whole blocks. -/
def padded (message : List UInt8) : List UInt8 :=
  let filled := message.length + 1 + 2 * h.wordBytes
  let zeros := (h.blockBytes - filled % h.blockBytes) % h.blockBytes
  message ++ 0x80 :: List.replicate zeros 0 ++ Bytes.bigEndian (2 * h.wordBytes) (8 * message.length)

def digest (message : List UInt8) : List UInt8 :=
  let bytes := h.padded message
  let final := (pieces h.blockBytes (bytes.length / h.blockBytes) bytes).foldl (compress h) (State.ofList h.initial)
  (final.toList.flatMap fun word => Bytes.bigEndian h.wordBytes word.toNat).take h.digestBytes

/-- The first 64 bits of the fractions of the cube roots of the first eighty primes. -/
def cubeRoots : List (BitVec 64) :=
  [0x428a2f98d728ae22, 0x7137449123ef65cd, 0xb5c0fbcfec4d3b2f, 0xe9b5dba58189dbbc,
    0x3956c25bf348b538, 0x59f111f1b605d019, 0x923f82a4af194f9b, 0xab1c5ed5da6d8118,
    0xd807aa98a3030242, 0x12835b0145706fbe, 0x243185be4ee4b28c, 0x550c7dc3d5ffb4e2,
    0x72be5d74f27b896f, 0x80deb1fe3b1696b1, 0x9bdc06a725c71235, 0xc19bf174cf692694,
    0xe49b69c19ef14ad2, 0xefbe4786384f25e3, 0x0fc19dc68b8cd5b5, 0x240ca1cc77ac9c65,
    0x2de92c6f592b0275, 0x4a7484aa6ea6e483, 0x5cb0a9dcbd41fbd4, 0x76f988da831153b5,
    0x983e5152ee66dfab, 0xa831c66d2db43210, 0xb00327c898fb213f, 0xbf597fc7beef0ee4,
    0xc6e00bf33da88fc2, 0xd5a79147930aa725, 0x06ca6351e003826f, 0x142929670a0e6e70,
    0x27b70a8546d22ffc, 0x2e1b21385c26c926, 0x4d2c6dfc5ac42aed, 0x53380d139d95b3df,
    0x650a73548baf63de, 0x766a0abb3c77b2a8, 0x81c2c92e47edaee6, 0x92722c851482353b,
    0xa2bfe8a14cf10364, 0xa81a664bbc423001, 0xc24b8b70d0f89791, 0xc76c51a30654be30,
    0xd192e819d6ef5218, 0xd69906245565a910, 0xf40e35855771202a, 0x106aa07032bbd1b8,
    0x19a4c116b8d2d0c8, 0x1e376c085141ab53, 0x2748774cdf8eeb99, 0x34b0bcb5e19b48a8,
    0x391c0cb3c5c95a63, 0x4ed8aa4ae3418acb, 0x5b9cca4f7763e373, 0x682e6ff3d6b2b8a3,
    0x748f82ee5defb2fc, 0x78a5636f43172f60, 0x84c87814a1f0ab72, 0x8cc702081a6439ec,
    0x90befffa23631e28, 0xa4506cebde82bde9, 0xbef9a3f7b2c67915, 0xc67178f2e372532b,
    0xca273eceea26619c, 0xd186b8c721c0c207, 0xeada7dd6cde0eb1e, 0xf57d4f7fee6ed178,
    0x06f067aa72176fba, 0x0a637dc5a2c898a6, 0x113f9804bef90dae, 0x1b710b35131c471b,
    0x28db77f523047d84, 0x32caab7b40c72493, 0x3c9ebe0a15c9bebc, 0x431d67c49c100d4c,
    0x4cc5d4becb3e42b6, 0x597f299cfc657e2a, 0x5fcb6fab3ad6faec, 0x6c44198c4a475817]

/-- The first 64 bits of the fractions of the square roots of the first eight primes. -/
def squareRoots : List (BitVec 64) :=
  [0x6a09e667f3bcc908, 0xbb67ae8584caa73b, 0x3c6ef372fe94f82b, 0xa54ff53a5f1d36f1,
    0x510e527fade682d1, 0x9b05688c2b3e6c1f, 0x1f83d9abfb41bd6b, 0x5be0cd19137e2179]

/-- The first 64 bits of the fractions of the square roots of the next eight primes. -/
def nextSquareRoots : List (BitVec 64) :=
  [0xcbbb9d5dc1059ed8, 0x629a292a367cd507, 0x9159015a3070dd17, 0x152fecd8f70e5939,
    0x67332667ffc00b31, 0x8eb44a8768581511, 0xdb0c2e0d64f98fa7, 0x47b5481dbefa4fa4]

def sha512 : Sha2 where
  wordBytes := 8
  sum0 := (28, 34, 39)
  sum1 := (14, 18, 41)
  mix0 := (1, 8, 7)
  mix1 := (19, 61, 6)
  constants := cubeRoots
  initial := squareRoots
  digestBytes := 64

def sha384 : Sha2 :=
  { sha512 with initial := nextSquareRoots, digestBytes := 48 }

def sha256 : Sha2 where
  wordBytes := 4
  sum0 := (2, 13, 22)
  sum1 := (6, 11, 25)
  mix0 := (7, 18, 3)
  mix1 := (17, 19, 10)
  constants := (cubeRoots.take 64).map (·.extractLsb' 32 32)
  initial := squareRoots.map (·.extractLsb' 32 32)
  digestBytes := 32

def sha224 : Sha2 :=
  { sha256 with initial := nextSquareRoots.map (·.extractLsb' 0 32), digestBytes := 28 }

end Sha2

end WireGrammar
