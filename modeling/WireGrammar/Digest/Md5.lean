import WireGrammar.Digest.Sha2

/-!
# MD5

Sixty-four rounds on four 32-bit words in little-endian order, with one way of mixing, one order of the message words
and four rotations for each group of sixteen rounds.
-/

namespace WireGrammar.Md5

abbrev Word : Type := BitVec 32

/-- The four words of the state. -/
structure State where
  (a b c d : Word)

def initial : State :=
  ⟨0x67452301#32, 0xefcdab89#32, 0x98badcfe#32, 0x10325476#32⟩

/-- The first 32 bits of the fractions of the sines of 1 to 64, without their signs. -/
def sines : List Word :=
  [0xd76aa478, 0xe8c7b756, 0x242070db, 0xc1bdceee, 0xf57c0faf, 0x4787c62a,
    0xa8304613, 0xfd469501, 0x698098d8, 0x8b44f7af, 0xffff5bb1, 0x895cd7be,
    0x6b901122, 0xfd987193, 0xa679438e, 0x49b40821, 0xf61e2562, 0xc040b340,
    0x265e5a51, 0xe9b6c7aa, 0xd62f105d, 0x02441453, 0xd8a1e681, 0xe7d3fbc8,
    0x21e1cde6, 0xc33707d6, 0xf4d50d87, 0x455a14ed, 0xa9e3e905, 0xfcefa3f8,
    0x676f02d9, 0x8d2a4c8a, 0xfffa3942, 0x8771f681, 0x6d9d6122, 0xfde5380c,
    0xa4beea44, 0x4bdecfa9, 0xf6bb4b60, 0xbebfbc70, 0x289b7ec6, 0xeaa127fa,
    0xd4ef3085, 0x04881d05, 0xd9d4d039, 0xe6db99e5, 0x1fa27cf8, 0xc4ac5665,
    0xf4292244, 0x432aff97, 0xab9423a7, 0xfc93a039, 0x655b59c3, 0x8f0ccc92,
    0xffeff47d, 0x85845dd1, 0x6fa87e4f, 0xfe2ce6e0, 0xa3014314, 0x4e0811a1,
    0xf7537e82, 0xbd3af235, 0x2ad7d2bb, 0xeb86d391]

/-- The mixture of the middle words, the index of the message word, and the rotation in round `i`. -/
def group (i : Nat) (s : State) : Word × Nat × Nat :=
  let (mixed, index, rotations) := match i / 16 with
    | 0 => ((s.b &&& s.c) ||| (~~~s.b &&& s.d), i, [7, 12, 17, 22])
    | 1 => ((s.d &&& s.b) ||| (~~~s.d &&& s.c), 5 * i + 1, [5, 9, 14, 20])
    | 2 => (s.b ^^^ s.c ^^^ s.d, 3 * i + 5, [4, 11, 16, 23])
    | _ => (s.c ^^^ (s.b ||| ~~~s.d), 7 * i, [6, 10, 15, 21])
  (mixed, index % 16, rotations.getD (i % 4) 0)

def round (words : List Word) (s : State) (input : Nat × Word) : State :=
  let (mixed, index, rotation) := group input.1 s
  let sum := s.a + mixed + input.2 + words.getD index 0
  { a := s.d, b := s.b + sum.rotateLeft rotation, c := s.b, d := s.c }

def compress (s : State) (block : List UInt8) : State :=
  let words := (Sha2.pieces 4 16 block).map fun bytes => BitVec.ofNat 32 (Bytes.toNat bytes.reverse)
  let last := ((List.range 64).zip sines).foldl (round words) s
  ⟨s.a + last.a, s.b + last.b, s.c + last.c, s.d + last.d⟩

/-- The message, a one bit, zeros, and the length in bits in little-endian order. -/
def padded (message : List UInt8) : List UInt8 :=
  let zeros := (64 - (message.length + 9) % 64) % 64
  message ++ 0x80 :: List.replicate zeros 0 ++ Bytes.littleEndian 8 (8 * message.length)

/-- Sixteen bytes. -/
def digest (message : List UInt8) : List UInt8 :=
  let bytes := padded message
  let s := (Sha2.pieces 64 (bytes.length / 64) bytes).foldl compress initial
  [s.a, s.b, s.c, s.d].flatMap fun word => Bytes.littleEndian 4 word.toNat

end WireGrammar.Md5
