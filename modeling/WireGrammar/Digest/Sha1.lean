import WireGrammar.Digest.Sha2

/-!
# SHA-1

Eighty rounds on five 32-bit words, with one constant and one way of mixing for each group of twenty rounds.
-/

namespace WireGrammar.Sha1

abbrev Word : Type := BitVec 32

/-- The five words of the state. -/
structure State where
  (a b c d e : Word)

def initial : State :=
  ⟨0x67452301#32, 0xefcdab89#32, 0x98badcfe#32, 0x10325476#32, 0xc3d2e1f0#32⟩

/-- The mixture of the middle words and the constant in round `i`. -/
def group (i : Nat) (s : State) : Word × Word :=
  match i / 20 with
  | 0 => ((s.b &&& s.c) ||| (~~~s.b &&& s.d), 0x5a827999#32)
  | 1 => (s.b ^^^ s.c ^^^ s.d, 0x6ed9eba1#32)
  | 2 => ((s.b &&& s.c) ||| (s.b &&& s.d) ||| (s.c &&& s.d), 0x8f1bbcdc#32)
  | _ => (s.b ^^^ s.c ^^^ s.d, 0xca62c1d6#32)

def round (s : State) (input : Nat × Word) : State :=
  let (mixed, constant) := group input.1 s
  { a := s.a.rotateLeft 5 + mixed + s.e + constant + input.2, b := s.a, c := s.b.rotateLeft 30, d := s.c, e := s.d }

/-- `n` words of the schedule, from a window of sixteen. -/
def schedule : Nat → List Word → List Word
  | n + 1, w :: rest =>
    let next := (rest.getD 12 0 ^^^ rest.getD 7 0 ^^^ rest.getD 1 0 ^^^ w).rotateLeft 1
    w :: schedule n (rest ++ [next])
  | _, _ => []

def compress (s : State) (block : List UInt8) : State :=
  let words := (Sha2.pieces 4 16 block).map fun bytes => BitVec.ofNat 32 (Bytes.toNat bytes)
  let last := ((List.range 80).zip (schedule 80 words)).foldl round s
  ⟨s.a + last.a, s.b + last.b, s.c + last.c, s.d + last.d, s.e + last.e⟩

/-- Twenty bytes; the message is padded as for the narrow members of SHA-2. -/
def digest (message : List UInt8) : List UInt8 :=
  let bytes := Sha2.sha256.padded message
  let s := (Sha2.pieces 64 (bytes.length / 64) bytes).foldl compress initial
  [s.a, s.b, s.c, s.d, s.e].flatMap fun word => Bytes.bigEndian 4 word.toNat

end WireGrammar.Sha1
