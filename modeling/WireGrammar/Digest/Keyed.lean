import WireGrammar.Digest.Md5
import WireGrammar.Digest.Sha1
import WireGrammar.Digest.Sha2

/-!
# Keyed digests

The hash algorithms that a keyed digest may use, and the keyed digest of a message: the digest of the outer key
followed by the digest of the inner key and the message.
-/

namespace WireGrammar

inductive HashAlgorithm where
  | md5
  | sha1
  /-- The first twelve bytes of `sha1`. -/
  | sha1Truncated
  | sha224
  | sha256
  | sha384
  | sha512
  deriving DecidableEq

namespace HashAlgorithm

def name : HashAlgorithm → String
  | md5 => "md5"
  | sha1 => "sha1"
  | sha1Truncated => "sha1-96"
  | sha224 => "sha224"
  | sha256 => "sha256"
  | sha384 => "sha384"
  | sha512 => "sha512"

def all : List HashAlgorithm :=
  [md5, sha1, sha1Truncated, sha224, sha256, sha384, sha512]

/-- The algorithm with a name, in letters of either case. -/
def ofName? (name : String) : Option HashAlgorithm :=
  all.find? fun algorithm => algorithm.name.toList == name.toList.map Char.toLower

/-- The number of bytes of a keyed digest. -/
def digestBytes : HashAlgorithm → Nat
  | md5 => 16
  | sha1 => 20
  | sha1Truncated => 12
  | sha224 => 28
  | sha256 => 32
  | sha384 => 48
  | sha512 => 64

/-- The number of bytes that the algorithm takes at once. -/
def blockBytes : HashAlgorithm → Nat
  | sha384 | sha512 => 128
  | _ => 64

def digest : HashAlgorithm → List UInt8 → List UInt8
  | md5 => Md5.digest
  | sha1 | sha1Truncated => Sha1.digest
  | sha224 => Sha2.sha224.digest
  | sha256 => Sha2.sha256.digest
  | sha384 => Sha2.sha384.digest
  | sha512 => Sha2.sha512.digest

/-- The keyed digest of a message; a key that is longer than a block is replaced by its digest. -/
def keyed (algorithm : HashAlgorithm) (key message : List UInt8) : List UInt8 :=
  let key := if algorithm.blockBytes < key.length then algorithm.digest key else key
  let block := key ++ List.replicate (algorithm.blockBytes - key.length) 0
  let inner := algorithm.digest (block.map (· ^^^ 0x36) ++ message)
  (algorithm.digest (block.map (· ^^^ 0x5c) ++ inner)).take algorithm.digestBytes

end HashAlgorithm

end WireGrammar
