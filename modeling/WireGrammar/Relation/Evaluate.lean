import WireGrammar.Assignment
import WireGrammar.Checksum.Crc32
import WireGrammar.Checksum.Internet
import WireGrammar.DataType.Codec
import WireGrammar.DataType.Draw

/-!
# The values of relations

What a relation computes from an assignment, and what may stand in its place before it can be computed.

* `Relation.evaluate`: the value, its length alone, or that a target is still missing.
* `Relation.candidateLengths`, `isPlausible`: which lengths and bits the value of a relation that waits may have.
* `Assignment.verify`: compares the values read with those computed, for all relations that wait.
-/

namespace WireGrammar

/-- Why a relation has no value. -/
inductive RelationError where
  /-- The type of the relation cannot represent the number computed. -/
  | value (error : TypeError)
  | copyTargets
  | copyItself
  deriving DecidableEq

def RelationError.message : RelationError → String
  | value error => error.message
  | copyTargets => "value relation needs exactly one target"
  | copyItself => "value relation cannot copy itself"

namespace Relation

/-- What is known of the value of a relation. -/
inductive Outcome where
  | ready (bits : BitString)
  /-- Only the length is determined, any bits will do. -/
  | length (length : Nat)
  /-- Some target has no value yet. -/
  | waiting
  deriving DecidableEq

variable (r : Relation) (a : Assignment)

/-- The length of the relation itself: that of its cell, or the one that its type leaves. -/
def ownLength? : Option Nat :=
  ((a.cell? r.id).bind Cell.length?).or r.type.fixedLength?

/-- The sum of the lengths of the targets, with the given length for the relation itself. -/
def targetsLength? (own? : Option Nat) : Option Nat :=
  totalLength <$> r.targets.mapM fun t => if t = r.id then own? else a.targetLength? t

/-- The bits of the targets in order, with zeros for the relation itself. -/
def targetsBits? : Option BitString :=
  BitString.concat <$> r.targets.mapM fun t =>
    if t = r.id then BitString.zeros <$> r.ownLength? a else a.targetBits? t r.id

/-- The bits of a number in the type of the relation. -/
def writeInt (n : Int) : Except RelationError Outcome :=
  match r.type.write (.int n) with
  | .ok bits => .ok (.ready bits)
  | .error e => .error (.value e)

/-- `unit` again and again, cut at `n` bits. -/
def fillWith (unit : BitString) (n : Nat) : BitString :=
  if unit.isEmpty then .empty else .ofFn n fun i => unit.get (i % unit.length)

/-- The number that a size relation writes for a total length. -/
def sizeOf (scale : Scale) (total : Nat) : Int :=
  (scale.apply total).truncate (Word.leastSigned 128) (Word.greatestSigned 128)

/-- The number of bits that a padding relation asks for when its targets have a total length. -/
def paddingLength (modulo : Nat) (once : Bool) (scale : Scale) (total : Nat) : Nat :=
  let size := ((scale.apply total).truncate (Word.leastSigned 64) (Word.greatestSigned 64)).toNat
  let missing := if size % modulo = 0 ∨ (once ∧ modulo < size) then 0 else modulo - size % modulo
  scale.unapply missing

/-- What the assignment determines of the value. -/
def evaluate : Except RelationError Outcome :=
  match r.rule with
  | .size scale =>
    match r.targetsLength? a (r.ownLength? a) with
    | some total => r.writeInt (sizeOf scale total)
    | none => .ok .waiting
  | .copy =>
    match r.targets with
    | [target] =>
      if target = r.id then .error .copyItself
      else .ok ((a.targetBits? target r.id).elim .waiting .ready)
    | _ => .error .copyTargets
  | .internetChecksum =>
    match r.targetsBits? a with
    | some data => r.writeInt (Checksum.internet data.toBytes)
    | none => .ok .waiting
  | .crc32 =>
    match r.targetsBits? a with
    | some data => r.writeInt (Checksum.crc32 data.toBytes)
    | none => .ok .waiting
  | .keyedDigest algorithm key =>
    match r.targetsBits? a with
    | some data => .ok (.ready (.ofBytes (algorithm.keyed key data.toBytes)))
    | none => .ok .waiting
  | .padding modulo once scale =>
    match r.targetsLength? a (some 0) with
    | some total =>
      let n := paddingLength modulo once scale total
      .ok (r.type.constant?.elim (.length n) fun unit => .ready (fillWith unit n))
    | none => .ok .waiting

/-- The lengths that the value may have before it can be computed, the longest first. -/
def candidateLengths (remaining : Nat) : List Nat :=
  match r.rule with
  | .padding modulo _ scale =>
    DataType.multiplesDown (max r.type.bounds.1 1) 0 (min (scale.unapply modulo) remaining)
  | _ => r.type.candidateLengths remaining

/-- Whether the value may turn out to be these bits. -/
def isPlausible (bits : BitString) : Bool :=
  match r.rule with
  | .padding .. => r.type.constant?.all fun unit => fillWith unit bits.length == bits
  | _ => r.type.accepts bits

/-- Whether bits that were read are what the relation computes; none when it still waits. -/
def agrees? : Option Bool :=
  let cell? := a.cell? r.id
  match r.evaluate a with
  | .ok .waiting => none
  | .ok (.ready expected) => some (cell?.bind Cell.bits? == some expected)
  | .ok (.length n) => some (cell?.bind Cell.length? == some n)
  | .error _ => some false

section Draw

variable {ρ : Type} [RandomSource ρ]

/-- Contents of a type drawn one after the other until `n` bits are reached, in at most `fuel` draws. -/
def drawUnits (type : DataType) (n : Nat) : Nat → BitString → StateM ρ BitString
  | 0, drawn => pure drawn
  | fuel + 1, drawn =>
    if n ≤ drawn.length then pure drawn
    else do
      let unit ← type.draw n
      if unit.isEmpty then return drawn
      drawUnits type n fuel (drawn ++ unit)

/-- `n` bits of contents of the type, the last one cut, and zeros when the contents are empty. -/
def drawFill (n : Nat) : StateM ρ BitString := do
  let drawn := (← drawUnits r.type n n .empty).slice 0 n
  return drawn ++ .zeros (n - drawn.length)

end Draw

end Relation

namespace Assignment

/-- Compares relations with what was read for them, up to the first that disagrees; those that agree wait no more. -/
def verifyEach : List Relation → Assignment → Bool × Assignment
  | [], a => (true, a)
  | r :: rest, a =>
    match r.agrees? a with
    | none => verifyEach rest a
    | some true => verifyEach rest (a.endWait r.id)
    | some false => (false, a)

/-- Compares all relations that wait with what was read for them. -/
def verify (a : Assignment) : Bool × Assignment :=
  verifyEach a.pending a

/-- The assignment after a comparison in which no relation disagrees. -/
def verified? (a : Assignment) : Option Assignment :=
  match a.verify with
  | (true, a) => some a
  | (false, _) => none

end Assignment

end WireGrammar
