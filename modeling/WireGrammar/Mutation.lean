import WireGrammar.DataType.Draw
import WireGrammar.Variable.Basic

/-!
# Mutation

Sources of numbers, and mutators that are bound to variables: the mutator of a leaf replaces or disturbs its value,
that of a choice picks the child, that of a repetition picks the count. A finite source reports that it is exhausted.
Every operation returns the state that it leaves behind, also when it fails.

* `NumberSource.next`: the next number of a source.
* `LeafMutator.generate`, `mutate`: a value in place of the normal one, and a disturbed normal value.
* `Mutators`: all mutators by variable, with the budget of choices that they may make in one message.
-/

namespace WireGrammar

/-- Why a mutator gives no value. -/
inductive MutationError where
  | exhausted
  | maxCounter (limit : Nat)
  | depthExceeded (limit : Nat)
  | invalidPosition (index count : Nat)
  deriving DecidableEq

/-- The message for a budget of choices that is spent. -/
def depthExceededMessage (limit : Nat) : String :=
  s!"alternative recursion depth exceeded (maximum {limit})"

def MutationError.message : MutationError → String
  | exhausted => "generator exhausted"
  | maxCounter limit => s!"mutator reached its maximum of {limit} values"
  | depthExceeded limit => depthExceededMessage limit
  | invalidPosition index count => s!"position {index} out of range for {count} choices"

/-- A source of 64-bit numbers. -/
inductive NumberSource where
  /-- A shift register whose words are brought between two bounds. -/
  | xorshift (state : UInt64) (lo hi : Nat)
  | pcg (generator : Pcg64) (lo hi : Nat)
  /-- The numbers of a list, from a position on; a cyclic list starts again. -/
  | list (values : List Nat) (position : Nat) (cyclic : Bool)

namespace NumberSource

/-- The shift register that a seed starts; the zero state, which would stay zero, is never taken. -/
def xorshiftOf (seed lo hi : Nat) : NumberSource :=
  let seed := UInt64.ofNat seed
  xorshift (if seed = 0 then 0x9e3779b97f4a7c15 else seed) (min lo hi) (max lo hi)

def pcgOf (seed lo hi : Nat) : NumberSource :=
  pcg (.ofSeed seed) (min lo hi) (max lo hi)

/-- One step of the shift register. -/
def xorshiftStep (x : UInt64) : UInt64 :=
  let x := x ^^^ (x <<< 13)
  let x := x ^^^ (x >>> 7)
  x ^^^ (x <<< 17)

/-- Brings a word between two bounds; a span of all words leaves it as it is. -/
def bringBetween (lo hi : Nat) (x : UInt64) : Nat :=
  if hi - lo = Word.count 64 - 1 then x.toNat else lo + x.toNat % (hi - lo + 1)

/-- The next number, or nothing when there is none, and the source after it. -/
def next : NumberSource → Except MutationError Nat × NumberSource
  | xorshift state lo hi =>
    let state := xorshiftStep state
    (.ok (bringBetween lo hi state), xorshift state lo hi)
  | pcg generator lo hi =>
    let (n, generator) := (RandomSource.through64 lo hi).run generator
    (.ok n, pcg generator lo hi)
  | list values position cyclic =>
    let position := if values.length ≤ position ∧ cyclic then 0 else position
    match values[position]? with
    | some n => (.ok n, list values (position + 1) cyclic)
    | none => (.error .exhausted, list values position cyclic)

end NumberSource

/-- How a leaf's mutator takes part in its value. -/
inductive MutatorMode where
  /-- In place of the normal value. -/
  | generate
  /-- A disturbance of the normal value. -/
  | mutate
  /-- Always the same value. -/
  | fixed
  deriving DecidableEq

def MutatorMode.label : MutatorMode → String
  | generate => "Generate"
  | mutate => "Mutate"
  | fixed => "Fixed"

/-- A mutator whose values have the lengths of the leaf's type, without its other constraints. -/
structure DataMutator where
  mode : MutatorMode
  source : NumberSource
  /-- The number of calls so far, and how many there may be. -/
  used : Nat
  limit : Nat

/-- A mutator of a data leaf or a relation. -/
inductive LeafMutator where
  | data (mutator : DataMutator)
  /-- The boundary values of an integer so many bits wide. -/
  | boundary (width : Nat) (values : NumberSource)
  | fixed (value : BitString)

namespace DataMutator

/-- The limit on the calls of a mutator for which none is given. -/
def defaultLimit : Nat := 65536

/-- Where a type without a greatest length is cut, in bits. -/
def capBits : Nat := 512

def of (mode : MutatorMode) (source : NumberSource) : DataMutator :=
  { mode, source, used := 0, limit := defaultLimit }

/-- A mutator with a seeded source of all 64-bit numbers. -/
def seeded (mode : MutatorMode) (seed : Nat) : DataMutator :=
  of mode (.pcgOf seed 0 (Word.count 64 - 1))

/-- Computations with a mutator whose state survives a failure. -/
abbrev Run (α : Type) : Type :=
  ExceptT MutationError (StateM DataMutator) α

/-- Counts one call. -/
def tick : Run Unit := do
  let m ← get
  if m.limit ≤ m.used then throw (.maxCounter m.limit)
  set { m with used := m.used + 1 }

/-- The next number of the source. -/
def number : Run Nat := do
  let m ← get
  let (n, source) := m.source.next
  set { m with source }
  liftExcept n
where
  liftExcept : Except MutationError Nat → Run Nat
    | .ok n => pure n
    | .error e => throw e

/-- `n` numbers as eight bytes each, the highest byte first. -/
def words : Nat → Run (List UInt8)
  | 0 => pure []
  | n + 1 => do
    let word ← number
    return Bytes.bigEndian 8 word ++ (← words n)

/-- `n` bits from as many numbers as are needed. -/
def bits (n : Nat) : Run BitString := do
  return (BitString.ofBytes (← words ((n + 63) / 64))).slice 0 n

/-- A value with a length of the type. -/
def generate (type : DataType) : Run BitString := do
  tick
  let (least, greatest?) := type.bounds
  let greatest := greatest?.getD (max least capBits)
  if least < greatest then
    let choice := (← number) % ((greatest - least) / type.unit + 1)
    bits (least + choice * type.unit)
  else bits least

/-- The value with one bit complemented; an empty value stays as it is. -/
def mutate (value : BitString) : Run BitString := do
  tick
  if value.isEmpty then return value
  return value.flip ((← number) % value.length)

end DataMutator

namespace LeafMutator

/-- The boundary values of an integer of 2 to 64 bits. -/
def boundaryOf (width : Nat) (signed : Bool) : LeafMutator :=
  let width := max 2 (min 64 width)
  let all := Word.count width - 1
  let least := Word.count (width - 1)
  let values :=
    if signed then [least, least + 1, all, 0, 1, least - 2, least - 1]
    else [0, 1, all / 2, all / 2 + 1, all - 1, all]
  boundary width (.list values 0 false)

def mode : LeafMutator → MutatorMode
  | data m => m.mode
  | boundary .. => .generate
  | fixed _ => .fixed

/-- The next boundary value. -/
def nextBoundary (width : Nat) (values : NumberSource) : Except MutationError BitString × LeafMutator :=
  let (n, values) := values.next
  (n.map fun n => .ofNat n width, boundary width values)

/-- A value in place of the normal one of a leaf, and the mutator after it. -/
def generate (m : LeafMutator) (type : DataType) : Except MutationError BitString × LeafMutator :=
  match m with
  | data m =>
    let (value, m) := (DataMutator.generate type).run.run m
    (value, data m)
  | boundary width values => nextBoundary width values
  | fixed value => (.ok value, fixed value)

/-- A disturbance of the normal value of a leaf, and the mutator after it. -/
def mutate (m : LeafMutator) (normal : BitString) : Except MutationError BitString × LeafMutator :=
  match m with
  | data m =>
    let (value, m) := (DataMutator.mutate normal).run.run m
    (value, data m)
  | boundary width values => nextBoundary width values
  | fixed value => (.ok value, fixed value)

end LeafMutator

/-- Positions among `n` children for a mutator of a choice, in order. -/
def NumberSource.positions (positions : List Nat) : NumberSource :=
  .list positions 0 false

/-- A source of random positions among `n` children. -/
def NumberSource.randomPosition (seed n : Nat) : NumberSource :=
  .pcgOf seed 0 (n - 1)

/-- A source of random counts. -/
def NumberSource.randomCount (seed : Nat) (count : RepeatCount) : NumberSource :=
  .pcgOf seed count.least (count.stop - 1)

/-- Mutators by variable. -/
structure Mutators where
  leaves : List (VarId × LeafMutator)
  choices : List (VarId × NumberSource)
  counts : List (VarId × NumberSource)
  /-- The number of choices made in the present message, and how many there may be. -/
  spent : Nat
  budget : Nat

namespace Mutators

/-- The budget for which none is given. -/
def defaultBudget : Nat := 20

def empty : Mutators :=
  { leaves := [], choices := [], counts := [], spent := 0, budget := defaultBudget }

/-- Puts a binding in place of any that the variable had. -/
def bind {α : Type} (id : VarId) (mutator : α) (bindings : List (VarId × α)) : List (VarId × α) :=
  (id, mutator) :: bindings.filter (·.1 != id)

def bindLeaf (m : Mutators) (id : VarId) (mutator : LeafMutator) : Mutators :=
  { m with leaves := bind id mutator m.leaves }

def bindChoice (m : Mutators) (id : VarId) (source : NumberSource) : Mutators :=
  { m with choices := bind id source m.choices }

def bindCount (m : Mutators) (id : VarId) (source : NumberSource) : Mutators :=
  { m with counts := bind id source m.counts }

def isEmpty (m : Mutators) : Bool :=
  m.leaves.isEmpty && m.choices.isEmpty && m.counts.isEmpty

/-- The mode of the mutator of a leaf. -/
def mode? (m : Mutators) (id : VarId) : Option MutatorMode :=
  (m.leaves.lookup id).map LeafMutator.mode

/-- Starts a message: nothing of the budget is spent. -/
def startMessage (m : Mutators) : Mutators :=
  { m with spent := 0 }

/-- The next position of a source among `count` of them. -/
def nextBelow (count : Nat) (source : NumberSource) : Except MutationError Nat × NumberSource :=
  match source.next with
  | (.ok n, source) => (if n < count then .ok n else .error (.invalidPosition n count), source)
  | (.error e, source) => (.error e, source)

/-- The child that a mutator picks among so many, at the cost of one unit of the budget. -/
def pickChild? (m : Mutators) (id : VarId) (children : Nat) : Option (Except MutationError Nat × Mutators) :=
  (m.choices.lookup id).map fun source =>
    if m.budget ≤ m.spent then (.error (.depthExceeded m.budget), m)
    else
      let (index, source) := nextBelow children source
      (index, { m.bindChoice id source with spent := m.spent + 1 })

/-- The count that a mutator picks, which may lie outside of the range of the repetition. -/
def pickCount? (m : Mutators) (id : VarId) : Option (Except MutationError Nat × Mutators) :=
  (m.counts.lookup id).map fun source =>
    let (n, source) := nextBelow RepeatCount.limit source
    (n, m.bindCount id source)

end Mutators

end WireGrammar
