import WireGrammar.Generation
import WireGrammar.Interpretation
import WireGrammar.Symbol

/-!
# Messages

Whole messages of a symbol: reading bits as a message, and generating one. Either way the values learned are staged
and committed only when the message is complete.

* `Symbol.interpretations`: all interpretations that account for all of the data and leave no relation to wait.
* `Symbol.recognize`: the message of the first of them.
* `Symbol.generateMessage`: a message with values drawn from a supply.
-/

namespace WireGrammar

/-- The bits of a field in a message, from an offset on. -/
structure FieldValue where
  name : String
  bits : BitString
  offset : Nat
  deriving DecidableEq

/-- A message cut into its fields. -/
structure Message where
  symbol : String
  fields : List FieldValue
  deriving DecidableEq

namespace Message

/-- The bits of a field. -/
def field? (m : Message) (name : String) : Option BitString :=
  (m.fields.find? (·.name == name)).map (·.bits)

def bits (m : Message) : BitString :=
  .concat (m.fields.map (·.bits))

/-- The message as bytes, the last one filled up with zero bits. -/
def toBytes (m : Message) : List UInt8 :=
  m.bits.toBytes

/-- The values of fields one after the other from an offset on; fails with the name of a field without one. -/
def collect (a : Assignment) : List Field → Nat → Except String (List FieldValue)
  | [], _ => .ok []
  | f :: rest, offset =>
    match a.bits? f.id with
    | none => .error f.name
    | some bits => do return ⟨f.name, bits, offset⟩ :: (← collect a rest (offset + bits.length))

/-- The message that an assignment makes of a symbol; fails with the name of a field whose bits are not known. -/
def ofAssignment (s : Symbol) (a : Assignment) : Except String Message := do
  return ⟨s.name, ← collect a s.fields 0⟩

end Message

/-- What a complete message does to memory: with `persist` its values are committed, otherwise nothing is staged. -/
def Memory.complete (memory : Memory) (a : Assignment) (persist : Bool) : Memory :=
  let staged := { memory with staged := memory.staged.union a.learnedStore }
  if persist then staged.persist else staged.discard

namespace Symbol

variable (s : Symbol)

/-- What interpretation and generation of a message start from. -/
def start (memory : Memory) : Assignment :=
  .ofMemory memory s.variableIds

/-- The assignment, if it accounts for all of the data and no relation waits or disagrees. -/
def complete? (data : BitString) : Assignment × Nat → Option Assignment
  | (a, offset) => if offset = data.length then a.verified?.filter (·.pending.isEmpty) else none

/-- All interpretations of data as a message of the symbol. -/
def interpretations (maxRepeat : Nat) (data : BitString) (memory : Memory) : Choices Assignment :=
  ((Reading.of data maxRepeat).interpretAll (s.fields.map (·.domain)) (s.start memory) 0).filterMap (complete? data)

/-- The message of the first interpretation of data, and the memory after it; memory stays if there is none. -/
def recognize (maxRepeat : Nat) (persist : Bool) (data : BitString) (memory : Memory) : Option Message × Memory :=
  match (s.interpretations maxRepeat data memory).head? with
  | none => (none, memory)
  | some a =>
    match Message.ofAssignment s a with
    | .error _ => (none, memory)
    | .ok message => (some message, memory.complete a persist)

/-- The limits of generation and what becomes of the values learned. -/
structure Settings where
  maxBytes : Nat
  maxRepeat : Nat
  persist : Bool
  deriving DecidableEq

section Generate

variable {ρ : Type} [RandomSource ρ]

/-- Values for fields one after the other; fails at the first field without a possible value. -/
def generateFields (limits : GenerationLimits) : List Field → Assignment → Gen ρ Assignment
  | [], a => return a
  | f :: rest, a => do
    match ← Generation.generate limits f.domain a with
    | some a => generateFields limits rest a
    | none => throw (.noValue f.name)

/-- An assignment for all fields in which no relation waits. -/
def generateAssignment (limits : GenerationLimits) (memory : Memory) : Gen ρ Assignment := do
  if !s.isAcyclic then throw .relationCycle
  modify fun supply => { supply with mutators? := supply.mutators?.map Mutators.startMessage }
  let a ← generateFields limits s.fields (s.start memory)
  match a.pending with
  | [] => return a
  | r :: _ => throw (.unresolvable r.name)

/-- A message of the symbol, with the memory after it. -/
def generateMessage (settings : Settings) (memory : Memory) : Gen ρ (Message × Memory) := do
  let a ← s.generateAssignment (.of settings.maxBytes settings.maxRepeat) memory
  match Message.ofAssignment s a with
  | .error field => throw (.placeholder field)
  | .ok message => return (message, memory.complete a settings.persist)

end Generate

end Symbol

end WireGrammar
