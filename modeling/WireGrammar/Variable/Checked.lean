import WireGrammar.Variable.Basic

/-!
# Building variables

The ways to build a variable, with the checks that keep a tree meaningful: nodes have children, counts are not empty,
relations have targets, a length that is bounded, and parameters that can be computed with.
-/

namespace WireGrammar

/-- Why a variable or a symbol cannot be built. -/
inductive DefinitionError where
  | emptyNode (label name : String)
  | emptyCount (name : String) (count : RepeatCount)
  | countTooLarge (name : String) (stop : Nat)
  | unsupportedHash (algorithm : String)
  | noTargets (name : String)
  | unboundedRelation (name : String)
  | constantRelation (name : String)
  | badModulo (name : String)
  | badFactor (name : String) (factor : Binary64)
  | duplicateField (symbol field : String)
  | emptySymbol (name : String)
  | type (error : TypeError)

def DefinitionError.message : DefinitionError → String
  | emptyNode label name => s!"{label} '{name}' needs at least one child"
  | emptyCount name count => s!"repeat '{name}': count range {count.least}..{count.stop} is empty"
  | countTooLarge name stop => s!"repeat '{name}': maximum count {stop} exceeds {RepeatCount.limit}"
  | unsupportedHash algorithm => s!"unsupported hash algorithm '{algorithm}'"
  | noTargets name => s!"relation '{name}' has no targets"
  | unboundedRelation name => s!"relation '{name}': data type must declare a maximum length"
  | constantRelation name => s!"relation '{name}': data type must not carry a fixed value"
  | badModulo name => s!"padding '{name}': modulo must be a positive number of bits"
  | badFactor name factor => s!"relation '{name}': factor {factor.render} must be a finite positive number"
  | duplicateField symbol field => s!"symbol '{symbol}': duplicate field '{field}'"
  | emptySymbol name => s!"symbol '{name}' has no fields"
  | type error => s!"type: {error.message}"

/-- The result of building something. -/
abbrev Built (α : Type) : Type :=
  Except DefinitionError α

/-- A data type as a part of something that is built. -/
def Built.ofType {α : Type} : Except TypeError α → Built α :=
  Except.mapError .type

/-- The algorithm with a name. -/
def HashAlgorithm.ofName (name : String) : Built HashAlgorithm :=
  match ofName? name with
  | some algorithm => .ok algorithm
  | none => .error (.unsupportedHash name)

namespace Variable

def mkChoice (id : VarId) (name : String) (children : List Variable) : Built Variable :=
  if children.isEmpty then .error (.emptyNode "Alt" name) else .ok (.choice id name children)

def mkSequence (id : VarId) (name : String) (children : List Variable) : Built Variable :=
  if children.isEmpty then .error (.emptyNode "Agg" name) else .ok (.sequence id name children)

def mkRepetition (id : VarId) (name : String) (child : Variable) (count : RepeatCount)
    (delimiter : Option BitString) : Built Variable :=
  if count.stop ≤ count.least then .error (.emptyCount name count)
  else if RepeatCount.limit < count.stop then .error (.countTooLarge name count.stop)
  else .ok (.repetition id name child count delimiter)

/-- What a rule asks of its own parameters and of the type of its value. -/
def checkRule (r : Relation) : Built Unit :=
  match r.rule with
  | .size scale =>
    if !scale.factor.isFinitePositive then .error (.badFactor r.name scale.factor)
    else if r.type.constant?.isSome then .error (.constantRelation r.name)
    else .ok ()
  | .padding modulo _ scale =>
    if !scale.factor.isFinitePositive then .error (.badFactor r.name scale.factor)
    else if modulo = 0 ∨ r.type.bounds.2 = some 0 then .error (.badModulo r.name)
    else .ok ()
  | .copy | .internetChecksum | .crc32 | .keyedDigest .. =>
    if r.type.constant?.isSome then .error (.constantRelation r.name) else .ok ()

def mkRelation (r : Relation) : Built Variable := do
  if r.targets.isEmpty then throw (.noTargets r.name)
  if r.type.bounds.2.isNone then throw (.unboundedRelation r.name)
  checkRule r
  return .relation r

/-- The type of a copy of contents with the given bounds: whole bytes if both bounds are. -/
def copyType (name : String) : Nat × Option Nat → Built DataType
  | (_, none) => .error (.unboundedRelation name)
  | (least, some greatest) =>
    Built.ofType <|
      if least % 8 = 0 ∧ greatest % 8 = 0 then DataType.rawWithin (least / 8) (some (greatest / 8))
      else DataType.bitsWithin least (some greatest)

/-- A copy of a variable. -/
def mkCopy (id : VarId) (name : String) (target : Variable) : Built Variable := do
  mkRelation { id, name, rule := .copy, targets := [target.id], type := ← copyType name target.bounds }

def mkInternetChecksum (id : VarId) (name : String) (targets : List VarId) : Built Variable :=
  mkRelation { id, name, rule := .internetChecksum, targets, type := .uint .two }

def mkCrc32 (id : VarId) (name : String) (targets : List VarId) : Built Variable :=
  mkRelation { id, name, rule := .crc32, targets, type := .uint .four }

def mkKeyedDigest (id : VarId) (name : String) (targets : List VarId) (algorithm : HashAlgorithm)
    (key : List UInt8) : Built Variable :=
  mkRelation
    { id, name, rule := .keyedDigest algorithm key, targets, type := .rawExactly algorithm.digestBytes }

end Variable

end WireGrammar
