import WireGrammar.Mutation
import WireGrammar.Relation.Evaluate

/-!
# Generation

How a value for a variable is made up. Random choices come from a source of words, and where a mutator is bound to a
variable the mutator decides instead. A relation whose targets have no value yet gets an awaited cell, which is filled
in as soon as they have.

* `Assignment.settle`: gives a value to every relation that waits and can be computed, until none is left.
* `Generation.generate`: extends an assignment by a value for a variable; none when a constant has no value.
-/

namespace WireGrammar

/-- Why no message is generated. -/
inductive GenerationError where
  /-- The relation still waits at the end. -/
  | unresolvable (relation : String)
  /-- Relations wait for each other's bits. -/
  | relationCycle
  | mutation (error : MutationError)
  /-- A constant of the field has neither a fixed nor a remembered value. -/
  | noValue (field : String)
  /-- A relation in the field has no value in the finished message. -/
  | placeholder (field : String)
  | relation (name : String) (error : RelationError)
  deriving DecidableEq

def GenerationError.message : GenerationError → String
  | unresolvable name => s!"relation '{name}' cannot be resolved: its dependencies never receive a value"
  | relationCycle => "relation cycle"
  | mutation (.depthExceeded limit) => depthExceededMessage limit
  | mutation error => s!"fuzzing: {error.message}"
  | noValue field => s!"field '{field}' has no possible value"
  | placeholder field => s!"placeholder for '{field}' was never replaced"
  | relation name error => s!"relation '{name}': {error.message}"

/-- What generation draws from: a source of words, and mutators if there are any. -/
structure Supply (ρ : Type) where
  source : ρ
  mutators? : Option Mutators

/-- Computations that draw from a supply; what has been drawn stays drawn when they fail. -/
abbrev Gen (ρ : Type) (α : Type) : Type :=
  ExceptT GenerationError (StateM (Supply ρ)) α

/-- Computations that change an assignment in place and draw random words. -/
abbrev Settling (ρ : Type) (α : Type) : Type :=
  ExceptT GenerationError (StateT Assignment (StateM ρ)) α

/-- The limits of generation: where open types are cut, in bits, and how many repetitions there may be. -/
structure GenerationLimits where
  capBits : Nat
  maxRepeat : Nat
  deriving DecidableEq

/-- The bytes at which open types are cut when nothing else is said. -/
def GenerationLimits.defaultBytes : Nat := 64

/-- The limits for so many bytes and repetitions, and never more repetitions than any grammar may have. -/
def GenerationLimits.of (bytes maxRepeat : Nat) : GenerationLimits :=
  ⟨bytes * 8, min maxRepeat RepeatCount.limit⟩

namespace Assignment

variable {ρ : Type} [RandomSource ρ]

/-- Fills in the value of a relation that has waited. -/
def fillIn (id : VarId) (bits : BitString) (a : Assignment) : Assignment :=
  (a.setCell id (.known bits)).endWait id

/-- Fills in the relations of a list that can be computed, and tells whether there were any. -/
def settleRound : List Relation → Settling ρ Bool
  | [] => return false
  | r :: rest => do
    match r.evaluate (← get) with
    | .error e => throw (.relation r.name e)
    | .ok .waiting => settleRound rest
    | .ok (.ready bits) =>
      modify (fillIn r.id bits)
      discard (settleRound rest)
      return true
    | .ok (.length n) =>
      let bits ← (r.drawFill n : StateM ρ BitString)
      modify (fillIn r.id bits)
      discard (settleRound rest)
      return true

/-- Rounds over all relations that wait, until one fills in nothing; each other one ends the wait of a relation. -/
def settleRounds : Nat → Settling ρ Unit
  | 0 => return
  | n + 1 => do
    if ← settleRound (← get).pending then settleRounds n

/-- Fills in all relations that can be computed, with the assignment up to the failure if one of them fails. -/
def settle (a : Assignment) : StateM ρ (Except GenerationError Unit × Assignment) :=
  (settleRounds a.pending.length).run.run a

end Assignment

namespace Generation

variable {ρ : Type} [RandomSource ρ]

/-- Draws from the source of words. -/
def fromSource {α : Type} (draw : StateM ρ α) : Gen ρ α := do
  let supply ← get
  let (x, source) := draw.run supply.source
  set { supply with source }
  return x

/-- Draws from the mutators, which may have no say; what they leave behind is kept also when they fail. -/
def fromMutators? {α : Type} (pick : Mutators → Option (Except MutationError α × Mutators)) :
    Gen ρ (Option α) := do
  let supply ← get
  match supply.mutators?.bind pick with
  | none => return none
  | some (result, mutators) =>
    set { supply with mutators? := some mutators }
    match result with
    | .ok x => return some x
    | .error e => throw (.mutation e)

/-- Uses the mutator of a leaf. -/
def fromLeaf? (id : VarId) (use : LeafMutator → Except MutationError BitString × LeafMutator) :
    Gen ρ (Option BitString) :=
  fromMutators? fun mutators => (mutators.leaves.lookup id).map fun m =>
    let (value, m) := use m
    (value, mutators.bindLeaf id m)

/-- How the mutator of a leaf takes part. -/
def mode? (id : VarId) : Gen ρ (Option MutatorMode) := do
  return (← get).mutators?.bind (·.mode? id)

/-- Settles the relations of an assignment. -/
def settled (a : Assignment) : Gen ρ Assignment := do
  match ← fromSource a.settle with
  | (.ok (), a) => return a
  | (.error e, _) => throw e

/-- The normal value of a data leaf under its scope, and what is learned; none for a constant without a value. -/
def leafValue (limits : GenerationLimits) (id : VarId) (type : DataType) (scope : Scope) (a : Assignment) :
    Gen ρ (Option (BitString × Assignment)) := do
  let known? := if scope.replays then type.constant?.or (a.known? id) else none
  match known?, scope with
  | some value, _ => return some (value, a)
  | none, .constant => return none
  | none, .volatile => return some (← fromSource (type.draw limits.capBits), a)
  | none, _ =>
    let value ← fromSource (type.draw limits.capBits)
    return some (value, a.learn id value)

/-- The value of a data leaf, with the part that a mutator takes in it. -/
def mutatedValue (limits : GenerationLimits) (id : VarId) (type : DataType) (scope : Scope) (a : Assignment) :
    Gen ρ (Option (BitString × Assignment)) := do
  match ← mode? id with
  | none => leafValue limits id type scope a
  | some .mutate =>
    match ← leafValue limits id type scope a with
    | none => return none
    | some (value, a) => return some ((← fromLeaf? id (·.mutate value)).getD value, a)
  | some _ =>
    match ← fromLeaf? id (·.generate type) with
    | some value => return some (value, a)
    | none => return some (← fromSource (type.draw limits.capBits), a)

def generateData (limits : GenerationLimits) (id : VarId) (type : DataType) (scope : Scope) (a : Assignment) :
    Gen ρ (Option Assignment) := do
  match ← mutatedValue limits id type scope a with
  | none => return none
  | some (value, a) => return some (← settled (a.record id (.ofBits value)))

/-- The length that is announced for a relation that has to wait; the length of a padding is not known ahead. -/
def announcedLength? (r : Relation) : Option Nat :=
  match r.rule with
  | .padding .. => none
  | _ => r.type.fixedLength?

def generateRelation (r : Relation) (a : Assignment) : Gen ρ (Option Assignment) := do
  match ← fromLeaf? r.id (·.generate r.type) with
  | some bits => return some (← settled (a.setCell r.id (.known bits)))
  | none =>
    match r.evaluate a with
    | .error e => throw (.relation r.name e)
    | .ok (.ready bits) => return some (← settled (a.setCell r.id (.known bits)))
    | .ok (.length n) =>
      let bits ← fromSource (r.drawFill n)
      return some (← settled (a.setCell r.id (.known bits)))
    | .ok .waiting => return some (← settled ((a.setCell r.id (.awaited (announcedLength? r))).awaitRelation r))

/-- Records a node from those of its children that are recorded. -/
def compose (id : VarId) (children : List Variable) (a : Assignment) : Gen ρ Assignment :=
  let contents := children.filterMap fun child => a.content? child.id
  settled (a.record id (contents.foldl (fun content c => content.append (a.freeze c)) .empty))

/-- The index of a child of a choice. -/
def pickChild (id : VarId) (children : Nat) : Gen ρ Nat := do
  match ← fromMutators? (·.pickChild? id children) with
  | some index => return index
  | none => fromSource (RandomSource.countBelow 0 children)

/-- The count of a repetition. -/
def pickCount (limits : GenerationLimits) (id : VarId) (count : RepeatCount) : Gen ρ Nat := do
  match ← fromMutators? (·.pickCount? id) with
  | some n => return n
  | none => fromSource (RandomSource.countBelow count.least (min count.stop (max limits.maxRepeat (count.least + 1))))

/-- `k` more instances of a child that is generated by `one`, after those in `content`. -/
def instances (one : Assignment → Gen ρ (Option Assignment)) (child : Variable) (delimiter : Option BitString) :
    Nat → Bool → Assignment → Content → Gen ρ (Option (Assignment × Content))
  | 0, _, a, content => return some (a, content)
  | k + 1, isFirst, a, content => do
    let content := if isFirst then content else delimiter.elim content content.pushBits
    match ← one a with
    | none => return none
    | some a =>
      match a.content? child.id with
      | none => return none
      | some c => instances one child delimiter k false a (content.append (a.freeze c))

mutual

/-- Extends an assignment by a value for a variable. -/
def generate (limits : GenerationLimits) : Variable → Assignment → Gen ρ (Option Assignment)
  | .data id _ type scope, a => generateData limits id type scope a
  | .relation r, a => generateRelation r a
  | .choice id _ children, a => do
    let index ← pickChild id children.length
    match ← generateNth limits children index a, children[index]? with
    | some a, some child => return some (← compose id [child] a)
    | _, _ => return none
  | .sequence id _ children, a => do
    match ← generateAll limits children a with
    | some a => return some (← compose id children a)
    | none => return none
  | .repetition id _ child count delimiter, a => do
    let k ← pickCount limits id count
    match ← instances (generate limits child) child delimiter k true a .empty with
    | some (a, content) => return some (← settled (a.record id content))
    | none => return none

/-- Extends an assignment by a value for the child with an index. -/
def generateNth (limits : GenerationLimits) : List Variable → Nat → Assignment → Gen ρ (Option Assignment)
  | [], _, _ => return none
  | child :: _, 0, a => generate limits child a
  | _ :: rest, index + 1, a => generateNth limits rest index a

/-- Extends an assignment by values for all children, one after the other. -/
def generateAll (limits : GenerationLimits) : List Variable → Assignment → Gen ρ (Option Assignment)
  | [], a => return some a
  | child :: rest, a => do
    match ← generate limits child a with
    | some a => generateAll limits rest a
    | none => return none

end

end Generation

end WireGrammar
