import WireGrammar.Variable.Checked
import WireGrammar.WaitGraph

/-!
# Symbols

A symbol is the description of one kind of message: fields in order, each with a name and a variable.

* `Symbol.build`: there is a field, and no two have the same name.
* `Symbol.waits`: which relations wait for the bits of which others. Sizes and paddings only need lengths, which are
  known ahead, so they are no part of this graph.
* `Symbol.isAcyclic`: no relation waits for itself, directly or through others.
-/

namespace WireGrammar

/-- A named part of a message. -/
structure Field where
  name : String
  domain : Variable
  deriving Inhabited

def Field.id (f : Field) : VarId :=
  f.domain.id

/-- A kind of message. -/
structure Symbol where
  name : String
  fields : List Field
  deriving Inhabited

namespace Symbol

/-- The first name that stands in the list a second time. -/
def firstRepeated? : List String → List String → Option String
  | _, [] => none
  | seen, name :: rest => if seen.contains name then some name else firstRepeated? (name :: seen) rest

def build (name : String) (fields : List Field) : Built Symbol :=
  if fields.isEmpty then .error (.emptySymbol name)
  else match firstRepeated? [] (fields.map (·.name)) with
    | some field => .error (.duplicateField name field)
    | none => .ok ⟨name, fields⟩

variable (s : Symbol)

def field? (name : String) : Option Field :=
  s.fields.find? (·.name == name)

/-- All variables of all fields, each before its children. -/
def allVariables : List Variable :=
  s.fields.flatMap (·.domain.preorder)

def variableIds : List VarId :=
  s.allVariables.map (·.id)

/-- The variable with an identity. -/
def find? (id : VarId) : Option Variable :=
  s.allVariables.find? (·.id == id)

/-- The relation, if it is one that needs the bits of its targets. -/
def bitRelation? (v : Variable) : Option Relation :=
  v.relation?.filter fun r => !r.rule.readsLengthsOnly

/-- The relations inside the targets of a relation that need bits themselves. -/
def waitsOf (r : Relation) : List VarId :=
  (r.targets.filterMap s.find?).flatMap fun target =>
    (target.preorder.filterMap bitRelation?).filterMap fun inner => if inner.id = r.id then none else some inner.id

/-- Each relation that needs bits, with those it waits for. -/
def waits : WaitGraph :=
  (s.allVariables.filterMap bitRelation?).map fun r => (r.id, s.waitsOf r)

/-- Whether no relation of the symbol waits for itself. -/
def isAcyclic : Bool :=
  (s.waits.cycle? s.waits.nodes).isNone

end Symbol

end WireGrammar
