import WireGrammar.Choices
import WireGrammar.Relation.Evaluate

/-!
# Interpretations of data

The ways in which a variable can account for the bits at an offset of some data. Children of a choice are tried in
order, counts of a repetition in ascending order, and lengths of a leaf in descending order. A relation is compared
with what it computes as soon as that is known, and an interpretation in which one disagrees is given up.

* `Reading.interpret`: all interpretations of a variable, each an assignment that extends the given one.
-/

namespace WireGrammar

/-- Data to be interpreted, and how many repetitions are tried. -/
structure Reading where
  data : BitString
  maxRepeat : Nat

/-- The number of bits that an assignment accounts for with a variable. -/
def Assignment.consumed (a : Assignment) (v : Variable) : Nat :=
  (a.length? v.id).getD 0

/-- Records a node from its children, if all of them are recorded and no relation disagrees. -/
def Assignment.compose? (a : Assignment) (id : VarId) (children : List Variable) : Option Assignment := do
  let contents ← children.mapM fun child => a.content? child.id
  (a.record id (contents.foldl (fun content c => content.append (a.freeze c)) .empty)).verified?

namespace Reading

variable (reading : Reading)

/-- A reading of data that tries at most the given number of repetitions, and never more than any grammar may have. -/
def of (data : BitString) (maxRepeat : Nat) : Reading :=
  ⟨data, min maxRepeat RepeatCount.limit⟩

/-- The number of bits from an offset on. -/
def remaining (offset : Nat) : Nat :=
  reading.data.length - offset

/-- The bits of a length at an offset. -/
def bitsAt (offset length : Nat) : BitString :=
  reading.data.slice offset (offset + length)

/-- Interpretations of a data leaf: the value it replays, or every length that its type accepts. -/
def interpretData (id : VarId) (type : DataType) (scope : Scope) (a : Assignment) (offset : Nat) :
    Choices Assignment :=
  let known? := if scope.replays then type.constant?.or (a.known? id) else none
  match known?, scope with
  | some expected, _ =>
    if expected.matchesAt reading.data offset then .ofOption (a.record id (.ofBits expected)).verified? else .nil
  | none, .constant => .nil
  | none, _ =>
    (Choices.ofList (type.candidateLengths (reading.remaining offset))).filterMap fun length =>
      let bits := reading.bitsAt offset length
      if type.accepts bits then
        let a := if scope = .volatile then a else a.learn id bits
        (a.record id (.ofBits bits)).verified?
      else none

/-- Interpretations of a relation: its value or length if they are known, otherwise every plausible value. -/
def interpretRelation (r : Relation) (a : Assignment) (offset : Nat) : Choices Assignment :=
  match r.evaluate a with
  | .ok (.ready expected) =>
    if expected.matchesAt reading.data offset then .ofOption (a.setCell r.id (.known expected)).verified? else .nil
  | .ok (.length n) =>
    let bits := reading.bitsAt offset n
    if n ≤ reading.remaining offset ∧ r.isPlausible bits then .ofOption (a.setCell r.id (.known bits)).verified?
    else .nil
  | .ok .waiting =>
    (Choices.ofList (r.candidateLengths (reading.remaining offset))).filterMap fun length =>
      let bits := reading.bitsAt offset length
      if r.isPlausible bits then ((a.setCell r.id (.known bits)).awaitRelation r).verified? else none
  | .error _ => .nil

/-- The counts of a repetition whose shortest contents fit into the remaining bits, in ascending order. -/
def counts (child : Variable) (count : RepeatCount) (delimiter : Option BitString) (offset : Nat) : List Nat :=
  let least := max child.bounds.1 1
  let stop := min count.stop (max reading.maxRepeat (count.least + 1))
  (List.range' count.least (stop - count.least)).takeWhile fun k =>
    Variable.repeated k least (Variable.delimiterLength delimiter) ≤ reading.remaining offset

/-- Passes the delimiter that stands before an instance; there is none before the first. -/
def passDelimiter? (delimiter : Option BitString) (isFirst : Bool) (offset : Nat) (content : Content) :
    Option (Nat × Content) :=
  match delimiter, isFirst with
  | some d, false => if d.matchesAt reading.data offset then some (offset + d.length, content.pushBits d) else none
  | _, _ => some (offset, content)

/-- `k` more instances of a child that is interpreted by `one`, after those in `content`. No instance is empty. -/
def instances (one : Assignment → Nat → Choices Assignment) (child : Variable) (delimiter : Option BitString) :
    Nat → Bool → Assignment → Nat → Content → Choices (Assignment × Content)
  | 0, _, a, _, content => .ofOption (some (a, content))
  | k + 1, isFirst, a, offset, content =>
    match reading.passDelimiter? delimiter isFirst offset content with
    | none => .nil
    | some (start, content) =>
      (one a start).flatMap fun a =>
        let n := a.consumed child
        match n, a.content? child.id with
        | 0, _ | _, none => .nil
        | _, some c => instances one child delimiter k false a (start + n) (content.append (a.freeze c))

mutual

/-- All interpretations of a variable at an offset, each an extension of the assignment. -/
def interpret : Variable → Assignment → Nat → Choices Assignment
  | .data id _ type scope, a, offset => reading.interpretData id type scope a offset
  | .relation r, a, offset => reading.interpretRelation r a offset
  | .choice id _ children, a, offset => interpretAny id children a offset
  | .sequence id _ children, a, offset =>
    (interpretAll children a offset).filterMap fun (a, _) => a.compose? id children
  | .repetition id _ child count delimiter, a, offset =>
    (Choices.ofList (reading.counts child count delimiter offset)).flatMap fun k =>
      (reading.instances (interpret child) child delimiter k true a offset .empty).filterMap fun (a, content) =>
        (a.record id content).verified?

/-- The interpretations of each child in order, recorded as those of a choice. -/
def interpretAny (id : VarId) : List Variable → Assignment → Nat → Choices Assignment
  | [], _, _ => .nil
  | child :: rest, a, offset =>
    ((interpret child a offset).filterMap fun a => a.compose? id [child]).append fun _ =>
      interpretAny id rest a offset

/-- The interpretations of all children one after the other, each with the offset behind the last one. -/
def interpretAll : List Variable → Assignment → Nat → Choices (Assignment × Nat)
  | [], a, offset => .ofOption (some (a, offset))
  | child :: rest, a, offset =>
    (interpret child a offset).flatMap fun a => interpretAll rest a (offset + a.consumed child)

end

end Reading

end WireGrammar
