import Mathlib.Data.List.Basic
import WireGrammar.Proofs.Interpretation.Steps
import WireGrammar.Proofs.Relation.Stability

/-!
# The search with another check

Interpretation is a search that checks each record it makes by comparing the relations that wait. `Reading.searchWith`
is the same search, as a list, with any check in this place, and with the comparison in it the list is that of all
interpretations (`toList_interpret`, `toList_interpretAll`).
-/

namespace WireGrammar

open Assignment

/-- Records a node from its children, if all of them are recorded. -/
def Assignment.composed? (a : Assignment) (id : VarId) (children : List Variable) : Option Assignment := do
  let contents ← children.mapM fun child => a.content? child.id
  return a.record id (contents.foldl (fun content c => content.append (a.freeze c)) .empty)

namespace Reading

variable (reading : Reading)

/-- The records of a data leaf: the value it replays, or every length that its type accepts. -/
def leafRecords (id : VarId) (type : DataType) (scope : Scope) (a : Assignment) (offset : Nat) : List Assignment :=
  match a.replayed? id type scope with
  | some value => if value.matchesAt reading.data offset then [a.record id (.ofBits value)] else []
  | none =>
    if scope = .constant then []
    else (type.candidateLengths (reading.remaining offset)).filterMap fun length =>
      let bits := reading.bitsAt offset length
      if type.accepts bits then some ((a.learnFresh scope id bits).record id (.ofBits bits)) else none

/-- The records of a relation: its value or length if they are known, otherwise every plausible value. -/
def relationRecords (r : Relation) (a : Assignment) (offset : Nat) : List Assignment :=
  match r.evaluate a with
  | .ok (.ready expected) => if expected.matchesAt reading.data offset then [a.setCell r.id (.known expected)] else []
  | .ok (.length n) =>
    let bits := reading.bitsAt offset n
    if n ≤ reading.remaining offset ∧ r.isPlausible bits then [a.setCell r.id (.known bits)] else []
  | .ok .waiting =>
    (r.candidateLengths (reading.remaining offset)).filterMap fun length =>
      let bits := reading.bitsAt offset length
      if r.isPlausible bits then some ((a.setCell r.id (.known bits)).awaitRelation r) else none
  | .error _ => []

section Search

variable (check : Assignment → Option Assignment)

mutual

/-- The records of a variable at an offset, of which those below it have passed the check. -/
def recordsWith : Variable → Assignment → Nat → List Assignment
  | .data id _ type scope, a, offset => reading.leafRecords id type scope a offset
  | .relation r, a, offset => reading.relationRecords r a offset
  | .choice id _ children, a, offset => recordsOfAny id children a offset
  | .sequence id _ children, a, offset =>
    (searchAll children a offset).filterMap fun p => p.1.composed? id children
  | .repetition id _ child count delimiter, a, offset =>
    (reading.counts child count delimiter offset).flatMap fun k =>
      (reading.instances (fun a offset => .ofList ((recordsWith child a offset).filterMap check)) child delimiter k true
        a offset .empty).toList.map fun p => p.1.record id p.2

/-- The records of a choice, for each child in order. -/
def recordsOfAny (id : VarId) : List Variable → Assignment → Nat → List Assignment
  | [], _, _ => []
  | child :: rest, a, offset =>
    (((recordsWith child a offset).filterMap check).filterMap fun b => b.composed? id [child]) ++
      recordsOfAny id rest a offset

/-- All children one after the other, each with every check passed, and the offset behind the last one. -/
def searchAll : List Variable → Assignment → Nat → List (Assignment × Nat)
  | [], a, offset => [(a, offset)]
  | child :: rest, a, offset =>
    ((recordsWith child a offset).filterMap check).flatMap fun b => searchAll rest b (offset + b.consumed child)

end

/-- All ways to read a variable at an offset in which every record made passes a check. -/
def searchWith (v : Variable) (a : Assignment) (offset : Nat) : List Assignment :=
  (reading.recordsWith check v a offset).filterMap check

end Search

/-! ## The search for interpretations -/

section Interpret

variable {reading : Reading} {a b : Assignment} {offset : Nat}

theorem compose?_eq_bind (id : VarId) (children : List Variable) :
    a.compose? id children = (a.composed? id children).bind verified? := by
  unfold compose? composed?
  cases children.mapM fun child => a.content? child.id with
  | none => rfl
  | some contents => rfl

theorem toList_interpretData (id : VarId) (type : DataType) (scope : Scope) :
    (reading.interpretData id type scope a offset).toList =
      (reading.leafRecords id type scope a offset).filterMap verified? := by
  unfold leafRecords
  cases h : a.replayed? id type scope with
  | some value =>
    rw [toList_interpretData_replay h]
    dsimp only
    split
    · rw [List.filterMap_cons, List.filterMap_nil]
      cases (a.record id (.ofBits value)).verified? <;> rfl
    · rfl
  | none =>
    dsimp only
    by_cases hs : scope = .constant
    · subst hs
      rw [toList_interpretData_constant h, if_pos rfl]
      rfl
    · rw [toList_interpretData_fresh h hs, if_neg hs, List.filterMap_filterMap]
      refine List.filterMap_congr fun length _ => ?_
      split <;> rfl

theorem toList_interpretRelation (r : Relation) :
    (reading.interpretRelation r a offset).toList = (reading.relationRecords r a offset).filterMap verified? := by
  have single (x : Assignment) : (Choices.ofOption x.verified?).toList = [x].filterMap verified? := by
    rw [Choices.toList_ofOption, List.filterMap_cons, List.filterMap_nil]
    cases x.verified? <;> rfl
  unfold interpretRelation relationRecords
  cases r.evaluate a with
  | error e => rfl
  | ok outcome =>
    cases outcome with
    | ready expected =>
      dsimp only
      split
      · exact single _
      · rfl
    | length n =>
      dsimp only
      split
      · exact single _
      · rfl
    | waiting =>
      dsimp only
      rw [Choices.toList_filterMap, Choices.toList_ofList, List.filterMap_filterMap]
      refine List.filterMap_congr fun length _ => ?_
      split <;> rfl

/-- The instances of a repetition depend only on the lists of what each of them may be. -/
theorem toList_instances_congr {one one' : Assignment → Nat → Choices Assignment}
    (h : ∀ a offset, (one a offset).toList = (one' a offset).toList) (child : Variable) (delimiter : Option BitString)
    (k : Nat) (isFirst : Bool) (a : Assignment) (offset : Nat) (content : Content) :
    (reading.instances one child delimiter k isFirst a offset content).toList =
      (reading.instances one' child delimiter k isFirst a offset content).toList := by
  induction k generalizing isFirst a offset content with
  | zero => rw [toList_instances_zero, toList_instances_zero]
  | succ k ih =>
    rw [toList_instances_succ, toList_instances_succ]
    cases reading.passDelimiter? delimiter isFirst offset content with
    | none => rfl
    | some q =>
      dsimp only
      rw [h]
      refine List.flatMap_congr fun b _ => ?_
      unfold afterInstance
      split
      · rfl
      · rfl
      · exact ih _ _ _ _

/-- The search that compares the relations that wait finds the interpretations, in their order. -/
theorem toList_interpret (v : Variable) (a : Assignment) (offset : Nat) :
    (reading.interpret v a offset).toList = reading.searchWith verified? v a offset := by
  induction v using Variable.induct generalizing a offset with
  | data id name type scope => rw [interpret, searchWith, recordsWith, toList_interpretData]
  | relation r => rw [interpret, searchWith, recordsWith, toList_interpretRelation]
  | choice id name children ih =>
    rw [interpret, searchWith, recordsWith]
    induction children with
    | nil => rfl
    | cons child rest ihr =>
      rw [toList_interpretAny_cons, recordsOfAny, List.filterMap_append, List.filterMap_filterMap,
        ihr fun c hc => ih c (List.mem_cons_of_mem _ hc), ih child List.mem_cons_self, searchWith]
      simp only [compose?_eq_bind]
  | sequence id name children ih =>
    have all (a : Assignment) (offset : Nat) :
        (reading.interpretAll children a offset).toList = reading.searchAll verified? children a offset := by
      clear id name
      induction children generalizing a offset with
      | nil => rw [toList_interpretAll_nil, searchAll]
      | cons child rest ihr =>
        rw [toList_interpretAll_cons, searchAll, ih child List.mem_cons_self, searchWith]
        exact List.flatMap_congr fun b _ => ihr (fun c hc => ih c (List.mem_cons_of_mem _ hc)) _ _
    rw [interpret, searchWith, recordsWith, Choices.toList_filterMap, all, List.filterMap_filterMap]
    exact List.filterMap_congr fun p _ => compose?_eq_bind _ _
  | repetition id name child count delimiter ih =>
    rw [interpret, searchWith, recordsWith, Choices.toList_flatMap, Choices.toList_ofList, List.filterMap_flatMap]
    refine List.flatMap_congr fun k _ => ?_
    rw [Choices.toList_filterMap, List.filterMap_map]
    have one (a : Assignment) (offset : Nat) : (reading.interpret child a offset).toList =
        (Choices.ofList ((reading.recordsWith verified? child a offset).filterMap verified?)).toList := by
      rw [ih, Choices.toList_ofList, searchWith]
    rw [toList_instances_congr one]
    rfl

theorem toList_interpretAll (children : List Variable) (a : Assignment) (offset : Nat) :
    (reading.interpretAll children a offset).toList = reading.searchAll verified? children a offset := by
  induction children generalizing a offset with
  | nil => rw [toList_interpretAll_nil, searchAll]
  | cons child rest ih =>
    rw [toList_interpretAll_cons, searchAll, toList_interpret, searchWith]
    exact List.flatMap_congr fun b _ => ih _ _

end Interpret

end Reading

end WireGrammar
