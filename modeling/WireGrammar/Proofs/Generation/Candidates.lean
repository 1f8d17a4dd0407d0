import WireGrammar.Proofs.Generation.Settling
import WireGrammar.Proofs.Variable.Tree

/-!
# Lists of candidates

Generation in its general form tries several candidates: each child of a sequence extends all candidates that those
before it have left, each instance of a repetition all states so far, and the candidates of a choice come in a random
order. As every leaf and every relation has one value at most, there is never more than one candidate, and the lists are
what generation finds (`candidates_eq_generate`): nothing is drawn more often, and nothing in another order.

* `Generation.candidates`: all candidates for a variable.
* `Shuffle.LeavesShort`: what a shuffle does to a list that has only one order.
-/

namespace WireGrammar

/-- Puts candidates into a random order. -/
abbrev Shuffle (ρ : Type) : Type :=
  List Assignment → StateM ρ (List Assignment)

/-- Lists with one order stay as they are, and nothing is drawn for them. -/
def Shuffle.LeavesShort {ρ : Type} (shuffle : Shuffle ρ) : Prop :=
  ∀ as, as.length ≤ 1 → shuffle as = pure as

namespace Generation

variable {ρ : Type}

/-- All instances of a child that may come behind one state of a repetition. -/
def extendState (candidates : Assignment → Gen ρ (List Assignment)) (child : Variable) (delimiter : Option BitString)
    (isFirst : Bool) : Assignment × Content → Gen ρ (List (Assignment × Content))
  | (a, content) => do
    let content := if isFirst then content else delimiter.elim content content.pushBits
    let found ← candidates a
    return found.filterMap fun b => (b.content? child.id).map fun c => (b, content.append (b.freeze c))

/-- All states of a repetition after `k` more instances. -/
def extendStates (candidates : Assignment → Gen ρ (List Assignment)) (child : Variable)
    (delimiter : Option BitString) : Nat → Bool → List (Assignment × Content) → Gen ρ (List (Assignment × Content))
  | 0, _, states => return states
  | k + 1, isFirst, states => do
    let next ← states.mapM (extendState candidates child delimiter isFirst)
    extendStates candidates child delimiter k false next.flatten

variable [RandomSource ρ]

mutual

/-- All extensions of an assignment by a value for a variable, of those that one derivation of the variable has. -/
def candidates (shuffle : Shuffle ρ) (limits : GenerationLimits) : Variable → Assignment → Gen ρ (List Assignment)
  | .data id _ type scope, a => Option.toList <$> generateData limits id type scope a
  | .relation r, a => Option.toList <$> generateRelation r a
  | .choice id _ children, a => do
    let index ← pickChild id children.length
    let found ← candidatesNth shuffle limits children index a
    match children[index]? with
    | some child =>
      let composed ← found.mapM (compose id [child])
      fromSource (shuffle composed)
    | none => return []
  | .sequence id _ children, a => do
    let found ← candidatesAll shuffle limits children [a]
    found.mapM (compose id children)
  | .repetition id _ child count delimiter, a => do
    let k ← pickCount limits id count
    let states ← extendStates (candidates shuffle limits child) child delimiter k true [(a, .empty)]
    states.mapM fun (a, content) => settled (a.record id content)

/-- All extensions of an assignment by a value for the child with an index. -/
def candidatesNth (shuffle : Shuffle ρ) (limits : GenerationLimits) :
    List Variable → Nat → Assignment → Gen ρ (List Assignment)
  | [], _, _ => return []
  | child :: _, 0, a => candidates shuffle limits child a
  | _ :: rest, index + 1, a => candidatesNth shuffle limits rest index a

/-- All extensions of assignments by values for all children, one after the other. -/
def candidatesAll (shuffle : Shuffle ρ) (limits : GenerationLimits) :
    List Variable → List Assignment → Gen ρ (List Assignment)
  | [], as => return as
  | child :: rest, as => do
    let found ← as.mapM (candidates shuffle limits child)
    candidatesAll shuffle limits rest found.flatten

end

/-! ## One candidate at most -/

section Single

variable {α β : Type} {shuffle : Shuffle ρ} {limits : GenerationLimits}

omit [RandomSource ρ] in
/-- What is made of all results is what is made of the only one. -/
theorem bind_mapM_toList (g : Gen ρ (Option α)) (f : α → Gen ρ β) :
    (Option.toList <$> g) >>= List.mapM f =
      Option.toList <$> (g >>= fun x? => match x? with
        | some x => do return some (← f x)
        | none => return none) := by
  rw [bind_map_left, map_bind]
  refine bind_congr fun x? => ?_
  cases x? with
  | none => simp
  | some x => simp

theorem candidatesNth_eq {children : List Variable}
    (each : ∀ c ∈ children, ∀ a, candidates shuffle limits c a = Option.toList <$> generate limits c a) (index : Nat)
    (a : Assignment) :
    candidatesNth shuffle limits children index a = Option.toList <$> generateNth limits children index a := by
  induction children generalizing index with
  | nil =>
    rw [candidatesNth, generateNth]
    rfl
  | cons c rest ih =>
    cases index with
    | zero =>
      rw [candidatesNth, generateNth]
      exact each c List.mem_cons_self a
    | succ index =>
      rw [candidatesNth, generateNth]
      exact ih (fun d hd => each d (List.mem_cons_of_mem _ hd)) index

/-- Without an assignment to extend there is nothing to do for any child. -/
theorem candidatesAll_nil (children : List Variable) : candidatesAll shuffle limits children [] = pure [] := by
  induction children with
  | nil => rw [candidatesAll]
  | cons c rest ih =>
    rw [candidatesAll, List.mapM_nil, pure_bind]
    exact ih

theorem candidatesAll_eq {children : List Variable}
    (each : ∀ c ∈ children, ∀ a, candidates shuffle limits c a = Option.toList <$> generate limits c a)
    (a : Assignment) :
    candidatesAll shuffle limits children [a] = Option.toList <$> generateAll limits children a := by
  induction children generalizing a with
  | nil =>
    rw [candidatesAll, generateAll]
    rfl
  | cons c rest ih =>
    have more := ih fun d hd => each d (List.mem_cons_of_mem _ hd)
    rw [candidatesAll, generateAll, List.mapM_cons, List.mapM_nil, each c List.mem_cons_self, map_bind]
    simp only [bind_assoc, bind_map_left, pure_bind, List.flatten_cons, List.flatten_nil, List.append_nil]
    refine bind_congr fun x? => ?_
    cases x? with
    | none =>
      rw [Option.toList_none, candidatesAll_nil]
      rfl
    | some b => exact more b

omit [RandomSource ρ] in
theorem extendStates_nil (one : Assignment → Gen ρ (List Assignment)) (child : Variable)
    (delimiter : Option BitString) (k : Nat) (isFirst : Bool) :
    extendStates one child delimiter k isFirst [] = pure [] := by
  induction k generalizing isFirst with
  | zero => rw [extendStates]
  | succ k ih =>
    rw [extendStates, List.mapM_nil, pure_bind]
    exact ih false

omit [RandomSource ρ] in
/-- From one state on, the states of a repetition are the instances that are generated. -/
theorem extendStates_eq {several : Assignment → Gen ρ (List Assignment)}
    {one : Assignment → Gen ρ (Option Assignment)} (each : ∀ a, several a = Option.toList <$> one a)
    (child : Variable) (delimiter : Option BitString) (k : Nat) (isFirst : Bool) (a : Assignment) (content : Content) :
    extendStates several child delimiter k isFirst [(a, content)] =
      Option.toList <$> instances one child delimiter k isFirst a content := by
  induction k generalizing isFirst a content with
  | zero =>
    rw [extendStates, instances]
    rfl
  | succ k ih =>
    rw [extendStates, instances, List.mapM_cons, List.mapM_nil, extendState, each]
    simp only [map_bind, bind_assoc, bind_map_left, pure_bind, List.flatten_cons, List.flatten_nil, List.append_nil]
    refine bind_congr fun x? => ?_
    cases x? with
    | none =>
      rw [Option.toList_none, List.filterMap_nil, extendStates_nil]
      rfl
    | some b =>
      rw [Option.toList_some, List.filterMap_cons, List.filterMap_nil]
      dsimp only
      cases b.content? child.id with
      | none =>
        rw [Option.map_none, extendStates_nil]
        rfl
      | some own => exact ih false b _

omit [RandomSource ρ] in
/-- The only candidate that a choice may have is its only order. -/
theorem shuffled_toList (short : shuffle.LeavesShort) (g : Gen ρ (Option Assignment)) :
    (Option.toList <$> g) >>= (fun found => fromSource (shuffle found)) = Option.toList <$> g := by
  rw [bind_map_left, map_eq_pure_bind]
  refine bind_congr fun x? => ?_
  rw [short x?.toList (by cases x? <;> simp)]
  rfl

/-- The candidates for a variable are what generation finds, with the same draws in the same order. -/
theorem candidates_eq_generate (short : shuffle.LeavesShort) (v : Variable) (a : Assignment) :
    candidates shuffle limits v a = Option.toList <$> generate limits v a := by
  induction v using Variable.induct generalizing a with
  | data id name type scope => rw [candidates, generate]
  | relation r => rw [candidates, generate]
  | choice id name children ih =>
    rw [candidates, generate, map_bind]
    refine bind_congr fun index => ?_
    rw [candidatesNth_eq ih]
    cases children[index]? with
    | none =>
      rw [bind_map_left, map_bind]
      refine bind_congr fun x? => ?_
      cases x? <;> rfl
    | some child =>
      dsimp only
      rw [← bind_assoc, bind_mapM_toList, shuffled_toList short]
      refine congrArg (Functor.map Option.toList) (bind_congr fun x? => ?_)
      cases x? <;> rfl
  | sequence id name children ih =>
    rw [candidates, generate, candidatesAll_eq ih, bind_mapM_toList]
    refine congrArg (Functor.map Option.toList) (bind_congr fun x? => ?_)
    cases x? <;> rfl
  | repetition id name child count delimiter ih =>
    rw [candidates, generate, map_bind]
    refine bind_congr fun k => ?_
    rw [extendStates_eq ih, bind_mapM_toList]
    refine congrArg (Functor.map Option.toList) (bind_congr fun x? => ?_)
    cases x? <;> rfl

end Single

end Generation

end WireGrammar
