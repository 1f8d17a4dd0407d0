import WireGrammar.Generation
import WireGrammar.Proofs.Variable.Tree

/-!
# What generation inherits from its steps

A property of computations that drawing and settling have, and that is passed on by putting computations together
(`Gen.Closed`), holds of generation of a variable if it also holds of what the variable and those below it ask of their
mutators (`Gen.Asks`, `generate_closed`). So a property that does not depend on assignments is proved for the steps
only, and one induction over variables serves all of them.
-/

namespace WireGrammar

open Generation Variable

variable {ρ : Type} [RandomSource ρ] {limits : GenerationLimits} {P : ∀ {α : Type}, Gen ρ α → Prop}

/-- A property of computations that the steps without mutators have, and that is passed on from one to the next. -/
structure Gen.Closed (P : ∀ {α : Type}, Gen ρ α → Prop) : Prop where
  pure : ∀ {α : Type} (x : α), P (Pure.pure x : Gen ρ α)
  bind : ∀ {α β : Type} {g : Gen ρ α} {f : α → Gen ρ β}, P g → (∀ x, P (f x)) → P (g >>= f)
  draw : ∀ {α : Type} (draw : StateM ρ α), P (fromSource draw)
  refuse : ∀ {α : Type} (name : String) (e : RelationError), P (throw (.relation name e) : Gen ρ α)
  settled : ∀ a, P (settled (ρ := ρ) a)

/-- Where failures of all kinds have the property, settling has it as well. -/
theorem Gen.Closed.of_throw (pure : ∀ {α : Type} (x : α), P (Pure.pure x : Gen ρ α))
    (bind : ∀ {α β : Type} {g : Gen ρ α} {f : α → Gen ρ β}, P g → (∀ x, P (f x)) → P (g >>= f))
    (draw : ∀ {α : Type} (draw : StateM ρ α), P (fromSource draw))
    (throw : ∀ {α : Type} (e : GenerationError), P (MonadExcept.throw e : Gen ρ α)) : Gen.Closed P where
  pure := pure
  bind := bind
  draw := draw
  refuse _ _ := throw _
  settled a := by
    refine bind (draw a.settle) fun p => ?_
    obtain ⟨result, b⟩ := p
    cases result with
    | error e => exact throw e
    | ok _ => exact pure b

/-- It holds of what a leaf asks of its mutator. -/
structure Gen.AsksLeaf (P : ∀ {α : Type}, Gen ρ α → Prop) (id : VarId) : Prop where
  mode : P (mode? (ρ := ρ) id)
  generate : ∀ type, P (fromLeaf? (ρ := ρ) id (·.generate type))
  mutate : ∀ value, P (fromLeaf? (ρ := ρ) id (·.mutate value))

/-- It holds of whatever a variable asks of mutators. -/
structure Gen.Asks (P : ∀ {α : Type}, Gen ρ α → Prop) (id : VarId) : Prop extends Gen.AsksLeaf P id where
  child : ∀ n, P (fromMutators? (ρ := ρ) (·.pickChild? id n))
  count : P (fromMutators? (ρ := ρ) (·.pickCount? id))

namespace Generation

section Leaves

variable (h : Gen.Closed P) {id : VarId}

include h

theorem leafValue_closed (type : DataType) (scope : Scope) (a : Assignment) :
    P (leafValue (ρ := ρ) limits id type scope a) := by
  unfold leafValue
  dsimp only
  split
  next => exact h.pure _
  next => exact h.pure _
  next => exact h.bind (h.draw _) fun _ => h.pure _
  next => exact h.bind (h.draw _) fun _ => h.pure _

theorem mutatedValue_closed (asks : Gen.AsksLeaf P id) (type : DataType) (scope : Scope) (a : Assignment) :
    P (mutatedValue (ρ := ρ) limits id type scope a) := by
  refine h.bind asks.mode fun mode => ?_
  split
  next => exact leafValue_closed h type scope a
  next =>
    refine h.bind (leafValue_closed h type scope a) fun x => ?_
    cases x with
    | none => exact h.pure _
    | some p => exact h.bind (asks.mutate p.1) fun _ => h.pure _
  next =>
    refine h.bind (asks.generate type) fun value => ?_
    cases value with
    | some value => exact h.pure _
    | none => exact h.bind (h.draw _) fun _ => h.pure _

theorem generateData_closed (asks : Gen.AsksLeaf P id) (type : DataType) (scope : Scope) (a : Assignment) :
    P (generateData (ρ := ρ) limits id type scope a) := by
  refine h.bind (mutatedValue_closed h asks type scope a) fun x => ?_
  cases x with
  | none => exact h.pure none
  | some p => exact h.bind (h.settled _) fun _ => h.pure _

theorem generateRelation_closed {r : Relation} (asks : Gen.AsksLeaf P r.id) (a : Assignment) :
    P (generateRelation (ρ := ρ) r a) := by
  have last (a : Assignment) : P (do return some (← settled a) : Gen ρ (Option Assignment)) :=
    h.bind (h.settled a) fun _ => h.pure _
  refine h.bind (asks.generate r.type) fun value => ?_
  cases value with
  | some bits => exact last _
  | none =>
    dsimp only
    split
    next => exact h.refuse _ _
    next => exact last _
    next => exact h.bind (h.draw _) fun bits => last _
    next => exact last _

end Leaves

section Nodes

variable (h : Gen.Closed P) {id : VarId}

include h

theorem pickChild_closed {children : Nat} (child : P (fromMutators? (ρ := ρ) (·.pickChild? id children))) :
    P (pickChild (ρ := ρ) id children) := by
  refine h.bind child fun index => ?_
  cases index with
  | some index => exact h.pure index
  | none => exact h.draw _

theorem pickCount_closed (count : RepeatCount) (asked : P (fromMutators? (ρ := ρ) (·.pickCount? id))) :
    P (pickCount (ρ := ρ) limits id count) := by
  refine h.bind asked fun n => ?_
  cases n with
  | some n => exact h.pure n
  | none => exact h.draw _

theorem instances_closed {one : Assignment → Gen ρ (Option Assignment)} (each : ∀ a, P (one a))
    (child : Variable) (delimiter : Option BitString) (k : Nat) (isFirst : Bool) (a : Assignment) (content : Content) :
    P (instances one child delimiter k isFirst a content) := by
  induction k generalizing isFirst a content with
  | zero => exact h.pure _
  | succ k ih =>
    rw [instances]
    refine h.bind (each a) fun x => ?_
    cases x with
    | none => exact h.pure none
    | some b =>
      dsimp only
      split
      next => exact h.pure none
      next => exact ih _ _ _

theorem generateAll_closed {children : List Variable} (each : ∀ c ∈ children, ∀ a, P (generate (ρ := ρ) limits c a))
    (a : Assignment) : P (generateAll (ρ := ρ) limits children a) := by
  induction children generalizing a with
  | nil => exact h.pure _
  | cons c rest ih =>
    rw [generateAll]
    refine h.bind (each c List.mem_cons_self a) fun x => ?_
    cases x with
    | none => exact h.pure none
    | some b => exact ih (fun d hd => each d (List.mem_cons_of_mem _ hd)) b

theorem generateNth_closed {children : List Variable} (each : ∀ c ∈ children, ∀ a, P (generate (ρ := ρ) limits c a))
    (index : Nat) (a : Assignment) : P (generateNth (ρ := ρ) limits children index a) := by
  induction children generalizing index with
  | nil => exact h.pure _
  | cons c rest ih =>
    cases index with
    | zero => exact each c List.mem_cons_self a
    | succ index => exact ih (fun d hd => each d (List.mem_cons_of_mem _ hd)) index

/-- Generation of a variable has a property that its steps have. -/
theorem generate_closed (v : Variable) (asks : ∀ w ∈ v.preorder, Gen.Asks P w.id) (a : Assignment) :
    P (generate (ρ := ρ) limits v a) := by
  induction v using Variable.induct generalizing a with
  | data id name type scope =>
    exact generateData_closed h (asks _ (self_mem_preorder (.data id name type scope))).toAsksLeaf type scope a
  | relation r => exact generateRelation_closed h (asks _ (self_mem_preorder (.relation r))).toAsksLeaf a
  | choice id name children ih =>
    have each : ∀ c ∈ children, ∀ a, P (generate (ρ := ρ) limits c a) := fun c hc =>
      ih c hc fun w hw => asks w (List.mem_cons_of_mem _ (preorder_subset_of_mem hc hw))
    have own := asks _ (self_mem_preorder (.choice id name children))
    rw [generate]
    refine h.bind (pickChild_closed h (own.child _)) fun index => h.bind (generateNth_closed h each index a) fun x => ?_
    split
    next => exact h.bind (h.settled _) fun _ => h.pure _
    next => exact h.pure none
  | sequence id name children ih =>
    have each : ∀ c ∈ children, ∀ a, P (generate (ρ := ρ) limits c a) := fun c hc =>
      ih c hc fun w hw => asks w (List.mem_cons_of_mem _ (preorder_subset_of_mem hc hw))
    rw [generate]
    refine h.bind (generateAll_closed h each a) fun x => ?_
    cases x with
    | none => exact h.pure none
    | some b => exact h.bind (h.settled _) fun _ => h.pure _
  | repetition id name child count delimiter ih =>
    have each := ih fun w hw => asks w (List.mem_cons_of_mem _ hw)
    have own := asks _ (self_mem_preorder (.repetition id name child count delimiter))
    rw [generate]
    refine h.bind (pickCount_closed h count own.count) fun k => ?_
    refine h.bind (instances_closed h each child delimiter k true a .empty) fun x => ?_
    cases x with
    | none => exact h.pure none
    | some p => exact h.bind (h.settled _) fun _ => h.pure _

end Nodes

end Generation

end WireGrammar
